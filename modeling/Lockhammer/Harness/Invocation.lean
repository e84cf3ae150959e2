import Lockhammer.Harness.CpufreqScaling
import Lockhammer.Harness.Experiments
import Lockhammer.Harness.PinningOrder
import Lockhammer.Harness.Placement

/-!
# From the command line to the records (lockhammer.c)

`main` around its loops: it refuses a command line without durations or with other than one
run limit, places the threads of the pinorders one after the other and stops if the frequencies of
their CPUs may change. What follows holds of the records of every command line that it accepts.
-/
namespace Lockhammer.Invocation
open Args Cpufreq
open Experiments hiding TestArgs

section Main

/-- The command line. A `--run-limit-seconds` other than 0 is given by the ticks that it comes to,
and `--cpuorder-file` by its numbers. -/
structure CommandLine where
  flags : List Flag
  iterations : ℕ
  numAcquires : BitVec 64
  runLimitSeconds : Option (BitVec 64)
  runLimitTicks : BitVec 64
  runLimitInnerLoopIters : BitVec 64
  timeoutUsec : BitVec 64
  ignoreUnknownScalingGovernor : Bool
  cpuorder : List (BitVec 64)

/-- What `main` reads of the machine. -/
structure Machine where
  sysinfo : SystemInfo
  availCores : List ℕ
  files : Files

/-- Why there are no experiments. -/
inductive MainError
  | args (e : ArgError)
  | noCriticalTime
  | noParallelTime
  | secondsAndTicks
  | acquiresAndLimit
  | noLimit
  | place (e : PlaceError)
  | boost
  | noPinorders
  | governors
  deriving DecidableEq

def MainError.message : MainError → String
  | .args e => e.message
  | .noCriticalTime => "ERROR: no critical time is specified (use -c flag)\n"
  | .noParallelTime => "ERROR: no parallel time is specified (use -p flag)\n"
  | .secondsAndTicks => "ERROR:  can't specify both --run-limit-seconds and --run-limit-ticks\n"
  | .acquiresAndLimit =>
    "ERROR:  can't specify both --num-acquires and one of --run-limit-seconds or --run-limit-ticks\n"
  | .noLimit => "ERROR:  no -a/--num-acquires, -T/--run-limit-seconds, or -O/--run-limit-ticks flags were used, " ++
      "or had a value of 0\n"
  | .place e => e.message
  | .boost => "ERROR: boost is enabled, but --ignore-unknown-scaling-governor / -Y was NOT set.  Aborting!\n"
  | .noPinorders => "ERROR: no pinorders have been defined! This should never happen!\n"
  | .governors => "ERROR: At least one pinorder's CPU frequency scaling setting has issues, but " ++
      "--ignore-unknown-scaling-governor / -Y was NOT set.  Aborting!\n"

def checkDurations (args : Args.TestArgs) : Except MainError Unit :=
  if args.crits = [] then .error .noCriticalTime
  else if args.pars = [] then .error .noParallelTime
  else .ok ()

/-- A time limit was given. -/
def CommandLine.timed (cl : CommandLine) : Bool := cl.runLimitSeconds.isSome || cl.runLimitTicks ≠ 0

def checkRunLimits (cl : CommandLine) : Except MainError Unit :=
  if cl.runLimitSeconds.isSome && cl.runLimitTicks ≠ 0 then .error .secondsAndTicks
  else if cl.timed && cl.numAcquires ≠ 0 then .error .acquiresAndLimit
  else if cl.numAcquires = 0 && !cl.timed then .error .noLimit
  else .ok ()

/-- One round of the loop that generates the missing CPU lists. -/
def placePinorder (m : Machine) (order : CpuOrder) (po : Pinorder) : Except MainError Pinorder := do
  let po ← (mainPinorder m.sysinfo po).mapError .args
  let cpus ← (mainCpuList m.sysinfo m.availCores order po).cpuList.mapError .place
  return { po with cpuList := some cpus }

/-- The boost, the first pinorder and the governors, which are asked for whatever `ignore` is. -/
def checkCpufreq (files : Files) (ignore : Bool) (pinorders : List Pinorder) : Except MainError Unit :=
  if !checkCpufreqBoostIsOK files ignore && !ignore then .error .boost
  else if pinorders.head?.all (·.numThreads = 0) then .error .noPinorders
  else if !pinorders.all (checkIfCpufreqGovernorsOfPinorderAreOk files ignore) && !ignore then .error .governors
  else .ok ()

/-- `main` up to the experiments. -/
def prepare (m : Machine) (cl : CommandLine) : Except MainError Experiments.TestArgs := do
  let args ← (parseArgs m.sysinfo cl.flags).mapError .args
  checkDurations args
  checkRunLimits cl
  let order ← (readNumbers cl.cpuorder .empty).mapError .place
  let pinorders ← (if args.pinorders = [] then [defaultPinorder m.sysinfo] else args.pinorders).mapM
    (placePinorder m order)
  checkCpufreq m.files cl.ignoreUnknownScalingGovernor pinorders
  return {
    pinorders := pinorders
    crits := args.crits
    pars := args.pars
    iterations := cl.iterations
    numAcquires := cl.numAcquires
    runLimitTicks := cl.runLimitSeconds.getD cl.runLimitTicks
    runLimitInnerLoopIters := cl.runLimitInnerLoopIters
    timeoutUsec := cl.timeoutUsec }

def main (m : Machine) (cl : CommandLine) (work : Work) : Except MainError Harness :=
  (prepare m cl).map fun args => processPinorders work args start

end Main

section Monad
variable {ε ε' α β : Type}

lemma bind_ok {x : Except ε α} {f : α → Except ε β} {b : β} (h : x >>= f = .ok b) : ∃ a, x = .ok a ∧ f a = .ok b := by
  cases x with
  | error e => simp [bind, Except.bind] at h
  | ok a => exact ⟨a, rfl, h⟩

lemma mapError_ok {x : Except ε α} {g : ε → ε'} {a : α} (h : x.mapError g = .ok a) : x = .ok a := by
  cases x with
  | error e => simp [Except.mapError] at h
  | ok a' => simpa [Except.mapError] using h

/-- Every element was accepted. -/
lemma mapM_ok {f : α → Except ε β} {l : List α} {l' : List β} (h : l.mapM f = .ok l') :
    List.Forall₂ (fun a b => f a = .ok b) l l' := by
  induction l generalizing l' with
  | nil =>
    obtain rfl : [] = l' := by simpa [pure, Except.pure] using h
    exact .nil
  | cons a l ih =>
    rw [List.mapM_cons] at h
    obtain ⟨b, hb, h⟩ := bind_ok h
    obtain ⟨bs, hbs, h⟩ := bind_ok h
    obtain rfl : b :: bs = l' := by simpa [pure, Except.pure] using h
    exact .cons hb (ih hbs)

end Monad

section Accepted
variable {m : Machine} {cl : CommandLine} {args : Experiments.TestArgs} {order : CpuOrder} {po po' : Pinorder}
  {cpus : List (BitVec 32)}

/-- The flags of one kind. -/
def CommandLine.on (cl : CommandLine) (target : Target) : List Flag := cl.flags.filter (·.opt.target = target)

/-- Where the pinorder of an experiment comes from. -/
structure Placed (m : Machine) (cl : CommandLine) (f? : Option Flag) (po : Pinorder) : Prop where
  placed : ∃ order asked, readNumbers cl.cpuorder .empty = .ok order ∧ placePinorder m order asked = .ok po ∧
    ((f? = none ∧ asked = defaultPinorder m.sysinfo) ∨ ∃ f, f? = some f ∧ f.pinorder m.sysinfo = .ok asked)

/-- What `main` has seen to when it gets to the experiments. -/
structure Admitted (m : Machine) (cl : CommandLine) (args : Experiments.TestArgs) : Prop where
  crits : List.Forall₂ (fun f d => f.duration = .ok d) (cl.on .crits) args.crits
  pars : List.Forall₂ (fun f d => f.duration = .ok d) (cl.on .pars) args.pars
  pinorders : args.pinorders.length = max 1 (cl.on .pinorders).length
  placed : ∀ (ip : ℕ) (po : Pinorder), args.pinorders[ip]? = some po → Placed m cl (cl.on .pinorders)[ip]? po
  durations : args.crits ≠ [] ∧ args.pars ≠ []
  limits : args.iterations = cl.iterations ∧ args.numAcquires = cl.numAcquires ∧
    args.runLimitTicks = cl.runLimitSeconds.getD cl.runLimitTicks ∧ (cl.timed = true ↔ cl.numAcquires = 0) ∧
    args.timeoutUsec = cl.timeoutUsec
  steady : cl.ignoreUnknownScalingGovernor = false → getBoostValue m.files = 0 ∧
    ∀ po ∈ args.pinorders, checkIfCpufreqGovernorsOfPinorderAreOk m.files false po = true

lemma checkRunLimits_ok (h : checkRunLimits cl = .ok ()) : cl.timed = true ↔ cl.numAcquires = 0 := by
  unfold checkRunLimits at h
  split at h
  · simp at h
  · split at h
    · simp at h
    · next hboth =>
      split at h
      · simp at h
      · next hnone =>
        cases ht : cl.timed with
        | false => simpa [ht] using hnone
        | true => simpa [ht] using hboth

lemma checkCpufreq_ok {files : Files} {pinorders : List Pinorder} (h : checkCpufreq files false pinorders = .ok ()) :
    getBoostValue files = 0 ∧ ∀ po ∈ pinorders, checkIfCpufreqGovernorsOfPinorderAreOk files false po = true := by
  unfold checkCpufreq at h
  split at h
  · simp at h
  · next hboost =>
    split at h
    · simp at h
    · split at h
      · simp at h
      · next hgovernors => simpa [checkCpufreqBoostIsOK] using And.intro hboost hgovernors

/-- A pinorder is asked for by its flag, or it is the only one. -/
lemma asked_source {pos : List Pinorder} {ip : ℕ} {asked : Pinorder}
    (hpos : List.Forall₂ (fun f po => f.pinorder m.sysinfo = .ok po) (cl.on .pinorders) pos)
    (hasked : (if pos = [] then [defaultPinorder m.sysinfo] else pos)[ip]? = some asked) :
    ((cl.on .pinorders)[ip]? = none ∧ asked = defaultPinorder m.sysinfo) ∨
      ∃ f, (cl.on .pinorders)[ip]? = some f ∧ f.pinorder m.sysinfo = .ok asked := by
  split at hasked
  · next hnil =>
    subst hnil
    left
    rw [List.forall₂_nil_right_iff.mp hpos]
    exact ⟨rfl, by simpa using List.mem_of_getElem? hasked⟩
  · exact Or.inr (forall₂_getElem? hpos hasked)

lemma prepare_admitted (h : prepare m cl = .ok args) : Admitted m cl args := by
  obtain ⟨parsed, hparsed, h⟩ := bind_ok h
  obtain ⟨⟨⟩, hdurations, h⟩ := bind_ok h
  obtain ⟨⟨⟩, hlimits, h⟩ := bind_ok h
  obtain ⟨order, horder, h⟩ := bind_ok h
  obtain ⟨pinorders, hpinorders, h⟩ := bind_ok h
  obtain ⟨⟨⟩, hcpufreq, h⟩ := bind_ok h
  obtain rfl := (Except.ok.inj h).symm
  have hentries := parseArgs_entries (mapError_ok hparsed)
  have hplaced := mapM_ok hpinorders
  refine ⟨hentries.crits, hentries.pars, ?_, fun ip po hpo => ?_, ?_, ⟨rfl, rfl, rfl, checkRunLimits_ok hlimits, rfl⟩, ?_⟩
  · rw [← hplaced.length_eq]
    have hlen := hentries.pinorders.length_eq
    change (cl.on .pinorders).length = _ at hlen
    rw [hlen]
    split
    · next hnil => simp [hnil]
    · next hne => exact (max_eq_right (List.length_pos_iff.mpr hne)).symm
  · obtain ⟨asked, hasked, hpo'⟩ := forall₂_getElem? hplaced hpo
    exact ⟨order, asked, mapError_ok horder, hpo', asked_source hentries.pinorders hasked⟩
  · unfold checkDurations at hdurations
    split at hdurations
    · simp at hdurations
    · next hcrits =>
      split at hdurations
      · simp at hdurations
      · next hpars => exact ⟨hcrits, hpars⟩
  · intro hignore
    rw [hignore] at hcpufreq
    exact checkCpufreq_ok hcpufreq

lemma orderCpus_length {avail : List ℕ} {count : ℕ} (rest : List (BitVec 64)) (threads j idx : ℕ)
    (h : (orderCpus avail count rest threads j idx).cpuList = .ok cpus) : cpus.length = threads := by
  induction rest generalizing threads j idx cpus with
  | nil =>
    cases threads with
    | zero =>
      obtain rfl : [] = cpus := by simpa [orderCpus] using h
      rfl
    | succ threads => simp [orderCpus] at h
  | cons entry rest ih =>
    cases threads with
    | zero =>
      obtain rfl : [] = cpus := by simpa [orderCpus] using h
      rfl
    | succ threads =>
      rw [orderCpus] at h
      split at h
      · cases hr : (orderCpus avail count rest threads (j + 1) (idx + 1)).cpuList with
        | error e => simp [hr, Except.map] at h
        | ok tail =>
          obtain rfl : entry.setWidth 32 :: tail = cpus := by simpa [hr, Except.map] using h
          rw [List.length_cons, ih _ _ _ hr]
      · split at h
        · simp at h
        · exact ih _ _ _ h

/-- Every thread has got its CPU. -/
lemma mainCpuList_length (h : (mainCpuList m.sysinfo m.availCores order po).cpuList = .ok cpus) :
    po.cpuList = some cpus ∨ po.cpuList = none ∧ cpus.length = po.numThreads := by
  unfold mainCpuList at h
  split at h
  · next cpuList hlist =>
    obtain rfl : cpuList = cpus := by simpa using h
    exact Or.inl hlist
  · next hnone =>
    refine Or.inr ⟨hnone, ?_⟩
    split at h
    · have hlen := (mapM_ok h).length_eq
      rw [List.length_range] at hlen
      exact hlen.symm
    · split at h
      · exact orderCpus_length _ _ _ _ h
      · have hall := numberedCpus_all m.availCores (toInt_lt_of_ofNat m.sysinfo.numCores) po.numThreads
        change numberedCpus _ _ _ _ _ = _ at h
        rw [hall] at h
        split at h
        · next henough =>
          obtain rfl := (Except.ok.inj h).symm
          rw [List.length_map, List.length_take, min_eq_left henough]
        · simp at h

lemma placePinorder_ok (h : placePinorder m order po = .ok po') : ∃ cpus, po'.cpuList = some cpus ∧
    po'.numThreads ≤ maxThreads ∧ (mainCpuList m.sysinfo m.availCores order
      { po with numThreads := po'.numThreads }).cpuList = .ok cpus ∧
    (po.cpuList ≠ none → po'.numThreads = po.numThreads) := by
  obtain ⟨po₁, hpo₁, h⟩ := bind_ok h
  obtain ⟨cpus, hcpus, h⟩ := bind_ok h
  obtain rfl := (Except.ok.inj h).symm
  have hmain := mapError_ok hpo₁
  unfold mainPinorder at hmain
  split at hmain
  · simp at hmain
  · next hassert =>
    generalize hthreads : (if po.numThreads = 0 then m.sysinfo.numAvailCores else po.numThreads) = threads at hmain
    dsimp only at hmain
    split at hmain
    · simp at hmain
    · next hmax =>
      obtain rfl := (Except.ok.inj hmain).symm
      refine ⟨cpus, rfl, not_lt.mp hmax, mapError_ok hcpus, fun hlist => ?_⟩
      rw [if_neg fun h0 => hassert ⟨h0, hlist⟩] at hthreads
      exact hthreads.symm

/-- Every pinorder that is run has a CPU for each of its threads. -/
lemma Placed.runnable {f? : Option Flag} (h : Placed m cl f? po) :
    po.numThreads ≤ maxThreads ∧ ∃ cpus, po.cpuList = some cpus ∧ cpus.length = po.numThreads := by
  obtain ⟨order, asked, -, hpo, hasked⟩ := h
  obtain ⟨cpus, hcpus, hmax, hlist, hthreads⟩ := placePinorder_ok hpo
  refine ⟨hmax, cpus, hcpus, ?_⟩
  obtain hsome | ⟨-, hlen⟩ := mainCpuList_length hlist
  · have hsome : asked.cpuList = some cpus := hsome
    rw [hthreads (by simp [hsome])]
    obtain ⟨-, rfl⟩ | ⟨⟨opt, s⟩, -, hflag⟩ := hasked
    · simp [defaultPinorder] at hsome
    · cases opt with
      | numThreads =>
        rw [(parseThreads_ok hflag).2] at hsome
        simp at hsome
      | _ =>
        obtain ⟨sp, -, rfl⟩ := parsePinningOrder_accepts hflag
        obtain rfl : sp.cpus = cpus := by simpa using hsome
        rfl
  · exact hlen

lemma Admitted.runnable (h : Admitted m cl args) : Runnable args := by
  intro po hpo
  obtain ⟨ip, hip⟩ := List.mem_iff_getElem?.mp hpo
  exact (h.placed ip po hip).runnable

end Accepted

section Pinned
variable {sys : SystemInfo} {sp sp' : Specified} {cpu : BitVec 32} {cpus : List (BitVec 32)}

/-- `CPU_SET` has an effect. -/
def inCpuSet (cpu : BitVec 32) : Bool := cpuIndex cpu < cpuSetsize

/-- No CPU that a thread can be pinned to occurs twice. -/
def Distinct (cpus : List (BitVec 32)) : Prop := (cpus.filter inCpuSet).Nodup

lemma Distinct.index_inj {t t' : ℕ} (h : Distinct cpus) (hset : inCpuSet cpu = true) (ht : cpus[t]? = some cpu)
    (ht' : cpus[t']? = some cpu) : t = t' := by
  obtain ⟨hlt, rfl⟩ := List.getElem?_eq_some_iff.mp ht
  obtain ⟨hlt', heq⟩ := List.getElem?_eq_some_iff.mp ht'
  have hpair := List.pairwise_iff_getElem.mp (List.pairwise_filter.mp h)
  rcases lt_trichotomy t t' with hbelow | hsame | habove
  · exact absurd heq.symm (hpair t t' hlt hlt' hbelow hset (heq ▸ hset))
  · exact hsame
  · exact absurd heq (hpair t' t hlt' hlt habove (heq ▸ hset) hset)

/-- The set holds the CPUs written so far, as far as it can. -/
structure Marked (sp : Specified) : Prop where
  distinct : Distinct sp.cpus
  isset : ∀ cpu, cpuIsset cpu sp.cores = true ↔ cpu ∈ sp.cpus ∧ inCpuSet cpu = true

lemma marked_empty : Marked ⟨[], []⟩ where
  distinct := List.nodup_nil
  isset := by simp [cpuIsset]

lemma Marked.specify (h : Marked sp) (hok : specify cpu sp = .ok sp') : Marked sp' := by
  obtain ⟨hset, rfl⟩ := specify_ok hok
  refine ⟨?_, fun c => ?_⟩
  · change ((sp.cpus ++ [cpu]).filter inCpuSet).Nodup
    rw [List.filter_append]
    refine h.distinct.append (List.nodup_singleton cpu |>.filter _) ?_
    intro c hc hc'
    obtain ⟨hmem, hin⟩ := List.mem_filter.mp hc
    obtain rfl := List.mem_singleton.mp (List.mem_filter.mp hc').1
    rw [(h.isset c).mpr ⟨hmem, hin⟩] at hset
    simp at hset
  · rw [cpuIsset_cpuSet, h.isset, List.mem_append, List.mem_singleton, inCpuSet, decide_eq_true_iff]
    tauto

lemma Marked.expand {more : BitVec 32 → Bool} {step : BitVec 64} {room : ℕ} (h : Marked sp)
    (hok : expand more step room cpu sp = .ok sp') : Marked sp' := by
  induction room generalizing cpu sp with
  | zero =>
    unfold Args.expand at hok
    split at hok
    · split at hok <;> simp_all
    · obtain rfl := Except.ok.inj hok
      exact h
  | succ room ih =>
    unfold Args.expand at hok
    split at hok
    · obtain ⟨-, herr⟩ | ⟨-, hspec⟩ := specify_cases cpu sp
      · simp [herr] at hok
      · have hnext := h.specify hspec
        simp only [hspec] at hok
        exact ih hnext hok
    · obtain rfl := Except.ok.inj hok
      exact h

lemma Marked.parseTokens {tokens : List (List Char)} (h : Marked sp) (hok : parseTokens sys tokens sp = .ok sp') :
    Marked sp' := by
  induction tokens generalizing sp with
  | nil =>
    obtain rfl := Except.ok.inj hok
    exact h
  | cons csv tokens ih =>
    unfold Args.parseTokens at hok
    split at hok
    · simp at hok
    · next next hnext =>
      refine ih ?_ hok
      cases hr : cpuRange csv with
      | none => simp [parseCsv_of_none hr] at hnext
      | some r =>
        rw [parseCsv_of_range hr] at hnext
        split at hnext
        · simp at hnext
        · split at hnext
          · simp at hnext
          · exact h.expand hnext

/-- The CPUs of an accepted `-o` list. -/
lemma parsePinningOrder_distinct {optarg : List Char} {po : Pinorder} (h : parsePinningOrder sys optarg = .ok po)
    (hcpus : po.cpuList = some cpus) : Distinct cpus := by
  obtain ⟨sp, hsp, rfl⟩ := parsePinningOrder_accepts h
  obtain rfl : sp.cpus = cpus := by simpa using hcpus
  exact (marked_empty.parseTokens hsp).distinct

/-- The CPUs of a pinorder without an interleave when there is no file. -/
lemma numberedCpus_distinct {avail : List ℕ} {numCores : ℤ} (hint : numCores < 2 ^ 31) {threads : ℕ}
    (h : numberedCpus avail numCores threads 0 (-1) = .ok cpus) :
    Distinct cpus ∧ ∀ cpu ∈ cpus, cpuIndex cpu ∈ avail := by
  rw [numberedCpus_all avail hint] at h
  split at h
  · obtain rfl := (Except.ok.inj h).symm
    have hmem : ∀ k ∈ ((List.range numCores.toNat).filter (available avail)).take threads,
        available avail k = true ∧ k < 2 ^ 31 := by
      intro k hk
      obtain ⟨hlt, havail⟩ := List.mem_filter.mp (List.mem_of_mem_take hk)
      have hlt := List.mem_range.mp hlt
      exact ⟨havail, by omega⟩
    constructor
    · refine List.Nodup.filter _ ((List.nodup_map_iff_inj_on ?_).mpr ?_)
      · exact (List.nodup_range.filter _).sublist (List.take_sublist _ _)
      · intro k hk l hl hkl
        rw [← cpuIndex_ofInt (hmem k hk).2, ← cpuIndex_ofInt (hmem l hl).2]
        exact congrArg cpuIndex hkl
    · intro cpu hcpu
      obtain ⟨k, hk, rfl⟩ := List.mem_map.mp hcpu
      rw [cpuIndex_ofInt (hmem k hk).2]
      have havail := (hmem k hk).1
      rw [available, Bool.and_eq_true, decide_eq_true_iff, decide_eq_true_iff] at havail
      exact havail.2
  · simp at h

end Pinned

section Records
variable {m : Machine} {cl : CommandLine} {args : Experiments.TestArgs} {work : Work} {h : Harness} {k : ℕ}
  {r : ReportData}

lemma main_ok (hmain : main m cl work = .ok h) : ∃ args, Admitted m cl args ∧ h = processPinorders work args start := by
  unfold main at hmain
  cases hprepare : prepare m cl with
  | error e => simp [hprepare, Except.map] at hmain
  | ok args => exact ⟨args, prepare_admitted hprepare, by simpa [hprepare, Except.map] using hmain.symm⟩

/-- A record is about the threads of a pinorder that `main` has placed. -/
lemma Admitted.record_source (ha : Admitted m cl args) (hk : k < (processPinorders work args start).numReports)
    (hr : (processPinorders work args start).reportSummary[k]? = some (some r)) :
    ∃ po cpus, po ∈ args.pinorders ∧ (∃ f?, (∀ f ∈ f?, f ∈ cl.on .pinorders) ∧ Placed m cl f? po) ∧
      po.cpuList = some cpus ∧ cpus.length = po.numThreads ∧
      ∀ t, GetsPinned work cl.timeoutUsec r.measNumber t →
        r.perThreadStats[t]?.map (·.cpuNum) = cpus[t]?.map (·.signExtend 64) := by
  obtain ⟨entries, htable, -, -, -, hmade⟩ := processPinorders_recorded work fun po hpo => (ha.runnable po hpo).1
  rw [htable.count.2] at hk
  rw [htable.stored k hk, Option.some.injEq] at hr
  obtain ⟨before, ip, po, crit, par, _, _, _, hpo, rfl⟩ := hmade r (List.mem_of_getElem? hr)
  obtain ⟨-, cpus, hcpus, hlen⟩ := ha.runnable po hpo
  obtain ⟨ip', hip'⟩ := List.mem_iff_getElem?.mp hpo
  obtain ⟨-, -, -, -, htimeout⟩ := ha.limits
  refine ⟨po, cpus, hpo, ⟨_, fun f hf => List.mem_of_getElem? hf, ha.placed ip' po hip'⟩, hcpus, hlen, fun t ht => ?_⟩
  rw [← htimeout] at ht
  exact recordBehind_cpu hcpus hlen ht

/-- The CPU of a worker that got pinned. -/
lemma stat_cpu {cpus : List (BitVec 32)} {t : ℕ} {st : PerThreadStats} (hst : r.perThreadStats[t]? = some st)
    (hcpu : r.perThreadStats[t]?.map (·.cpuNum) = cpus[t]?.map (·.signExtend 64)) :
    ∃ cpu, cpus[t]? = some cpu ∧ st.cpuNum = cpu.signExtend 64 := by
  rw [hst, Option.map_some] at hcpu
  obtain ⟨cpu, hget, heq⟩ := Option.map_eq_some_iff.mp hcpu.symm
  exact ⟨cpu, hget, heq.symm⟩

/-- The place of a measurement among all of them. -/
def CommandLine.index (cl : CommandLine) (ip ic ia i : ℕ) : ℕ :=
  ((ip * (cl.on .crits).length + ic) * (cl.on .pars).length + ia) * cl.iterations + i

/-- The CPU list of `-o` is the one that is run. -/
lemma Placed.pinned {f : Flag} {po : Pinorder} (hp : Placed m cl (some f) po) (hopt : f.opt = .pinningOrder) :
    ∃ asked, parsePinningOrder m.sysinfo f.optarg = .ok asked ∧ asked.cpuList = po.cpuList := by
  obtain ⟨order, asked, -, hpo, ⟨hnone, -⟩ | ⟨f', hf', hasked⟩⟩ := hp
  · simp at hnone
  · obtain rfl := Option.some.inj hf'
    rw [Flag.pinorder, hopt] at hasked
    refine ⟨asked, hasked, ?_⟩
    obtain ⟨sp, -, rfl⟩ := parsePinningOrder_accepts hasked
    obtain ⟨cpus, hcpus, -, hlist, -⟩ := placePinorder_ok hpo
    rw [hcpus]
    exact congrArg some (Except.ok.inj hlist)

/-- No file and no interleave. -/
lemma Placed.distinct {f? : Option Flag} {po : Pinorder} {cpus : List (BitVec 32)} (hp : Placed m cl f? po)
    (hf : ∀ f ∈ f?, f ∈ cl.on .pinorders) (hfile : cl.cpuorder = [])
    (hileave : ∀ f ∈ f?, ∀ po, f.opt = .numThreads → parseThreads m.sysinfo f.optarg = .ok po → po.ileave = 0)
    (hcpus : po.cpuList = some cpus) :
    Distinct cpus ∧ ((∀ f ∈ f?, f.opt ≠ .pinningOrder) → ∀ cpu ∈ cpus, cpuIndex cpu ∈ m.availCores) := by
  obtain ⟨order, asked, horder, hpo, hasked⟩ := hp
  obtain ⟨cpus', hcpus', -, hlist, -⟩ := placePinorder_ok hpo
  obtain rfl := Option.some.inj (hcpus.symm.trans hcpus')
  obtain rfl : CpuOrder.empty = order := by simpa [hfile, readNumbers] using horder
  have hnumbered (hnone : asked.cpuList = none) (hzero : asked.ileave = 0) :
      Distinct cpus ∧ ∀ cpu ∈ cpus, cpuIndex cpu ∈ m.availCores := by
    simp only [mainCpuList, hnone, hzero] at hlist
    exact numberedCpus_distinct (toInt_lt_of_ofNat _) hlist
  obtain ⟨-, rfl⟩ | ⟨f, rfl, hflag⟩ := hasked
  · obtain ⟨hdistinct, havail⟩ := hnumbered rfl rfl
    exact ⟨hdistinct, fun _ => havail⟩
  · have htarget := (List.mem_filter.mp (hf f rfl)).2
    obtain ⟨opt, s⟩ := f
    cases opt with
    | numThreads =>
      obtain ⟨hdistinct, havail⟩ := hnumbered (parseThreads_ok hflag).2 (hileave _ rfl asked rfl hflag)
      exact ⟨hdistinct, fun _ => havail⟩
    | pinningOrder =>
      refine ⟨?_, fun hno => absurd rfl (hno _ rfl)⟩
      obtain ⟨sp, -, hsp⟩ := parsePinningOrder_accepts hflag
      refine parsePinningOrder_distinct hflag ?_
      obtain rfl := hsp
      exact congrArg some (Except.ok.inj hlist)
    | _ => simp [Opt.target] at htarget

/-- Four cores without files about their frequencies -/
def fourCpus : Machine := ⟨fourCores, [0, 1, 2, 3], fun _ => none⟩

/-- `-c 5ns -p 7ns -o 3-2,0 -t 2 -n 3 -a 10 --timeout-usecs 1000000` -/
def twoPinorderFlags : CommandLine where
  flags := [⟨.critical, "5ns".toList⟩, ⟨.parallel, "7ns".toList⟩, ⟨.pinningOrder, "3-2,0".toList⟩,
    ⟨.numThreads, "2".toList⟩]
  iterations := 3
  numAcquires := 10
  runLimitSeconds := none
  runLimitTicks := 0
  runLimitInnerLoopIters := 10
  timeoutUsec := 1000000
  ignoreUnknownScalingGovernor := false
  cpuorder := []

/-- What `main` makes of it -/
def twoPinorderArgs : Experiments.TestArgs where
  pinorders := [⟨some [3, 2, 0], 3, "3-2,0".toList, 0⟩, ⟨some [0, 1], 2, "t2".toList, 0⟩]
  crits := [⟨5, .ns⟩]
  pars := [⟨7, .ns⟩]
  iterations := 3
  numAcquires := 10
  runLimitTicks := 0
  runLimitInnerLoopIters := 10
  timeoutUsec := 1000000

lemma main_twoPinorderFlags :
    main fourCpus twoPinorderFlags oneAcquire = .ok (processPinorders oneAcquire twoPinorderArgs start) := by
  have hprepare : prepare fourCpus twoPinorderFlags = .ok twoPinorderArgs := by rfl
  rw [main, hprepare]
  rfl

/-- Unless the check is ignored, the boost file reads 0, and of the CPU of every worker that is not
cancelled before it has stored it the `policy` files of that number read as good. -/
theorem main_steady (hmain : main m cl work = .ok h) (hcheck : cl.ignoreUnknownScalingGovernor = false) :
    getBoostValue m.files = 0 ∧ ∀ k < h.numReports, ∀ r, h.reportSummary[k]? = some (some r) →
      ∀ t st, r.perThreadStats[t]? = some st → GetsPinned work cl.timeoutUsec r.measNumber t →
        Steady m.files st.cpuNum := by
  obtain ⟨args, ha, rfl⟩ := main_ok hmain
  obtain ⟨hboost, hgovernors⟩ := ha.steady hcheck
  refine ⟨hboost, fun k hk r hr t st hst ht => ?_⟩
  obtain ⟨po, cpus, hpo, -, hcpus, hlen, hpinned⟩ := ha.record_source hk hr
  obtain ⟨cpu, hcpu, heq⟩ := stat_cpu hst (hpinned t ht)
  rw [heq]
  exact (checkPinorder_iff hcpus hlen).mp (hgovernors po hpo) cpu (List.mem_of_getElem? hcpu)

theorem main_steady_six : ∃ h, main fourCpus twoPinorderFlags oneAcquire = .ok h ∧ 0 < h.numReports ∧
    ∀ k < h.numReports, ∀ r, h.reportSummary[k]? = some (some r) → ∀ st, r.perThreadStats[0]? = some st →
      Steady fourCpus.files st.cpuNum := by
  refine ⟨_, main_twoPinorderFlags, by decide, fun k hk r hr st hst => ?_⟩
  exact (main_steady main_twoPinorderFlags rfl).2 k hk r hr 0 st hst (oneAcquire_pinned (Or.inr rfl))

/-- Without a file and interleaves, no two workers of a record that were not cancelled before are
pinned to the same CPU, and CPUs that no `-o` names are available. -/
theorem main_distinct (hmain : main m cl work = .ok h) (hfile : cl.cpuorder = [])
    (hileave : ∀ f ∈ cl.flags, ∀ po, f.opt = .numThreads → parseThreads m.sysinfo f.optarg = .ok po → po.ileave = 0) :
    ∀ k < h.numReports, ∀ r, h.reportSummary[k]? = some (some r) →
      ∀ t st, r.perThreadStats[t]? = some st → GetsPinned work cl.timeoutUsec r.measNumber t →
        (st.cpuNum.toNat < cpuSetsize → ∀ t' st', r.perThreadStats[t']? = some st' →
          GetsPinned work cl.timeoutUsec r.measNumber t' → st'.cpuNum = st.cpuNum → t' = t) ∧
        ((∀ f ∈ cl.flags, f.opt ≠ .pinningOrder) → st.cpuNum.toNat ∈ m.availCores) := by
  obtain ⟨args, ha, rfl⟩ := main_ok hmain
  intro k hk r hr t st hst ht
  obtain ⟨po, cpus, -, ⟨f?, hflags, hplaced⟩, hcpus, -, hpinned⟩ := ha.record_source hk hr
  have hmem : ∀ f ∈ f?, f ∈ cl.flags := fun f hf => List.mem_of_mem_filter (hflags f hf)
  obtain ⟨hdistinct, havail⟩ := hplaced.distinct hflags hfile (fun f hf => hileave f (hmem f hf)) hcpus
  obtain ⟨cpu, hcpu, heq⟩ := stat_cpu hst (hpinned t ht)
  constructor
  · intro hset t' st' hst' ht' hsame
    obtain ⟨cpu', hcpu', heq'⟩ := stat_cpu hst' (hpinned t' ht')
    rw [heq] at hset hsame
    rw [heq'] at hsame
    obtain rfl : cpu' = cpu := cpuIndex_inj (congrArg BitVec.toNat hsame)
    exact hdistinct.index_inj (decide_eq_true hset) hcpu' hcpu
  · intro hno
    rw [heq]
    exact havail (fun f hf => hno f (hmem f hf)) cpu (List.mem_of_getElem? hcpu)

lemma twoPinorderFlags_ileave : ∀ f ∈ twoPinorderFlags.flags, ∀ po, f.opt = .numThreads →
    parseThreads fourCpus.sysinfo f.optarg = .ok po → po.ileave = 0 := by
  intro f hf po hopt hpo
  obtain rfl | rfl | rfl | rfl : f = ⟨.critical, "5ns".toList⟩ ∨ f = ⟨.parallel, "7ns".toList⟩ ∨
      f = ⟨.pinningOrder, "3-2,0".toList⟩ ∨ f = ⟨.numThreads, "2".toList⟩ := by
    simpa only [twoPinorderFlags, List.mem_cons, List.not_mem_nil, or_false] using hf
  · exact Opt.noConfusion hopt
  · exact Opt.noConfusion hopt
  · exact Opt.noConfusion hopt
  · have hparse : parseThreads fourCpus.sysinfo "2".toList = .ok ⟨none, 2, "t2".toList, 0⟩ := by rfl
    obtain rfl := Except.ok.inj (hparse.symm.trans hpo)
    rfl

/-- The three threads of the first measurement are on three CPUs. -/
theorem main_distinct_six : ∃ (h : Harness) (r : ReportData), main fourCpus twoPinorderFlags oneAcquire = .ok h ∧
    h.reportSummary[0]? = some (some r) ∧ r.perThreadStats.length = 3 ∧
    ∀ (t : ℕ) (st : PerThreadStats), r.perThreadStats[t]? = some st → st.cpuNum.toNat < cpuSetsize →
      ∀ (t' : ℕ) (st' : PerThreadStats), r.perThreadStats[t']? = some st' → st'.cpuNum = st.cpuNum → t' = t := by
  obtain ⟨r, hr, hmeas, hlen⟩ : ∃ r,
      (processPinorders oneAcquire twoPinorderArgs start).reportSummary[0]? = some (some r) ∧ r.measNumber = 1 ∧
        r.perThreadStats.length = 3 := ⟨_, rfl, rfl, rfl⟩
  have hpinned (t : ℕ) : GetsPinned oneAcquire twoPinorderFlags.timeoutUsec r.measNumber t :=
    oneAcquire_pinned (Or.inl (by rw [hmeas]))
  refine ⟨_, r, main_twoPinorderFlags, hr, hlen, fun t st hst hset t' st' hst' hsame => ?_⟩
  exact (main_distinct main_twoPinorderFlags rfl twoPinorderFlags_ileave 0 (by decide) r hr t st hst (hpinned t)).1
    hset t' st' hst' (hpinned t') hsame

end Records
end Lockhammer.Invocation
