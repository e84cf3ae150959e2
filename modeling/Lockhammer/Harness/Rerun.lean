import Lockhammer.Harness.Args

/-!
# Rerunning a saved result

`standard_report` and `json_output` (report.c) store the durations and the pinorder string
of a measurement, and json-to-command.sh builds the flags of a new run from them. How jq
prints an integer is a parameter.
-/
namespace Lockhammer.Args
open CLib

section Main

/-- `MAXTHREADS` -/
def maxThreads : ℕ := 513

/-- The pinorder of `main` when no flag gave one. -/
def defaultPinorder (sys : SystemInfo) : Pinorder := ⟨none, sys.numAvailCores, "0".toList, 0⟩

/-- What `main` does to a pinorder before it fills in a missing CPU list. -/
def mainPinorder (sys : SystemInfo) (po : Pinorder) : Except ArgError Pinorder :=
  if po.numThreads = 0 ∧ po.cpuList ≠ none then .error .cpuListAssertion
  else
    let threads := if po.numThreads = 0 then sys.numAvailCores else po.numThreads
    if maxThreads < threads then .error (.maxThreads threads)
    else .ok { po with numThreads := threads }

def mainPinorderList (sys : SystemInfo) : List Pinorder → Except ArgError (List Pinorder)
  | [] => .ok []
  | po :: pos =>
    match mainPinorder sys po, mainPinorderList sys pos with
    | .ok po, .ok pos => .ok (po :: pos)
    | .error e, _ => .error e
    | _, .error e => .error e

/-- The pinorders that are run. -/
def mainPinorders (sys : SystemInfo) (args : TestArgs) : Except ArgError (List Pinorder) :=
  mainPinorderList sys (if args.pinorders = [] then [defaultPinorder sys] else args.pinorders)

end Main

section Record

/-- The fields of a result record that a rerun reads. The durations are `json_integer`s. -/
structure ResultRecord where
  nominalCritical : ℤ
  nominalParallel : ℤ
  nominalCriticalUnit : List Char
  nominalParallelUnit : List Char
  pinorderString : List Char

def unitName : Units → List Char
  | .ns => "ns".toList
  | .insts => "inst".toList

/-- What is stored for a measurement. -/
def standardReport (po : Pinorder) (crit par : Duration) : ResultRecord where
  nominalCritical := crit.t.toInt
  nominalParallel := par.t.toInt
  nominalCriticalUnit := unitName crit.unit
  nominalParallelUnit := unitName par.unit
  pinorderString := po.pinorderString

/-- `LH_PINORDER` of json-to-command.sh: a pinorder string that starts with `t` goes to `-t`. -/
def rebuildPinorder (s : List Char) : Flag :=
  if s.head? = some 't' then ⟨.numThreads, s⟩ else ⟨.pinningOrder, s⟩

/-- `LH_CRIT`, `LH_PAR` and `LH_PINORDER` of json-to-command.sh. -/
def rebuildFlags (jq : ℤ → List Char) (r : ResultRecord) : List Flag :=
  [⟨.critical, jq r.nominalCritical ++ r.nominalCriticalUnit⟩,
    ⟨.parallel, jq r.nominalParallel ++ r.nominalParallelUnit⟩, rebuildPinorder r.pinorderString]

/-- The rebuilt flags are accepted and give the same durations and a pinorder with the same
thread count, interleave and CPU list. -/
def Rerun (jq : ℤ → List Char) (sys : SystemInfo) (po : Pinorder) (crit par : Duration) : Prop :=
  ∃ args po', parseArgs sys (rebuildFlags jq (standardReport po crit par)) = .ok args ∧
    args.crits = [crit] ∧ args.pars = [par] ∧ mainPinorders sys args = .ok [po'] ∧
    po'.numThreads = po.numThreads ∧ po'.ileave = po.ileave ∧ po'.cpuList = po.cpuList

/-- The flag says nanoseconds. -/
def Flag.InNs (f : Flag) : Prop :=
  match f.opt with
  | .criticalNanoseconds | .parallelNanoseconds => True
  | .critical | .parallel => "ns".toList <:+ f.optarg
  | _ => False

end Record

section Durations
variable {f : Flag} {d : Duration}

lemma parseDuration_ok {error : List Char → ArgError} {s : List Char}
    (h : parseDuration error s = .ok d) :
    d.t = (strtoul s 10).1 ∧ ((strtoul s 10).2 = [] ∧ d.unit = .insts ∨
      (strtoul s 10).2 = "in".toList ∧ d.unit = .insts ∨ (strtoul s 10).2 = "ns".toList ∧ d.unit = .ns) := by
  unfold parseDuration at h
  dsimp only at h
  split at h
  · simp at h
  · next hno =>
    obtain rfl := (Except.ok.inj h).symm
    refine ⟨rfl, ?_⟩
    simp only [durationParseError] at hno
    split at hno
    · split at hno
      · next hunit =>
        rcases hunit with hunit | hunit <;> simp [hunit]
      · simp at hno
    · next hnil =>
      have hnil' : (strtoul s 10).2 = [] := by simpa using hnil
      simp [hnil']

/-- An accepted text is in nanoseconds exactly when it ends so. -/
lemma parseDuration_ns {error : List Char → ArgError} {s : List Char}
    (h : parseDuration error s = .ok d) : d.unit = .ns ↔ "ns".toList <:+ s := by
  obtain ⟨-, hcases⟩ := parseDuration_ok h
  have hrest := strtoul_rest s 10
  rw [takeBase_ten] at hrest
  constructor
  · intro hns
    have htail : (strtoul s 10).2 = "ns".toList := by
      rcases hcases with ⟨-, hu⟩ | ⟨-, hu⟩ | ⟨hns, -⟩
      · simp [hns] at hu
      · simp [hns] at hu
      · exact hns
    rw [htail] at hrest
    rcases hrest with hs | ⟨p, c, hs, -⟩
    · exact hs ▸ List.suffix_rfl
    · exact ⟨p ++ [c], by rw [hs]; simp⟩
  · rintro ⟨p, rfl⟩
    rcases hcases with ⟨hnil, -⟩ | ⟨hin, -⟩ | ⟨-, hu⟩
    · -- the last character would be a digit
      rw [hnil] at hrest
      rcases hrest with hs | ⟨p', c, hs, hc⟩
      · simp at hs
      · have hlast := congrArg List.getLast? hs
        obtain rfl : 's' = c := by simpa using hlast
        have hs : isDigitOf 10 's' = false := by decide
        exact absurd (hs.symm.trans hc) (by decide)
    · rw [hin] at hrest
      rcases hrest with hs | ⟨p', c, hs, -⟩
      · have hlast := congrArg List.getLast? hs
        simp at hlast
      · have hlast := congrArg List.getLast? hs
        simp at hlast
    · exact hu

theorem Flag.duration_ns (hf : f.opt.target ≠ .pinorders) (h : f.duration = .ok d) :
    d.unit = .ns ↔ f.InNs := by
  obtain ⟨opt, s⟩ := f
  cases opt with
  | critical => exact parseDuration_ns h
  | parallel => exact parseDuration_ns h
  | criticalNanoseconds | parallelNanoseconds =>
    obtain rfl := (Except.ok.inj h).symm
    simp [Flag.InNs]
  | criticalInstructions | parallelInstructions =>
    obtain rfl := (Except.ok.inj h).symm
    simp [Flag.InNs]
  | numThreads | pinningOrder => exact absurd rfl hf

/-- The stored duration is read back if it is in nanoseconds; `inst` is not a unit. -/
theorem parseDuration_stored (error : List Char → ArgError) (d : Duration) :
    parseDuration error ((toString d.t.toInt).toList ++ unitName d.unit) =
      match d.unit with
      | .ns => .ok d
      | .insts => .error (error ((toString d.t.toInt).toList ++ unitName d.unit)) := by
  obtain ⟨t, u⟩ := d
  cases u with
  | ns =>
    have hread : strtoul ((toString t.toInt).toList ++ "ns".toList) 10 = (t, "ns".toList) :=
      strtoul_toString_toInt t (by decide)
    have hne : "ns".toList ≠ (toString t.toInt).toList ++ "ns".toList := by
      intro he
      exact toList_toString_ne_nil t.toInt (by simpa using he)
    have hok : durationParseError "ns".toList ((toString t.toInt).toList ++ "ns".toList) = false := by
      unfold durationParseError
      rw [if_pos (by decide), if_pos (Or.inl rfl)]
      exact decide_eq_false hne
    simp only [parseDuration, unitName, hread, hok]
    rfl
  | insts =>
    have hread : strtoul ((toString t.toInt).toList ++ "inst".toList) 10 = (t, "inst".toList) :=
      strtoul_toString_toInt t (by decide)
    have hbad : durationParseError "inst".toList ((toString t.toInt).toList ++ "inst".toList) = true := by
      unfold durationParseError
      rw [if_pos (by decide), if_neg (by decide)]
    simp only [parseDuration, unitName, hread, hbad]
    rfl

lemma parseDuration_stored_iff {error : List Char → ArgError} {d d' : Duration} :
    parseDuration error ((toString d.t.toInt).toList ++ unitName d.unit) = .ok d' ↔
      d.unit = .ns ∧ d' = d := by
  rw [parseDuration_stored]
  cases d.unit <;> simp [eq_comm]

end Durations

section Rerun
variable {jq : ℤ → List Char} {sys : SystemInfo} {args : TestArgs} {flags : List Flag}
  {po po' : Pinorder} {crit par : Duration}

lemma forall₂_getElem? {α β : Type*} {R : α → β → Prop} {l : List α} {m : List β}
    (h : List.Forall₂ R l m) {i : ℕ} {b : β} (hb : m[i]? = some b) : ∃ a, l[i]? = some a ∧ R a b := by
  induction h generalizing i with
  | nil => simp at hb
  | cons hab _ ih =>
    cases i with
    | zero =>
      obtain rfl := Option.some.inj hb
      exact ⟨_, rfl, hab⟩
    | succ i => exact ih hb

lemma mainPinorder_ok (h : mainPinorder sys po = .ok po') :
    po'.pinorderString = po.pinorderString ∧ po'.cpuList = po.cpuList ∧ po'.ileave = po.ileave := by
  unfold mainPinorder at h
  split at h
  · simp at h
  · generalize (if po.numThreads = 0 then sys.numAvailCores else po.numThreads) = threads at h
    dsimp only at h
    split at h
    · simp at h
    · obtain rfl := (Except.ok.inj h).symm
      exact ⟨rfl, rfl, rfl⟩

lemma mainPinorderList_forall₂ {pos pos' : List Pinorder} (h : mainPinorderList sys pos = .ok pos') :
    List.Forall₂ (fun po po' => mainPinorder sys po = .ok po') pos pos' := by
  induction pos generalizing pos' with
  | nil =>
    obtain rfl := (Except.ok.inj h).symm
    exact .nil
  | cons po pos ih =>
    unfold mainPinorderList at h
    split at h
    · next hpo hpos =>
      obtain rfl := (Except.ok.inj h).symm
      exact .cons hpo (ih hpos)
    · simp at h
    · simp at h

/-- The three flags of a rerun are read one by one. -/
lemma parseArgs_rebuilt {fc fp fo : Flag} (hc : fc.opt.target = .crits) (hp : fp.opt.target = .pars)
    (ho : fo.opt.target = .pinorders) :
    parseArgs sys [fc, fp, fo] = .ok args ↔
      ∃ crit par po, fc.duration = .ok crit ∧ fp.duration = .ok par ∧ fo.pinorder sys = .ok po ∧
        args = ⟨[crit], [par], [po]⟩ := by
  constructor
  · intro h
    cases h1 : fc.duration with
    | error e => simp [parseArgs, parseArgsFrom, parseFlag, hc, h1, Except.map] at h
    | ok crit =>
      cases h2 : fp.duration with
      | error e => simp [parseArgs, parseArgsFrom, parseFlag, hc, hp, h1, h2, Except.map] at h
      | ok par =>
        cases h3 : fo.pinorder sys with
        | error e => simp [parseArgs, parseArgsFrom, parseFlag, hc, hp, ho, h1, h2, h3, Except.map] at h
        | ok po =>
          refine ⟨crit, par, po, rfl, rfl, rfl, ?_⟩
          simpa [parseArgs, parseArgsFrom, parseFlag, hc, hp, ho, h1, h2, h3, Except.map] using h.symm
  · rintro ⟨crit, par, po, h1, h2, h3, rfl⟩
    simp [parseArgs, parseArgsFrom, parseFlag, hc, hp, ho, h1, h2, h3, Except.map]

lemma rebuildPinorder_target (s : List Char) : (rebuildPinorder s).opt.target = .pinorders := by
  unfold rebuildPinorder
  split <;> rfl

lemma mainPinorders_single {crits pars : List Duration} {po₁ : Pinorder} {pos : List Pinorder} :
    mainPinorders sys ⟨crits, pars, [po₁]⟩ = .ok pos ↔
      ∃ po₂, mainPinorder sys po₁ = .ok po₂ ∧ pos = [po₂] := by
  cases h : mainPinorder sys po₁ with
  | error e => simp [mainPinorders, mainPinorderList, h]
  | ok po₂ => simp [mainPinorders, mainPinorderList, h, eq_comm]

/-- A rerun, spelled out: both stored durations are read back, and so is the pinorder. -/
lemma rerun_def (hjq : ∀ v, jq v = (toString v).toList) :
    Rerun jq sys po crit par ↔ crit.unit = .ns ∧ par.unit = .ns ∧
      ∃ po₁ po₂, (rebuildPinorder po.pinorderString).pinorder sys = .ok po₁ ∧
        mainPinorder sys po₁ = .ok po₂ ∧ po₂.numThreads = po.numThreads ∧ po₂.ileave = po.ileave ∧
        po₂.cpuList = po.cpuList := by
  have hflags : rebuildFlags jq (standardReport po crit par) =
      [⟨.critical, (toString crit.t.toInt).toList ++ unitName crit.unit⟩,
        ⟨.parallel, (toString par.t.toInt).toList ++ unitName par.unit⟩,
        rebuildPinorder po.pinorderString] := by
    simp only [rebuildFlags, standardReport, hjq]
  constructor
  · rintro ⟨args, po', hparse, -, -, hmain, hsame⟩
    rw [hflags, parseArgs_rebuilt rfl rfl (rebuildPinorder_target _)] at hparse
    obtain ⟨crit', par', po₁, h1, h2, h3, rfl⟩ := hparse
    obtain ⟨po₂, hpo₂, hpos⟩ := mainPinorders_single.mp hmain
    obtain rfl : po' = po₂ := by simpa using hpos
    exact ⟨(parseDuration_stored_iff.mp h1).1, (parseDuration_stored_iff.mp h2).1, po₁, po', h3, hpo₂,
      hsame⟩
  · rintro ⟨hc, hp, po₁, po₂, h3, hpo₂, hsame⟩
    refine ⟨⟨[crit], [par], [po₁]⟩, po₂, ?_, rfl, rfl, mainPinorders_single.mpr ⟨po₂, hpo₂, rfl⟩, hsame⟩
    rw [hflags, parseArgs_rebuilt rfl rfl (rebuildPinorder_target _)]
    exact ⟨crit, par, po₁, parseDuration_stored_iff.mpr ⟨hc, rfl⟩,
      parseDuration_stored_iff.mpr ⟨hp, rfl⟩, h3, rfl⟩

/-- Where the pinorder of a measurement comes from. -/
lemma pinorder_source {pinorders : List Pinorder} (hparse : parseArgs sys flags = .ok args)
    (hmain : mainPinorders sys args = .ok pinorders) {i : ℕ} (hpo : pinorders[i]? = some po) :
    (flags.filter (·.opt.target = .pinorders) = [] ∧ mainPinorder sys (defaultPinorder sys) = .ok po) ∨
      ∃ f po₁, (flags.filter (·.opt.target = .pinorders))[i]? = some f ∧ f.pinorder sys = .ok po₁ ∧
        mainPinorder sys po₁ = .ok po := by
  have hentries := (parseArgs_entries hparse).pinorders
  unfold mainPinorders at hmain
  split at hmain
  · next hnil =>
    left
    rw [hnil] at hentries
    refine ⟨List.forall₂_nil_right_iff.mp hentries, ?_⟩
    obtain ⟨po₁, hpo₁, hm⟩ := forall₂_getElem? (mainPinorderList_forall₂ hmain) hpo
    obtain rfl : po₁ = defaultPinorder sys := by
      have hmem := List.mem_of_getElem? hpo₁
      simpa using hmem
    exact hm
  · right
    obtain ⟨po₁, hpo₁, hm⟩ := forall₂_getElem? (mainPinorderList_forall₂ hmain) hpo
    obtain ⟨f, hf, hfpo⟩ := forall₂_getElem? hentries hpo₁
    exact ⟨f, po₁, hf, hfpo, hm⟩

/-- The stored pinorder string gives the pinorder back exactly when it came from `-o`. -/
lemma rerun_pinorder {pinorders : List Pinorder} (hparse : parseArgs sys flags = .ok args)
    (hmain : mainPinorders sys args = .ok pinorders) {i : ℕ} (hpo : pinorders[i]? = some po) :
    (∃ po₁ po₂, (rebuildPinorder po.pinorderString).pinorder sys = .ok po₁ ∧
        mainPinorder sys po₁ = .ok po₂ ∧ po₂.numThreads = po.numThreads ∧ po₂.ileave = po.ileave ∧
        po₂.cpuList = po.cpuList) ↔
      ∃ f, (flags.filter (·.opt.target = .pinorders))[i]? = some f ∧ f.opt = .pinningOrder := by
  rcases pinorder_source hparse hmain hpo with ⟨hnil, hdef⟩ | ⟨⟨opt, s⟩, po₁, hf, hfpo, hm⟩
  · obtain ⟨hstring, hlist, -⟩ := mainPinorder_ok hdef
    rw [hnil]
    constructor
    · rintro ⟨po₁, po₂, h₁, h₂, -, -, hsame⟩
      rw [hstring] at h₁
      obtain ⟨-, hsome⟩ := parsePinningOrder_ok (s := "0".toList) h₁
      obtain ⟨-, hlist₂, -⟩ := mainPinorder_ok h₂
      rw [hlist₂, hlist] at hsame
      exact absurd hsame hsome
    · rintro ⟨f, hf, -⟩
      simp at hf
  · obtain ⟨hstring, -⟩ := mainPinorder_ok hm
    have htarget : opt.target = .pinorders := by
      have hmem := List.mem_of_getElem? hf
      simpa using (List.mem_filter.mp hmem).2
    cases opt with
    | numThreads =>
      obtain ⟨hs, -⟩ := parseThreads_ok hfpo
      constructor
      · rintro ⟨po₂, po₃, h₂, -⟩
        rw [hstring, hs] at h₂
        have herr : (rebuildPinorder ('t' :: s)).pinorder sys = parseThreads sys ('t' :: s) := rfl
        rw [herr, parseThreads_t] at h₂
        simp at h₂
      · rintro ⟨f, hf', hopt⟩
        obtain rfl := Option.some.inj (hf.symm.trans hf')
        simp at hopt
    | pinningOrder =>
      obtain ⟨hs, hsome⟩ := parsePinningOrder_ok hfpo
      have hhead : s.head? ≠ some 't' := by
        intro hh
        obtain ⟨r, rfl⟩ := List.head?_eq_some_iff.mp hh
        exact parsePinningOrder_t sys r po₁ hfpo
      have hflag : rebuildPinorder s = ⟨.pinningOrder, s⟩ := by
        unfold rebuildPinorder
        rw [if_neg hhead]
      refine iff_of_true ⟨po₁, po, ?_, hm, rfl, rfl, rfl⟩ ⟨_, hf, rfl⟩
      rw [hstring, hs, hflag]
      exact hfpo
    | _ => simp [Opt.target] at htarget

/-- A measurement can be rerun from its record exactly when both of its durations were given
in nanoseconds and its pinorder by `-o`. -/
theorem rerun_iff (jq : ℤ → List Char) (hjq : ∀ v, jq v = (toString v).toList) (sys : SystemInfo)
    (flags : List Flag) (args : TestArgs) (hparse : parseArgs sys flags = .ok args)
    (pinorders : List Pinorder) (hmain : mainPinorders sys args = .ok pinorders) (i j k : ℕ)
    (po : Pinorder) (hpo : pinorders[i]? = some po) (crit : Duration) (hcrit : args.crits[j]? = some crit)
    (par : Duration) (hpar : args.pars[k]? = some par) :
    Rerun jq sys po crit par ↔
      (∃ f, (flags.filter (·.opt.target = .crits))[j]? = some f ∧ f.InNs) ∧
      (∃ f, (flags.filter (·.opt.target = .pars))[k]? = some f ∧ f.InNs) ∧
      ∃ f, (flags.filter (·.opt.target = .pinorders))[i]? = some f ∧ f.opt = .pinningOrder := by
  have hunit {target : Target} (ht : target ≠ .pinorders) {ds : List Duration} {m : ℕ} {d : Duration}
      (hall : List.Forall₂ (fun f d => f.duration = .ok d) (flags.filter (·.opt.target = target)) ds)
      (hd : ds[m]? = some d) :
      d.unit = .ns ↔ ∃ f, (flags.filter (·.opt.target = target))[m]? = some f ∧ f.InNs := by
    obtain ⟨f, hf, hfd⟩ := forall₂_getElem? hall hd
    have hft : f.opt.target = target := by
      have hmem := List.mem_of_getElem? hf
      simpa using (List.mem_filter.mp hmem).2
    rw [Flag.duration_ns (hft ▸ ht) hfd]
    constructor
    · exact fun hns => ⟨f, hf, hns⟩
    · rintro ⟨f', hf', hns⟩
      obtain rfl : f = f' := Option.some.inj (hf.symm.trans hf')
      exact hns
  have hentries := parseArgs_entries hparse
  rw [rerun_def hjq, hunit (by decide) hentries.crits hcrit, hunit (by decide) hentries.pars hpar]
  rw [rerun_pinorder hparse hmain hpo]

def fourCores : SystemInfo := ⟨4, 4, 4⟩

def pinnedFlags : List Flag :=
  [⟨.critical, "10ns".toList⟩, ⟨.parallelNanoseconds, "20".toList⟩, ⟨.pinningOrder, "3-2,0".toList⟩]

theorem rerun_iff_pinned :
    ∃ po, mainPinorders fourCores ⟨[⟨10, .ns⟩], [⟨20, .ns⟩], [po]⟩ = .ok [po] ∧
      po.cpuList = some [3, 2, 0] ∧
      Rerun (fun v => (toString v).toList) fourCores po ⟨10, .ns⟩ ⟨20, .ns⟩ := by
  refine ⟨⟨some [3, 2, 0], 3, "3-2,0".toList, 0⟩, by rfl, rfl, ?_⟩
  refine (rerun_iff _ (fun _ => rfl) fourCores pinnedFlags
    ⟨[⟨10, .ns⟩], [⟨20, .ns⟩], [⟨some [3, 2, 0], 3, "3-2,0".toList, 0⟩]⟩ (by rfl)
    [⟨some [3, 2, 0], 3, "3-2,0".toList, 0⟩] (by rfl) 0 0 0 _ rfl _ rfl _ rfl).mpr ?_
  refine ⟨⟨⟨.critical, "10ns".toList⟩, rfl, ⟨"10".toList, rfl⟩⟩,
    ⟨⟨.parallelNanoseconds, "20".toList⟩, rfl, trivial⟩, ⟨.pinningOrder, "3-2,0".toList⟩, rfl, rfl⟩

def threadsFlags : List Flag :=
  [⟨.critical, "10ns".toList⟩, ⟨.parallel, "20ns".toList⟩, ⟨.numThreads, "2".toList⟩]

/-- The record of a run with `-t 2` has the pinorder string `t2`, from which the script makes
`-tt2`. -/
theorem rerun_threads_refused :
    ∃ args po, parseArgs fourCores threadsFlags = .ok args ∧ mainPinorders fourCores args = .ok [po] ∧
      args.crits = [⟨10, .ns⟩] ∧ args.pars = [⟨20, .ns⟩] ∧
      ¬ Rerun (fun v => (toString v).toList) fourCores po ⟨10, .ns⟩ ⟨20, .ns⟩ := by
  refine ⟨⟨[⟨10, .ns⟩], [⟨20, .ns⟩], [⟨none, 2, "t2".toList, 0⟩]⟩, ⟨none, 2, "t2".toList, 0⟩, by rfl,
    by rfl, rfl, rfl, ?_⟩
  rw [rerun_def fun _ => rfl]
  rintro ⟨-, -, po₁, po₂, h, -⟩
  have ht : (rebuildPinorder "t2".toList).pinorder fourCores = .error (.numThreads "tt2".toList) := rfl
  rw [ht] at h
  simp at h

end Rerun

end Lockhammer.Args
