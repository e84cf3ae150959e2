import Lockhammer.Harness.Rerun
import Lockhammer.Measure.Completion
import Mathlib.Data.List.GetD
import Mathlib.Data.BitVec

/-!
# The experiments of one invocation (lockhammer.c, report.c)

`main` runs one experiment for every pinorder, critical duration, parallel duration and iteration,
with one array of thread arguments that the experiments share, and `standard_report` appends a
record to a table that grows by ten entries at a time. With `--timeout-usecs` the timer may cancel
the threads of an experiment, each at a point of its own.
-/
namespace Lockhammer.Experiments
open Args

section Loop
variable {σ α : Type*}

/-- `for (i = 0; i < n; i++)` -/
def forLoop (body : ℕ → σ → σ) : ℕ → σ → σ
  | 0, s => s
  | n + 1, s => body n (forLoop body n s)

/-- What holds before the loop and is carried through each round holds behind it. -/
lemma forLoop_invariant {f : ℕ → σ → σ} {P : ℕ → σ → Prop} {n : ℕ} {s : σ} (h₀ : P 0 s)
    (hstep : ∀ i < n, ∀ s, P i s → P (i + 1) (f i s)) : P n (forLoop f n s) := by
  induction n with
  | zero => exact h₀
  | succ n ih => exact hstep n n.lt_succ_self _ (ih fun i hi => hstep i (hi.trans n.lt_succ_self))

/-- A loop that changes one entry in each round. -/
lemma forLoop_modify (f : ℕ → α → α) (n : ℕ) (l : List α) :
    (forLoop (fun i l => l.modify i (f i)) n l).length = l.length ∧
      ∀ j, (forLoop (fun i l => l.modify i (f i)) n l)[j]? = if j < n then l[j]?.map (f j) else l[j]? := by
  refine forLoop_invariant (P := fun i (l' : List α) => l'.length = l.length ∧
    ∀ j, l'[j]? = if j < i then l[j]?.map (f j) else l[j]?) ⟨rfl, by simp⟩ ?_
  rintro i - l' ⟨hlen, hget⟩
  refine ⟨by rw [List.length_modify, hlen], fun j => ?_⟩
  rw [List.getElem?_modify, hget]
  by_cases hji : j = i
  · subst hji
    simp
  · by_cases hlt : j < i
    · simp [hlt, hlt.trans i.lt_succ_self, Ne.symm hji]
    · simp [hlt, show ¬ j < i + 1 by omega, Ne.symm hji]

end Loop

section Types

/-- What `hmr` stores at its end, or `thread_cleanup_routine` in its place. -/
structure WorkerResults where
  lockAcquires : BitVec 64
  cputimeNs : BitVec 64
  walltimeNs : BitVec 64
  hmrdepth : BitVec 64
  hwtimerStart : BitVec 64
  hwtimerEnd : BitVec 64
  deriving DecidableEq

/-- `per_thread_results_t` without the milestones and the durations of the blackholes. -/
structure Results extends WorkerResults where
  cpuAffined : BitVec 64
  deriving DecidableEq

/-- Where `hmr` is when it is cancelled: before `pthread_cleanup_push`, before it has stored
`cpu_affined`, or behind that. -/
inductive CancelPoint
  | beforeCleanup
  | beforeAffinity
  | behindAffinity
  deriving DecidableEq

/-- How a worker comes to its end. -/
structure WorkerEnd where
  results : WorkerResults
  cancelled : Option CancelPoint := none
  deriving DecidableEq

/-- It has stored its CPU. -/
def WorkerEnd.pinned (e : WorkerEnd) : Bool :=
  match e.cancelled with
  | some .beforeCleanup | some .beforeAffinity => false
  | some .behindAffinity | none => true

/-- What `main` passes to a worker. -/
structure ThreadArgs where
  threadNum : ℕ
  numThreads : ℕ
  numAcquires : BitVec 64
  hold : Duration
  post : Duration
  runOnThisCpu : BitVec 64
  runLimitTicks : BitVec 64
  runLimitInnerLoopIters : BitVec 64
  deriving DecidableEq

/-- An entry of `thread_args`. -/
structure Slot where
  args : ThreadArgs
  results : Results
  deriving DecidableEq

/-- The part of `test_args_t` that the loops of `main` read. -/
structure TestArgs where
  pinorders : List Pinorder
  crits : List Duration
  pars : List Duration
  iterations : ℕ
  numAcquires : BitVec 64
  runLimitTicks : BitVec 64
  runLimitInnerLoopIters : BitVec 64
  timeoutUsec : BitVec 64

structure PerThreadStats where
  threadNum : ℕ
  cpuNum : BitVec 64
  lockAcquires : BitVec 64
  cpuTimeNs : BitVec 64
  walltimeNs : BitVec 64
  hwtimerStart : BitVec 64
  hwtimerEnd : BitVec 64
  deriving DecidableEq

/-- The integers of `report_data_t`; `pinorder` is its index. -/
structure ReportData where
  pinorder : ℕ
  perThreadStats : List PerThreadStats
  nominalCritical : BitVec 64
  nominalParallel : BitVec 64
  nominalCriticalUnit : List Char
  nominalParallelUnit : List Char
  runLimitNumAcquires : BitVec 64
  runLimitTicks : BitVec 64
  measNumber : ℕ
  testNumber : ℕ
  iteration : ℕ
  numThreads : ℕ
  totalLockAcquires : BitVec 64
  totalCputimeNs : BitVec 64
  deriving DecidableEq

/-- The globals: `thread_args`, the counters of `main`, and `report_summary` with its two sizes. -/
structure Harness where
  threadArgs : List Slot
  measurementCounter : ℕ
  testCounter : ℕ
  numReports : ℕ
  reportCapacity : ℕ
  reportSummary : List (Option ReportData)

end Types

section Main

/-- How each worker of each experiment does: any results, and any moment to be cancelled. -/
abbrev Work := (measurement thread : ℕ) → ThreadArgs → WorkerEnd

variable (work : Work) (args : TestArgs)

def setUpThread (po : Pinorder) (cpus : List (BitVec 32)) (crit par : Duration) (i : ℕ) (slot : Slot) : Slot where
  args :=
    { threadNum := i
      numThreads := po.numThreads
      numAcquires := args.numAcquires
      hold := crit
      post := par
      runOnThisCpu := (cpus.getD i 0).signExtend 64
      runLimitTicks := args.runLimitTicks
      runLimitInnerLoopIters := args.runLimitInnerLoopIters }
  results := { slot.results with cpuAffined := 0 }

/-- The thread of a slot. `hmr` stores its CPU and its results, and a thread that
`main_alarm_handler` cancels what it has come to. The timer that calls the handler is set to 0,
which disarms it, when there is no timeout. -/
def runThread (measurement i : ℕ) (slot : Slot) : Slot :=
  let e := work measurement i slot.args
  match if args.timeoutUsec = 0 then none else e.cancelled with
  | some .beforeCleanup => slot
  | some .beforeAffinity => { slot with results := { e.results with cpuAffined := slot.results.cpuAffined } }
  | some .behindAffinity | none =>
    { slot with results := { e.results with cpuAffined := slot.args.runOnThisCpu } }

def perThreadStats (i : ℕ) (slot : Slot) : PerThreadStats where
  threadNum := i
  cpuNum := slot.results.cpuAffined
  lockAcquires := slot.results.lockAcquires
  cpuTimeNs := slot.results.cputimeNs
  walltimeNs := slot.results.walltimeNs
  hwtimerStart := slot.results.hwtimerStart
  hwtimerEnd := slot.results.hwtimerEnd

/-- The record that `standard_report` makes from the first slots. -/
def reportData (slots : List Slot) (ipinorder : ℕ) (po : Pinorder) (measNumber testNumber iteration : ℕ)
    (crit par : Duration) : ReportData where
  pinorder := ipinorder
  perThreadStats := (slots.take po.numThreads).mapIdx perThreadStats
  nominalCritical := crit.t
  nominalParallel := par.t
  nominalCriticalUnit := unitName crit.unit
  nominalParallelUnit := unitName par.unit
  runLimitNumAcquires := args.numAcquires
  runLimitTicks := args.runLimitTicks
  measNumber := measNumber
  testNumber := testNumber
  iteration := iteration
  numThreads := po.numThreads
  totalLockAcquires := ((slots.take po.numThreads).map fun slot => slot.results.lockAcquires).sum
  totalCputimeNs := ((slots.take po.numThreads).map fun slot => slot.results.cputimeNs).sum

/-- `reallocarray` to `num_reports + 10` entries when the table is full. -/
def Harness.grow (h : Harness) : Harness :=
  if h.numReports = h.reportCapacity then
    { h with
      reportSummary := (h.reportSummary ++ List.replicate (h.numReports + 10) none).take (h.numReports + 10)
      reportCapacity := h.reportCapacity + 10 }
  else h

/-- `standard_report` stores its record behind the others; a store outside the table is lost. -/
def Harness.append (h : Harness) (r : ReportData) : Harness :=
  { h.grow with reportSummary := h.grow.reportSummary.set h.numReports (some r), numReports := h.numReports + 1 }

/-- `run_one_experiment`, with the loop of `main` that fills in the arguments of its threads. -/
def runOneExperiment (ipinorder : ℕ) (po : Pinorder) (cpus : List (BitVec 32)) (crit par : Duration)
    (iteration : ℕ) (h : Harness) : Harness :=
  let measurement := h.measurementCounter + 1
  let ready := forLoop (fun i slots => slots.modify i (setUpThread args po cpus crit par i)) po.numThreads h.threadArgs
  let done := forLoop (fun i slots => slots.modify i (runThread work args measurement i)) po.numThreads ready
  { h with threadArgs := done, measurementCounter := measurement }.append
    (reportData args done ipinorder po measurement h.testCounter iteration crit par)

/-- The body of the four loops. -/
def experiment (ipinorder icrit ipar iteration : ℕ) (h : Harness) : Harness :=
  match args.pinorders[ipinorder]?, args.crits[icrit]?, args.pars[ipar]? with
  | some po, some crit, some par =>
    runOneExperiment work args ipinorder po (po.cpuList.getD []) crit par iteration h
  | _, _, _ => h

/-- The four loops of `main`, which it makes twice: over pinorders, critical durations, parallel
durations, where a test begins, and iterations from 1 on. -/
def forExperiments {σ : Type*} (test : σ → σ) (body : (ipinorder icrit ipar iteration : ℕ) → σ → σ) (s : σ) : σ :=
  forLoop (fun ipinorder s =>
    forLoop (fun icrit s =>
      forLoop (fun ipar s =>
        forLoop (fun i s => body ipinorder icrit ipar (i + 1) s) args.iterations (test s))
        args.pars.length s)
      args.crits.length s)
    args.pinorders.length s

def processPinorders : Harness → Harness :=
  forExperiments args (fun h => { h with testCounter := h.testCounter + 1 }) (experiment work args)

def zeroSlot : Slot := ⟨⟨0, 0, 0, ⟨0, .ns⟩, ⟨0, .ns⟩, 0, 0, 0⟩, ⟨⟨0, 0, 0, 0, 0, 0⟩, 0⟩⟩

/-- The globals when the program starts. -/
def start : Harness := ⟨List.replicate maxThreads zeroSlot, 0, 0, 0, 0, []⟩

end Main

section Order
variable {args : TestArgs}

/-- The number of a test, from 0 on. -/
def TestArgs.test (args : TestArgs) (ipinorder icrit ipar : ℕ) : ℕ :=
  (ipinorder * args.crits.length + icrit) * args.pars.length + ipar

/-- What holds of the numbers of tests and measurements so far, through all four loops. -/
theorem forExperiments_invariant {σ : Type*} {test : σ → σ} {body : ℕ → ℕ → ℕ → ℕ → σ → σ} {s : σ}
    {P : (tests measurements : ℕ) → σ → Prop} (h₀ : P 0 0 s)
    (htest : ∀ n s, P n (n * args.iterations) s → P (n + 1) (n * args.iterations) (test s))
    (hbody : ∀ ip < args.pinorders.length, ∀ ic < args.crits.length, ∀ ia < args.pars.length,
      ∀ i < args.iterations, ∀ s, P (args.test ip ic ia + 1) (args.test ip ic ia * args.iterations + i) s →
        P (args.test ip ic ia + 1) (args.test ip ic ia * args.iterations + (i + 1)) (body ip ic ia (i + 1) s)) :
    P (args.pinorders.length * args.crits.length * args.pars.length)
      (args.pinorders.length * args.crits.length * args.pars.length * args.iterations)
      (forExperiments args test body s) := by
  refine forLoop_invariant (P := fun ip s => P (ip * args.crits.length * args.pars.length)
    (ip * args.crits.length * args.pars.length * args.iterations) s) (by simpa using h₀) ?_
  intro ip hip s hs
  have hcrits := forLoop_invariant (n := args.crits.length) (s := s)
    (P := fun ic s => P ((ip * args.crits.length + ic) * args.pars.length)
      ((ip * args.crits.length + ic) * args.pars.length * args.iterations) s)
    (f := fun icrit s => forLoop (fun ipar s => forLoop (fun i s => body ip icrit ipar (i + 1) s)
      args.iterations (test s)) args.pars.length s) (by simpa using hs) ?_
  · rwa [← Nat.succ_mul] at hcrits
  intro ic hic s hs
  have hpars := forLoop_invariant (n := args.pars.length) (s := s)
    (P := fun ia s => P (args.test ip ic ia) (args.test ip ic ia * args.iterations) s)
    (f := fun ipar s => forLoop (fun i s => body ip ic ipar (i + 1) s) args.iterations (test s)) hs ?_
  · rwa [TestArgs.test, ← Nat.succ_mul] at hpars
  intro ia hia s hs
  have hiters := forLoop_invariant (n := args.iterations) (s := test s)
    (P := fun i s => P (args.test ip ic ia + 1) (args.test ip ic ia * args.iterations + i) s)
    (htest _ s hs) fun i hi s hs => hbody ip hip ic hic ia hia i hi s hs
  rwa [← Nat.succ_mul] at hiters

end Order

section Table
variable {h : Harness} {r : ReportData}

/-- The table has an entry for each report, and no others are in use. -/
structure Harness.Table (h : Harness) (entries : List ReportData) : Prop where
  slots : h.threadArgs.length = maxThreads
  count : h.measurementCounter = entries.length ∧ h.numReports = entries.length
  capacity : h.reportSummary.length = h.reportCapacity ∧ h.numReports ≤ h.reportCapacity
  stored : ∀ k < entries.length, h.reportSummary[k]? = some entries[k]?

lemma start_table : start.Table [] where
  slots := List.length_replicate
  count := ⟨rfl, rfl⟩
  capacity := ⟨rfl, Nat.zero_le _⟩
  stored _ hk := absurd hk (Nat.not_lt_zero _)

lemma Harness.Table.grow {entries : List ReportData} (h' : h.Table entries) :
    h.grow.reportSummary.length = h.grow.reportCapacity ∧ h.numReports < h.grow.reportCapacity ∧
      ∀ k < entries.length, h.grow.reportSummary[k]? = some entries[k]? := by
  obtain ⟨-, ⟨-, hcount⟩, ⟨hlen, hle⟩, hstored⟩ := h'
  unfold Harness.grow
  split
  · next hfull =>
    refine ⟨?_, by simp only; omega, fun k hk => ?_⟩
    · simp only [List.length_take, List.length_append, List.length_replicate]
      omega
    · simp only
      rw [List.getElem?_take_of_lt (by omega), List.getElem?_append_left (by omega)]
      exact hstored k hk
  · exact ⟨hlen, by omega, hstored⟩

/-- A record is stored behind the others, inside the table. -/
lemma Harness.Table.append {entries : List ReportData} (h' : h.Table entries) (slots : List Slot)
    (hslots : slots.length = maxThreads) :
    ({ h with threadArgs := slots, measurementCounter := h.measurementCounter + 1 }.append r).Table (entries ++ [r]) := by
  set h₁ : Harness := { h with threadArgs := slots, measurementCounter := h.measurementCounter + 1 } with hh₁
  have hgrow : h₁.grow = { h.grow with threadArgs := slots, measurementCounter := h.measurementCounter + 1 } := by
    simp only [Harness.grow, hh₁]
    split <;> rfl
  obtain ⟨hlen, hlt, hstored⟩ := h'.grow
  have hcount := h'.count
  refine ⟨?_, ⟨?_, ?_⟩, ⟨?_, ?_⟩, fun k hk => ?_⟩
  · rw [Harness.append, hgrow]
    exact hslots
  · rw [Harness.append, hgrow, List.length_append, List.length_singleton, ← hcount.1]
  · rw [Harness.append, List.length_append, List.length_singleton, ← hcount.2]
  · rw [Harness.append, hgrow]
    simpa using hlen
  · rw [Harness.append, hgrow]
    exact hlt
  · rw [Harness.append, hgrow]
    simp only [hh₁]
    rw [List.length_append, List.length_singleton] at hk
    by_cases hlast : k = entries.length
    · subst hlast
      rw [hcount.2, List.getElem?_set_self (by omega), List.getElem?_concat_length]
    · rw [hcount.2, List.getElem?_set_ne (Ne.symm hlast), List.getElem?_append_left (by omega)]
      exact hstored k (by omega)

end Table

section Records
variable (work : Work) (args : TestArgs)

/-- Worker `thread` of the measurement is not cancelled before it has stored its CPU. -/
def GetsPinned (timeoutUsec : BitVec 64) (measurement thread : ℕ) : Prop :=
  timeoutUsec ≠ 0 → ∀ a, (work measurement thread a).pinned = true

/-- The slot of thread `i` after a measurement, with what was in it before. -/
def workerSlot (po : Pinorder) (cpus : List (BitVec 32)) (crit par : Duration) (measurement : ℕ)
    (before : ℕ → Slot) (i : ℕ) : Slot :=
  runThread work args measurement i (setUpThread args po cpus crit par i (before i))

/-- The record of an experiment with these workers and these slots before it. -/
def recordBehind (before : ℕ → Slot) (ipinorder : ℕ) (po : Pinorder) (crit par : Duration)
    (measNumber testNumber iteration : ℕ) : ReportData :=
  reportData args
    ((List.range po.numThreads).map (workerSlot work args po (po.cpuList.getD []) crit par measNumber before))
    ipinorder po measNumber testNumber iteration crit par

/-- The record of an experiment as if it was the first. -/
def record : (ipinorder : ℕ) → (po : Pinorder) → (crit par : Duration) →
    (measNumber testNumber iteration : ℕ) → ReportData := recordBehind work args fun _ => zeroSlot

variable {work args} {h : Harness}

lemma reportData_take (slots : List Slot) (ipinorder : ℕ) (po : Pinorder) (measNumber testNumber iteration : ℕ)
    (crit par : Duration) : reportData args (slots.take po.numThreads) ipinorder po measNumber testNumber iteration crit par =
      reportData args slots ipinorder po measNumber testNumber iteration crit par := by
  simp only [reportData, List.take_take, min_self]

/-- The slot of a worker that has stored its CPU, which keeps nothing of what was there before. -/
lemma workerSlot_pinned {po : Pinorder} {cpus : List (BitVec 32)} {crit par : Duration} {measurement i : ℕ}
    (hp : GetsPinned work args.timeoutUsec measurement i) (before : ℕ → Slot) {a : ThreadArgs}
    (ha : a = (setUpThread args po cpus crit par i zeroSlot).args) :
    workerSlot work args po cpus crit par measurement before i =
      ⟨a, ⟨(work measurement i a).results, a.runOnThisCpu⟩⟩ := by
  subst ha
  unfold workerSlot runThread
  by_cases htimeout : args.timeoutUsec = 0
  · simp only [if_pos htimeout]
    rfl
  · have hpinned := hp htimeout (setUpThread args po cpus crit par i (before i)).args
    unfold WorkerEnd.pinned at hpinned
    simp only [if_neg htimeout]
    cases hend : (work measurement i (setUpThread args po cpus crit par i (before i)).args).cancelled with
    | none => rfl
    | some point =>
      rw [hend] at hpinned
      cases point with
      | behindAffinity => rfl
      | beforeCleanup => exact absurd hpinned Bool.false_ne_true
      | beforeAffinity => exact absurd hpinned Bool.false_ne_true

variable (work args) in
/-- The slots of an experiment, from those before it. -/
lemma workers_eq {slots : List Slot} {po : Pinorder} (hn : po.numThreads ≤ slots.length) (cpus : List (BitVec 32))
    (crit par : Duration) (measurement : ℕ) :
    (forLoop (fun i slots => slots.modify i (runThread work args measurement i)) po.numThreads
      (forLoop (fun i slots => slots.modify i (setUpThread args po cpus crit par i)) po.numThreads slots)).take
        po.numThreads =
      (List.range po.numThreads).map
        (workerSlot work args po cpus crit par measurement fun i => slots.getD i zeroSlot) := by
  obtain ⟨-, hready⟩ := forLoop_modify (setUpThread args po cpus crit par) po.numThreads slots
  obtain ⟨-, hdone⟩ := forLoop_modify (runThread work args measurement) po.numThreads
    (forLoop (fun i slots => slots.modify i (setUpThread args po cpus crit par i)) po.numThreads slots)
  refine List.ext_getElem? fun j => ?_
  by_cases hj : j < po.numThreads
  · rw [List.getElem?_take_of_lt hj, hdone, if_pos hj, hready, if_pos hj, List.getElem?_map,
      List.getElem?_range hj, List.getElem?_eq_getElem (hj.trans_le hn)]
    simp only [Option.map_some, workerSlot, List.getD_eq_getElem _ _ (hj.trans_le hn)]
  · rw [List.getElem?_take_eq_none (not_lt.mp hj), List.getElem?_map, List.getElem?_eq_none (by simpa using hj)]
    rfl

lemma Harness.Table.runOneExperiment {entries : List ReportData} (h' : h.Table entries) (ipinorder : ℕ)
    {po : Pinorder} (hn : po.numThreads ≤ maxThreads) (crit par : Duration) (iteration : ℕ) :
    (Experiments.runOneExperiment work args ipinorder po (po.cpuList.getD []) crit par iteration h).Table
      (entries ++ [recordBehind work args (fun i => h.threadArgs.getD i zeroSlot) ipinorder po crit par
        (entries.length + 1) h.testCounter iteration]) := by
  have hlen (f : ℕ → Slot → Slot) (slots : List Slot) :=
    (forLoop_modify f po.numThreads slots).1
  have hrecord := workers_eq work args (h'.slots ▸ hn) (po.cpuList.getD []) crit par
    (h.measurementCounter + 1)
  have hnext := h'.append (r := recordBehind work args (fun i => h.threadArgs.getD i zeroSlot) ipinorder po crit
      par (entries.length + 1) h.testCounter iteration)
    _ (((hlen (runThread work args (h.measurementCounter + 1)) _).trans
      (hlen (setUpThread args po (po.cpuList.getD []) crit par) h.threadArgs)).trans h'.slots)
  rw [recordBehind, ← h'.count.1, ← hrecord, reportData_take] at hnext ⊢
  exact hnext

lemma runOneExperiment_testCounter (ipinorder : ℕ) (po : Pinorder) (cpus : List (BitVec 32)) (crit par : Duration)
    (iteration : ℕ) :
    (runOneExperiment work args ipinorder po cpus crit par iteration h).testCounter = h.testCounter := by
  simp only [runOneExperiment, Harness.append, Harness.grow]
  split <;> rfl

end Records

section Reports
variable {work : Work} {args : TestArgs}

/-- The place of a measurement among all of them. -/
def TestArgs.index (args : TestArgs) (ipinorder icrit ipar i : ℕ) : ℕ :=
  args.test ipinorder icrit ipar * args.iterations + i

lemma digits_inj {b q q' i i' : ℕ} (hi : i < b) (hi' : i' < b) (h : q * b + i = q' * b + i') : q = q' ∧ i = i' := by
  have hb : 0 < b := by omega
  obtain ⟨hq, hr⟩ := (Nat.div_mod_unique hb).mpr ⟨(show i + b * q = q * b + i by rw [mul_comm, add_comm]), hi⟩
  obtain ⟨hq', hr'⟩ := (Nat.div_mod_unique hb).mpr ⟨(show i' + b * q' = q' * b + i' by rw [mul_comm, add_comm]), hi'⟩
  rw [h] at hq hr
  exact ⟨hq.symm.trans hq', hr.symm.trans hr'⟩

/-- Different measurements have different places. -/
lemma index_inj {ip ip' ic ic' ia ia' i i' : ℕ} (hc : ic < args.crits.length) (hc' : ic' < args.crits.length)
    (ha : ia < args.pars.length) (ha' : ia' < args.pars.length) (hi : i < args.iterations) (hi' : i' < args.iterations)
    (h : args.index ip ic ia i = args.index ip' ic' ia' i') : ip = ip' ∧ ic = ic' ∧ ia = ia' ∧ i = i' := by
  obtain ⟨htest, hieq⟩ := digits_inj hi hi' h
  obtain ⟨hpair, hpar⟩ := digits_inj ha ha' htest
  obtain ⟨hpin, hcrit⟩ := digits_inj hc hc' hpair
  exact ⟨hpin, hcrit, hpar, hieq⟩

/-- The records of the measurements done so far. -/
structure Recorded (work : Work) (args : TestArgs) (tests measurements : ℕ) (h : Harness) (entries : List ReportData) :
    Prop where
  table : h.Table entries
  length : entries.length = measurements
  tests : h.testCounter = tests
  entry : ∀ ip po ic crit ia par i, args.pinorders[ip]? = some po → args.crits[ic]? = some crit →
    args.pars[ia]? = some par → i < args.iterations → args.index ip ic ia i < measurements →
      ∃ before, entries[args.index ip ic ia i]? =
        some (recordBehind work args before ip po crit par (args.index ip ic ia i + 1) (args.test ip ic ia + 1) (i + 1))
  made : ∀ r ∈ entries, ∃ before ip po crit par measNumber testNumber iteration,
    po ∈ args.pinorders ∧ r = recordBehind work args before ip po crit par measNumber testNumber iteration

/-- Every experiment adds its record. -/
lemma Recorded.experiment {h : Harness} {entries : List ReportData} {ip ic ia i : ℕ}
    (hrun : ∀ po ∈ args.pinorders, po.numThreads ≤ maxThreads) (hp : ip < args.pinorders.length)
    (hc : ic < args.crits.length) (ha : ia < args.pars.length) (hi : i < args.iterations)
    (h' : Recorded work args (args.test ip ic ia + 1) (args.index ip ic ia i) h entries) :
    ∃ entries', Recorded work args (args.test ip ic ia + 1) (args.index ip ic ia i + 1)
      (Experiments.experiment work args ip ic ia (i + 1) h) entries' := by
  obtain ⟨htable, hlen, htests, hentry, hmade⟩ := h'
  have hpo := List.getElem?_eq_getElem hp
  have hcrit := List.getElem?_eq_getElem hc
  have hpar := List.getElem?_eq_getElem ha
  unfold Experiments.experiment
  rw [hpo, hcrit, hpar]
  refine ⟨_, htable.runOneExperiment ip (hrun _ (List.getElem_mem hp)) _ _ (i + 1), ?_, ?_, ?_, ?_⟩
  · rw [List.length_append, List.length_singleton, hlen]
  · exact (runOneExperiment_testCounter _ _ _ _ _ _).trans htests
  · intro ip' po ic' crit ia' par i' hpo' hcrit' hpar' hi' hlt
    by_cases hlast : args.index ip' ic' ia' i' = args.index ip ic ia i
    · obtain ⟨rfl, rfl, rfl, rfl⟩ := index_inj (List.getElem?_eq_some_iff.mp hcrit').1 hc
        (List.getElem?_eq_some_iff.mp hpar').1 ha hi' hi hlast
      obtain rfl := Option.some.inj (hpo.symm.trans hpo')
      obtain rfl := Option.some.inj (hcrit.symm.trans hcrit')
      obtain rfl := Option.some.inj (hpar.symm.trans hpar')
      refine ⟨fun j => h.threadArgs.getD j zeroSlot, ?_⟩
      rw [← hlen, List.getElem?_concat_length, hlen, htests]
    · rw [List.getElem?_append_left (by omega)]
      exact hentry ip' po ic' crit ia' par i' hpo' hcrit' hpar' hi' (by omega)
  · intro r hr
    rcases List.mem_append.mp hr with hr | hr
    · exact hmade r hr
    · obtain rfl := List.mem_singleton.mp hr
      exact ⟨_, _, _, _, _, _, _, _, List.getElem_mem hp, rfl⟩

variable (work) in
theorem processPinorders_recorded (hrun : ∀ po ∈ args.pinorders, po.numThreads ≤ maxThreads) :
    ∃ entries, Recorded work args (args.pinorders.length * args.crits.length * args.pars.length)
      (args.pinorders.length * args.crits.length * args.pars.length * args.iterations)
      (processPinorders work args start) entries := by
  refine forExperiments_invariant (P := fun tests measurements h => ∃ entries,
    Recorded work args tests measurements h entries) ⟨[], start_table, rfl, rfl, ?_, by simp⟩ ?_ ?_
  · intro ip po ic crit ia par i _ _ _ _ hlt
    exact absurd hlt (Nat.not_lt_zero _)
  · rintro n h ⟨entries, htable, hlen, htests, hentry, hmade⟩
    exact ⟨entries, ⟨htable.slots, htable.count, htable.capacity, htable.stored⟩, hlen, by rw [← htests], hentry,
      hmade⟩
  · rintro ip hp ic hc ia ha i hi h ⟨entries, h'⟩
    exact h'.experiment hrun hp hc ha hi

section Stats
variable {before : ℕ → Slot} {ip : ℕ} {po : Pinorder} {crit par : Duration} {measNumber testNumber iteration : ℕ}

lemma recordBehind_perThreadStats :
    (recordBehind work args before ip po crit par measNumber testNumber iteration).perThreadStats =
      (List.range po.numThreads).map fun i => perThreadStats i
        (workerSlot work args po (po.cpuList.getD []) crit par measNumber before i) := by
  simp only [recordBehind, reportData]
  rw [List.take_of_length_le (by simp)]
  refine List.ext_getElem? fun i => ?_
  rw [List.getElem?_mapIdx, List.getElem?_map, List.getElem?_map]
  by_cases hi : i < po.numThreads
  · rw [List.getElem?_range hi]
    rfl
  · rw [List.getElem?_eq_none (by simpa using hi)]
    rfl

/-- And its CPU is the one of the pinorder. -/
lemma recordBehind_cpu {cpus : List (BitVec 32)} (hcpus : po.cpuList = some cpus) (hlen : cpus.length = po.numThreads)
    {t : ℕ} (hp : GetsPinned work args.timeoutUsec measNumber t) :
    (recordBehind work args before ip po crit par measNumber testNumber iteration).perThreadStats[t]?.map (·.cpuNum) =
      cpus[t]?.map (·.signExtend 64) := by
  rw [recordBehind_perThreadStats, List.getElem?_map, hcpus]
  by_cases ht : t < po.numThreads
  · have hget : cpus.getD t 0 = cpus[t] := List.getD_eq_getElem _ _ (hlen ▸ ht)
    have hcpu : (workerSlot work args po cpus crit par measNumber before t).results.cpuAffined =
        (cpus.getD t 0).signExtend 64 := by
      rw [workerSlot_pinned hp before rfl]
      rfl
    rw [List.getElem?_range ht, List.getElem?_eq_getElem (hlen ▸ ht)]
    simp only [Option.map_some, perThreadStats, Option.getD_some, hcpu, hget]
  · rw [List.getElem?_eq_none (by simpa using ht), List.getElem?_eq_none (by omega)]
    rfl

end Stats

/-- The pinorders that `main` lets through: each thread has its CPU and its slot. -/
def Runnable (args : TestArgs) : Prop :=
  ∀ po ∈ args.pinorders, po.numThreads ≤ maxThreads ∧ ∃ cpus, po.cpuList = some cpus ∧ cpus.length = po.numThreads

/-- Two pinorders, two critical durations and three iterations, with a timer -/
def twoPinorders : TestArgs where
  pinorders := [⟨some [2, 0], 2, "2,0".toList, 0⟩, ⟨some [1], 1, "t1".toList, 0⟩]
  crits := [⟨5, .ns⟩, ⟨10, .insts⟩]
  pars := [⟨7, .ns⟩]
  iterations := 3
  numAcquires := 1
  runLimitTicks := 0
  runLimitInnerLoopIters := 10
  timeoutUsec := 1000000

lemma twoPinorders_runnable : Runnable twoPinorders := by
  intro po hpo
  obtain rfl | rfl : po = ⟨some [2, 0], 2, "2,0".toList, 0⟩ ∨ po = ⟨some [1], 1, "t1".toList, 0⟩ := by
    simpa [twoPinorders] using hpo
  · exact ⟨by decide, [2, 0], rfl, rfl⟩
  · exact ⟨by decide, [1], rfl, rfl⟩

/-- Every thread does one acquire in no time, but in every other measurement the timer strikes before
any of them but the first has a cleanup routine. -/
def oneAcquire : Work := fun measurement thread _ =>
  ⟨⟨1, 0, 0, 0, 0, 0⟩, if measurement % 2 = 0 ∧ thread ≠ 0 then some .beforeCleanup else none⟩

lemma oneAcquire_pinned {timeoutUsec : BitVec 64} {measurement thread : ℕ} (h : measurement % 2 = 1 ∨ thread = 0) :
    GetsPinned oneAcquire timeoutUsec measurement thread := by
  intro _ a
  simp only [oneAcquire]
  rw [if_neg (by omega)]
  rfl

end Reports

section Hmr
variable {work : Work} {args : TestArgs}

/-- The arguments that steer `hmr`. -/
def ThreadArgs.hmr (a : ThreadArgs) : Cancellation.ThreadArgs :=
  ⟨a.threadNum, a.numAcquires, a.runLimitTicks, a.runLimitInnerLoopIters⟩

/-- What the thread has stored in its results. -/
def stored (s : Cancellation.Hmr) : WorkerResults where
  lockAcquires := s.results.lockAcquires
  cputimeNs := s.results.cputimeNs.value
  walltimeNs := s.results.walltimeNs.value
  hmrdepth := s.results.hmrdepth
  hwtimerStart := s.results.hwtimerStart.value
  hwtimerEnd := s.results.hwtimerEnd.value

/-- The results of some run of `hmr` to its end. -/
def Measured (a : ThreadArgs) (w : WorkerResults) : Prop :=
  ∃ s inputs, Cancellation.Armed s ∧ (Cancellation.run a.hmr s inputs).pc = .popped ∧
    w = stored (Cancellation.run a.hmr s inputs)

lemma Measured.complete {a : ThreadArgs} {w : WorkerResults} (h : Measured a w) :
    (a.runLimitTicks = 0 → w.lockAcquires = a.numAcquires) ∧
      (a.runLimitTicks ≠ 0 → a.runLimitTicks ≤ w.hwtimerEnd - w.hwtimerStart) := by
  obtain ⟨s, inputs, hs, hpc, rfl⟩ := h
  have hc := ((hs.sound a.hmr).run inputs).complete hpc
  refine ⟨fun h0 => ?_, fun h0 => (hc.timed h0).2⟩
  refine hc.acquires.trans ?_
  rw [hc.counted h0]
  exact BitVec.ofNat_toNat _ _

/-- The workers of this run are threads that `hmr` has brought to its end. -/
def MeasuredBy (work : Work) (args : TestArgs) : Prop :=
  ∀ measurement i (a : ThreadArgs), a.numAcquires = args.numAcquires → a.runLimitTicks = args.runLimitTicks →
    a.runLimitInnerLoopIters = args.runLimitInnerLoopIters →
      (work measurement i a).cancelled = none ∧ Measured a (work measurement i a).results

/-- The results in the slot of a worker that is not cancelled are its own. -/
lemma workerSlot_results {po : Pinorder} {cpus : List (BitVec 32)} {crit par : Duration} {measurement : ℕ}
    {before : ℕ → Slot} {i : ℕ}
    (hdone : (work measurement i (setUpThread args po cpus crit par i (before i)).args).cancelled = none) :
    (workerSlot work args po cpus crit par measurement before i).results.toWorkerResults =
      (work measurement i (setUpThread args po cpus crit par i (before i)).args).results := by
  simp only [workerSlot, runThread, hdone, ite_self]

/-- With a number of acquires, every thread of every record has done them all, and the total is
their number times that of the threads. With a time limit, the time is up for every thread. -/
theorem reports_of_hmr (hrun : Runnable args) (hwork : MeasuredBy work args) {k : ℕ} {r : ReportData}
    (hk : k < (processPinorders work args start).numReports)
    (hr : (processPinorders work args start).reportSummary[k]? = some (some r)) :
    (args.runLimitTicks = 0 → (∀ st ∈ r.perThreadStats, st.lockAcquires = args.numAcquires) ∧
      r.totalLockAcquires = BitVec.ofNat 64 r.numThreads * args.numAcquires) ∧
    (args.runLimitTicks ≠ 0 → ∀ st ∈ r.perThreadStats, args.runLimitTicks ≤ st.hwtimerEnd - st.hwtimerStart) := by
  obtain ⟨entries, htable, -, -, -, hmade⟩ := processPinorders_recorded work fun po hpo => (hrun po hpo).1
  rw [htable.count.2] at hk
  rw [htable.stored k hk, Option.some.injEq] at hr
  obtain ⟨before, ip, po, crit, par, measNumber, testNumber, iteration, -, rfl⟩ := hmade r (List.mem_of_getElem? hr)
  have hdone (i : ℕ) : Measured (setUpThread args po (po.cpuList.getD []) crit par i (before i)).args
      (workerSlot work args po (po.cpuList.getD []) crit par measNumber before i).results.toWorkerResults := by
    obtain ⟨hend, hmeasured⟩ := hwork measNumber i
      (setUpThread args po (po.cpuList.getD []) crit par i (before i)).args rfl rfl rfl
    rw [workerSlot_results hend]
    exact hmeasured
  have hstat : ∀ st ∈ (recordBehind work args before ip po crit par measNumber testNumber iteration).perThreadStats,
      ∃ i, st = perThreadStats i (workerSlot work args po (po.cpuList.getD []) crit par measNumber before i) := by
    intro st hst
    rw [recordBehind_perThreadStats] at hst
    obtain ⟨i, -, rfl⟩ := List.mem_map.mp hst
    exact ⟨i, rfl⟩
  refine ⟨fun h0 => ⟨fun st hst => ?_, ?_⟩, fun h0 st hst => ?_⟩
  · obtain ⟨i, rfl⟩ := hstat st hst
    exact (hdone i).complete.1 h0
  · refine (congrArg List.sum (List.eq_replicate_iff.mpr ⟨?_, ?_⟩)).trans
      ((List.sum_replicate po.numThreads args.numAcquires).trans (nsmul_eq_mul _ _))
    · simp
    · intro v hv
      obtain ⟨slot, hslot, rfl⟩ := List.mem_map.mp hv
      obtain ⟨i, -, rfl⟩ := List.mem_map.mp (List.mem_of_mem_take hslot)
      exact (hdone i).complete.1 h0
  · obtain ⟨i, rfl⟩ := hstat st hst
    exact (hdone i).complete.2 h0

/-- `hmr` on a zeroed stack, with clocks and depths that are all 0. -/
def stillClock : Work := fun _ _ a =>
  ⟨stored (Cancellation.run a.hmr Cancellation.firstThread (List.replicate 24 0)), none⟩

lemma stillClock_measured : MeasuredBy stillClock twoPinorders := by
  intro measurement i a hacquires hticks _
  refine ⟨rfl, _, _, Cancellation.firstThread_armed, ?_, rfl⟩
  refine (Cancellation.firstThread_armed.sound a.hmr).popped hticks ?_ ?_
  · change a.numAcquires ≠ 0
    rw [hacquires]
    decide
  · change 20 + 4 * a.numAcquires.toNat ≤ _
    rw [hacquires]
    decide

theorem reports_of_hmr_twelve :
    ∃ r, (processPinorders stillClock twoPinorders start).reportSummary[0]? = some (some r) ∧
      r.totalLockAcquires = BitVec.ofNat 64 r.numThreads * 1 := by
  obtain ⟨entries, htable, hlen, -⟩ := processPinorders_recorded stillClock fun po hpo =>
    (twoPinorders_runnable po hpo).1
  have hpos : 0 < entries.length := hlen ▸ by decide
  have hr := htable.stored 0 hpos
  rw [List.getElem?_eq_getElem hpos] at hr
  have hk : 0 < (processPinorders stillClock twoPinorders start).numReports := htable.count.2 ▸ hpos
  exact ⟨_, hr, ((reports_of_hmr twoPinorders_runnable stillClock_measured hk hr).1 rfl).2⟩

end Hmr
end Lockhammer.Experiments
