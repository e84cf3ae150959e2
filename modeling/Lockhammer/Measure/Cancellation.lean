import Mathlib.Algebra.BigOperators.Group.List.Basic
import Mathlib.Data.BitVec

/-!
# A cancelled worker thread (measure.c)

`hmr` arms `thread_cleanup_routine` before it calibrates, takes its start stamps and runs the
timed or the counted loop, and the routine makes the record of a thread that is cancelled on
the way. Every store that the routine can see is a step, so a cancellation can strike between
any two of them. What the thread reads from outside (clocks, counters, measured durations,
the depths that `lock_acquire` returns) comes as one word a step.
-/
namespace Lockhammer.Cancellation

/-- A word, and whether it was written in this experiment. -/
structure Stamp where
  value : BitVec 64
  fresh : Bool
  deriving DecidableEq

def Stamp.read (value : BitVec 64) : Stamp := ⟨value, true⟩

/-- The time between two stamps is worth as much as both are. -/
def Stamp.since (fin start : Stamp) : Stamp := ⟨fin.value - start.value, fin.fresh && start.fresh⟩

/-- The fields of `per_thread_results_t` that the two routines write. -/
structure Results where
  lockAcquires : BitVec 64
  hmrdepth : BitVec 64
  cputimeNs : Stamp
  walltimeNs : Stamp
  hwtimerStart : Stamp
  hwtimerEnd : Stamp
  holdNs : Stamp
  postNs : Stamp

/-- The part of `cleanup_struct_t` that changes. -/
structure CleanupStruct where
  lockAcquires : BitVec 64
  totalDepth : BitVec 64
  ticksStart : Stamp
  ticksEnd : Stamp

/-- The thread arguments that steer `hmr`. -/
structure ThreadArgs where
  thread : ℕ
  numAcquires : BitVec 64
  runLimitTicks : BitVec 64
  runLimitInnerLoopIters : BitVec 64

/-- Between `pthread_cleanup_push` and the matching pop, by the next step. -/
inductive Pc
  | setup
  | measureHold
  | measurePost
  | storeHold
  | storePost
  | startMonot
  | startCputime
  | startTicks
  | publishStart
  | timedFor (i : BitVec 64)
  | timedCount (i : BitVec 64)
  | timedDepth
  | timedAcquires
  | timedWhile
  | countedWhile
  | countedCount
  | countedAcquires
  | countedDepth
  | countedEnd
  | endMonot
  | endCputime
  | storeStartNs
  | storeAcquires
  | storeCputime
  | storeWalltime
  | storeDepth
  | storeStart
  | storeEnd
  | popped

/-- The variables of `hmr` and `calibrate_timer`, what they point to, and the depths returned
in this experiment. -/
structure Hmr where
  pc : Pc
  lockAcquires : BitVec 64
  totalDepth : BitVec 64
  ticksStart : Stamp
  ticksEnd : Stamp
  tvMonotStart : Stamp
  tvMonotEnd : Stamp
  tvCputimeStart : Stamp
  tvCputimeEnd : Stamp
  holdNs : Stamp
  postNs : Stamp
  cs : CleanupStruct
  results : Results
  pStartNs : Stamp
  depths : List (BitVec 64)

/-- The loop that follows the start stamps. -/
def ThreadArgs.loop (x : ThreadArgs) : Pc := if x.runLimitTicks ≠ 0 then .timedFor 0 else .countedWhile

/-- The next step of the thread; `input` is the word that it reads. -/
def step (x : ThreadArgs) (s : Hmr) (input : BitVec 64) : Hmr :=
  match s.pc with
  -- affinity, the start handshake and the calibration of the two counts
  | .setup => { s with pc := .measureHold }
  | .measureHold => { s with holdNs := .read input, pc := .measurePost }
  | .measurePost => { s with postNs := .read input, pc := .storeHold }
  | .storeHold => { s with results := { s.results with holdNs := s.holdNs }, pc := .storePost }
  | .storePost => { s with results := { s.results with postNs := s.postNs }, pc := .startMonot }
  | .startMonot => { s with tvMonotStart := .read input, pc := .startCputime }
  | .startCputime => { s with tvCputimeStart := .read input, pc := .startTicks }
  | .startTicks => { s with ticksStart := .read input, pc := .publishStart }
  | .publishStart => { s with cs := { s.cs with ticksStart := s.ticksStart }, pc := x.loop }
  -- run for an amount of time
  | .timedFor i =>
    if i < x.runLimitInnerLoopIters then
      { s with totalDepth := s.totalDepth + input, depths := s.depths ++ [input], pc := .timedCount i }
    else
      { s with ticksEnd := .read input, cs := { s.cs with ticksEnd := .read input }, pc := .timedDepth }
  | .timedCount i => { s with lockAcquires := s.lockAcquires + 1, pc := .timedFor (i + 1) }
  | .timedDepth => { s with cs := { s.cs with totalDepth := s.totalDepth }, pc := .timedAcquires }
  | .timedAcquires => { s with cs := { s.cs with lockAcquires := s.lockAcquires }, pc := .timedWhile }
  | .timedWhile =>
    { s with pc := if s.ticksEnd.value - s.ticksStart.value < x.runLimitTicks then .timedFor 0 else .endMonot }
  -- run for a number of acquires
  | .countedWhile =>
    if x.numAcquires = 0 ∨ s.lockAcquires < x.numAcquires then
      { s with totalDepth := s.totalDepth + input, depths := s.depths ++ [input], pc := .countedCount }
    else { s with pc := .countedEnd }
  | .countedCount => { s with lockAcquires := s.lockAcquires + 1, pc := .countedAcquires }
  | .countedAcquires => { s with cs := { s.cs with lockAcquires := s.lockAcquires }, pc := .countedDepth }
  | .countedDepth => { s with cs := { s.cs with totalDepth := s.totalDepth }, pc := .countedWhile }
  | .countedEnd =>
    { s with ticksEnd := .read input, cs := { s.cs with ticksEnd := .read input }, pc := .endMonot }
  -- record results
  | .endMonot => { s with tvMonotEnd := .read input, pc := .endCputime }
  | .endCputime => { s with tvCputimeEnd := .read input, pc := .storeStartNs }
  | .storeStartNs => { s with pStartNs := if x.thread = 0 then s.tvMonotStart else s.pStartNs, pc := .storeAcquires }
  | .storeAcquires => { s with results := { s.results with lockAcquires := s.lockAcquires }, pc := .storeCputime }
  | .storeCputime =>
    { s with results := { s.results with cputimeNs := s.tvCputimeEnd.since s.tvCputimeStart }, pc := .storeWalltime }
  | .storeWalltime =>
    { s with results := { s.results with walltimeNs := s.tvMonotEnd.since s.tvMonotStart }, pc := .storeDepth }
  | .storeDepth => { s with results := { s.results with hmrdepth := s.totalDepth }, pc := .storeStart }
  | .storeStart => { s with results := { s.results with hwtimerStart := s.ticksStart }, pc := .storeEnd }
  | .storeEnd => { s with results := { s.results with hwtimerEnd := s.ticksEnd }, pc := .popped }
  | .popped => s

def run (x : ThreadArgs) (s : Hmr) (inputs : List (BitVec 64)) : Hmr := inputs.foldl (step x) s

/-- What `thread_cleanup_routine` leaves: the record, and `*p_start_ns`. -/
structure Report where
  results : Results
  pStartNs : Stamp

/-- The record of a thread that is cancelled in state `s`, with the three stamps taken then. -/
def threadCleanupRoutine (x : ThreadArgs) (s : Hmr) (ticksEnd tvMonotEnd tvEnd : BitVec 64) : Report where
  results :=
    { s.results with
      lockAcquires := s.cs.lockAcquires
      cputimeNs := (Stamp.read tvEnd).since s.tvCputimeStart
      walltimeNs := (Stamp.read tvMonotEnd).since s.tvMonotStart
      hmrdepth := s.cs.totalDepth
      hwtimerStart := s.cs.ticksStart
      hwtimerEnd := .read ticksEnd }
  pStartNs := if x.thread = 0 then s.tvMonotStart else s.pStartNs

/-- The thread behind `pthread_cleanup_push`: the designated initialiser zeroes the rest of
`cs`; the stack and the results hold whatever was there before. -/
structure Armed (s : Hmr) : Prop where
  pc : s.pc = .setup
  counts : s.lockAcquires = 0 ∧ s.totalDepth = 0 ∧ s.depths = []
  cs : s.cs = ⟨0, 0, ⟨0, false⟩, ⟨0, false⟩⟩
  stack : s.ticksStart.fresh = false ∧ s.tvMonotStart.fresh = false ∧ s.tvCputimeStart.fresh = false ∧
    s.holdNs.fresh = false ∧ s.postNs.fresh = false
  results : s.results.holdNs.fresh = false ∧ s.results.postNs.fresh = false

/-- The depth is that of exactly the acquires that are counted, and every time is computed from
stamps of this experiment. -/
structure Consistent (x : ThreadArgs) (depths : List (BitVec 64)) (r : Report) : Prop where
  acquires : r.results.lockAcquires.toNat ≤ depths.length
  depth : r.results.hmrdepth = (depths.take r.results.lockAcquires.toNat).sum
  hwtimerStart : r.results.hwtimerStart.fresh = true
  cputimeNs : r.results.cputimeNs.fresh = true
  walltimeNs : r.results.walltimeNs.fresh = true
  startNs : x.thread = 0 → r.pStartNs.fresh = true
  holdNs : r.results.holdNs.fresh = true
  postNs : r.results.postNs.fresh = true

section Stamps
variable {x : ThreadArgs} {s : Hmr}

/-- How far a thread is towards the measurement: the number of steps up to the loops. -/
def Pc.rank : Pc → ℕ
  | .setup => 0
  | .measureHold => 1
  | .measurePost => 2
  | .storeHold => 3
  | .storePost => 4
  | .startMonot => 5
  | .startCputime => 6
  | .startTicks => 7
  | .publishStart => 8
  | _ => 9

/-- Each stamp is fresh from its own step on. -/
structure Fresh (s : Hmr) : Prop where
  holdNs : s.holdNs.fresh = decide (1 < s.pc.rank)
  postNs : s.postNs.fresh = decide (2 < s.pc.rank)
  resultsHoldNs : s.results.holdNs.fresh = decide (3 < s.pc.rank)
  resultsPostNs : s.results.postNs.fresh = decide (4 < s.pc.rank)
  tvMonotStart : s.tvMonotStart.fresh = decide (5 < s.pc.rank)
  tvCputimeStart : s.tvCputimeStart.fresh = decide (6 < s.pc.rank)
  ticksStart : s.ticksStart.fresh = decide (7 < s.pc.rank)
  csTicksStart : s.cs.ticksStart.fresh = decide (8 < s.pc.rank)

lemma rank_loop (x : ThreadArgs) : x.loop.rank = 9 := by
  unfold ThreadArgs.loop
  split <;> rfl

/-- What the steps behind the start stamps leave alone. -/
structure SameStamps (s s' : Hmr) : Prop where
  rank : s'.pc.rank = s.pc.rank
  holdNs : s'.holdNs = s.holdNs
  postNs : s'.postNs = s.postNs
  resultsHoldNs : s'.results.holdNs = s.results.holdNs
  resultsPostNs : s'.results.postNs = s.results.postNs
  tvMonotStart : s'.tvMonotStart = s.tvMonotStart
  tvCputimeStart : s'.tvCputimeStart = s.tvCputimeStart
  ticksStart : s'.ticksStart = s.ticksStart
  csTicksStart : s'.cs.ticksStart = s.cs.ticksStart

lemma SameStamps.fresh {s' : Hmr} (h : SameStamps s s') (hf : Fresh s) : Fresh s' := by
  obtain ⟨hrank, h₁, h₂, h₃, h₄, h₅, h₆, h₇, h₈⟩ := h
  constructor
  · rw [h₁, hrank, hf.holdNs]
  · rw [h₂, hrank, hf.postNs]
  · rw [h₃, hrank, hf.resultsHoldNs]
  · rw [h₄, hrank, hf.resultsPostNs]
  · rw [h₅, hrank, hf.tvMonotStart]
  · rw [h₆, hrank, hf.tvCputimeStart]
  · rw [h₇, hrank, hf.ticksStart]
  · rw [h₈, hrank, hf.csTicksStart]

lemma step_sameStamps (x : ThreadArgs) (input : BitVec 64) (h : s.pc.rank = 9) :
    SameStamps s (step x s input) := by
  unfold step
  cases hpc : s.pc with
  | setup | measureHold | measurePost | storeHold | storePost | startMonot | startCputime | startTicks
  | publishStart => simp [hpc, Pc.rank] at h
  | timedFor i =>
    dsimp only
    split
    · exact ⟨by simp [hpc, Pc.rank], rfl, rfl, rfl, rfl, rfl, rfl, rfl, rfl⟩
    · exact ⟨by simp [hpc, Pc.rank], rfl, rfl, rfl, rfl, rfl, rfl, rfl, rfl⟩
  | timedWhile =>
    refine ⟨?_, rfl, rfl, rfl, rfl, rfl, rfl, rfl, rfl⟩
    dsimp only
    split <;> simp [hpc, Pc.rank]
  | countedWhile =>
    dsimp only
    split
    · exact ⟨by simp [hpc, Pc.rank], rfl, rfl, rfl, rfl, rfl, rfl, rfl, rfl⟩
    · exact ⟨by simp [hpc, Pc.rank], rfl, rfl, rfl, rfl, rfl, rfl, rfl, rfl⟩
  | _ => exact ⟨by simp [hpc, Pc.rank], rfl, rfl, rfl, rfl, rfl, rfl, rfl, rfl⟩

/-- A step takes its own stamp and no other. -/
theorem Fresh.step (h : Fresh s) (x : ThreadArgs) (input : BitVec 64) : Fresh (step x s input) := by
  obtain ⟨h₁, h₂, h₃, h₄, h₅, h₆, h₇, h₈⟩ := h
  by_cases hrank : s.pc.rank = 9
  · exact (step_sameStamps x input hrank).fresh ⟨h₁, h₂, h₃, h₄, h₅, h₆, h₇, h₈⟩
  · unfold Cancellation.step
    cases hpc : s.pc with
    | setup | measureHold | measurePost | storeHold | storePost | startMonot | startCputime | startTicks =>
      simp only [hpc, Pc.rank] at h₁ h₂ h₃ h₄ h₅ h₆ h₇ h₈
      constructor <;> simp [Pc.rank, Stamp.read, *]
    | publishStart =>
      simp only [hpc, Pc.rank] at h₁ h₂ h₃ h₄ h₅ h₆ h₇ h₈
      constructor <;> simp [rank_loop, *]
    | _ => simp [hpc, Pc.rank] at hrank

end Stamps

section Depths
variable {x : ThreadArgs} {s : Hmr} {k : ℕ}

/-- `cs` tells of the first `k` acquires. -/
structure Published (s : Hmr) (k : ℕ) : Prop where
  acquires : s.cs.lockAcquires = BitVec.ofNat 64 k
  depth : s.cs.totalDepth = (s.depths.take k).sum

/-- What `cs` tells at each point of the loops, and the count of the thread itself. The timed
loop stores the depth first, the counted loop the number of acquires. -/
def Told (s : Hmr) : Prop :=
  match s.pc with
  | .timedFor _ | .timedDepth =>
    s.lockAcquires = BitVec.ofNat 64 s.depths.length ∧ ∃ k ≤ s.depths.length, Published s k
  | .timedCount _ =>
    s.lockAcquires + 1 = BitVec.ofNat 64 s.depths.length ∧ ∃ k ≤ s.depths.length, Published s k
  | .timedAcquires =>
    s.lockAcquires = BitVec.ofNat 64 s.depths.length ∧ s.cs.totalDepth = s.depths.sum ∧
      ∃ k ≤ s.depths.length, s.cs.lockAcquires = BitVec.ofNat 64 k
  | .countedCount =>
    s.lockAcquires + 1 = BitVec.ofNat 64 s.depths.length ∧ ∃ k, s.depths.length = k + 1 ∧ Published s k
  | .countedAcquires =>
    s.lockAcquires = BitVec.ofNat 64 s.depths.length ∧ ∃ k, s.depths.length = k + 1 ∧ Published s k
  | .countedDepth =>
    s.cs.lockAcquires = BitVec.ofNat 64 s.depths.length ∧ s.lockAcquires = BitVec.ofNat 64 s.depths.length ∧
      ∃ k, s.depths.length = k + 1 ∧ s.cs.totalDepth = (s.depths.take k).sum
  | _ => s.lockAcquires = BitVec.ofNat 64 s.depths.length ∧ Published s s.depths.length

/-- Both counts of the thread. -/
structure Counted (s : Hmr) : Prop where
  total : s.totalDepth = s.depths.sum
  told : Told s

lemma ofNat_succ (n : ℕ) : BitVec.ofNat 64 n + 1 = BitVec.ofNat 64 (n + 1) := by
  apply BitVec.eq_of_toNat_eq
  simp

lemma step_total (h : s.totalDepth = s.depths.sum) (x : ThreadArgs) (input : BitVec 64) :
    (step x s input).totalDepth = (step x s input).depths.sum := by
  unfold step
  cases hpc : s.pc with
  | timedFor i =>
    dsimp only
    split
    · simp [h]
    · exact h
  | countedWhile =>
    dsimp only
    split
    · simp [h]
    · exact h
  | _ => exact h

theorem Counted.step (h : Counted s) (x : ThreadArgs) (input : BitVec 64) : Counted (step x s input) := by
  refine ⟨step_total h.total x input, ?_⟩
  have htotal := h.total
  have htold := h.told
  unfold Told at htold
  unfold Cancellation.step
  cases hpc : s.pc with
  | timedFor i =>
    rw [hpc] at htold
    obtain ⟨hcount, k, hk, hpub⟩ := htold
    dsimp only
    split
    · refine ⟨?_, k, ?_, hpub.acquires, ?_⟩
      · rw [hcount, ofNat_succ, List.length_append, List.length_singleton]
      · rw [List.length_append]
        omega
      · rw [List.take_append_of_le_length hk]
        exact hpub.depth
    · exact ⟨hcount, k, hk, hpub.acquires, hpub.depth⟩
  | timedCount i =>
    rw [hpc] at htold
    exact ⟨htold.1, htold.2.imp fun k hk => ⟨hk.1, hk.2.acquires, hk.2.depth⟩⟩
  | timedDepth =>
    rw [hpc] at htold
    obtain ⟨hcount, k, hk, hpub⟩ := htold
    exact ⟨hcount, htotal, k, hk, hpub.acquires⟩
  | timedAcquires =>
    rw [hpc] at htold
    obtain ⟨hcount, hdepth, -⟩ := htold
    exact ⟨hcount, hcount, by simpa using hdepth⟩
  | timedWhile =>
    rw [hpc] at htold
    obtain ⟨hcount, hpub⟩ := htold
    dsimp only
    split
    · exact ⟨hcount, s.depths.length, le_rfl, hpub.acquires, hpub.depth⟩
    · exact ⟨hcount, hpub.acquires, hpub.depth⟩
  | countedWhile =>
    rw [hpc] at htold
    obtain ⟨hcount, hpub⟩ := htold
    dsimp only
    split
    · refine ⟨?_, s.depths.length, ?_, hpub.acquires, ?_⟩
      · rw [hcount, ofNat_succ, List.length_append, List.length_singleton]
      · rw [List.length_append, List.length_singleton]
      · rw [List.take_append_of_le_length le_rfl]
        exact hpub.depth
    · exact ⟨hcount, hpub.acquires, hpub.depth⟩
  | countedCount =>
    rw [hpc] at htold
    obtain ⟨hcount, k, hk, hpub⟩ := htold
    exact ⟨hcount, k, hk, hpub.acquires, hpub.depth⟩
  | countedAcquires =>
    rw [hpc] at htold
    obtain ⟨hcount, k, hk, hpub⟩ := htold
    exact ⟨hcount, hcount, k, hk, hpub.depth⟩
  | countedDepth =>
    rw [hpc] at htold
    obtain ⟨hacquires, hcount, -⟩ := htold
    exact ⟨hcount, hacquires, by simpa using htotal⟩
  | publishStart =>
    rw [hpc] at htold
    obtain ⟨hcount, hpub⟩ := htold
    dsimp only [ThreadArgs.loop]
    split
    · exact ⟨hcount, s.depths.length, le_rfl, hpub.acquires, hpub.depth⟩
    · exact ⟨hcount, hpub.acquires, hpub.depth⟩
  | popped => exact h.told
  | _ =>
    rw [hpc] at htold
    exact ⟨htold.1, htold.2.acquires, htold.2.depth⟩

end Depths

section Cancelled
variable {x : ThreadArgs} {s : Hmr} {k : ℕ}

/-- Between the two stores of a loop, what the second one will make up for amounts to nothing. -/
def Settled (s : Hmr) : Prop :=
  match s.pc with
  | .timedAcquires => (s.depths.drop s.cs.lockAcquires.toNat).sum = 0
  | .countedDepth => s.depths.getLast? = some 0
  | _ => True

/-- The start stamps are taken and published, and a loop is not between its two stores. -/
structure Cancellable (s : Hmr) : Prop where
  started : s.pc.rank = 9
  settled : Settled s

lemma Armed.fresh (h : Armed s) : Fresh s := by
  obtain ⟨hticks, hmonot, hcputime, hhold, hpost⟩ := h.stack
  constructor <;> simp [h.pc, Pc.rank, h.cs, h.results.1, h.results.2, *]

lemma Armed.counted (h : Armed s) : Counted s := by
  obtain ⟨hacquires, htotal, hdepths⟩ := h.counts
  refine ⟨by simp [htotal, hdepths], ?_⟩
  unfold Told
  rw [h.pc]
  exact ⟨by simp [hacquires, hdepths], by simp [h.cs, hdepths], by simp [h.cs, hdepths]⟩

/-- Every state of the thread. -/
theorem Armed.run_inv (h : Armed s) (x : ThreadArgs) (inputs : List (BitVec 64)) :
    Fresh (run x s inputs) ∧ Counted (run x s inputs) := by
  have hinv : ∀ s, Fresh s ∧ Counted s → Fresh (run x s inputs) ∧ Counted (run x s inputs) := by
    induction inputs with
    | nil => exact fun s hs => hs
    | cons input inputs ih => exact fun s hs => ih _ ⟨hs.1.step x input, hs.2.step x input⟩
  exact hinv s ⟨h.fresh, h.counted⟩

lemma toNat_ofNat_of_le {n : ℕ} (hk : k ≤ n) (hn : n < 2 ^ 64) : (BitVec.ofNat 64 k).toNat = k := by
  rw [BitVec.toNat_ofNat]
  exact Nat.mod_eq_of_lt (by omega)

/-- The record of a published count is right. -/
lemma Published.record (h : Published s k) (hk : k ≤ s.depths.length) (hn : s.depths.length < 2 ^ 64) :
    s.cs.lockAcquires.toNat ≤ s.depths.length ∧
      s.cs.totalDepth = (s.depths.take s.cs.lockAcquires.toNat).sum := by
  rw [h.acquires, toNat_ofNat_of_le hk hn]
  exact ⟨hk, h.depth⟩

/-- Between the stores of the timed loop the depth is ahead. -/
lemma timed_record_iff (hdepth : s.cs.totalDepth = s.depths.sum) (j : ℕ) :
    s.cs.totalDepth = (s.depths.take j).sum ↔ (s.depths.drop j).sum = 0 := by
  have hsplit := List.sum_take_add_sum_drop s.depths j
  rw [hdepth, ← hsplit]
  exact add_eq_left

/-- Between those of the counted loop the number of acquires is. -/
lemma counted_record_iff (hlen : s.depths.length = k + 1) (hdepth : s.cs.totalDepth = (s.depths.take k).sum) :
    s.cs.totalDepth = (s.depths.take s.depths.length).sum ↔ s.depths.getLast? = some 0 := by
  obtain ⟨body, last, hbody⟩ : ∃ body last, s.depths = body ++ [last] := by
    obtain hnil | ⟨body, last, hbody⟩ := List.eq_nil_or_concat s.depths
    · simp [hnil] at hlen
    · exact ⟨body, last, by rw [hbody, List.concat_eq_append]⟩
  rw [hbody] at hlen hdepth ⊢
  obtain rfl : body.length = k := by simpa using hlen
  rw [hdepth, List.take_length, List.take_left', List.sum_append, List.sum_singleton]
  · rw [List.getLast?_append_cons, List.getLast?_singleton, Option.some.injEq]
    exact left_eq_add
  · rfl

/-- What the routine records of the acquires. -/
theorem Counted.record_iff (h : Counted s) (hn : s.depths.length < 2 ^ 64) :
    (s.cs.lockAcquires.toNat ≤ s.depths.length ∧
      s.cs.totalDepth = (s.depths.take s.cs.lockAcquires.toNat).sum) ↔ Settled s := by
  have htold := h.told
  unfold Told at htold
  unfold Settled
  cases hpc : s.pc with
  | timedFor _ | timedCount _ | timedDepth =>
    rw [hpc] at htold
    obtain ⟨-, k, hk, hpub⟩ := htold
    exact iff_of_true (hpub.record hk hn) trivial
  | timedAcquires =>
    rw [hpc] at htold
    obtain ⟨-, hdepth, k, hk, hacquires⟩ := htold
    have hle : s.cs.lockAcquires.toNat ≤ s.depths.length := by
      rw [hacquires, toNat_ofNat_of_le hk hn]
      exact hk
    rw [timed_record_iff hdepth]
    exact and_iff_right hle
  | countedCount | countedAcquires =>
    rw [hpc] at htold
    obtain ⟨-, k, hk, hpub⟩ := htold
    exact iff_of_true (hpub.record (by omega) hn) trivial
  | countedDepth =>
    rw [hpc] at htold
    obtain ⟨hacquires, -, k, hk, hdepth⟩ := htold
    rw [hacquires, toNat_ofNat_of_le le_rfl hn, counted_record_iff hk hdepth]
    exact and_iff_right le_rfl
  | _ =>
    rw [hpc] at htold
    exact iff_of_true (htold.2.record le_rfl hn) trivial

/-- In every run, the record of a cancelled thread is consistent just when the cancellation
strikes behind the start stamps and not between the two stores of a loop. -/
theorem threadCleanupRoutine_consistent_iff (h : Armed s) (x : ThreadArgs) (inputs : List (BitVec 64))
    (hn : (run x s inputs).depths.length < 2 ^ 64) (ticksEnd tvMonotEnd tvEnd : BitVec 64) :
    Consistent x (run x s inputs).depths
        (threadCleanupRoutine x (run x s inputs) ticksEnd tvMonotEnd tvEnd) ↔
      Cancellable (run x s inputs) := by
  obtain ⟨hfresh, hcounted⟩ := h.run_inv x inputs
  generalize run x s inputs = t at *
  have hrecord := hcounted.record_iff hn
  constructor
  · intro hc
    have hstart : t.cs.ticksStart.fresh = true := hc.hwtimerStart
    rw [hfresh.csTicksStart, decide_eq_true_eq] at hstart
    have hle : t.pc.rank ≤ 9 := by cases t.pc <;> simp [Pc.rank]
    exact ⟨by omega, hrecord.mp ⟨hc.acquires, hc.depth⟩⟩
  · intro hc
    obtain ⟨hacquires, hdepth⟩ := hrecord.mpr hc.settled
    obtain ⟨h₁, h₂, h₃, h₄, h₅, h₆, h₇, h₈⟩ := hfresh
    rw [hc.started] at h₃ h₄ h₅ h₆ h₈
    refine ⟨hacquires, hdepth, h₈, ?_, ?_, ?_, h₃, h₄⟩
    · simp [threadCleanupRoutine, Stamp.since, Stamp.read, h₆]
    · simp [threadCleanupRoutine, Stamp.since, Stamp.read, h₅]
    · intro hthread
      simp [threadCleanupRoutine, hthread, h₅]

/-- A thread of the first experiment, on a zeroed stack -/
def firstThread : Hmr where
  pc := .setup
  lockAcquires := 0
  totalDepth := 0
  ticksStart := ⟨0, false⟩
  ticksEnd := ⟨0, false⟩
  tvMonotStart := ⟨0, false⟩
  tvMonotEnd := ⟨0, false⟩
  tvCputimeStart := ⟨0, false⟩
  tvCputimeEnd := ⟨0, false⟩
  holdNs := ⟨0, false⟩
  postNs := ⟨0, false⟩
  cs := ⟨0, 0, ⟨0, false⟩, ⟨0, false⟩⟩
  results := ⟨0, 0, ⟨0, false⟩, ⟨0, false⟩, ⟨0, false⟩, ⟨0, false⟩, ⟨0, false⟩, ⟨0, false⟩⟩
  pStartNs := ⟨0, false⟩
  depths := []

lemma firstThread_armed : Armed firstThread :=
  ⟨rfl, ⟨rfl, rfl, rfl⟩, rfl, ⟨rfl, rfl, rfl, rfl, rfl⟩, rfl, rfl⟩

/-- After one acquire of depth 5 in the counted loop -/
theorem threadCleanupRoutine_consistent_one :
    Consistent ⟨0, 10, 0, 0⟩ [5] (threadCleanupRoutine ⟨0, 10, 0, 0⟩
      (run ⟨0, 10, 0, 0⟩ firstThread [0, 0, 0, 0, 0, 0, 0, 0, 0, 5, 0, 0, 0]) 0 0 0) :=
  (threadCleanupRoutine_consistent_iff firstThread_armed ⟨0, 10, 0, 0⟩
    [0, 0, 0, 0, 0, 0, 0, 0, 0, 5, 0, 0, 0] (by decide) 0 0 0).mpr ⟨rfl, trivial⟩

/-- One step earlier the acquire is counted and its depth is not. -/
theorem threadCleanupRoutine_tears_record :
    ¬ ∀ (x : ThreadArgs) (s : Hmr) (inputs : List (BitVec 64)) (ticksEnd tvMonotEnd tvEnd : BitVec 64),
      Armed s → (run x s inputs).pc ≠ .popped →
      Consistent x (run x s inputs).depths
        (threadCleanupRoutine x (run x s inputs) ticksEnd tvMonotEnd tvEnd) := by
  intro hall
  have hrecord := hall ⟨0, 10, 0, 0⟩ firstThread [0, 0, 0, 0, 0, 0, 0, 0, 0, 5, 0, 0] 0 0 0
    firstThread_armed nofun
  exact absurd hrecord.depth (by decide)

end Cancelled

end Lockhammer.Cancellation
