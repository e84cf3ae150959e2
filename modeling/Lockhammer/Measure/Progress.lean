import Mathlib.Data.BitVec
import Mathlib.Data.List.Basic

/-!
# Milestones of a counted run (measure.c, report.c)

With `PROGRESS_TICK_PROFILE` the counted loop of `hmr` stores the counter when a tenth, a
quarter, half, three quarters and nine tenths of the acquires are done, at most one of these
milestones in each round, and `starting_stopping_time_report` subtracts the stored values.
-/
namespace Lockhammer.Progress

/-- A target and the variable for its counter value, 0 until the milestone is recorded. -/
structure Milestone where
  target : ℕ
  hwtimer : BitVec 64
  deriving DecidableEq

/-- `update_timer_tick_progress`: its tests one after the other, of which the first to succeed
returns. None if no test succeeds; the counter is not read then. -/
def updateTimerTickProgress (lockAcquires : ℕ) (now : BitVec 64) : List Milestone → Option (List Milestone)
  | [] => none
  | m :: ms =>
    if lockAcquires > m.target ∧ m.hwtimer = 0 then some ({ m with hwtimer := now } :: ms)
    else (updateTimerTickProgress lockAcquires now ms).map (m :: ·)

/-- The milestones, and how often the counter was read. -/
structure State where
  milestones : List Milestone
  reads : ℕ

/-- The end of one round. -/
def tick (counter : ℕ → BitVec 64) (lockAcquires : ℕ) (st : State) : State :=
  match updateTimerTickProgress lockAcquires (counter st.reads) st.milestones with
  | none => st
  | some ms => ⟨ms, st.reads + 1⟩

/-- The counted loop of `hmr`. -/
def countedLoop (counter : ℕ → BitVec 64) (numAcquires : ℕ) :
    (fuel lockAcquires : ℕ) → State → Option State
  | 0, _, _ => none
  | fuel + 1, lockAcquires, st =>
    if numAcquires = 0 ∨ lockAcquires < numAcquires then
      countedLoop counter numAcquires fuel (lockAcquires + 1) (tick counter lockAcquires st)
    else some st

/-- `target_10p`, `target_25p`, `target_50p`, `target_75p` and `target_90p` -/
def targets (numAcquires : ℕ) : List ℕ :=
  let target25p := numAcquires / 4
  [numAcquires / 10, target25p, target25p * 2, target25p * 3, numAcquires * 9 / 10]

/-- The counter values among `per_thread_results_t`. -/
structure Results where
  hwtimerStart : BitVec 64
  hwtimer10p : BitVec 64
  hwtimer25p : BitVec 64
  hwtimer50p : BitVec 64
  hwtimer75p : BitVec 64
  hwtimer90p : BitVec 64
  hwtimerEnd : BitVec 64
  deriving DecidableEq

/-- `hmr` with a number of acquires: the counter is read before and after the loop. -/
def hmrCounted (counter : ℕ → BitVec 64) (numAcquires fuel : ℕ) : Option Results := do
  let st ← countedLoop counter numAcquires fuel 0 ⟨(targets numAcquires).map fun t => ⟨t, 0⟩, 1⟩
  match st.milestones with
  | [m10, m25, m50, m75, m90] =>
    some ⟨counter 0, m10.hwtimer, m25.hwtimer, m50.hwtimer, m75.hwtimer, m90.hwtimer, counter st.reads⟩
  | _ => none

/-- The subtractions of `starting_stopping_time_report` for one thread, with
`hwtimer_start_base` the earliest start of all threads. -/
def reportSubtractions (p : Results) (hwtimerStartBase : BitVec 64) : List (BitVec 64 × BitVec 64) :=
  [(p.hwtimer10p, p.hwtimerStart), (p.hwtimer25p, p.hwtimerStart), (p.hwtimer50p, p.hwtimerStart),
    (p.hwtimer75p, p.hwtimerStart), (p.hwtimer90p, p.hwtimerStart), (p.hwtimerEnd, p.hwtimerStart),
    (p.hwtimer90p, p.hwtimer10p),
    (p.hwtimerStart, hwtimerStartBase), (p.hwtimer10p, hwtimerStartBase), (p.hwtimer25p, hwtimerStartBase),
    (p.hwtimer50p, hwtimerStartBase), (p.hwtimer75p, hwtimerStartBase), (p.hwtimer90p, hwtimerStartBase),
    (p.hwtimerEnd, hwtimerStartBase)]

/-- The values stored, in the order of the milestones. -/
def Results.stored (p : Results) : List (BitVec 64) :=
  [p.hwtimer10p, p.hwtimer25p, p.hwtimer50p, p.hwtimer75p, p.hwtimer90p]

/-- All milestones are recorded, in order, and no subtraction of the report wraps. -/
structure Results.Ordered (p : Results) : Prop where
  recorded : ∀ v ∈ p.stored, v ≠ 0
  ordered : (p.hwtimerStart :: p.stored ++ [p.hwtimerEnd]).Pairwise (· ≤ ·)
  noWrap : ∀ base ≤ p.hwtimerStart, ∀ s ∈ reportSubtractions p base, s.2 ≤ s.1

lemma Results.Ordered.last_ne_zero {p : Results} (h : p.Ordered) : p.hwtimer90p ≠ 0 :=
  h.recorded p.hwtimer90p (.tail _ (.tail _ (.tail _ (.tail _ (.head _)))))

section Loop

variable {counter : ℕ → BitVec 64} {numAcquires : ℕ}

/-- What every round preserves holds after the last, and there is a last one. -/
lemma countedLoop_invariant (counter : ℕ → BitVec 64) {P : ℕ → State → Prop} (hn : numAcquires ≠ 0)
    (hstep : ∀ i st, P i st → P (i + 1) (tick counter i st)) {fuel i : ℕ} {st : State} (hi : i ≤ numAcquires)
    (hfuel : numAcquires < fuel + i) (hst : P i st) :
    ∃ st', countedLoop counter numAcquires fuel i st = some st' ∧ P numAcquires st' := by
  induction fuel generalizing i st with
  | zero => omega
  | succ fuel ih =>
    rw [countedLoop]
    obtain hlt | rfl := hi.lt_or_eq
    · rw [if_pos (.inr hlt)]
      exact ih hlt (by omega) (hstep i st hst)
    · rw [if_neg (by omega)]
      exact ⟨st, rfl, hst⟩

/-- A milestone is recorded only after more rounds than its target. -/
structure Passed (ts : List ℕ) (i : ℕ) (st : State) : Prop where
  targets : st.milestones.map Milestone.target = ts
  passed : ∀ m ∈ st.milestones, m.hwtimer = 0 ∨ m.target + 1 < i

lemma updateTimerTickProgress_passed {lockAcquires : ℕ} {now : BitVec 64} {ms ms' : List Milestone}
    (h : updateTimerTickProgress lockAcquires now ms = some ms') :
    ms'.map Milestone.target = ms.map Milestone.target ∧ ∀ m ∈ ms', m ∈ ms ∨ m.target < lockAcquires := by
  induction ms generalizing ms' with
  | nil => cases h
  | cons m ms ih =>
    rw [updateTimerTickProgress] at h
    split at h
    · next hpass =>
      obtain rfl := Option.some.inj h
      refine ⟨rfl, fun m' hm' => ?_⟩
      obtain rfl | hm' := List.mem_cons.mp hm'
      · exact .inr hpass.1
      · exact .inl (List.mem_cons_of_mem _ hm')
    · obtain ⟨rest, hrest, rfl⟩ := Option.map_eq_some_iff.mp h
      obtain ⟨htargets, hmem⟩ := ih hrest
      refine ⟨?_, fun m' hm' => ?_⟩
      · rw [List.map_cons, List.map_cons, htargets]
      · obtain rfl | hm' := List.mem_cons.mp hm'
        · exact .inl List.mem_cons_self
        · exact (hmem m' hm').imp_left (List.mem_cons_of_mem _)

lemma Passed.tick {ts : List ℕ} {i : ℕ} {st : State} (h : Passed ts i st) :
    Passed ts (i + 1) (tick counter i st) := by
  rw [Progress.tick]
  split
  · exact ⟨h.targets, fun m hm => (h.passed m hm).imp_right fun hlt => by omega⟩
  · next ms hms =>
    obtain ⟨htargets, hmem⟩ := updateTimerTickProgress_passed hms
    refine ⟨htargets.trans h.targets, fun m hm => ?_⟩
    obtain hold | hlt := hmem m hm
    · exact (h.passed m hold).imp_right fun hlt => by omega
    · exact .inr (Nat.succ_lt_succ hlt)

/-- The milestones after `i` rounds, each with a reading of its own, from reading `k` on. -/
def recorded (counter : ℕ → BitVec 64) (i : ℕ) : (k : ℕ) → List ℕ → List Milestone
  | _, [] => []
  | k, t :: ts => ⟨t, if t + 1 < i then counter k else 0⟩ :: recorded counter i (k + 1) ts

/-- The milestones passed after `i` rounds. -/
def passed (i : ℕ) (ts : List ℕ) : ℕ := ts.countP (· + 1 < i)

lemma recorded_ahead {i : ℕ} {ts : List ℕ} (h : ∀ t ∈ ts, i ≤ t + 1) (k : ℕ) :
    recorded counter i k ts = ts.map fun t => ⟨t, 0⟩ := by
  induction ts generalizing k with
  | nil => rfl
  | cons t ts ih =>
    have ht : i ≤ t + 1 := h t List.mem_cons_self
    rw [recorded, if_neg (by omega), ih fun t' ht' => h t' (List.mem_cons_of_mem _ ht'), List.map_cons]

lemma passed_ahead {i : ℕ} {ts : List ℕ} (h : ∀ t ∈ ts, i ≤ t + 1) : passed i ts = 0 := by
  refine List.countP_eq_zero.mpr fun t ht => ?_
  have hle := h t ht
  rw [decide_eq_true_iff]
  omega

lemma updateTimerTickProgress_ahead {i : ℕ} {now : BitVec 64} {ts : List ℕ} (h : ∀ t ∈ ts, i ≤ t) :
    updateTimerTickProgress i now (ts.map fun t => ⟨t, 0⟩) = none := by
  induction ts with
  | nil => rfl
  | cons t ts ih =>
    have ht : i ≤ t := h t List.mem_cons_self
    rw [List.map_cons, updateTimerTickProgress, if_neg (fun hpass => Nat.not_lt.mpr ht hpass.1),
      ih fun t' ht' => h t' (List.mem_cons_of_mem _ ht'), Option.map_none]

/-- A milestone that is recorded leaves the round to the later ones. -/
lemma tick_cons {i : ℕ} {m : Milestone} (hm : m.hwtimer ≠ 0) (ms : List Milestone) (reads : ℕ) :
    tick counter i ⟨m :: ms, reads⟩ =
      ⟨m :: (tick counter i ⟨ms, reads⟩).milestones, (tick counter i ⟨ms, reads⟩).reads⟩ := by
  rw [tick, tick, updateTimerTickProgress, if_neg fun hpass => hm hpass.2]
  cases updateTimerTickProgress i (counter reads) ms with
  | none => rfl
  | some ms' => rfl

lemma passed_cons_of_lt {i t : ℕ} (h : t + 1 < i) (ts : List ℕ) : passed i (t :: ts) = passed i ts + 1 :=
  List.countP_cons_of_pos (decide_eq_true h)

/-- With increasing targets no two milestones compete for a round. -/
lemma tick_recorded {ts : List ℕ} (hts : ts.Pairwise (· < ·)) (i k : ℕ) (hcounter : ∀ j, counter j ≠ 0) :
    tick counter i ⟨recorded counter i k ts, k + passed i ts⟩ =
      ⟨recorded counter (i + 1) k ts, k + passed (i + 1) ts⟩ := by
  induction ts generalizing k with
  | nil => rfl
  | cons t ts ih =>
    obtain ⟨hhead, htail⟩ := List.pairwise_cons.mp hts
    obtain hlt | rfl | hgt := lt_trichotomy i (t + 1)
    · -- no target is passed yet
      have hall : ∀ t' ∈ t :: ts, i ≤ t' := by
        intro t' ht'
        obtain rfl | ht' := List.mem_cons.mp ht'
        · omega
        · have hlt' := hhead t' ht'
          omega
      have hnext : ∀ t' ∈ t :: ts, i + 1 ≤ t' + 1 := fun t' ht' => Nat.succ_le_succ (hall t' ht')
      have hnow : ∀ t' ∈ t :: ts, i ≤ t' + 1 := fun t' ht' => (hall t' ht').trans (Nat.le_succ t')
      rw [recorded_ahead hnow, recorded_ahead hnext, passed_ahead hnow, passed_ahead hnext, tick,
        updateTimerTickProgress_ahead hall]
    · -- the first target is passed, and only this one
      have hrest : ∀ t' ∈ ts, t + 1 + 1 ≤ t' + 1 := fun t' ht' => Nat.succ_le_succ (hhead t' ht')
      have hnow : ∀ t' ∈ t :: ts, t + 1 ≤ t' + 1 := by
        intro t' ht'
        obtain rfl | ht' := List.mem_cons.mp ht'
        · exact le_rfl
        · exact (Nat.le_succ _).trans (hrest t' ht')
      have hfires : t + 1 > t ∧ (0 : BitVec 64) = 0 := ⟨Nat.lt_succ_self t, rfl⟩
      have hpassed : t + 1 < t + 1 + 1 := Nat.lt_succ_self _
      rw [recorded_ahead hnow, passed_ahead hnow, recorded, recorded_ahead hrest, passed_cons_of_lt hpassed,
        passed_ahead hrest, if_pos hpassed, List.map_cons, tick, updateTimerTickProgress, if_pos hfires]
      rfl
    · -- the first milestone is recorded already
      have hm : (if t + 1 < i then counter k else 0) ≠ 0 := by
        rw [if_pos hgt]
        exact hcounter k
      have hnext : t + 1 < i + 1 := by omega
      have hreads : ∀ n, k + (n + 1) = k + 1 + n := by
        intro n
        omega
      rw [recorded, recorded, passed_cons_of_lt hgt, passed_cons_of_lt hnext, tick_cons hm, hreads (passed i ts),
        hreads (passed (i + 1) ts), ih htail (k + 1), if_pos hgt, if_pos hnext]

/-- From eleven acquires on no two milestones share a target, and all are before the end. -/
lemma targets_increasing (hn : 11 ≤ numAcquires) : (targets numAcquires).Pairwise (· < ·) := by
  simp only [targets, List.pairwise_cons, List.mem_cons, List.not_mem_nil, or_false, forall_eq_or_imp, forall_eq,
    List.Pairwise.nil, and_true, false_imp_iff, implies_true]
  omega

lemma targets_reached (hn : 11 ≤ numAcquires) : ∀ t ∈ targets numAcquires, t + 1 < numAcquires := by
  simp only [targets, List.mem_cons, List.not_mem_nil, or_false, forall_eq_or_imp, forall_eq]
  omega

lemma start_ahead (ts : List ℕ) : ∀ t ∈ ts, 0 ≤ t + 1 := fun t _ => Nat.zero_le (t + 1)

/-- From eleven acquires on every milestone takes the next reading. -/
lemma hmrCounted_eq (hn : 11 ≤ numAcquires) (hcounter : ∀ j, counter j ≠ 0) {fuel : ℕ}
    (hfuel : numAcquires < fuel) : hmrCounted counter numAcquires fuel =
      some ⟨counter 0, counter 1, counter 2, counter 3, counter 4, counter 5, counter 6⟩ := by
  have hsorted := targets_increasing hn
  have hstart : (⟨(targets numAcquires).map fun t => ⟨t, 0⟩, 1⟩ : State) =
      ⟨recorded counter 0 1 (targets numAcquires), 1 + passed 0 (targets numAcquires)⟩ := by
    rw [recorded_ahead (start_ahead _), passed_ahead (start_ahead _)]
  obtain ⟨st, hst, rfl⟩ := countedLoop_invariant counter
    (P := fun i st => st = ⟨recorded counter i 1 (targets numAcquires), 1 + passed i (targets numAcquires)⟩)
    (by omega : numAcquires ≠ 0) (fun i st hst => hst ▸ tick_recorded hsorted i 1 hcounter) (Nat.zero_le _)
    (by omega : numAcquires < fuel + 0) hstart
  have hpassed : passed numAcquires (targets numAcquires) = 5 :=
    List.countP_eq_length.mpr fun t ht => decide_eq_true (targets_reached hn t ht)
  have hreached := targets_reached hn
  rw [hmrCounted, hst, hpassed]
  simp only [targets, List.mem_cons, List.not_mem_nil, or_false, forall_eq_or_imp, forall_eq] at hreached
  obtain ⟨h10, h25, h50, h75, h90⟩ := hreached
  simp only [Option.bind_eq_bind, Option.bind_some, targets, recorded, if_pos h10, if_pos h25, if_pos h50,
    if_pos h75, if_pos h90]

/-- Up to ten acquires the last milestone is never passed. -/
lemma hmrCounted_unrecorded (hn : 1 ≤ numAcquires) (hle : numAcquires ≤ 10) {fuel : ℕ}
    (hfuel : numAcquires < fuel) {p : Results} (hp : hmrCounted counter numAcquires fuel = some p) :
    p.hwtimer90p = 0 := by
  have hstart : Passed (targets numAcquires) 0 ⟨(targets numAcquires).map fun t => ⟨t, 0⟩, 1⟩ := by
    refine ⟨?_, fun m hm => ?_⟩
    · rw [List.map_map]
      exact List.map_id _
    · obtain ⟨t, -, rfl⟩ := List.mem_map.mp hm
      exact .inl rfl
  obtain ⟨st, hst, hpassed⟩ := countedLoop_invariant counter
    (P := Passed (targets numAcquires)) (by omega : numAcquires ≠ 0) (fun i st h => h.tick) (Nat.zero_le _)
    (by omega : numAcquires < fuel + 0) hstart
  rw [hmrCounted, hst] at hp
  simp only [Option.bind_eq_bind, Option.bind_some] at hp
  split at hp
  · next m10 m25 m50 m75 m90 hms =>
    obtain rfl := Option.some.inj hp
    have hlast : m90 ∈ st.milestones := by
      rw [hms]
      exact .tail _ (.tail _ (.tail _ (.tail _ (.head _))))
    have htargets := hpassed.targets
    rw [hms] at htargets
    have h90 : m90.target = numAcquires * 9 / 10 := congrArg (List.getLastD · 0) htargets
    exact (hpassed.passed m90 hlast).resolve_right (by omega)
  · cases hp

end Loop
/-- A counter that stops at seven. -/
def shortCounter (i : ℕ) : BitVec 64 := BitVec.ofNat 64 (min i 6 + 1)

lemma shortCounter_toNat (i : ℕ) : (shortCounter i).toNat = min i 6 + 1 := by
  rw [shortCounter, BitVec.toNat_ofNat]
  exact Nat.mod_eq_of_lt (by omega)

lemma shortCounter_mono (i j : ℕ) (h : i ≤ j) : shortCounter i ≤ shortCounter j := by
  rw [BitVec.le_def, shortCounter_toNat, shortCounter_toNat]
  omega

lemma shortCounter_ne_zero (j : ℕ) : shortCounter j ≠ 0 := by
  intro h
  have hval := shortCounter_toNat j
  rw [h] at hval
  cases hval

/-- The milestones of a counted run are all recorded, in order, and the report subtracts
without wrapping, exactly from eleven acquires on. -/
theorem milestones_ordered_iff {counter : ℕ → BitVec 64} (hmono : ∀ i j, i ≤ j → counter i ≤ counter j)
    (hcounter : ∀ j, counter j ≠ 0) {numAcquires : ℕ} (hn : 1 ≤ numAcquires) {fuel : ℕ}
    (hfuel : numAcquires < fuel) :
    (∃ p, hmrCounted counter numAcquires fuel = some p ∧ p.Ordered) ↔ 11 ≤ numAcquires := by
  constructor
  · rintro ⟨p, hp, hordered⟩
    by_contra hlt
    have h90 := hmrCounted_unrecorded hn (by omega) hfuel hp
    exact hordered.last_ne_zero h90
  · intro hle
    refine ⟨_, hmrCounted_eq hle hcounter hfuel, ?_, ?_, ?_⟩
    · simp only [Results.stored, List.mem_cons, List.not_mem_nil, or_false, forall_eq_or_imp, forall_eq]
      exact ⟨hcounter 1, hcounter 2, hcounter 3, hcounter 4, hcounter 5⟩
    · have hreadings : (List.range 7).Pairwise fun i j => counter i ≤ counter j :=
        List.pairwise_lt_range.imp fun hlt => hmono _ _ hlt.le
      exact List.pairwise_map.mpr hreadings
    · intro base hbase
      have hstart : ∀ j, counter 0 ≤ counter j := fun j => hmono 0 j (Nat.zero_le j)
      have hearliest : ∀ j, base ≤ counter j := fun j => BitVec.le_trans hbase (hstart j)
      simp only [reportSubtractions, List.mem_cons, List.not_mem_nil, or_false, forall_eq_or_imp, forall_eq]
      exact ⟨hstart 1, hstart 2, hstart 3, hstart 4, hstart 5, hstart 6, hmono 1 5 (by decide), hbase,
        hearliest 1, hearliest 2, hearliest 3, hearliest 4, hearliest 5, hearliest 6⟩

theorem milestones_ordered_eleven :
    (∃ p, hmrCounted shortCounter 11 12 = some p ∧ p.Ordered) ↔ 11 ≤ 11 :=
  milestones_ordered_iff shortCounter_mono shortCounter_ne_zero (by decide) (by decide)

/-- Of ten acquires the last one starts when nine are done, which is not more than nine. -/
theorem milestones_not_ordered_ten : ∃ p, hmrCounted shortCounter 10 11 = some p ∧ ¬ p.Ordered := by
  obtain ⟨p, hp⟩ : ∃ p, hmrCounted shortCounter 10 11 = some p := ⟨_, rfl⟩
  have h90 : p.hwtimer90p = 0 := hmrCounted_unrecorded (by decide) le_rfl (by decide) hp
  exact ⟨p, hp, fun hordered => hordered.last_ne_zero h90⟩

end Lockhammer.Progress
