import Lockhammer.Interleaving.Fairness
import Lockhammer.Interleaving.RetryLoop
import Lockhammer.Tbb.SpinRwMutex

/-!
# The reader-writer spin mutex under a fair schedule

The pending bit keeps new readers out, so whoever has set it must still be on its way: as long as
the bit is set, a writer is before its compare-and-swap. While nobody holds the mutex, the
additions that readers take back run out, the bit is set at most once, and no word that a
writer has loaded is then stale for ever.
-/
namespace Lockhammer.SpinRwMutex
open Interleaving

variable {χ : Type*} {choose : IsWriter χ} {n : ℕ} {p w : Bool} {c : Config (Fin n) Word (Thread χ)}

/-- The compare-and-swap of `cas64_acquire_release` where it fails on another word only. -/
def exact (choose : IsWriter χ) (n : ℕ) : Machine (Fin n) Unit Word (Thread χ) where
  step _ _ := step choose false

lemma reachable_of_exact {counts : Fin n → χ} (h : (exact choose n).Reachable (start counts) c) :
    (machine choose n).Reachable (start counts) c := by
  refine h.invariant (exact choose n) .start ?_
  intro c t _ hc
  exact hc.fire (machine choose n) t false

section Pending

/-- On the way to a compare-and-swap. -/
def Pc.seeks : Pc → Bool
  | .writerLoad | .writerCas _ => true
  | _ => false

/-- The pending bit is the request of a writer that is still there. -/
def Requested (c : Config (Fin n) Word (Thread χ)) : Prop :=
  c.shared.getLsbD 1 = true → ∃ t, (c.loc t).pc.seeks = true

lemma Inv.getLsbD_one (h : Inv choose p w c) : c.shared.getLsbD 1 = p := by
  rw [h.word, state_getLsbD_one]

lemma state_and_pending (r : ℕ) (p w : Bool) : state r p w &&& writerPending = state 0 p false := by
  have hm : writerPending = BitVec.twoPow 64 1 := rfl
  apply ext_low_two
  · rw [BitVec.getLsbD_and, hm, BitVec.getLsbD_twoPow, state_getLsbD_zero, state_getLsbD_zero]
    simp
  · rw [BitVec.getLsbD_and, hm, BitVec.getLsbD_twoPow, state_getLsbD_one, state_getLsbD_one]
    simp
  · intro i hi
    rw [BitVec.getLsbD_and, hm, BitVec.getLsbD_twoPow, state_getLsbD_add_two, state_getLsbD_add_two]
    simp

lemma Inv.pending_eq_zero_iff (h : Inv choose p w c) : c.shared &&& writerPending = 0 ↔ p = false := by
  rw [h.word, state_and_pending, state_eq_zero_iff (by omega)]
  simp

/-- What has to be shown of one step. -/
lemma Requested.fire (h : Requested c) {t : Fin n} {fails : Bool} {s : Word} {y : Thread χ}
    (hs : (machine choose n).step t fails c.shared (c.loc t) = (s, y))
    (hbit : s.getLsbD 1 = true → y.pc.seeks = true ∨
      c.shared.getLsbD 1 = true ∧ (c.loc t).pc.seeks = false) :
    Requested ((machine choose n).fire t fails c) := by
  intro hb
  rw [Machine.fire_shared_eq _ hs] at hb
  obtain hy | ⟨hold, ht⟩ := hbit hb
  · exact ⟨t, by rw [Machine.fire_loc_eq _ hs, if_pos rfl, hy]⟩
  · obtain ⟨u, hu⟩ := h hold
    have hne : u ≠ t := by
      rintro rfl
      rw [ht] at hu
      cases hu
    exact ⟨u, by rw [Machine.fire_loc_eq _ hs, if_neg hne, hu]⟩

lemma Requested.step (h : Requested c) (hi : Inv choose p w c) (t : Fin n) (fails : Bool) :
    Requested ((machine choose n).fire t fails c) := by
  refine h.fire (s := (SpinRwMutex.step choose fails c.shared (c.loc t)).1)
    (y := (SpinRwMutex.step choose fails c.shared (c.loc t)).2) rfl ?_
  cases hpc : (c.loc t).pc with
  | idle =>
    simp only [SpinRwMutex.step, hpc]
    exact fun hb => Or.inr ⟨hb, rfl⟩
  | writerLoad =>
    simp only [SpinRwMutex.step, hpc]
    split
    · exact fun _ => Or.inl rfl
    · split
      · next hp =>
        intro hb
        rw [hi.getLsbD_one, hi.pending_eq_zero_iff.mp hp] at hb
        cases hb
      · exact fun _ => Or.inl (by rw [hpc]; rfl)
  | writerCas s =>
    simp only [SpinRwMutex.step, hpc]
    split
    · intro hb
      change writer.getLsbD 1 = true at hb
      exact absurd hb (by decide)
    · exact fun _ => Or.inl rfl
  | writerOr =>
    simp only [SpinRwMutex.step, hpc]
    exact fun _ => Or.inl rfl
  | readerLoad =>
    simp only [SpinRwMutex.step, hpc]
    split
    · exact fun hb => Or.inr ⟨hb, rfl⟩
    · exact fun hb => Or.inr ⟨hb, rfl⟩
  | readerAdd =>
    simp only [SpinRwMutex.step, hpc, fetchadd64]
    rw [hi.word, state_add_oneReader, state_getLsbD_one, state_getLsbD_one]
    exact fun hb => Or.inr ⟨hb, rfl⟩
  | assertReaders =>
    simp only [SpinRwMutex.step, hpc]
    exact fun hb => Or.inr ⟨hb, rfl⟩
  | assertFailed =>
    simp only [SpinRwMutex.step, hpc]
    exact fun hb => Or.inr ⟨hb, rfl⟩
  | critical m =>
    simp only [SpinRwMutex.step, hpc]
    exact fun hb => Or.inr ⟨hb, rfl⟩
  | releaseWriter =>
    simp only [SpinRwMutex.step, hpc]
    rw [hi.word, state_and_readers, state_getLsbD_one]
    intro hb
    cases hb
  | readerUndo =>
    have hinv : Inv choose p w ((machine choose n).fire t fails c) :=
      hi.subReader (by rw [hpc]; rfl) (by simp only [machine, SpinRwMutex.step, hpc, fetchadd64]) (Or.inl ⟨rfl, hpc⟩)
    have hsub := hinv.getLsbD_one
    simp only [Machine.fire_shared, machine] at hsub
    rw [hsub, hi.getLsbD_one]
    exact fun hb => Or.inr ⟨hb, rfl⟩
  | releaseReader =>
    have hinv : Inv choose p w ((machine choose n).fire t fails c) :=
      hi.subReader (by rw [hpc]; rfl) (by simp only [machine, SpinRwMutex.step, hpc, fetchadd64Release, fetchadd64])
        (Or.inr ⟨rfl, hpc⟩)
    have hsub := hinv.getLsbD_one
    simp only [Machine.fire_shared, machine] at hsub
    rw [hsub, hi.getLsbD_one]
    exact fun hb => Or.inr ⟨hb, rfl⟩

lemma reachable_requested (hn : n < 2^60) {counts : Fin n → χ}
    (h : (machine choose n).Reachable (start counts) c) : (∃ p w, Inv choose p w c) ∧ Requested c := by
  refine h.invariant (machine choose n) (P := fun c => (∃ p w, Inv choose p w c) ∧ Requested c)
    ⟨⟨false, false, start_inv counts⟩, fun hb => by simp [start] at hb⟩ ?_
  rintro c t fails ⟨⟨p, w, hi⟩, hr⟩
  exact ⟨step_inv hn hi t fails, hr.step hi t fails⟩

end Pending

section Rank

/-- Holding the mutex in either mode. -/
def Pc.holds (pc : Pc) : Bool := pc.holdsWriter || pc.holdsReader

/-- The steps of a thread to its hold, for as long as the word does not change. -/
def Thread.work (word : Word) (x : Thread χ) : ℕ :=
  match x.pc with
  | .idle => 7
  | .writerLoad => 5
  | .writerCas s => if word = s then 1 else 6
  | .writerOr => if word &&& writerPending = 0 then 1 else 6
  | .readerLoad => 6
  | .readerAdd => 1
  | _ => 0

/-- The additions to take back, the bit to set, and the work. -/
def rank (c : Config (Fin n) Word (Thread χ)) : ℕ ×ₗ ℕ ×ₗ ℕ :=
  toLex (c.count (·.pc = .readerUndo),
    toLex (if c.shared &&& writerPending = 0 then 1 else 0, c.total (Thread.work c.shared)))

/-- Nobody holds the mutex. -/
structure Contended (choose : IsWriter χ) (c : Config (Fin n) Word (Thread χ)) : Prop where
  inv : ∃ p w, Inv choose p w c
  requested : Requested c
  none : ∀ t, (c.loc t).pc.holds = false

/-- A writer that waits for readers to take their additions back, or a reader that a writer keeps out. -/
def Stalled (word : Word) (x : Thread χ) : Prop :=
  x.pc = .writerLoad ∧ word &&& busy ≠ 0 ∧ word &&& writerPending ≠ 0 ∨
    x.pc = .readerLoad ∧ word &&& (writer ||| writerPending) ≠ 0

variable {t : Fin n} {y : Thread χ}

lemma Contended.inv_writer (h : Contended choose c) : ∃ p, Inv choose p false c := by
  obtain ⟨p, w, hi⟩ := h.inv
  cases w with
  | false => exact ⟨p, hi⟩
  | true =>
    obtain ⟨t, ht⟩ := hi.held.mp rfl
    have hnone := h.none t
    rw [Pc.holds, ht] at hnone
    cases hnone

/-- A step that leaves the word alone and is work. -/
lemma rank_lt_of_work (hs : (exact choose n).step t () c.shared (c.loc t) = (c.shared, y))
    (hold : (c.loc t).pc ≠ .readerUndo) (hnew : y.pc ≠ .readerUndo)
    (hwork : y.work c.shared < (c.loc t).work c.shared) : rank ((exact choose n).fire t () c) < rank c := by
  have hcount := (exact choose n).count_fire (fun x : Thread χ => x.pc = .readerUndo) t () c
  rw [hs, if_neg hold, if_neg hnew] at hcount
  have htotal : ((exact choose n).fire t () c).total (Thread.work c.shared) < c.total (Thread.work c.shared) := by
    apply Machine.total_fire_lt
    rwa [Machine.fire_loc_eq _ hs, if_pos rfl]
  rw [rank, rank, Machine.fire_shared_eq _ hs, Nat.add_right_cancel hcount]
  exact Prod.Lex.toLex_lt_toLex.mpr (Or.inr ⟨rfl, Prod.Lex.toLex_lt_toLex.mpr (Or.inr ⟨rfl, htotal⟩)⟩)

/-- A reader takes its addition back. -/
lemma rank_lt_of_undo (hold : (c.loc t).pc = .readerUndo) :
    rank ((exact choose n).fire t () c) < rank c := by
  have hcount := (exact choose n).count_fire (fun x : Thread χ => x.pc = .readerUndo) t () c
  have hnew : ((exact choose n).step t () c.shared (c.loc t)).2.pc ≠ .readerUndo := by
    simp [exact, step, hold]
  rw [if_pos hold, if_neg hnew] at hcount
  exact Prod.Lex.toLex_lt_toLex.mpr (Or.inl (by omega))

/-- A writer sets the pending bit. -/
lemma rank_lt_of_or (hold : (c.loc t).pc = .writerOr) (hbit : c.shared &&& writerPending = 0)
    (hi : Inv choose p w c) : rank ((exact choose n).fire t () c) < rank c := by
  have hs : (exact choose n).step t () c.shared (c.loc t) =
      (c.shared ||| writerPending, ⟨.writerLoad, (c.loc t).counts⟩) := by
    simp only [exact, step, hold]
  have hcount := (exact choose n).count_fire (fun x : Thread χ => x.pc = .readerUndo) t () c
  rw [hs, if_neg (by simp [hold]), if_neg (by simp)] at hcount
  have hset : ¬ (c.shared ||| writerPending) &&& writerPending = 0 := by
    rw [hi.word, state_or_pending, state_and_pending, state_eq_zero_iff (by omega)]
    simp
  rw [rank, rank, Machine.fire_shared_eq _ hs, Nat.add_right_cancel hcount, if_pos hbit, if_neg hset]
  exact Prod.Lex.toLex_lt_toLex.mpr (Or.inr ⟨rfl, Prod.Lex.toLex_lt_toLex.mpr (Or.inl Nat.zero_lt_one)⟩)

/-- Whoever is not stalled gets the mutex or lowers the rank. -/
lemma Contended.fire_rank (h : Contended choose c) (ht : ¬ Stalled c.shared (c.loc t)) :
    (((exact choose n).fire t () c).loc t).pc.holds = true ∨ rank ((exact choose n).fire t () c) < rank c := by
  obtain ⟨p, hi⟩ := h.inv_writer
  have hnone := h.none t
  cases hpc : (c.loc t).pc with
  | idle =>
    refine Or.inr (rank_lt_of_work (y := ⟨if (choose.call (c.loc t).counts 1).2 then .writerLoad
      else .readerLoad, (choose.call (c.loc t).counts 1).1⟩) ?_ (by simp [hpc]) ?_ ?_)
    · simp only [exact, step, hpc]
    · cases (choose.call (c.loc t).counts 1).2 <;> simp
    · cases (choose.call (c.loc t).counts 1).2 <;> simp [Thread.work, hpc]
  | writerLoad =>
    by_cases hb : c.shared &&& busy = 0
    · exact Or.inr (rank_lt_of_work (y := ⟨.writerCas c.shared, (c.loc t).counts⟩)
        (by simp only [exact, step, hpc, if_pos hb]) (by simp [hpc]) (by simp) (by simp [Thread.work, hpc]))
    · have hbit : c.shared &&& writerPending = 0 := by
        by_contra hne
        exact ht (Or.inl ⟨hpc, hb, hne⟩)
      exact Or.inr (rank_lt_of_work (y := ⟨.writerOr, (c.loc t).counts⟩)
        (by simp only [exact, step, hpc, if_neg hb, if_pos hbit]) (by simp [hpc]) (by simp)
        (by simp [Thread.work, hpc, hbit]))
  | writerCas s =>
    by_cases hfresh : c.shared = s
    · left
      rw [Machine.fire_loc_self]
      simp [exact, step, hpc, hfresh, Pc.holds, Pc.holdsWriter]
    · exact Or.inr (rank_lt_of_work (y := ⟨.writerLoad, (c.loc t).counts⟩)
        (by simp [exact, step, hpc, hfresh]) (by simp [hpc]) (by simp) (by simp [Thread.work, hpc, hfresh]))
  | writerOr =>
    by_cases hbit : c.shared &&& writerPending = 0
    · exact Or.inr (rank_lt_of_or hpc hbit hi)
    · -- the bit is set already, so that the word stays the same
      have hp : p = true := by
        rw [hi.pending_eq_zero_iff] at hbit
        simpa using hbit
      have hsame : c.shared ||| writerPending = c.shared := by
        rw [hi.word, state_or_pending, hp]
      exact Or.inr (rank_lt_of_work (y := ⟨.writerLoad, (c.loc t).counts⟩)
        (by simp only [exact, step, hpc, hsame]) (by simp [hpc]) (by simp)
        (by simp only [Thread.work, hpc, if_neg hbit]; omega))
  | readerLoad =>
    have hfree : c.shared &&& (writer ||| writerPending) = 0 := by
      by_contra hne
      exact ht (Or.inr ⟨hpc, hne⟩)
    exact Or.inr (rank_lt_of_work (y := ⟨.readerAdd, (c.loc t).counts⟩)
      (by simp only [exact, step, hpc, if_pos hfree]) (by simp [hpc]) (by simp) (by simp [Thread.work, hpc]))
  | readerAdd =>
    left
    have hfree : c.shared &&& writer = 0 := by
      rw [hi.word, state_and_writer, state_eq_zero_iff (by omega)]
      simp
    rw [Machine.fire_loc_self]
    simp [exact, step, hpc, fetchadd64, hfree, Pc.holds, Pc.holdsWriter, Pc.holdsReader]
  | readerUndo => exact Or.inr (rank_lt_of_undo hpc)
  | critical m =>
    rw [hpc] at hnone
    cases m <;> cases hnone
  | _ =>
    rw [hpc] at hnone
    cases hnone

lemma fire_of_stalled (ht : Stalled c.shared (c.loc t)) : (exact choose n).fire t () c = c := by
  have hs : (exact choose n).step t () c.shared (c.loc t) = (c.shared, c.loc t) := by
    rcases ht with ⟨hpc, hbusy, hbit⟩ | ⟨hpc, hbit⟩
    · simp only [exact, step, hpc, if_neg hbusy, if_neg hbit]
    · simp only [exact, step, hpc, if_neg hbit]
  rw [Machine.fire_eq _ hs, Function.update_eq_self]

/-- Somebody is not stalled: a reader with an addition to take back, the writer that has set the
bit, or anybody when the bit is not set. -/
lemma Contended.not_stuck (h : Contended choose c) (h1 : 0 < n) :
    ∃ t, ¬ Stalled c.shared (c.loc t) := by
  obtain ⟨p, hi⟩ := h.inv_writer
  by_cases hundo : ∃ t, (c.loc t).pc = .readerUndo
  · obtain ⟨t, ht⟩ := hundo
    exact ⟨t, by simp [Stalled, ht]⟩
  have hzero : c.count (·.pc.counted = true) = 0 := by
    rw [Config.count_eq_zero_iff]
    intro t ht
    have hnone := h.none t
    have hne := not_exists.mp hundo t
    cases hpc : (c.loc t).pc <;> simp_all [Pc.counted, Pc.holds, Pc.holdsWriter, Pc.holdsReader]
  have hword := hi.word
  rw [hzero] at hword
  have hbusy : c.shared &&& busy = 0 := by
    rw [hword, state_and_busy, state_eq_zero_iff (by omega)]
    simp
  cases p with
  | false =>
    refine ⟨⟨0, h1⟩, ?_⟩
    have hfree : c.shared &&& (writer ||| writerPending) = 0 := by
      rw [hword]
      decide
    rintro (⟨-, hne, -⟩ | ⟨-, hne⟩)
    · exact hne hbusy
    · exact hne hfree
  | true =>
    obtain ⟨t, ht⟩ := h.requested (by rw [hi.getLsbD_one])
    refine ⟨t, ?_⟩
    rintro (⟨-, hne, -⟩ | ⟨hpc, -⟩)
    · exact hne hbusy
    · rw [hpc] at ht
      cases ht

end Rank

section Fair
variable {schedule : ℕ → Fin n × Unit}

/-- The steps of a holder to its release. -/
def Pc.toRelease : Pc → ℕ
  | .assertReaders => 3
  | .critical _ => 2
  | .releaseWriter | .releaseReader => 1
  | _ => 0

lemma toRelease_fire (hn : n < 2^60) {counts : Fin n → χ} {t : Fin n} (c : Config (Fin n) Word (Thread χ))
    (_ : Unit) (h : (exact choose n).Reachable (start counts) c) (hpos : 0 < (c.loc t).pc.toRelease) :
    (((exact choose n).fire t () c).loc t).pc.toRelease < (c.loc t).pc.toRelease := by
  obtain ⟨p, w, hi⟩ := reachable_inv hn (reachable_of_exact h)
  rw [Machine.fire_loc_self]
  change (step choose false c.shared (c.loc t)).2.pc.toRelease < _
  cases hpc : (c.loc t).pc with
  | assertReaders =>
    have hne := hi.readers_ne_zero hn (t := t) (by rw [hpc]; rfl)
    simp only [step, hpc, ne_eq, hne, not_false_eq_true, if_true, Pc.toRelease]
    omega
  | critical m =>
    simp only [step, hpc]
    cases (choose.call (c.loc t).counts 0).2 <;> simp [Pc.toRelease]
  | releaseWriter => simp [step, hpc, Pc.toRelease]
  | releaseReader => simp [step, hpc, Pc.toRelease]
  | _ => simp [hpc, Pc.toRelease] at hpos

lemma holds_of_toRelease {pc : Pc} (h : pc.toRelease = 0) (hbad : pc ≠ .assertFailed) : pc.holds = false := by
  cases pc with
  | critical m => cases h
  | assertFailed => exact absurd rfl hbad
  | assertReaders => cases h
  | releaseWriter => cases h
  | releaseReader => cases h
  | _ => rfl

/-- The mutex is never stuck. In a fair run of the exact compare-and-swap somebody holds it again
and again, in whatever modes the threads come, and nobody holds it for ever. -/
theorem spinRwMutex_progress (h1 : 0 < n) (hn : n < 2^60) {counts : Fin n → χ} (hfair : Fair schedule) (m : ℕ) :
    (∃ k, m ≤ k ∧ ∃ t, (((exact choose n).states (start counts) schedule k).loc t).pc.holds = true) ∧
    ∀ t, ∃ k, m ≤ k ∧ (((exact choose n).states (start counts) schedule k).loc t).pc.holds = false := by
  have hreach (k : ℕ) := reachable_of_exact ((exact choose n).reachable_states (start counts) schedule k)
  refine ⟨?_, fun t => ?_⟩
  · by_cases hnow : ∃ t, (((exact choose n).states (start counts) schedule m).loc t).pc.holds = true
    · exact ⟨m, le_rfl, hnow⟩
    have hstart : Contended choose ((exact choose n).states (start counts) schedule m) := by
      obtain ⟨hinv, hreq⟩ := reachable_requested hn (hreach m)
      exact ⟨hinv, hreq, fun t => by simpa using not_exists.mp hnow t⟩
    refine Machine.eventually_of_progress (r := rank) (I := Contended choose)
      (G := fun c => ∃ t, (c.loc t).pc.holds = true) ?_ ?_ hfair hstart
    · rintro c t ⟨⟩ hc
      by_cases hin : ∃ u, (((exact choose n).fire t () c).loc u).pc.holds = true
      · exact Or.inl hin
      obtain ⟨p, w, hi⟩ := hc.inv
      refine Or.inr ⟨⟨step_inv hn hi t false, hc.requested.step hi t false, fun u => ?_⟩, ?_⟩
      · simpa using not_exists.mp hin u
      · by_cases hst : Stalled c.shared (c.loc t)
        · exact Or.inr (fire_of_stalled hst)
        · obtain hholds | hless := hc.fire_rank hst
          · exact absurd ⟨t, hholds⟩ hin
          · exact Or.inl hless
    · intro c hc
      obtain ⟨t, ht⟩ := hc.not_stuck h1
      refine ⟨t, fun _ => ?_⟩
      obtain hholds | hless := hc.fire_rank ht
      · exact Or.inl ⟨t, hholds⟩
      · exact Or.inr hless
  · obtain ⟨k, hk, hzero⟩ := (exact choose n).eventually_zero (w := fun x => x.pc.toRelease) (t := t)
      (toRelease_fire hn) hfair m
    obtain ⟨p, w, hi⟩ := reachable_inv hn (hreach k)
    exact ⟨k, hk, holds_of_toRelease hzero (hi.threads t).asserted⟩

theorem spinRwMutex_progress_two : ∃ k, 5 ≤ k ∧ ∃ t,
    (((exact (isWriter 1) 2).states (start (oneReaderCounts 1)) (fun m => (Fin.ofNat 2 m, ())) k).loc t).pc.holds = true :=
  (spinRwMutex_progress (by decide) (by decide) (fair_roundRobin 1 ()) 5).1

end Fair

section WithoutLse

/-- The operations of atomics.h and tbb.h that are loops of exclusive accesses without LSE. -/
def exclusiveLoop (x : Thread χ) : Option LoopKind :=
  match x.pc with
  | .writerCas _ | .writerOr | .readerAdd | .readerUndo | .releaseWriter | .releaseReader => some .exclusive
  | _ => none

/-- Only the compare-and-swap leaves its loop without a store. -/
def stores (x : Thread χ) (v : Word) : Bool :=
  match x.pc with
  | .writerCas s => v = s
  | _ => true

def loops (choose : IsWriter χ) (n : ℕ) : Loops (exact choose n) Unit Word :=
  .ofWord (exact choose n) exclusiveLoop stores (fun _ => false)
    (by
      rintro i ⟨pc, counts⟩ v h
      cases pc with
      | writerCas s =>
        have hne : v ≠ s := by simpa [stores] using h
        simp [exact, step, hne]
      | _ => cases h)
    (by
      rintro i ⟨pc, counts⟩ v h _
      cases pc with
      | writerLoad =>
        simp only [exact, step]
        split
        · rfl
        · split <;> rfl
      | readerLoad =>
        simp only [exact, step]
        split <;> rfl
      | idle => rfl
      | assertReaders => rfl
      | assertFailed => rfl
      | critical m => rfl
      | _ => cases h)
    (by
      rintro ⟨pc, counts⟩ v h
      cases pc <;> cases h)

/-- Without LSE too, a writer excludes all others, bit 0 of the word is set exactly while a writer
holds, and the bits from 2 on are the number of readers that hold or have an addition to take
back. -/
theorem spinRwMutex_exclusion_withoutLse (hn : n < 2^60) {counts : Fin n → χ}
    {d : Config (Fin n) (Monitored (Fin n) Unit Word) (Place Unit Word Unit (Thread χ))}
    (h : (loops choose n).machine.Reachable ((loops choose n).start (start counts)) d) :
    (∀ t u, (d.loc t).place.pc.holdsWriter = true → (d.loc u).place.pc.holds = true → t = u) ∧
    (d.shared.mem.getLsbD 0 = true ↔ ∃ t, (d.loc t).place.pc.holdsWriter = true) ∧
    (d.shared.mem >>> 2).toNat = (Loops.abs d).count (·.pc.counted = true) := by
  obtain ⟨p, w, hi⟩ := reachable_inv hn (reachable_of_exact (Loops.reachable_abs h))
  have hword : d.shared.mem = state ((Loops.abs d).count (·.pc.counted = true)) p w := hi.word
  refine ⟨fun t u ht hu => ?_, ?_, ?_⟩
  · obtain hw | hr := Bool.or_eq_true_iff.mp hu
    · exact hi.unique t u ht hw
    · have hnot := hi.alone t u ht
      cases hnot.symm.trans hr
  · rw [hword, state_getLsbD_zero]
    exact hi.held
  · have hp := p.toNat_le
    have hw := w.toNat_le
    rw [hword, BitVec.toNat_ushiftRight, state_toNat (hi.count_lt hn), Nat.shiftRight_eq_div_pow]
    omega

/-- The reader loads the word for its addition before the writer swaps, and adds after it. -/
theorem spinRwMutex_exclusion_withoutLse_two :
    ((((loops (isWriter 0) 2).machine.run ((loops (isWriter 0) 2).start (start (oneReaderCounts 1)))
      ([1, 1, 1, 0, 0, 0, 0, 1, 1, 1].map fun t => (t, (), false))).shared.mem >>> 2).toNat =
    (Loops.abs ((loops (isWriter 0) 2).machine.run ((loops (isWriter 0) 2).start (start (oneReaderCounts 1)))
      ([1, 1, 1, 0, 0, 0, 0, 1, 1, 1].map fun t => (t, (), false)))).count (·.pc.counted = true)) :=
  (spinRwMutex_exclusion_withoutLse (by decide) ((loops (isWriter 0) 2).machine.reachable_run _ _)).2.2

end WithoutLse

end Lockhammer.SpinRwMutex
