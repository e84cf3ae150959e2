import Lockhammer.Measure.Barrier
import Lockhammer.Interleaving.Fairness

/-!
# The barrier of measure.c under a fair schedule

A round is work that the threads share: leaving the previous round, reading the sense and
adding. A waiter of the round has none left, and the last to arrive ends the round.
-/
namespace Lockhammer.Barrier
open Interleaving

/-- The steps of a thread to its fetchadd of round `K`. -/
def Thread.toArrive (K : ℕ) (x : Thread) : ℕ :=
  match x.pc with
  | .outside => 2
  | .add _ => 1
  | .store _ => 0
  | .wait _ => if x.calls = K then 0 else 3

variable {n : ℕ} {K : ℕ} {c : Config (Fin n) Word Thread}

/-- A step leaves the round, is work for it, or is a poll that fails. -/
lemma Inv.fire_work (h : Inv K c) (h1 : 1 ≤ n) (hn : n < 2^31) (t : Fin n) :
    Inv (K + 1) ((machine n).fire t () c) ∨ Inv K ((machine n).fire t () c) ∧
      ((((machine n).fire t () c).loc t).toArrive K < ((c.loc t)).toArrive K ∨
        (machine n).fire t () c = c) := by
  have hplace := h.placed t
  have hle := h.count_le
  cases hpc : (c.loc t).pc with
  | outside =>
    have hs := step_outside (n := n) (w := c.shared) hpc
    simp only [Placed, hpc] at hplace
    refine Or.inr ⟨h.quiet hs ?_ rfl ?_ ?_, Or.inl ?_⟩
    · simp [Thread.storing, hpc]
    · simp [Arrived, Thread.inside, hpc]
    · refine ⟨hplace, ?_⟩
      rw [h.word, word_and_mask (by omega)]
    · rw [Machine.fire_loc_eq (machine n) hs, if_pos rfl]
      simp [Thread.toArrive, hpc]
  | add g =>
    simp only [Placed, hpc] at hplace
    obtain ⟨hk, rfl⟩ := hplace
    have hs := step_add h1 hn hle hpc
    rw [← h.word] at hs
    refine Or.inr ⟨h.arrive h1 hn hpc hk, Or.inl ?_⟩
    rw [Machine.fire_loc_eq (machine n) hs, if_pos rfl]
    by_cases hlast : c.count (Arrived K) + 1 = n <;> simp [Thread.toArrive, branch, hlast, hk, hpc]
  | store s => exact Or.inl (h.flip hpc h1)
  | wait s =>
    have hs := step_wait (n := n) (w := c.shared) hpc
    simp only [Placed, hpc] at hplace
    by_cases hgo : upper32 c.shared = s
    · -- the sense a waiter of this round asks for is not there yet
      have hk : (c.loc t).calls + 1 = K := by
        rcases hplace with ⟨-, hg⟩ | ⟨hk, -⟩
        · exact absurd ((h.upper32_shared hn).symm.trans (hgo.trans hg)) (upper32_sense_ne K)
        · exact hk
      rw [if_pos hgo] at hs
      refine Or.inr ⟨h.quiet hs ?_ rfl ?_ hk, Or.inl ?_⟩
      · simp [Thread.storing, hpc]
      · simp only [Arrived, Thread.inside, hpc]
        simp
        omega
      · rw [Machine.fire_loc_eq (machine n) hs, if_pos rfl]
        have hne : (c.loc t).calls ≠ K := by omega
        simp only [Thread.toArrive, hpc, if_neg hne]
        omega
    · rw [if_neg hgo] at hs
      have hsame : (machine n).fire t () c = c := by
        simp [Machine.fire, machine, hs, Function.update_eq_self]
      rw [hsame]
      exact Or.inr ⟨h, Or.inr rfl⟩

/-- Whoever has not arrived has a step to do. -/
lemma Inv.fire_of_not_arrived (h : Inv K c) (h1 : 1 ≤ n) (hn : n < 2^31) {t : Fin n}
    (ht : ¬ Arrived K (c.loc t)) : Inv (K + 1) ((machine n).fire t () c) ∨
      (((machine n).fire t () c).loc t).toArrive K < (c.loc t).toArrive K := by
  obtain hflip | ⟨-, hless | hsame⟩ := h.fire_work h1 hn t
  · exact Or.inl hflip
  · exact Or.inr hless
  · -- only a waiter of the round before could be at a failing poll, and its poll is true
    have hplace := h.placed t
    have hloc := congrArg (fun d => (d.loc t).pc) hsame
    simp only [Machine.fire_loc_self] at hloc
    cases hpc : (c.loc t).pc with
    | outside => simp [machine, step_outside hpc, hpc] at hloc
    | add g =>
      simp only [Placed, hpc] at hplace
      obtain ⟨-, rfl⟩ := hplace
      have hs := step_add h1 hn h.count_le hpc
      rw [← h.word] at hs
      simp only [machine, hs, hpc, branch] at hloc
      split at hloc <;> cases hloc
    | store s => simp [machine, step_store hpc, hpc] at hloc
    | wait s =>
      simp only [Placed, hpc] at hplace
      rcases hplace with ⟨hk, -⟩ | ⟨-, rfl⟩
      · exact absurd ⟨hk, by simp [Thread.inside, hpc]⟩ ht
      · simp [machine, step_wait hpc, hpc, h.upper32_shared hn] at hloc

/-- Somebody has a step to do: who has not arrived, or the last to arrive. -/
lemma Inv.not_stuck (h : Inv K c) (h1 : 1 ≤ n) (hn : n < 2^31) : ∃ t,
    Inv (K + 1) ((machine n).fire t () c) ∨
      (((machine n).fire t () c).loc t).toArrive K < (c.loc t).toArrive K := by
  by_cases hall : ∀ t, Arrived K (c.loc t)
  · obtain ⟨t, ht⟩ := h.full.mpr (by simpa using (c.count_eq_card_iff (Arrived K)).mpr hall)
    refine ⟨t, Or.inl ?_⟩
    cases hpc : (c.loc t).pc with
    | store s => exact h.flip hpc h1
    | _ => simp [Thread.storing, hpc] at ht
  · push Not at hall
    obtain ⟨t, ht⟩ := hall
    exact ⟨t, h.fire_of_not_arrived h1 hn ht⟩

section Fair
variable {schedule : ℕ → Fin n × Unit}

/-- Every round ends. -/
lemma round_ends (h1 : 1 ≤ n) (hn : n < 2^31) (hfair : Fair schedule) {m : ℕ}
    (h : Inv K ((machine n).states (start n) schedule m)) :
    ∃ k, m ≤ k ∧ Inv (K + 1) ((machine n).states (start n) schedule k) := by
  refine Machine.eventually_of_work (I := Inv K) (w := Thread.toArrive K) ?_ ?_ hfair h
  · exact fun c t _ hi => hi.fire_work h1 hn t
  · intro c hi
    obtain ⟨t, ht⟩ := hi.not_stuck h1 hn
    exact ⟨t, fun _ => ht⟩

/-- And the rounds go on without end. -/
lemma round_reached (h1 : 1 ≤ n) (hn : n < 2^31) (hfair : Fair schedule) (N : ℕ) {m : ℕ}
    (h : Inv K ((machine n).states (start n) schedule m)) :
    ∃ k, m ≤ k ∧ Inv (K + N) ((machine n).states (start n) schedule k) := by
  induction N with
  | zero => exact ⟨m, le_rfl, h⟩
  | succ N ih =>
    obtain ⟨k, hk, hi⟩ := ih
    obtain ⟨l, hl, hi'⟩ := round_ends h1 hn hfair hi
    exact ⟨l, hk.trans hl, hi'⟩

/-- Under a fair schedule every call of `synchronize_threads` returns: the number of calls each
of the `n` threads has returned from grows without bound. -/
theorem synchronizeThreads_returns (h1 : 1 ≤ n) (hn : n < 2^31) (hfair : Fair schedule) (m N : ℕ)
    (t : Fin n) : ∃ k, m ≤ k ∧ N ≤ (((machine n).states (start n) schedule k).loc t).calls := by
  have hinv : ∃ K, Inv K ((machine n).states (start n) schedule m) := by
    refine ((machine n).reachable_states (start n) schedule m).invariant (machine n)
      (P := fun c => ∃ K, Inv K c) ⟨0, start_inv h1⟩ ?_
    rintro c u ⟨⟩ ⟨K, hi⟩
    obtain hflip | ⟨hi', -⟩ := hi.fire_work h1 hn u
    · exact ⟨K + 1, hflip⟩
    · exact ⟨K, hi'⟩
  obtain ⟨K, hi⟩ := hinv
  obtain ⟨k, hk, hi'⟩ := round_reached h1 hn hfair (N + 1) hi
  refine ⟨k, hk, ?_⟩
  have hadds := (hi'.calls_le t).2
  simp only [Thread.adds] at hadds
  split at hadds <;> omega

/-- Two threads in turn. -/
theorem synchronizeThreads_returns_two : ∃ k, 0 ≤ k ∧
    5 ≤ (((machine 2).states (start 2) (fun m => (Fin.ofNat 2 m, ())) k).loc 0).calls :=
  synchronizeThreads_returns (by decide) (by decide) (fair_roundRobin 1 ()) 0 5 0

end Fair
end Lockhammer.Barrier
