import Lockhammer.Atomics.Primitives
import Lockhammer.Interleaving.Fairness
import Lockhammer.Interleaving.Ownership
import Lockhammer.Interleaving.RetryLoop

/-!
# The swap mutex of lockhammer/tests

`lock_acquire` exchanges the word with 1 until it has got 0 back, `lock_release` stores 0.
-/
namespace Lockhammer.SwapMutex
open Interleaving

inductive Pc
  | idle
  | swap
  | critical
  | release
  deriving DecidableEq, Repr

/-- One atomic step of swap_mutex.h; `idle` and `critical` only enter the next call. -/
def step (lock : Word) : Pc → Word × Pc
  | .idle => (lock, .swap)
  | .swap =>
    let val := swap64 lock 1
    (val.2, if val.1 ≠ 0 then .swap else .critical)
  | .critical => (lock, .release)
  | .release => (0, .idle)

def machine (n : ℕ) : Machine (Fin n) Unit Word Pc where
  step _ _ := step

def start (n : ℕ) : Config (Fin n) Word Pc := ⟨0, fun _ => .idle⟩

/-- The exchange is the loop of ldaxr and stlxr. -/
def exclusiveLoop : Pc → Option LoopKind
  | .swap => some .exclusive
  | _ => none

def loops (n : ℕ) : Loops (machine n) Unit Word :=
  .ofWord (machine n) exclusiveLoop (fun _ _ => true) (· = .release)
    (fun _ _ _ h => by cases h)
    (by
      intro i p v hp ht
      cases p <;> simp [exclusiveLoop] at hp ht <;> rfl)
    (fun _ _ _ => rfl)

def Pc.holding : Pc → Bool
  | .critical | .release => true
  | _ => false

/-- The steps of a thread to its exchange, and on to the critical section. -/
def Pc.toCritical : Pc → ℕ
  | .release => 3
  | .idle => 2
  | .swap => 1
  | .critical => 0

/-- The word is the flag of the owner. -/
structure Inv {n : ℕ} (c : Config (Fin n) Word Pc) : Prop where
  owned : Owned (· = 0) Pc.holding c
  flag : c.shared = 0 ∨ c.shared = 1

variable {n : ℕ} {c : Config (Fin n) Word Pc} {t : Fin n}

lemma start_inv (n : ℕ) : Inv (start n) := ⟨.of_free rfl fun _ => rfl, Or.inl rfl⟩

theorem step_inv (h : Inv c) (t : Fin n) : Inv ((machine n).fire t () c) := by
  have hkeep {p : Pc} (hs : (machine n).step t () c.shared (c.loc t) = (c.shared, p))
      (hp : p.holding = (c.loc t).holding) : Inv ((machine n).fire t () c) := by
    refine ⟨h.owned.fire hs (.keeps Iff.rfl hp), ?_⟩
    rw [Machine.fire_shared_eq _ hs]
    exact h.flag
  cases hpc : c.loc t with
  | idle => exact hkeep (p := .swap) (by rw [hpc]; rfl) (by rw [hpc]; rfl)
  | swap =>
    rcases h.flag with hfree | htaken
    · have hs : (machine n).step t () c.shared (c.loc t) = (1, .critical) := by
        rw [hpc]
        simp [machine, step, swap64, hfree]
      exact ⟨h.owned.fire hs (.takes hfree (by decide) rfl), Or.inr (Machine.fire_shared_eq _ hs)⟩
    · refine hkeep (p := .swap) ?_ (by rw [hpc])
      rw [hpc]
      simp [machine, step, swap64, htaken]
  | critical => exact hkeep (p := .release) (by rw [hpc]; rfl) (by rw [hpc]; rfl)
  | release =>
    have hs : (machine n).step t () c.shared (c.loc t) = (0, .idle) := by
      rw [hpc]
      rfl
    exact ⟨h.owned.fire hs (.frees (by rw [hpc]; rfl) rfl rfl), Or.inl (Machine.fire_shared_eq _ hs)⟩

lemma reachable_inv (h : (machine n).Reachable (start n) c) : Inv c :=
  h.invariant (machine n) (start_inv n) fun _ t _ hi => step_inv hi t

/-- A step on the way to a critical section, or an exchange that finds the lock taken. -/
lemma Inv.fire_work (h : Inv c) (hnone : ∀ u, c.loc u ≠ .critical) (t : Fin n) :
    ((machine n).fire t () c).loc t = .critical ∨
      (((machine n).fire t () c).loc t).toCritical < (c.loc t).toCritical ∨
      c.shared ≠ 0 ∧ c.loc t = .swap ∧ (machine n).fire t () c = c := by
  rw [Machine.fire_loc_self]
  cases hpc : c.loc t with
  | idle => exact Or.inr (Or.inl (by simp [machine, step, Pc.toCritical]))
  | swap =>
    rcases h.flag with hfree | htaken
    · exact Or.inl (by simp [machine, step, swap64, hfree])
    · have hs : (machine n).step t () c.shared (c.loc t) = (c.shared, .swap) := by
        rw [hpc]
        simp [machine, step, swap64, htaken]
      refine Or.inr (Or.inr ⟨by rw [htaken]; decide, rfl, ?_⟩)
      rw [Machine.fire_eq _ hs, ← hpc, Function.update_eq_self]
  | critical => exact absurd hpc (hnone t)
  | release => exact Or.inr (Or.inl (by simp [machine, step, Pc.toCritical]))

/-- Somebody gets on: the owner, or anybody when the lock is free. -/
lemma Inv.not_stuck (h : Inv c) (h1 : 0 < n) (hnone : ∀ u, c.loc u ≠ .critical) : ∃ t,
    ((machine n).fire t () c).loc t = .critical ∨
      (((machine n).fire t () c).loc t).toCritical < (c.loc t).toCritical := by
  by_cases hfree : c.shared = 0
  · refine ⟨⟨0, h1⟩, ?_⟩
    obtain hin | hless | ⟨htaken, -, -⟩ := h.fire_work hnone ⟨0, h1⟩
    · exact Or.inl hin
    · exact Or.inr hless
    · exact absurd hfree htaken
  · obtain ⟨t, ht⟩ := h.owned.held hfree
    refine ⟨t, ?_⟩
    obtain hin | hless | ⟨-, hswap, -⟩ := h.fire_work hnone t
    · exact Or.inl hin
    · exact Or.inr hless
    · rw [hswap] at ht
      cases ht

/-- In both builds of the exchange at most one thread is between its acquire and its release, and
the word is 0 exactly while there is none. Under a fair schedule there is an acquire again and
again. -/
theorem swapMutex_exclusion {n : ℕ} :
    (∀ c, (machine n).Reachable (start n) c → Owned (· = 0) Pc.holding c) ∧
    (∀ d, (loops n).machine.Reachable ((loops n).start (start n)) d →
      Owned (· = 0) Pc.holding (Loops.abs d)) ∧
    ∀ schedule : ℕ → Fin n × Unit, 0 < n → Fair schedule → ∀ m, ∃ k, m ≤ k ∧
      ∃ t, ((machine n).states (start n) schedule k).loc t = .critical := by
  refine ⟨fun c hc => (reachable_inv hc).owned,
    fun d hd => (reachable_inv (Loops.reachable_abs hd)).owned, ?_⟩
  intro schedule h1 hfair m
  by_cases hnow : ∃ t, ((machine n).states (start n) schedule m).loc t = .critical
  · exact ⟨m, le_rfl, hnow⟩
  refine Machine.eventually_of_work (G := fun c => ∃ t, c.loc t = .critical) (w := Pc.toCritical)
    (I := fun c => Inv c ∧ ∀ t, c.loc t ≠ .critical) ?_ ?_ hfair
    ⟨reachable_inv ((machine n).reachable_states _ schedule m), not_exists.mp hnow⟩
  · rintro c t ⟨⟩ ⟨hi, hnone⟩
    by_cases hin : ∃ u, ((machine n).fire t () c).loc u = .critical
    · exact Or.inl hin
    refine Or.inr ⟨⟨step_inv hi t, not_exists.mp hin⟩, ?_⟩
    obtain hcrit | hless | ⟨-, -, hsame⟩ := hi.fire_work hnone t
    · exact absurd ⟨t, hcrit⟩ hin
    · exact Or.inl hless
    · exact Or.inr hsame
  · rintro c ⟨hi, hnone⟩
    obtain ⟨t, hcrit | hless⟩ := hi.not_stuck h1 hnone
    · exact ⟨t, fun _ => Or.inl ⟨t, hcrit⟩⟩
    · exact ⟨t, fun _ => Or.inr hless⟩

theorem swapMutex_exclusion_two :
    (∃ k, 7 ≤ k ∧ ∃ t, ((machine 2).states (start 2) (fun m => (Fin.ofNat 2 m, ())) k).loc t = .critical) ∧
    Owned (· = 0) Pc.holding ((machine 2).run (start 2) ([0, 1, 0, 1].map fun t => (t, ()))) :=
  ⟨swapMutex_exclusion.2.2 _ (by decide) (fair_roundRobin 1 ()) 7,
    swapMutex_exclusion.1 _ ((machine 2).reachable_run _ _)⟩

end Lockhammer.SwapMutex
