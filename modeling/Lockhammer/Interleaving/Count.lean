import Lockhammer.Interleaving.Machine
import Mathlib.Data.Fintype.Card
import Mathlib.Algebra.BigOperators.Group.Finset.Basic
import Mathlib.Data.Fintype.BigOperators

/-! Counting the threads whose local state has a property. One step changes one local
state, so it moves such a count by at most one. -/
namespace Interleaving
variable {ι κ σ ρ : Type*} [Fintype ι]

/-- The number of threads whose local state satisfies `p`. -/
def Config.count (p : ρ → Prop) [DecidablePred p] (c : Config ι σ ρ) : ℕ :=
  (Finset.univ.filter fun i => p (c.loc i)).card

lemma Config.count_le (p : ρ → Prop) [DecidablePred p] (c : Config ι σ ρ) :
    c.count p ≤ Fintype.card ι := Finset.card_le_univ _

/-- All threads are counted exactly when every local state has the property. -/
lemma Config.count_eq_card_iff (p : ρ → Prop) [DecidablePred p] (c : Config ι σ ρ) :
    c.count p = Fintype.card ι ↔ ∀ i, p (c.loc i) := by
  rw [Config.count, Finset.card_eq_iff_eq_univ, Finset.filter_eq_self]
  simp

lemma Config.count_eq_zero_iff (p : ρ → Prop) [DecidablePred p] (c : Config ι σ ρ) :
    c.count p = 0 ↔ ∀ i, ¬ p (c.loc i) := by
  rw [Config.count, Finset.card_eq_zero, Finset.filter_eq_empty_iff]
  simp

lemma Config.count_lt {p : ρ → Prop} [DecidablePred p] {c : Config ι σ ρ} {i : ι} (h : ¬ p (c.loc i)) :
    c.count p < Fintype.card ι := by
  refine lt_of_le_of_ne (c.count_le p) ?_
  rw [ne_eq, Config.count_eq_card_iff]
  exact fun hall => h (hall i)

/-- What a step does to a count, written without subtraction. -/
theorem Machine.count_fire [DecidableEq ι] (M : Machine ι κ σ ρ) (p : ρ → Prop) [DecidablePred p] (i : ι) (k : κ)
    (c : Config ι σ ρ) :
    (M.fire i k c).count p + (if p (c.loc i) then 1 else 0) =
      c.count p + (if p (M.step i k c.shared (c.loc i)).2 then 1 else 0) := by
  have hsum : ∀ d : Config ι σ ρ, d.count p = ∑ j, if p (d.loc j) then 1 else 0 := by
    intro d
    rw [Config.count, Finset.card_filter]
  rw [hsum, hsum, ← Finset.add_sum_erase _ _ (Finset.mem_univ i),
    ← Finset.add_sum_erase Finset.univ (fun j => if p (c.loc j) then 1 else 0) (Finset.mem_univ i)]
  have hrest : ∑ j ∈ Finset.univ.erase i, (if p ((M.fire i k c).loc j) then 1 else 0) =
      ∑ j ∈ Finset.univ.erase i, if p (c.loc j) then 1 else 0 := by
    apply Finset.sum_congr rfl
    intro j hj
    rw [M.fire_loc_of_ne (Finset.ne_of_mem_erase hj)]
  rw [hrest, M.fire_loc_self]
  omega

/-- The same for a test and a step whose result is known. -/
theorem Machine.count_fire_toNat [DecidableEq ι] (M : Machine ι κ σ ρ) {i : ι} {k : κ}
    {c : Config ι σ ρ} {s : σ} {r : ρ} (q : ρ → Bool) (h : M.step i k c.shared (c.loc i) = (s, r)) :
    (M.fire i k c).count (q · = true) + (q (c.loc i)).toNat =
      c.count (q · = true) + (q r).toNat := by
  have hite (b : Bool) : b.toNat = if b = true then 1 else 0 := by cases b <;> rfl
  have hc := M.count_fire (q · = true) i k c
  rw [h] at hc
  rw [hite, hite]
  exact hc

/-- A store that encodes a count keeps doing so, if it follows the count of its own step. -/
theorem Machine.encoded_fire [DecidableEq ι] (M : Machine ι κ σ ρ) {i : ι} {k : κ}
    {c : Config ι σ ρ} {s : σ} {r : ρ} {enc : ℕ → σ} {q : ρ → Bool}
    (hs : M.step i k c.shared (c.loc i) = (s, r))
    (henc : ∀ m, m + (q (c.loc i)).toNat = c.count (q · = true) + (q r).toNat → s = enc m) :
    (M.fire i k c).shared = enc ((M.fire i k c).count (q · = true)) := by
  rw [M.fire_shared_eq hs]
  exact henc _ (M.count_fire_toNat q hs)

end Interleaving
