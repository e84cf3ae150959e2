import Lockhammer.Interleaving.Machine

/-!
# One owner

A lock is free or has an owner. A step keeps both, takes the free lock, or is the owner's and
frees it. Then there is never more than one owner, and never a taken lock without one.
-/
namespace Interleaving
variable {ι κ σ ρ : Type*}

structure Owned (free : σ → Prop) (holding : ρ → Bool) (c : Config ι σ ρ) : Prop where
  locked : ∀ t, holding (c.loc t) = true → ¬ free c.shared
  unique : ∀ t u, holding (c.loc t) = true → holding (c.loc u) = true → t = u
  held : ¬ free c.shared → ∃ t, holding (c.loc t) = true

/-- What a step from `s` and `p` to `s'` and `p'` does with the lock. -/
inductive Handles (free : σ → Prop) (holding : ρ → Bool) (s : σ) (p : ρ) (s' : σ) (p' : ρ) : Prop
  | keeps (hfree : free s' ↔ free s) (hhold : holding p' = holding p)
  | takes (hfree : free s) (hlocked : ¬ free s') (hhold : holding p' = true)
  | frees (hold : holding p = true) (hfree : free s') (hhold : holding p' = false)

variable {free : σ → Prop} {holding : ρ → Bool} {c : Config ι σ ρ}

lemma Owned.of_free (hfree : free c.shared) (hnone : ∀ t, holding (c.loc t) = false) : Owned free holding c := by
  refine ⟨fun t ht => ?_, fun t u ht => ?_, fun h => absurd hfree h⟩
  · rw [hnone] at ht
    cases ht
  · rw [hnone] at ht
    cases ht

lemma Owned.not_holding (h : Owned free holding c) (hfree : free c.shared) (t : ι) : holding (c.loc t) = false := by
  by_contra ht
  exact h.locked t (by simpa using ht) hfree

/-- One step keeps the ownership. -/
theorem Owned.fire [DecidableEq ι] {M : Machine ι κ σ ρ} (h : Owned free holding c) {t : ι} {k : κ}
    {s : σ} {p : ρ} (hs : M.step t k c.shared (c.loc t) = (s, p))
    (hdoes : Handles free holding c.shared (c.loc t) s p) : Owned free holding (M.fire t k c) := by
  have hloc := Machine.fire_loc_eq M (k := k) hs
  have hsh := Machine.fire_shared_eq M (k := k) hs
  cases hdoes with
  | keeps hfree hhold =>
    have hh (u : ι) : holding ((M.fire t k c).loc u) = holding (c.loc u) := by
      rw [hloc]
      split
      · next he => rw [hhold, he]
      · rfl
    refine ⟨fun u hu => ?_, fun u v hu hv => ?_, fun hl => ?_⟩
    · rw [hsh, hfree]
      exact h.locked u (by rwa [hh] at hu)
    · rw [hh] at hu hv
      exact h.unique u v hu hv
    · rw [hsh, hfree] at hl
      obtain ⟨u, hu⟩ := h.held hl
      exact ⟨u, by rwa [hh]⟩
  | takes hfree hlocked hhold =>
    have hh (u : ι) : holding ((M.fire t k c).loc u) = true ↔ u = t := by
      rw [hloc]
      by_cases hu : u = t
      · simp [hu, hhold]
      · simp [hu, h.not_holding hfree u]
    refine ⟨fun u _ => ?_, fun u v hu hv => ?_, fun _ => ⟨t, (hh t).mpr rfl⟩⟩
    · rw [hsh]
      exact hlocked
    · rw [(hh u).mp hu, (hh v).mp hv]
  | frees hold hfree hhold =>
    refine .of_free (by rw [hsh]; exact hfree) fun u => ?_
    rw [hloc]
    by_cases hu : u = t
    · rw [if_pos hu, hhold]
    · rw [if_neg hu]
      by_contra hne
      exact hu (h.unique u t (by simpa using hne) hold)

end Interleaving
