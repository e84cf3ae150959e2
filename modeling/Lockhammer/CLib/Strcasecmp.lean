import Mathlib

/-!
# Comparing strings without regard to case

`strcasecmp` in the C locale, where only the ASCII letters have two cases. What agrees with
a given string up to case is one of finitely many strings.
-/
namespace CLib

/-- `strcasecmp(s, t) == 0` -/
def strcasecmp (s t : List Char) : Bool := s.map Char.toLower = t.map Char.toLower

/-- The string in every mix of cases. -/
def caseVariants : List Char → List (List Char)
  | [] => [[]]
  | c :: s => (caseVariants s).flatMap fun t => [c.toLower :: t, c.toUpper :: t]

section Variants
variable {s t : List Char}

lemma strcasecmp_iff : strcasecmp s t = true ↔ s.map Char.toLower = t.map Char.toLower := by
  rw [strcasecmp, decide_eq_true_eq]

lemma strcasecmp_trans {u : List Char} (h : strcasecmp s t = true) (h' : strcasecmp s u = true) :
    strcasecmp t u = true := by
  rw [strcasecmp_iff] at h h' ⊢
  exact h.symm.trans h'

lemma eq_toLower_or_toUpper {a b : Char} (h : a.toLower = b.toLower) : a = b.toLower ∨ a = b.toUpper := by
  by_cases ha : a.isUpper
  · right
    have hup := congrArg Char.toUpper h
    rwa [Char.toUpper_toLower_eq_toUpper, Char.toUpper_toLower_eq_toUpper,
      Char.toUpper_eq_of_not_isLower (Char.not_isLower_of_isUpper ha)] at hup
  · left
    rwa [Char.toLower_eq_of_not_isUpper ha] at h

theorem mem_caseVariants (h : strcasecmp s t = true) : s ∈ caseVariants t := by
  rw [strcasecmp_iff] at h
  induction t generalizing s with
  | nil => simpa [caseVariants] using h
  | cons c t ih =>
    cases s with
    | nil => simp at h
    | cons a s =>
      obtain ⟨ha, hs⟩ := List.cons.inj h
      rw [caseVariants, List.mem_flatMap]
      refine ⟨s, ih hs, ?_⟩
      obtain rfl | rfl := eq_toLower_or_toUpper ha
      · exact List.mem_cons_self
      · exact List.mem_cons_of_mem _ List.mem_cons_self

end Variants
end CLib
