import Mathlib.Data.BitVec
import Mathlib.Data.List.Basic
import Mathlib.Tactic.Ring

/-!
# Loops over an int

A `for` loop whose variable is an `int`, stepped by a `long` and compared as an `unsigned
long`. The variable wraps at 32 bits, and a negative value is a large one in a comparison.
-/
namespace CLib

/-- `i += step` for an `int` and a `long`. -/
def intAdd (i : BitVec 32) (step : BitVec 64) : BitVec 32 := (i.signExtend 64 + step).setWidth 32

/-- `(unsigned long) (int) v` -/
def intToUlong (v : ℤ) : ℕ := ((BitVec.ofInt 32 v).signExtend 64).toNat

/-- The values that the body of `for (int i = start; more; i += step)` sees, in order, when
the loop ends. -/
inductive Visits (more : BitVec 32 → Bool) (step : BitVec 64) : BitVec 32 → List (BitVec 32) → Prop
  | stop {i : BitVec 32} : more i = false → Visits more step i []
  | next {i : BitVec 32} {l : List (BitVec 32)} : more i = true →
      Visits more step (intAdd i step) l → Visits more step i (i :: l)

/-- The same loop, not followed to its end: it sees the values of the list and comes to `j`. -/
inductive Reaches (more : BitVec 32 → Bool) (step : BitVec 64) :
    BitVec 32 → List (BitVec 32) → BitVec 32 → Prop
  | here {i : BitVec 32} : Reaches more step i [] i
  | next {i j : BitVec 32} {l : List (BitVec 32)} : more i = true →
      Reaches more step (intAdd i step) l j → Reaches more step i (i :: l) j

section Conversions

/-- The number of an `int` that is extended to a word. -/
lemma toNat_signExtend (i : BitVec 32) :
    ((i.signExtend 64).toNat : ℤ) = if 0 ≤ i.toInt then i.toInt else 2 ^ 64 + i.toInt := by
  have hext : (i.signExtend 64).toInt = i.toInt := BitVec.toInt_signExtend_of_le (by omega)
  have hcond := BitVec.toInt_eq_toNat_cond (i.signExtend 64)
  have hlt := (i.signExtend 64).isLt
  split at hcond <;> split <;> omega

lemma toNat_signExtend_of_nonneg {i : BitVec 32} (h : 0 ≤ i.toInt) :
    ((i.signExtend 64).toNat : ℤ) = i.toInt := by
  rw [toNat_signExtend, if_pos h]

lemma toNat_signExtend_of_neg {i : BitVec 32} (h : i.toInt < 0) :
    ((i.signExtend 64).toNat : ℤ) = 2 ^ 64 + i.toInt := by
  rw [toNat_signExtend, if_neg (not_le.mpr h)]

lemma toInt_ofInt_of_int {v : ℤ} (hlo : -2 ^ 31 ≤ v) (hhi : v < 2 ^ 31) : (BitVec.ofInt 32 v).toInt = v :=
  BitVec.toInt_ofInt_eq_self (by omega) (by simpa using hlo) (by simpa using hhi)

lemma intToUlong_of_nonneg {v : ℤ} (hlo : 0 ≤ v) (hhi : v < 2 ^ 31) : (intToUlong v : ℤ) = v := by
  have hv : (BitVec.ofInt 32 v).toInt = v := toInt_ofInt_of_int (by omega) hhi
  unfold intToUlong
  rw [toNat_signExtend_of_nonneg (by omega), hv]

lemma intToUlong_of_neg {v : ℤ} (hlo : -2 ^ 31 ≤ v) (hhi : v < 0) : (intToUlong v : ℤ) = 2 ^ 64 + v := by
  have hv : (BitVec.ofInt 32 v).toInt = v := toInt_ofInt_of_int hlo (by omega)
  unfold intToUlong
  rw [toNat_signExtend_of_neg (by omega), hv]

/-- The conversion does not see whole turns of the `int`. -/
lemma intToUlong_sub_turn (v : ℤ) : intToUlong (v - 2 ^ 32) = intToUlong v := by
  have hturn : BitVec.ofInt 32 (v - 2 ^ 32) = BitVec.ofInt 32 v := by
    apply BitVec.eq_of_toInt_eq
    rw [BitVec.toInt_ofInt, BitVec.toInt_ofInt]
    exact Int.sub_bmod_right v (2 ^ 32)
  unfold intToUlong
  rw [hturn]

lemma setWidth_eq_ofInt (x : BitVec 64) : x.setWidth 32 = BitVec.ofInt 32 x.toInt := by
  apply BitVec.eq_of_toInt_eq
  rw [BitVec.toInt_ofInt, BitVec.toInt_setWidth, BitVec.toInt_eq_toNat_bmod, Int.bmod_bmod_of_dvd]
  decide

lemma setWidth_eq_ofInt_toNat (x : BitVec 64) : x.setWidth 32 = BitVec.ofInt 32 x.toNat := by
  rw [BitVec.ofInt_natCast]
  apply BitVec.eq_of_toNat_eq
  simp

/-- The wrapped sum is the word of the sum. -/
lemma intAdd_ofInt (v : ℤ) (step : BitVec 64) :
    intAdd (BitVec.ofInt 32 v) step = BitVec.ofInt 32 (v + step.toInt) := by
  have hext : ((BitVec.ofInt 32 v).signExtend 64).setWidth 32 = BitVec.ofInt 32 v := by
    rw [setWidth_eq_ofInt, BitVec.toInt_signExtend_of_le (by omega), BitVec.ofInt_toInt]
  unfold intAdd
  rw [BitVec.setWidth_add _ _ (by omega), hext, setWidth_eq_ofInt step, BitVec.ofInt_add]

end Conversions

section Visits
variable {more : BitVec 32 → Bool} {step : BitVec 64}

/-- The value in pass `k` of a loop from `v`. -/
def passValue (v : ℤ) (step : BitVec 64) (k : ℕ) : ℤ := v + k * step.toInt

lemma passValue_zero (v : ℤ) : passValue v step 0 = v := by simp [passValue]

lemma passValue_succ (v : ℤ) (k : ℕ) : passValue (v + step.toInt) step k = passValue v step (k + 1) := by
  simp only [passValue]
  push_cast
  ring

lemma Reaches.visits {i j : BitVec 32} {l : List (BitVec 32)} (h : Reaches more step i l j)
    (hstop : more j = false) : Visits more step i l := by
  induction h with
  | here => exact .stop hstop
  | next hmore _ ih => exact .next hmore (ih hstop)

/-- A loop that ends comes to a value at which its test fails. -/
lemma Visits.reaches {i : BitVec 32} {l : List (BitVec 32)} (h : Visits more step i l) :
    ∃ j, Reaches more step i l j ∧ more j = false := by
  induction h with
  | stop hstop => exact ⟨_, .here, hstop⟩
  | next hmore _ ih =>
    obtain ⟨j, hreaches, hstop⟩ := ih
    exact ⟨j, .next hmore hreaches, hstop⟩

/-- A loop whose test holds in the first `k` passes. -/
theorem reaches_of_tests {k : ℕ} {v : ℤ}
    (hmore : ∀ i < k, more (BitVec.ofInt 32 (passValue v step i)) = true) :
    Reaches more step (BitVec.ofInt 32 v)
      ((List.range k).map fun i => BitVec.ofInt 32 (passValue v step i))
      (BitVec.ofInt 32 (passValue v step k)) := by
  induction k generalizing v with
  | zero =>
    rw [passValue_zero]
    exact Reaches.here
  | succ k ih =>
    have hhead := hmore 0 (by omega)
    rw [passValue_zero] at hhead
    have hrest : Reaches more step (BitVec.ofInt 32 (v + step.toInt))
        ((List.range k).map fun i => BitVec.ofInt 32 (passValue (v + step.toInt) step i))
        (BitVec.ofInt 32 (passValue (v + step.toInt) step k)) := by
      apply ih
      intro i hi
      rw [passValue_succ]
      exact hmore (i + 1) (by omega)
    rw [List.range_succ_eq_map, List.map_cons, passValue_zero, List.map_map]
    refine Reaches.next hhead ?_
    rw [intAdd_ofInt]
    simpa only [Function.comp_def, passValue_succ] using hrest

/-- The passes of a loop that ends, and its test in them. -/
theorem Visits.tests {v : ℤ} {l : List (BitVec 32)} (h : Visits more step (BitVec.ofInt 32 v) l) :
    (∀ i < l.length, more (BitVec.ofInt 32 (passValue v step i)) = true) ∧
      more (BitVec.ofInt 32 (passValue v step l.length)) = false ∧
      l = (List.range l.length).map fun i => BitVec.ofInt 32 (passValue v step i) := by
  induction l generalizing v with
  | nil =>
    cases h with
    | stop hstop => simpa [passValue_zero] using hstop
  | cons i l ih =>
    cases h with
    | next hmore hrest =>
      rw [intAdd_ofInt] at hrest
      obtain ⟨htests, hstop, hl⟩ := ih hrest
      simp only [passValue_succ] at htests hstop hl
      refine ⟨?_, hstop, ?_⟩
      · intro i hi
        cases i with
        | zero => simpa [passValue_zero] using hmore
        | succ i => exact htests i (by simpa using hi)
      · rw [List.length_cons, List.range_succ_eq_map, List.map_cons, passValue_zero, List.map_map]
        congr 1

lemma Visits.unique {i : BitVec 32} {l l' : List (BitVec 32)} (h : Visits more step i l)
    (h' : Visits more step i l') : l = l' := by
  induction h generalizing l' with
  | stop hstop =>
    cases h' with
    | stop _ => rfl
    | next hmore _ => simp [hstop] at hmore
  | next hmore _ ih =>
    cases h' with
    | stop hstop => simp [hmore] at hstop
    | next _ hrest => rw [ih hrest]

/-- A test that holds in pass `k`, after it held in all before, has the loop reach that pass. -/
theorem Visits.mem_of_tests {v : ℤ} {l : List (BitVec 32)} {k : ℕ} (h : Visits more step (BitVec.ofInt 32 v) l)
    (hmore : ∀ i ≤ k, more (BitVec.ofInt 32 (passValue v step i)) = true) :
    BitVec.ofInt 32 (passValue v step k) ∈ l := by
  obtain ⟨-, hstop, hl⟩ := h.tests
  have hk : k < l.length := by
    by_contra hle
    rw [hmore l.length (by omega)] at hstop
    simp at hstop
  rw [hl]
  exact List.mem_map.mpr ⟨k, List.mem_range.mpr hk, rfl⟩

end Visits

end CLib
