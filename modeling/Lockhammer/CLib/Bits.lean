import Mathlib.Data.BitVec

/-! The numbers in the parts of a machine word. -/
namespace CLib

lemma append_toNat {a b : ℕ} (x : BitVec a) (y : BitVec b) :
    (x ++ y).toNat = x.toNat * 2 ^ b + y.toNat := by
  rw [BitVec.toNat_append, ← Nat.shiftLeft_add_eq_or_of_lt y.isLt, Nat.shiftLeft_eq]

lemma extract_toNat {w : ℕ} (x : BitVec w) (a b : ℕ) :
    (x.extractLsb' a b).toNat = x.toNat / 2 ^ a % 2 ^ b := by
  rw [BitVec.extractLsb'_toNat, Nat.shiftRight_eq_div_pow]

/-- A mask of the low `k` bits. -/
lemma and_mask_toNat {w k : ℕ} {x m : BitVec w} (hm : m.toNat = 2 ^ k - 1) :
    (x &&& m).toNat = x.toNat % 2 ^ k := by
  rw [BitVec.toNat_and, hm, Nat.and_two_pow_sub_one_eq_mod]

lemma mask_getLsbD {w k : ℕ} {m : BitVec w} (hm : m.toNat = 2 ^ k - 1) (i : ℕ) :
    m.getLsbD i = decide (i < k) := by
  rw [← BitVec.testBit_toNat, hm, Nat.testBit_two_pow_sub_one]

/-- The complement of a mask clears the low bits. -/
lemma and_not_mask_toNat {w k : ℕ} {x m : BitVec w} (hm : m.toNat = 2 ^ k - 1) :
    (x &&& ~~~m).toNat = x.toNat / 2 ^ k * 2 ^ k := by
  apply Nat.eq_of_testBit_eq
  intro i
  rw [Nat.testBit_mul_two_pow, Nat.testBit_div_two_pow, BitVec.testBit_toNat, BitVec.getLsbD_and,
    BitVec.getLsbD_not, mask_getLsbD hm]
  by_cases h : k ≤ i
  · rw [Nat.sub_add_cancel h, BitVec.testBit_toNat]
    by_cases hi : i < w
    · simp [h, hi]
    · simp [BitVec.getLsbD_of_ge x i (by omega)]
  · have hk : i < k := by omega
    simp [h, hk]

/-- Setting low bits of a number that has none is adding them. -/
lemma or_toNat_of_dvd {w k : ℕ} {x y : BitVec w} (hx : 2 ^ k ∣ x.toNat) (hy : y.toNat < 2 ^ k) :
    (x ||| y).toNat = x.toNat + y.toNat := by
  obtain ⟨q, hq⟩ := hx
  rw [BitVec.toNat_or, hq, Nat.two_pow_add_eq_or_of_lt hy]

lemma add_toNat_of_dvd {w k : ℕ} {x y : BitVec w} (hx : 2 ^ k ∣ x.toNat) (hy : y.toNat < 2 ^ k) :
    (x + y).toNat = x.toNat + y.toNat := by
  have h := (x ||| y).isLt
  rw [or_toNat_of_dvd hx hy] at h
  rw [BitVec.toNat_add, Nat.mod_eq_of_lt h]

end CLib
