import Mathlib.Algebra.Order.Field.Rat
import Mathlib.Data.BitVec
import Mathlib.Tactic.Linarith
import Mathlib.Tactic.Positivity

/-!
# The full concurrency fraction (report.c)

`standard_report` reports for how much of a measurement all threads were running: the time
from the last start to the first end, out of the time from the first start to the last end.
The differences are taken of `unsigned long`s; the division is exact here.
-/
namespace Lockhammer.Report

/-- The stamps of `per_thread_results_t`. -/
structure Stamps where
  hwtimerStart : BitVec 64
  hwtimerEnd : BitVec 64

structure Extrema where
  earliestHwtimerStart : BitVec 64
  earliestHwtimerEnd : BitVec 64
  latestHwtimerStart : BitVec 64
  latestHwtimerEnd : BitVec 64

def Extrema.init : Extrema := ⟨-1, -1, 0, 0⟩

/-- One round of the loop over the threads. -/
def Extrema.visit (e : Extrema) (p : Stamps) : Extrema where
  earliestHwtimerStart :=
    if p.hwtimerStart < e.earliestHwtimerStart then p.hwtimerStart else e.earliestHwtimerStart
  earliestHwtimerEnd := if p.hwtimerEnd < e.earliestHwtimerEnd then p.hwtimerEnd else e.earliestHwtimerEnd
  latestHwtimerStart := if p.hwtimerStart > e.latestHwtimerStart then p.hwtimerStart else e.latestHwtimerStart
  latestHwtimerEnd := if p.hwtimerEnd > e.latestHwtimerEnd then p.hwtimerEnd else e.latestHwtimerEnd

def extrema (threads : List Stamps) : Extrema := threads.foldl Extrema.visit .init

def fullConcurrencyFraction (threads : List Stamps) : ℚ :=
  let e := extrema threads
  let fraction : ℚ := ((e.earliestHwtimerEnd - e.latestHwtimerStart).toNat : ℚ) /
    ((e.latestHwtimerEnd - e.earliestHwtimerStart).toNat : ℚ)
  if fraction < 0 then 0 else fraction

/-- The smallest and largest stamps of the threads. -/
structure Bounds (threads : List Stamps) (minStart minEnd maxStart maxEnd : ℕ) : Prop where
  minStart : (threads.map (·.hwtimerStart.toNat)).min? = some minStart
  minEnd : (threads.map (·.hwtimerEnd.toNat)).min? = some minEnd
  maxStart : (threads.map (·.hwtimerStart.toNat)).max? = some maxStart
  maxEnd : (threads.map (·.hwtimerEnd.toNat)).max? = some maxEnd

section Extrema
variable {l : List ℕ} {a m : ℕ}

lemma foldl_min_of_le (h : l.min? = some a) (hm : ∀ x ∈ l, x ≤ m) : l.foldl min m = a := by
  cases l with
  | nil => simp at h
  | cons x l =>
    rw [List.min?_cons'] at h
    rw [List.foldl_cons, Nat.min_eq_right (hm x List.mem_cons_self)]
    exact Option.some.inj h

lemma foldl_max_zero (h : l.max? = some a) : l.foldl max 0 = a := by
  cases l with
  | nil => simp at h
  | cons x l =>
    rw [List.max?_cons'] at h
    rw [List.foldl_cons, Nat.max_eq_right (Nat.zero_le x)]
    exact Option.some.inj h

lemma toNat_ite_lt (x y : BitVec 64) : (if x < y then x else y).toNat = min y.toNat x.toNat := by
  split
  · next h => exact (Nat.min_eq_right (Nat.le_of_lt h)).symm
  · next h => exact (Nat.min_eq_left (Nat.le_of_not_lt h)).symm

lemma toNat_ite_gt (x y : BitVec 64) : (if x > y then x else y).toNat = max y.toNat x.toNat := by
  split
  · next h => exact (Nat.max_eq_right (Nat.le_of_lt h)).symm
  · next h => exact (Nat.max_eq_left (Nat.le_of_not_lt h)).symm

/-- The loop keeps four running extrema. -/
lemma foldl_visit (threads : List Stamps) (e : Extrema) :
    (threads.foldl Extrema.visit e).earliestHwtimerStart.toNat =
        (threads.map (·.hwtimerStart.toNat)).foldl min e.earliestHwtimerStart.toNat ∧
      (threads.foldl Extrema.visit e).earliestHwtimerEnd.toNat =
        (threads.map (·.hwtimerEnd.toNat)).foldl min e.earliestHwtimerEnd.toNat ∧
      (threads.foldl Extrema.visit e).latestHwtimerStart.toNat =
        (threads.map (·.hwtimerStart.toNat)).foldl max e.latestHwtimerStart.toNat ∧
      (threads.foldl Extrema.visit e).latestHwtimerEnd.toNat =
        (threads.map (·.hwtimerEnd.toNat)).foldl max e.latestHwtimerEnd.toNat := by
  induction threads generalizing e with
  | nil => exact ⟨rfl, rfl, rfl, rfl⟩
  | cons p threads ih =>
    obtain ⟨hes, hee, hls, hle⟩ := ih (e.visit p)
    simp only [List.foldl_cons, List.map_cons]
    rw [hes, hee, hls, hle]
    simp only [Extrema.visit, toNat_ite_lt, toNat_ite_gt, and_self]

end Extrema

section Fraction
variable {threads : List Stamps} {minStart minEnd maxStart maxEnd : ℕ}

/-- The values that the loop starts from do not show in the end. -/
lemma Bounds.extrema_eq (h : Bounds threads minStart minEnd maxStart maxEnd) :
    (extrema threads).earliestHwtimerStart.toNat = minStart ∧
      (extrema threads).earliestHwtimerEnd.toNat = minEnd ∧
      (extrema threads).latestHwtimerStart.toNat = maxStart ∧
      (extrema threads).latestHwtimerEnd.toNat = maxEnd := by
  have hword (x : BitVec 64) : x.toNat ≤ (-1 : BitVec 64).toNat := by
    have hmax : (-1 : BitVec 64).toNat = 2 ^ 64 - 1 := rfl
    have hlt := x.isLt
    omega
  obtain ⟨hes, hee, hls, hle⟩ := foldl_visit threads .init
  unfold extrema
  rw [hes, hee, hls, hle]
  refine ⟨?_, ?_, ?_, ?_⟩
  · apply foldl_min_of_le h.minStart
    intro x hx
    obtain ⟨p, -, rfl⟩ := List.mem_map.mp hx
    exact hword p.hwtimerStart
  · apply foldl_min_of_le h.minEnd
    intro x hx
    obtain ⟨p, -, rfl⟩ := List.mem_map.mp hx
    exact hword p.hwtimerEnd
  · exact foldl_max_zero h.maxStart
  · exact foldl_max_zero h.maxEnd

/-- The stamps are those of `unsigned long`s, and the first end is not behind the last. -/
lemma Bounds.lt (h : Bounds threads minStart minEnd maxStart maxEnd) :
    maxStart < 2 ^ 64 ∧ maxEnd < 2 ^ 64 ∧ minEnd ≤ maxEnd ∧ minStart ≤ maxStart := by
  obtain ⟨hes, hee, hls, hle⟩ := h.extrema_eq
  refine ⟨?_, ?_, ?_, ?_⟩
  · rw [← hls]
    exact BitVec.isLt _
  · rw [← hle]
    exact BitVec.isLt _
  · exact (List.max?_eq_some_iff.mp h.maxEnd).2 minEnd (List.min?_eq_some_iff.mp h.minEnd).1
  · exact (List.max?_eq_some_iff.mp h.maxStart).2 minStart (List.min?_eq_some_iff.mp h.minStart).1

/-- The sign test never fires: a quotient of unsigned differences is not negative. -/
lemma Bounds.fraction_eq (h : Bounds threads minStart minEnd maxStart maxEnd) (hspan : minStart < maxEnd) :
    fullConcurrencyFraction threads =
      (if maxStart ≤ minEnd then ((minEnd - maxStart : ℕ) : ℚ) else ((2 ^ 64 + minEnd - maxStart : ℕ) : ℚ)) /
        ((maxEnd - minStart : ℕ) : ℚ) := by
  obtain ⟨hes, hee, hls, hle⟩ := h.extrema_eq
  obtain ⟨hlt, hlt', -, -⟩ := h.lt
  have hden : ((extrema threads).latestHwtimerEnd - (extrema threads).earliestHwtimerStart).toNat =
      maxEnd - minStart := by
    rw [BitVec.toNat_sub, hle, hes]
    omega
  have hnum : ((extrema threads).earliestHwtimerEnd - (extrema threads).latestHwtimerStart).toNat =
      if maxStart ≤ minEnd then minEnd - maxStart else 2 ^ 64 + minEnd - maxStart := by
    have hword := (extrema threads).earliestHwtimerEnd.isLt
    rw [BitVec.toNat_sub, hls, hee]
    split <;> omega
  unfold fullConcurrencyFraction
  dsimp only
  rw [hden, hnum, if_neg (not_lt.mpr (by positivity))]
  split <;> rfl

/-- The fraction is the time of full concurrency over the whole time, and a fraction, just when
no thread ends before another one starts. -/
theorem fullConcurrencyFraction_iff (hbounds : Bounds threads minStart minEnd maxStart maxEnd)
    (hspan : minStart < maxEnd) :
    (fullConcurrencyFraction threads =
        ((max 0 ((minEnd : ℤ) - maxStart) : ℤ) : ℚ) / (((maxEnd : ℤ) - minStart : ℤ) : ℚ) ∧
      0 ≤ fullConcurrencyFraction threads ∧ fullConcurrencyFraction threads ≤ 1) ↔
      maxStart ≤ minEnd := by
  obtain ⟨hlt, -, hends, hstarts⟩ := hbounds.lt
  have hpos : (0 : ℚ) < ((maxEnd - minStart : ℕ) : ℚ) := Nat.cast_pos.mpr (by omega)
  have hden : ((maxEnd : ℤ) - minStart : ℤ) = ((maxEnd - minStart : ℕ) : ℤ) := by omega
  rw [hbounds.fraction_eq hspan, hden, Int.cast_natCast]
  constructor
  · intro h
    by_contra hle
    -- the difference wraps to a positive number where the time of full concurrency is zero
    have hzero : max 0 ((minEnd : ℤ) - maxStart) = 0 := by omega
    have heq := h.1
    rw [if_neg hle, hzero, Int.cast_zero, zero_div, div_eq_zero_iff] at heq
    obtain hnum | hdiv := heq
    · have hnat : 2 ^ 64 + minEnd - maxStart = 0 := Nat.cast_eq_zero.mp hnum
      omega
    · exact hpos.ne' hdiv
  · intro hle
    have hnum : max 0 ((minEnd : ℤ) - maxStart) = ((minEnd - maxStart : ℕ) : ℤ) := by omega
    have hsub : ((minEnd - maxStart : ℕ) : ℚ) ≤ ((maxEnd - minStart : ℕ) : ℚ) := Nat.cast_le.mpr (by omega)
    rw [if_pos hle, hnum, Int.cast_natCast]
    refine ⟨rfl, by positivity, ?_⟩
    exact (div_le_one hpos).mpr hsub

/-- Three threads as in the first example of the source -/
theorem fullConcurrencyFraction_three :
    fullConcurrencyFraction [⟨3, 8⟩, ⟨3, 7⟩, ⟨4, 8⟩] = 3 / 5 := by
  have hbounds : Bounds [⟨3, 8⟩, ⟨3, 7⟩, ⟨4, 8⟩] 3 7 4 8 := ⟨by decide, by decide, by decide, by decide⟩
  have hfraction := ((fullConcurrencyFraction_iff hbounds (by decide)).mpr (by decide)).1
  rw [hfraction]
  norm_num

/-- One that ends before the others start, as in the last example of the source. -/
theorem fullConcurrencyFraction_wraps :
    ¬ ∀ (threads : List Stamps) (minStart minEnd maxStart maxEnd : ℕ), threads ≠ [] →
      Bounds threads minStart minEnd maxStart maxEnd →
      (∀ p ∈ threads, p.hwtimerStart.toNat ≤ p.hwtimerEnd.toNat) → minStart < maxEnd →
      fullConcurrencyFraction threads =
          ((max 0 ((minEnd : ℤ) - maxStart) : ℤ) : ℚ) / (((maxEnd : ℤ) - minStart : ℤ) : ℚ) ∧
        0 ≤ fullConcurrencyFraction threads ∧ fullConcurrencyFraction threads ≤ 1 := by
  intro hall
  have hbounds : Bounds [⟨3, 8⟩, ⟨9, 13⟩, ⟨10, 14⟩] 3 8 10 14 := ⟨by decide, by decide, by decide, by decide⟩
  have hfraction := hall _ 3 8 10 14 (by simp) hbounds (by decide) (by decide)
  have hvalue := hbounds.fraction_eq (by decide)
  rw [if_neg (by decide)] at hvalue
  have hle := hfraction.2.2
  rw [hvalue] at hle
  norm_num at hle

end Fraction

end Lockhammer.Report
