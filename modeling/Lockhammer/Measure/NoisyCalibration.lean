import Lockhammer.Measure.Calibration
import Mathlib.Data.List.Chain

/-!
# Calibration under noise (measure.c)

No measurement of `calibrate_blackhole_helper` need agree with another: whatever the calls
of `evaluate_blackhole` return, the interval halves from call to call and the search ends
inside it.
-/
namespace Lockhammer.Calibration

/-- A recursive call has an interval that is not empty, inside that of its caller and
strictly smaller. -/
structure Narrows (outer inner : Interval) : Prop where
  lt : inner.tokensLow < inner.tokensHigh
  low : outer.tokensLow ≤ inner.tokensLow
  high : inner.tokensHigh ≤ outer.tokensHigh
  smaller : inner.tokensHigh.toNat - inner.tokensLow.toNat < outer.tokensHigh.toNat - outer.tokensLow.toNat

section Calls
variable {evaluateBlackhole : ℕ → BitVec 64 → BitVec 64 → BitVec 64} {targetTicks NUMTRIES : BitVec 64}

lemma narrows_left {lo hi : BitVec 64} (hlt : lo.toNat < hi.toNat) (hdiff : hi - lo ≠ 1) :
    Narrows ⟨lo, hi⟩ ⟨lo, (hi - lo) / 2 + lo⟩ := by
  obtain ⟨hlm, hmh⟩ := mid_between hlt hdiff
  exact ⟨hlm, BitVec.le_refl _, hmh.le, by dsimp only; omega⟩

lemma narrows_right {lo hi : BitVec 64} (hlt : lo.toNat < hi.toNat) (hdiff : hi - lo ≠ 1) :
    Narrows ⟨lo, hi⟩ ⟨(hi - lo) / 2 + lo, hi⟩ := by
  obtain ⟨hlm, hmh⟩ := mid_between hlt hdiff
  exact ⟨hmh, hlm.le, BitVec.le_refl _, by dsimp only; omega⟩

/-- The calls of a search that ends, and its result. -/
structure Ends (lo hi : BitVec 64) (calls : List Interval) (r : BlackholeMeasurement) : Prop where
  narrows : List.IsChain Narrows (⟨lo, hi⟩ :: calls)
  low : lo.toNat ≤ r.tokens.toNat
  high : r.tokens.toNat ≤ hi.toNat

/-- One call more in front. -/
lemma Ends.cons {lo hi lo' hi' : BitVec 64} {calls : List Interval} {r : BlackholeMeasurement}
    (hn : Narrows ⟨lo, hi⟩ ⟨lo', hi'⟩) (h : Ends lo' hi' calls r) : Ends lo hi (⟨lo', hi'⟩ :: calls) r :=
  ⟨.cons_cons hn h.narrows, le_trans hn.low h.low, le_trans h.high hn.high⟩

/-- Neighbours are not searched between. -/
lemma ends_of_neighbours {k : ℕ} {lo hi : BitVec 64} (hlt : lo.toNat < hi.toNat) (hdiff : hi - lo = 1) :
    ∃ r, Ends lo hi [] r ∧ ∀ fuel,
      calibrateBlackholeHelperCalls evaluateBlackhole targetTicks NUMTRIES (fuel + 1) k lo hi = some ([], r) := by
  by_cases hnear : labs (evaluateBlackhole k lo NUMTRIES - NUMTRIES * targetTicks) <
      labs (evaluateBlackhole (k + 1) hi NUMTRIES - NUMTRIES * targetTicks)
  · refine ⟨⟨lo, evaluateBlackhole k lo NUMTRIES⟩, ⟨.singleton _, le_rfl, hlt.le⟩, fun fuel => ?_⟩
    rw [calibrateBlackholeHelperCalls]
    exact (if_pos hdiff).trans (if_pos hnear)
  · refine ⟨⟨hi, evaluateBlackhole (k + 1) hi NUMTRIES⟩, ⟨.singleton _, hlt.le, le_rfl⟩, fun fuel => ?_⟩
    rw [calibrateBlackholeHelperCalls]
    exact (if_pos hdiff).trans (if_neg hnear)

/-- An interval of at most `2 ^ fuel` steps is searched to the end, whatever is measured. -/
lemma calibrateBlackholeHelperCalls_ends {fuel k : ℕ} {lo hi : BitVec 64} (hlt : lo.toNat < hi.toNat)
    (hfuel : hi.toNat - lo.toNat ≤ 2 ^ fuel) :
    ∃ calls r, Ends lo hi calls r ∧ ∀ more,
      calibrateBlackholeHelperCalls evaluateBlackhole targetTicks NUMTRIES (fuel + more + 1) k lo hi =
        some (calls, r) := by
  induction fuel generalizing k lo hi with
  | zero =>
    by_cases hdiff : hi - lo = 1
    · obtain ⟨r, hr, hrun⟩ := ends_of_neighbours hlt hdiff
      exact ⟨[], r, hr, fun more => hrun _⟩
    · obtain ⟨hlm, hmh⟩ := mid_between hlt hdiff
      omega
  | succ fuel ih =>
    by_cases hdiff : hi - lo = 1
    · obtain ⟨r, hr, hrun⟩ := ends_of_neighbours hlt hdiff
      exact ⟨[], r, hr, fun more => hrun _⟩
    obtain ⟨hlm, hmh⟩ := mid_between hlt hdiff
    have hleft := narrows_left hlt hdiff
    have hright := narrows_right hlt hdiff
    have hmid := mid_toNat hlt.le
    generalize hm : (hi - lo) / 2 + lo = mid at hlm hmh hleft hright hmid
    rw [pow_succ] at hfuel
    have hround (more : ℕ) : fuel + 1 + more + 1 = fuel + more + 1 + 1 := by omega
    -- the measurement in the middle decides between the halves
    by_cases hgt : evaluateBlackhole k mid NUMTRIES > NUMTRIES * targetTicks
    · obtain ⟨calls, r, hr, hrun⟩ := ih (k := k + 1) hlm (by omega)
      refine ⟨_, r, hr.cons hleft, fun more => ?_⟩
      rw [hround, calibrateBlackholeHelperCalls]
      simp only [if_neg hdiff, hm, if_pos hgt, hrun, Option.map_some]
    by_cases hlt' : evaluateBlackhole k mid NUMTRIES < NUMTRIES * targetTicks
    · obtain ⟨calls, r, hr, hrun⟩ := ih (k := k + 1) hmh (by omega)
      refine ⟨_, r, hr.cons hright, fun more => ?_⟩
      rw [hround, calibrateBlackholeHelperCalls]
      simp only [if_neg hdiff, hm, if_neg hgt, if_pos hlt', hrun, Option.map_some]
    · refine ⟨[], ⟨mid, evaluateBlackhole k mid NUMTRIES⟩, ⟨.singleton _, hlm.le, hmh.le⟩, fun more => ?_⟩
      rw [hround, calibrateBlackholeHelperCalls]
      simp only [if_neg hdiff, hm, if_neg hgt, if_neg hlt']

end Calls

/-- Whatever the calls of `evaluate_blackhole` measure: the search ends, each recursive call
narrows the interval of its caller, and the tokens returned lie in the first interval. -/
theorem calibrateBlackholeHelper_terminates {tokensLow tokensHigh : BitVec 64} (hlt : tokensLow < tokensHigh)
    (hhigh : tokensHigh.toNat < 2 ^ 63) (evaluateBlackhole : ℕ → BitVec 64 → BitVec 64 → BitVec 64)
    (targetTicks NUMTRIES : BitVec 64) :
    ∃ calls r,
      (∀ fuel, 64 < fuel → calibrateBlackholeHelperCalls evaluateBlackhole targetTicks NUMTRIES fuel 0
        tokensLow tokensHigh = some (calls, r)) ∧
      List.IsChain Narrows (⟨tokensLow, tokensHigh⟩ :: calls) ∧
      (tokensLow.toNat : ℤ) ≤ r.tokens.toInt ∧ r.tokens.toInt ≤ tokensHigh.toNat := by
  have hfuel : tokensHigh.toNat - tokensLow.toNat ≤ 2 ^ 64 := by omega
  obtain ⟨calls, r, hr, hrun⟩ := calibrateBlackholeHelperCalls_ends (k := 0) hlt hfuel
  have htokens : r.tokens.toInt = r.tokens.toNat := BitVec.toInt_eq_toNat_of_lt (by have := hr.high; omega)
  refine ⟨calls, r, fun fuel hmore => ?_, hr.narrows, ?_, ?_⟩
  · obtain ⟨more, rfl⟩ : ∃ m, fuel = 64 + m + 1 := ⟨fuel - 65, by omega⟩
    exact hrun more
  · rw [htokens]
    exact Int.ofNat_le.mpr hr.low
  · rw [htokens]
    exact Int.ofNat_le.mpr hr.high

/-- Measurements that go up and down. -/
theorem calibrateBlackholeHelper_terminates_zigzag :
    ∃ calls r,
      (∀ fuel, 64 < fuel → calibrateBlackholeHelperCalls (fun k _ _ => if k % 2 = 0 then 0 else 100) 7 3 fuel 0
        0 1000000 = some (calls, r)) ∧
      List.IsChain Narrows (⟨0, 1000000⟩ :: calls) ∧
      ((0 : BitVec 64).toNat : ℤ) ≤ r.tokens.toInt ∧ r.tokens.toInt ≤ (1000000 : BitVec 64).toNat :=
  calibrateBlackholeHelper_terminates (by decide) (by decide) _ 7 3

end Lockhammer.Calibration
