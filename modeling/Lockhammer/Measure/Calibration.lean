import Lockhammer.Search.Selection
import Mathlib.Data.BitVec
import Mathlib.Data.List.Sort
import Mathlib.Data.Int.Order.Basic

/-!
# Calibrating the delay loop (measure.c)

`calibrate_blackhole_helper` bisects the token counts for the one whose `NUMTRIES` calls of
`blackhole` take nearest to the target; `calibrate_blackhole` tries five times and takes the
median. The words of the machine refine a bisection over the integers.
-/
namespace Lockhammer.Calibration
open Search

/-- `blackhole_measurement_t` -/
structure BlackholeMeasurement where
  /-- The value passed to `blackhole`. -/
  tokens : BitVec 64
  /-- The duration in timer ticks. -/
  ticks : BitVec 64
  deriving DecidableEq

/-- The arguments of a call of the helper. -/
structure Interval where
  tokensLow : BitVec 64
  tokensHigh : BitVec 64
  deriving DecidableEq

section Helper

def labs (x : BitVec 64) : BitVec 64 := if x.msb then -x else x

/-- `calibrate_blackhole_helper`, with the depth to which it may recurse, where the `k`-th call of
`evaluate_blackhole` measures `evaluateBlackhole k`: the arguments of its recursive calls, and its
result. -/
def calibrateBlackholeHelperCalls (evaluateBlackhole : ℕ → BitVec 64 → BitVec 64 → BitVec 64)
    (targetTicks NUMTRIES : BitVec 64) :
    (fuel k : ℕ) → (tokensLow tokensHigh : BitVec 64) → Option (List Interval × BlackholeMeasurement)
  | 0, _, _, _ => none
  | fuel + 1, k, tokensLow, tokensHigh =>
    let tokensDiff := tokensHigh - tokensLow
    let tokensMid := tokensDiff / 2 + tokensLow
    let targetTotalTicks := NUMTRIES * targetTicks
    let recurse (low high : BitVec 64) : Option (List Interval × BlackholeMeasurement) :=
      (calibrateBlackholeHelperCalls evaluateBlackhole targetTicks NUMTRIES fuel (k + 1) low high).map
        fun r => (⟨low, high⟩ :: r.1, r.2)
    if tokensDiff = 1 then
      let lowTicks := evaluateBlackhole k tokensLow NUMTRIES
      let highTicks := evaluateBlackhole (k + 1) tokensHigh NUMTRIES
      if labs (lowTicks - targetTotalTicks) < labs (highTicks - targetTotalTicks) then
        some ([], ⟨tokensLow, lowTicks⟩)
      else some ([], ⟨tokensHigh, highTicks⟩)
    else
      let t := evaluateBlackhole k tokensMid NUMTRIES
      if t > targetTotalTicks then recurse tokensLow tokensMid
      else if t < targetTotalTicks then recurse tokensMid tokensHigh
      else some ([], ⟨tokensMid, t⟩)

/-- The result where a number of tokens is always measured the same. -/
def calibrateBlackholeHelper (evaluateBlackhole : BitVec 64 → BitVec 64 → BitVec 64)
    (targetTicks NUMTRIES : BitVec 64) (fuel : ℕ) (tokensLow tokensHigh : BitVec 64) : Option BlackholeMeasurement :=
  (calibrateBlackholeHelperCalls (fun _ => evaluateBlackhole) targetTicks NUMTRIES fuel 0 tokensLow tokensHigh).map
    Prod.snd

/-- The distance of two words in the lower half of their range. -/
lemma labs_sub {a b : BitVec 64} (ha : a.toNat < 2 ^ 63) (hb : b.toNat < 2 ^ 63) :
    ((labs (a - b)).toNat : ℤ) = |(a.toNat : ℤ) - b.toNat| := by
  obtain hle | hlt := le_or_gt b.toNat a.toNat
  · have hval : (a - b).toNat = a.toNat - b.toNat := BitVec.toNat_sub_of_le hle
    have hmsb : (a - b).msb = false := by
      rw [BitVec.msb_eq_decide, hval]
      exact decide_eq_false (by omega)
    rw [labs, hmsb, if_neg Bool.false_ne_true, hval, Nat.cast_sub hle]
    exact (abs_of_nonneg (by omega)).symm
  · have hval : (a - b).toNat = 2 ^ 64 - b.toNat + a.toNat := by
      rw [BitVec.toNat_sub]
      exact Nat.mod_eq_of_lt (by omega)
    have hmsb : (a - b).msb = true := by
      rw [BitVec.msb_eq_decide, hval]
      exact decide_eq_true (by omega)
    have hneg : (-(a - b)).toNat = b.toNat - a.toNat := by
      rw [BitVec.toNat_neg, hval]
      omega
    rw [labs, hmsb, if_pos rfl, hneg, Nat.cast_sub hlt.le, abs_sub_comm]
    exact (abs_of_nonneg (by omega)).symm

/-- Which of two words is nearer to a third. -/
lemma labs_lt_iff {a b c : BitVec 64} (ha : a.toNat < 2 ^ 63) (hb : b.toNat < 2 ^ 63) (hc : c.toNat < 2 ^ 63) :
    labs (a - c) < labs (b - c) ↔ |(a.toNat : ℤ) - c.toNat| < |(b.toNat : ℤ) - c.toNat| := by
  rw [← labs_sub ha hc, ← labs_sub hb hc, Nat.cast_lt]
  rfl

/-- The measured durations as integers. -/
def duration (evaluateBlackhole : BitVec 64 → BitVec 64 → BitVec 64) (NUMTRIES : BitVec 64) (tokens : ℕ) : ℤ :=
  (evaluateBlackhole (BitVec.ofNat 64 tokens) NUMTRIES).toNat

variable {evaluateBlackhole : BitVec 64 → BitVec 64 → BitVec 64} {targetTicks NUMTRIES : BitVec 64}

/-- How many calls there have been does not matter then. -/
lemma calibrateBlackholeHelperCalls_const (fuel k k' : ℕ) (lo hi : BitVec 64) :
    calibrateBlackholeHelperCalls (fun _ => evaluateBlackhole) targetTicks NUMTRIES fuel k lo hi =
      calibrateBlackholeHelperCalls (fun _ => evaluateBlackhole) targetTicks NUMTRIES fuel k' lo hi := by
  induction fuel generalizing k k' lo hi with
  | zero => rfl
  | succ fuel ih =>
    rw [calibrateBlackholeHelperCalls, calibrateBlackholeHelperCalls]
    simp only [ih (k + 1) (k' + 1)]

lemma calibrateBlackholeHelper_succ (fuel : ℕ) (lo hi : BitVec 64) :
    calibrateBlackholeHelper evaluateBlackhole targetTicks NUMTRIES (fuel + 1) lo hi =
      if hi - lo = 1 then
        if labs (evaluateBlackhole lo NUMTRIES - NUMTRIES * targetTicks) <
            labs (evaluateBlackhole hi NUMTRIES - NUMTRIES * targetTicks) then
          some ⟨lo, evaluateBlackhole lo NUMTRIES⟩
        else some ⟨hi, evaluateBlackhole hi NUMTRIES⟩
      else if evaluateBlackhole ((hi - lo) / 2 + lo) NUMTRIES > NUMTRIES * targetTicks then
        calibrateBlackholeHelper evaluateBlackhole targetTicks NUMTRIES fuel lo ((hi - lo) / 2 + lo)
      else if evaluateBlackhole ((hi - lo) / 2 + lo) NUMTRIES < NUMTRIES * targetTicks then
        calibrateBlackholeHelper evaluateBlackhole targetTicks NUMTRIES fuel ((hi - lo) / 2 + lo) hi
      else some ⟨(hi - lo) / 2 + lo, evaluateBlackhole ((hi - lo) / 2 + lo) NUMTRIES⟩ := by
  simp only [calibrateBlackholeHelper, calibrateBlackholeHelperCalls_const fuel 0 1]
  rw [calibrateBlackholeHelperCalls]
  simp only [apply_ite (Option.map Prod.snd), Option.map_some, Option.map_map, Function.comp_def]

lemma duration_toNat (tokens : BitVec 64) : duration evaluateBlackhole NUMTRIES tokens.toNat =
    (evaluateBlackhole tokens NUMTRIES).toNat := by
  rw [duration, BitVec.ofNat_toNat, BitVec.setWidth_eq]

/-- The result for a number of tokens. -/
def measured (evaluateBlackhole : BitVec 64 → BitVec 64 → BitVec 64) (NUMTRIES : BitVec 64) (tokens : ℕ) :
    BlackholeMeasurement :=
  ⟨BitVec.ofNat 64 tokens, evaluateBlackhole (BitVec.ofNat 64 tokens) NUMTRIES⟩

lemma measured_toNat (tokens : BitVec 64) : measured evaluateBlackhole NUMTRIES tokens.toNat =
    ⟨tokens, evaluateBlackhole tokens NUMTRIES⟩ := by
  rw [measured, BitVec.ofNat_toNat, BitVec.setWidth_eq]

lemma mid_toNat {lo hi : BitVec 64} (h : lo ≤ hi) :
    ((hi - lo) / 2 + lo).toNat = (hi.toNat - lo.toNat) / 2 + lo.toNat := by
  have hle : lo.toNat ≤ hi.toNat := h
  have hlt := hi.isLt
  have htwo : (2 : BitVec 64).toNat = 2 := rfl
  rw [BitVec.toNat_add, BitVec.toNat_udiv, BitVec.toNat_sub_of_le h, htwo]
  exact Nat.mod_eq_of_lt (by omega)

/-- The middle of an interval of more than one step is none of its ends. -/
lemma mid_between {lo hi : BitVec 64} (hlt : lo.toNat < hi.toNat) (hdiff : hi - lo ≠ 1) :
    lo.toNat < ((hi - lo) / 2 + lo).toNat ∧ ((hi - lo) / 2 + lo).toNat < hi.toNat := by
  have hle : lo ≤ hi := hlt.le
  have hone : hi.toNat - lo.toNat ≠ 1 := by
    intro h
    apply hdiff
    apply BitVec.eq_of_toNat_eq
    rw [BitVec.toNat_sub_of_le hle, h]
    rfl
  rw [mid_toNat hle]
  omega

/-- On words whose durations are not negative the search is a bisection over the integers. -/
lemma calibrateBlackholeHelper_eq (htarget : NUMTRIES.toNat * targetTicks.toNat < 2 ^ 63) {fuel : ℕ}
    {lo hi : BitVec 64} (hlt : lo.toNat < hi.toNat)
    (hval : ∀ t, lo.toNat ≤ t.toNat → t.toNat ≤ hi.toNat → (evaluateBlackhole t NUMTRIES).toNat < 2 ^ 63) :
    calibrateBlackholeHelper evaluateBlackhole targetTicks NUMTRIES fuel lo hi =
      (bisect (duration evaluateBlackhole NUMTRIES) (NUMTRIES.toNat * targetTicks.toNat : ℕ) fuel lo.toNat
        hi.toNat).map (measured evaluateBlackhole NUMTRIES) := by
  have hT : (NUMTRIES * targetTicks).toNat = NUMTRIES.toNat * targetTicks.toNat := by
    rw [BitVec.toNat_mul]
    exact Nat.mod_eq_of_lt (by omega)
  induction fuel generalizing lo hi with
  | zero => rfl
  | succ fuel ih =>
    have hle : lo ≤ hi := hlt.le
    have hmid := mid_toNat hle
    rw [calibrateBlackholeHelper_succ, bisect]
    by_cases hdiff : hi.toNat - lo.toNat = 1
    · have hword : hi - lo = 1 := by
        apply BitVec.eq_of_toNat_eq
        rw [BitVec.toNat_sub_of_le hle, hdiff]
        rfl
      have hcmp := labs_lt_iff (hval lo le_rfl hlt.le) (hval hi hlt.le le_rfl) (hT ▸ htarget)
      rw [hT] at hcmp
      simp only [if_pos hword, if_pos hdiff, duration_toNat, Option.map_some, hcmp]
      split
      · rw [measured_toNat]
      · rw [measured_toNat]
    · have hword : hi - lo ≠ 1 := by
        intro h
        have hnat := congrArg BitVec.toNat h
        rw [BitVec.toNat_sub_of_le hle] at hnat
        exact hdiff hnat
      obtain ⟨hlm, hmh⟩ := mid_between hlt hword
      generalize (hi - lo) / 2 + lo = mid at hmid hlm hmh
      have hleft := ih hlm fun t hl hh => hval t hl (hh.trans hmh.le)
      have hright := ih hmh fun t hl hh => hval t (hlm.le.trans hl) hh
      simp only [if_neg hword, if_neg hdiff, ← hmid, duration_toNat, hleft, hright]
      have hgt : evaluateBlackhole mid NUMTRIES > NUMTRIES * targetTicks ↔
          ((NUMTRIES.toNat * targetTicks.toNat : ℕ) : ℤ) < (evaluateBlackhole mid NUMTRIES).toNat := by
        rw [Nat.cast_lt, ← hT]
        rfl
      have hlt' : evaluateBlackhole mid NUMTRIES < NUMTRIES * targetTicks ↔
          ((evaluateBlackhole mid NUMTRIES).toNat : ℤ) < (NUMTRIES.toNat * targetTicks.toNat : ℕ) := by
        rw [Nat.cast_lt, ← hT]
        rfl
      rw [apply_ite (Option.map _), apply_ite (Option.map _), Option.map_some, measured_toNat]
      simp only [hgt, hlt']

lemma word_toNat {hi : BitVec 64} {n : ℕ} (h : n ≤ hi.toNat) : (BitVec.ofNat 64 n).toNat = n :=
  (BitVec.toNat_ofNat n 64).trans (Nat.mod_eq_of_lt (h.trans_lt hi.isLt))

/-- Words in `[lo, hi]` whose durations grow with the tokens and are not negative. -/
structure Grows (evaluateBlackhole : BitVec 64 → BitVec 64 → BitVec 64) (NUMTRIES lo hi : BitVec 64) : Prop where
  mono : ∀ s t, lo ≤ s → s ≤ t → t ≤ hi → evaluateBlackhole s NUMTRIES ≤ evaluateBlackhole t NUMTRIES
  lt : ∀ t, lo ≤ t → t ≤ hi → (evaluateBlackhole t NUMTRIES).toNat < 2 ^ 63

lemma Grows.duration_le {lo hi : BitVec 64} (h : Grows evaluateBlackhole NUMTRIES lo hi) {s t : ℕ}
    (hs : s ∈ Set.Icc lo.toNat hi.toNat) (ht : t ∈ Set.Icc lo.toNat hi.toNat) (hst : s ≤ t) :
    duration evaluateBlackhole NUMTRIES s ≤ duration evaluateBlackhole NUMTRIES t := by
  have hw := h.mono (BitVec.ofNat 64 s) (BitVec.ofNat 64 t)
  rw [BitVec.le_def, BitVec.le_def, BitVec.le_def, word_toNat hs.2, word_toNat ht.2] at hw
  exact Int.ofNat_le.mpr (hw hs.1 hst ht.2)

lemma grows_double : Grows (fun tokens _ => 2 * tokens) 3 0 1000 := by
  have hval : ∀ t : BitVec 64, t ≤ 1000 → (2 * t).toNat = 2 * t.toNat := by
    intro t ht
    have hle : t.toNat ≤ 1000 := ht
    have htwo : (2 : BitVec 64).toNat = 2 := rfl
    rw [BitVec.toNat_mul, htwo]
    exact Nat.mod_eq_of_lt (by omega)
  refine ⟨fun s t _ hst ht => ?_, fun t _ ht => ?_⟩
  · have hs : s ≤ 1000 := BitVec.le_trans hst ht
    rw [BitVec.le_def, hval s hs, hval t ht]
    exact Nat.mul_le_mul_left 2 hst
  · have hle : t.toNat ≤ 1000 := ht
    rw [hval t ht]
    omega

/-- The search ends, at the token count whose duration is nearest to the target. -/
lemma calibrateBlackholeHelper_isClosest {lo hi : BitVec 64} (hlt : lo < hi)
    (hgrows : Grows evaluateBlackhole NUMTRIES lo hi)
    (htarget : NUMTRIES.toNat * targetTicks.toNat < 2 ^ 63) {fuel : ℕ} (hfuel : 64 < fuel) :
    ∃ n, calibrateBlackholeHelper evaluateBlackhole targetTicks NUMTRIES fuel lo hi =
        some (measured evaluateBlackhole NUMTRIES n) ∧
      IsClosest (duration evaluateBlackhole NUMTRIES) (NUMTRIES.toNat * targetTicks.toNat : ℕ)
        lo.toNat hi.toNat n := by
  obtain ⟨fuel, rfl⟩ : ∃ m, fuel = m + 1 := ⟨fuel - 1, by omega⟩
  have hpow : 2 ^ 64 ≤ 2 ^ fuel := Nat.pow_le_pow_right two_pos (by omega)
  have hhi := hi.isLt
  obtain ⟨n, hn, hcl⟩ := bisect_closest ((NUMTRIES.toNat * targetTicks.toNat : ℕ) : ℤ) hlt
    (by omega : hi.toNat - lo.toNat ≤ 2 ^ fuel) fun s hs t ht hst => hgrows.duration_le hs ht hst
  refine ⟨n, ?_, hcl⟩
  rw [calibrateBlackholeHelper_eq htarget hlt hgrows.lt, hn, Option.map_some]

end Helper

/-- The search ends, and of all token counts of the interval it returns one whose duration is
nearest to `NUMTRIES * target_ticks`, with that duration. -/
theorem calibrateBlackholeHelper_closest {evaluateBlackhole : BitVec 64 → BitVec 64 → BitVec 64}
    {targetTicks NUMTRIES tokensLow tokensHigh : BitVec 64} (hlt : tokensLow < tokensHigh)
    (hgrows : Grows evaluateBlackhole NUMTRIES tokensLow tokensHigh)
    (htarget : NUMTRIES.toNat * targetTicks.toNat < 2 ^ 63) {fuel : ℕ} (hfuel : 64 < fuel) :
    ∃ r, calibrateBlackholeHelper evaluateBlackhole targetTicks NUMTRIES fuel tokensLow tokensHigh = some r ∧
      tokensLow ≤ r.tokens ∧ r.tokens ≤ tokensHigh ∧ r.ticks = evaluateBlackhole r.tokens NUMTRIES ∧
      ∀ t, tokensLow ≤ t → t ≤ tokensHigh →
        |((evaluateBlackhole r.tokens NUMTRIES).toNat : ℤ) - NUMTRIES.toNat * targetTicks.toNat| ≤
          |((evaluateBlackhole t NUMTRIES).toNat : ℤ) - NUMTRIES.toNat * targetTicks.toNat| := by
  obtain ⟨n, hn, hmem, hcl⟩ := calibrateBlackholeHelper_isClosest hlt hgrows htarget hfuel
  have hword : (BitVec.ofNat 64 n).toNat = n := word_toNat hmem.2
  refine ⟨_, hn, ?_, ?_, rfl, fun t hlow hhigh => ?_⟩
  · exact hmem.1.trans hword.ge
  · exact hword.le.trans hmem.2
  · have h := hcl t.toNat ⟨hlow, hhigh⟩
    rw [duration_toNat, duration, Nat.cast_mul] at h
    exact h

/-- Three tries of seven ticks, at two ticks a token. -/
theorem calibrateBlackholeHelper_closest_double :
    ∃ r, calibrateBlackholeHelper (fun tokens _ => 2 * tokens) 7 3 65 0 1000 = some r ∧
      0 ≤ r.tokens ∧ r.tokens ≤ 1000 ∧ r.ticks = 2 * r.tokens ∧
      ∀ t : BitVec 64, 0 ≤ t → t ≤ 1000 →
        |((2 * r.tokens).toNat : ℤ) - (3 : BitVec 64).toNat * (7 : BitVec 64).toNat| ≤
          |((2 * t).toNat : ℤ) - (3 : BitVec 64).toNat * (7 : BitVec 64).toNat| :=
  calibrateBlackholeHelper_closest (by decide) grows_double (by decide) (by decide)

section Median

/-- `cmp_blackhole_measurement`: the difference of the ticks, as much of it as an `int` holds. -/
def cmpBlackholeMeasurement (a b : BlackholeMeasurement) : ℤ := ((a.ticks - b.ticks).setWidth 32).toInt

/-- The type of `qsort` on an array of measurements. -/
abbrev Qsort : Type :=
  (BlackholeMeasurement → BlackholeMeasurement → ℤ) → List BlackholeMeasurement → List BlackholeMeasurement

def numTries : ℕ := 5

/-- The end of `calibrate_blackhole`: sort the tries and take the tokens of the middle one. -/
def selectMedian (qsort : Qsort) (results : List BlackholeMeasurement) : Option (BitVec 64) :=
  (qsort cmpBlackholeMeasurement results)[numTries / 2]?.map BlackholeMeasurement.tokens

/-- `calibrate_blackhole`; the durations measured may differ from try to try. -/
def calibrateBlackhole (qsort : Qsort) (evaluateBlackhole : ℕ → BitVec 64 → BitVec 64 → BitVec 64) (fuel : ℕ)
    (targetTicks tokensLow tokensHigh NUMTRIES : BitVec 64) : Option (BitVec 64) := do
  let results ← (List.range numTries).mapM fun i =>
    calibrateBlackholeHelper (evaluateBlackhole i) targetTicks NUMTRIES fuel tokensLow tokensHigh
  selectMedian qsort results

/-- The comparator orders the elements of the array. -/
structure Consistent (cmp : BlackholeMeasurement → BlackholeMeasurement → ℤ)
    (results : List BlackholeMeasurement) : Prop where
  swap : ∀ a ∈ results, ∀ b ∈ results, (cmp a b).sign = -(cmp b a).sign
  trans : ∀ a ∈ results, ∀ b ∈ results, ∀ c ∈ results, cmp a b ≤ 0 → cmp b c ≤ 0 → cmp a c ≤ 0

/-- All that is known of `qsort`: it sorts under a consistent comparator. -/
def Sorts (qsort : Qsort) : Prop :=
  ∀ cmp results, Consistent cmp results →
    (qsort cmp results).Perm results ∧ (qsort cmp results).Pairwise fun a b => cmp a b ≤ 0

/-- The comparator has the sign of the difference of the ticks. -/
def ComparesTicks (results : Fin numTries → BlackholeMeasurement) : Prop :=
  ∀ i j, (cmpBlackholeMeasurement (results i) (results j)).sign =
    (((results i).ticks.toNat : ℤ) - (results j).ticks.toNat).sign

/-- The tokens returned are those of a try with median ticks. -/
def PicksMedian (results : Fin numTries → BlackholeMeasurement) : Prop :=
  ∀ qsort, Sorts qsort → ∃ i, selectMedian qsort (List.ofFn results) = some (results i).tokens ∧
    IsMedian (List.ofFn fun j => (results j).ticks.toNat) (results i).ticks.toNat

instance (results : Fin numTries → BlackholeMeasurement) : Decidable (ComparesTicks results) :=
  inferInstanceAs (Decidable (∀ _ _, _))

lemma cmpBlackholeMeasurement_eq (a b : BlackholeMeasurement) :
    cmpBlackholeMeasurement a b = ((a.ticks.toNat : ℤ) - b.ticks.toNat).bmod (2 ^ 32) := by
  have ha := a.ticks.isLt
  have hb := b.ticks.isLt
  have hmod : (((a.ticks - b.ticks).toNat : ℕ) : ℤ) % (2 ^ 32 : ℕ) =
      ((a.ticks.toNat : ℤ) - b.ticks.toNat) % (2 ^ 32 : ℕ) := by
    rw [BitVec.toNat_sub]
    omega
  rw [cmpBlackholeMeasurement, BitVec.toInt_setWidth, Int.bmod_def, hmod, ← Int.bmod_def]

/-- The residue of a positive difference keeps its sign. -/
lemma sign_bmod_iff {d : ℤ} (hd : 0 < d) :
    (d.bmod (2 ^ 32)).sign = d.sign ↔ 0 < d % 2 ^ 32 ∧ d % 2 ^ 32 < 2 ^ 31 := by
  rw [Int.sign_eq_one_of_pos hd, Int.sign_eq_one_iff_pos, Int.bmod_def]
  split <;> omega

/-- The residue of a negative one then does too. -/
lemma sign_bmod_neg {d : ℤ} (hd : 0 < d) (h : 0 < d % 2 ^ 32 ∧ d % 2 ^ 32 < 2 ^ 31) :
    ((-d).bmod (2 ^ 32)).sign = (-d).sign := by
  rw [Int.sign_eq_neg_one_of_neg (by omega : -d < 0), Int.sign_eq_neg_one_iff_neg, Int.bmod_def]
  split <;> omega

/-- The comparator is right about a longer and a shorter try. -/
lemma cmp_sign_iff {a b : BlackholeMeasurement} (h : b.ticks < a.ticks) :
    (cmpBlackholeMeasurement a b).sign = ((a.ticks.toNat : ℤ) - b.ticks.toNat).sign ↔
      0 < (a.ticks.toNat - b.ticks.toNat) % 2 ^ 32 ∧ (a.ticks.toNat - b.ticks.toNat) % 2 ^ 32 < 2 ^ 31 := by
  have hlt : b.ticks.toNat < a.ticks.toNat := h
  rw [cmpBlackholeMeasurement_eq, sign_bmod_iff (sub_pos.mpr (Nat.cast_lt.mpr hlt))]
  omega

/-- It is then right about them in the other order. -/
lemma cmp_sign_swap {a b : BlackholeMeasurement} (h : b.ticks < a.ticks)
    (hlow : 0 < (a.ticks.toNat - b.ticks.toNat) % 2 ^ 32 ∧ (a.ticks.toNat - b.ticks.toNat) % 2 ^ 32 < 2 ^ 31) :
    (cmpBlackholeMeasurement b a).sign = ((b.ticks.toNat : ℤ) - a.ticks.toNat).sign := by
  have hlt : b.ticks.toNat < a.ticks.toNat := h
  rw [cmpBlackholeMeasurement_eq, ← neg_sub]
  exact sign_bmod_neg (sub_pos.mpr (Nat.cast_lt.mpr hlt)) (by omega)

variable {results : Fin numTries → BlackholeMeasurement}

lemma comparesTicks_iff : ComparesTicks results ↔ ∀ i j, (results j).ticks < (results i).ticks →
    0 < ((results i).ticks.toNat - (results j).ticks.toNat) % 2 ^ 32 ∧
      ((results i).ticks.toNat - (results j).ticks.toNat) % 2 ^ 32 < 2 ^ 31 := by
  constructor
  · intro h i j hlt
    exact (cmp_sign_iff hlt).mp (h i j)
  · intro h i j
    obtain hlt | heq | hlt := lt_trichotomy (results i).ticks.toNat (results j).ticks.toNat
    · exact cmp_sign_swap hlt (h j i hlt)
    · rw [cmpBlackholeMeasurement_eq, heq, sub_self]
      rfl
    · exact (cmp_sign_iff hlt).mpr (h i j hlt)

lemma ComparesTicks.nonpos_iff (h : ComparesTicks results) (i j : Fin numTries) :
    cmpBlackholeMeasurement (results i) (results j) ≤ 0 ↔
      (results i).ticks.toNat ≤ (results j).ticks.toNat := by
  rw [← Int.sign_nonpos_iff, h i j, Int.sign_nonpos_iff]
  omega

lemma ComparesTicks.consistent (h : ComparesTicks results) :
    Consistent cmpBlackholeMeasurement (List.ofFn results) := by
  constructor
  · intro a ha b hb
    obtain ⟨i, rfl⟩ := List.mem_ofFn.mp ha
    obtain ⟨j, rfl⟩ := List.mem_ofFn.mp hb
    rw [h i j, h j i, ← Int.sign_neg, neg_sub]
  · intro a ha b hb c hc
    obtain ⟨i, rfl⟩ := List.mem_ofFn.mp ha
    obtain ⟨j, rfl⟩ := List.mem_ofFn.mp hb
    obtain ⟨k, rfl⟩ := List.mem_ofFn.mp hc
    rw [h.nonpos_iff, h.nonpos_iff, h.nonpos_iff]
    exact le_trans

lemma ComparesTicks.picksMedian (h : ComparesTicks results) : PicksMedian results := by
  intro qsort hq
  obtain ⟨hperm, hsorted⟩ := hq _ _ h.consistent
  generalize hs : qsort cmpBlackholeMeasurement (List.ofFn results) = sorted at hperm hsorted
  have hlen : sorted.length = 5 := hperm.length_eq.trans List.length_ofFn
  have hmid : numTries / 2 < sorted.length := by
    rw [hlen]
    decide
  have hmem : ∀ a ∈ sorted, ∃ i, results i = a := fun a ha => List.mem_ofFn.mp (hperm.mem_iff.mp ha)
  obtain ⟨i, hi⟩ := hmem _ (List.get_mem sorted ⟨numTries / 2, hmid⟩)
  refine ⟨i, ?_, ?_⟩
  · rw [selectMedian, hs, hi, List.getElem?_eq_getElem hmid]
    rfl
  · have hticks : (sorted.map fun m => m.ticks.toNat).Pairwise (· ≤ ·) := by
      refine List.pairwise_map.mpr (hsorted.imp_of_mem ?_)
      intro a b ha hb hab
      obtain ⟨i, rfl⟩ := hmem a ha
      obtain ⟨j, rfl⟩ := hmem b hb
      exact (h.nonpos_iff i j).mp hab
    have hmap : (List.ofFn fun j => (results j).ticks.toNat) = (List.ofFn results).map fun m => m.ticks.toNat :=
      List.map_ofFn.symm
    have hlen' : (sorted.map fun m => m.ticks.toNat).length = 2 * (numTries / 2) + 1 := by
      rw [List.length_map, hlen]
      rfl
    have hmedian := isMedian_middle hticks hlen' (by omega)
    rw [List.get_eq_getElem, List.getElem_map] at hmedian
    rw [hmap, hi]
    exact hmedian.of_perm (hperm.map _)

/-- Durations that depend on the tokens alone give five equal tries, and the tokens returned
are nearest to the target. -/
theorem calibrateBlackhole_closest {qsort : Qsort} (hq : Sorts qsort)
    {evaluateBlackhole : BitVec 64 → BitVec 64 → BitVec 64} {targetTicks NUMTRIES tokensLow tokensHigh : BitVec 64}
    (hlt : tokensLow < tokensHigh) (hgrows : Grows evaluateBlackhole NUMTRIES tokensLow tokensHigh)
    (htarget : NUMTRIES.toNat * targetTicks.toNat < 2 ^ 63) {fuel : ℕ} (hfuel : 64 < fuel) :
    ∃ n, calibrateBlackhole qsort (fun _ => evaluateBlackhole) fuel targetTicks tokensLow tokensHigh NUMTRIES =
        some (BitVec.ofNat 64 n) ∧
      IsClosest (duration evaluateBlackhole NUMTRIES) (NUMTRIES.toNat * targetTicks.toNat : ℕ)
        tokensLow.toNat tokensHigh.toNat n := by
  obtain ⟨n, hn, hcl⟩ := calibrateBlackholeHelper_isClosest hlt hgrows htarget hfuel
  have hequal : ComparesTicks fun _ => measured evaluateBlackhole NUMTRIES n :=
    comparesTicks_iff.mpr fun _ _ hij => absurd hij (BitVec.lt_irrefl _)
  obtain ⟨i, htokens, -⟩ := hequal.picksMedian qsort hq
  refine ⟨n, ?_, hcl⟩
  rw [calibrateBlackhole, hn]
  exact htokens

/-- A sort that inserts one element after the other. -/
def insertionQsort : Qsort := fun cmp results => results.insertionSort fun a b => cmp a b ≤ 0

lemma insertionQsort_sorts : Sorts insertionQsort := by
  intro cmp results hc
  refine ⟨List.perm_insertionSort _ _, ?_⟩
  -- on the elements of the array the comparator is total and transitive
  let r : {a // a ∈ results} → {a // a ∈ results} → Prop := fun a b => cmp a b ≤ 0
  have htotal : Std.Total r := ⟨fun a b => by
    have hswap := hc.swap a.1 a.2 b.1 b.2
    by_contra hno
    obtain ⟨hab, hba⟩ := not_or.mp hno
    rw [Int.sign_eq_one_of_pos (not_le.mp hab), Int.sign_eq_one_of_pos (not_le.mp hba)] at hswap
    omega⟩
  have htrans : IsTrans _ r := ⟨fun a b c => hc.trans a.1 a.2 b.1 b.2 c.1 c.2⟩
  have hsorted := List.pairwise_insertionSort r results.attach
  have hmap := List.map_insertionSort (r := r) (s := fun a b => cmp a b ≤ 0) Subtype.val results.attach
    fun a _ b _ => Iff.rfl
  rw [List.attach_map_subtype_val] at hmap
  rw [insertionQsort, ← hmap]
  exact List.pairwise_map.mpr hsorted

end Median

/-- The comparator orders any two of the five tries by their ticks, so that the tokens
returned are those of a median try, exactly when the low half of no difference of ticks is
zero or has its top bit set. -/
theorem median_selected_iff (results : Fin numTries → BlackholeMeasurement) :
    ComparesTicks results ∧ PicksMedian results ↔ ∀ i j, (results j).ticks < (results i).ticks →
      0 < ((results i).ticks.toNat - (results j).ticks.toNat) % 2 ^ 32 ∧
        ((results i).ticks.toNat - (results j).ticks.toNat) % 2 ^ 32 < 2 ^ 31 :=
  ⟨fun h => comparesTicks_iff.mp h.1, fun h => ⟨comparesTicks_iff.mpr h, (comparesTicks_iff.mpr h).picksMedian⟩⟩

/-- Tries whose ticks differ by multiples of `2 ^ 32`. -/
def farApartTries : Fin numTries → BlackholeMeasurement :=
  fun i => ⟨BitVec.ofNat 64 i, BitVec.ofNat 64 (2 ^ 32 * ((i + 1) % 5))⟩

/-- They compare equal, so that a stable sort leaves the second longest in the middle. -/
theorem farApartTries_not_median : ¬ ComparesTicks farApartTries ∧ ¬ PicksMedian farApartTries := by
  constructor
  · decide
  · intro h
    obtain ⟨i, htokens, hmedian⟩ := h insertionQsort insertionQsort_sorts
    have hno : ∀ i, selectMedian insertionQsort (List.ofFn farApartTries) = some (farApartTries i).tokens →
        ¬ IsMedian (List.ofFn fun j => (farApartTries j).ticks.toNat) (farApartTries i).ticks.toNat := by
      decide
    exact hno i htokens hmedian

end Lockhammer.Calibration
