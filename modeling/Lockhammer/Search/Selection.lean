import Mathlib.Algebra.Order.Group.Abs
import Mathlib.Order.Interval.Set.Basic
import Mathlib.Data.List.Basic
import Mathlib.Data.Set.Monotone
import Mathlib.Tactic.Ring

/-!
# Closest points and medians

Bisection of an interval of natural numbers finds where a monotone function comes closest
to a target; the middle of a sorted list is a median of it.
-/
namespace Search

section Closest

variable {α β : Type*} [LinearOrder α] [AddCommGroup β] [LinearOrder β] [IsOrderedAddMonoid β]
  {f : α → β} {target : β} {lo mid hi a : α}

/-- No point of the interval has a value nearer to the target. -/
def IsClosest (f : α → β) (target : β) (lo hi a : α) : Prop :=
  a ∈ Set.Icc lo hi ∧ ∀ b ∈ Set.Icc lo hi, |f a - target| ≤ |f b - target|

lemma IsClosest.of_eq (ha : a ∈ Set.Icc lo hi) (h : f a = target) : IsClosest f target lo hi a := by
  refine ⟨ha, fun b _ => ?_⟩
  rw [h, sub_self, abs_zero]
  exact abs_nonneg _

/-- Past a point whose value is above the target there is nothing nearer. -/
lemma IsClosest.of_left (hf : MonotoneOn f (Set.Icc lo hi)) (hmid : mid ∈ Set.Icc lo hi)
    (ht : target ≤ f mid) (h : IsClosest f target lo mid a) : IsClosest f target lo hi a := by
  refine ⟨⟨h.1.1, h.1.2.trans hmid.2⟩, fun b hb => ?_⟩
  obtain hle | hlt := le_total b mid
  · exact h.2 b ⟨hb.1, hle⟩
  · have hval : f mid ≤ f b := hf hmid hb hlt
    calc |f a - target| ≤ |f mid - target| := h.2 mid ⟨hmid.1, le_rfl⟩
      _ = f mid - target := abs_of_nonneg (sub_nonneg.mpr ht)
      _ ≤ f b - target := sub_le_sub_right hval target
      _ ≤ |f b - target| := le_abs_self _

lemma IsClosest.of_right (hf : MonotoneOn f (Set.Icc lo hi)) (hmid : mid ∈ Set.Icc lo hi)
    (ht : f mid ≤ target) (h : IsClosest f target mid hi a) : IsClosest f target lo hi a := by
  refine ⟨⟨hmid.1.trans h.1.1, h.1.2⟩, fun b hb => ?_⟩
  obtain hle | hlt := le_total mid b
  · exact h.2 b ⟨hle, hb.2⟩
  · have hval : f b ≤ f mid := hf hb hmid hlt
    calc |f a - target| ≤ |f mid - target| := h.2 mid ⟨le_rfl, hmid.2⟩
      _ = target - f mid := by rw [abs_sub_comm, abs_of_nonneg (sub_nonneg.mpr ht)]
      _ ≤ target - f b := sub_le_sub_left hval target
      _ ≤ |f b - target| := by
        rw [abs_sub_comm]
        exact le_abs_self _

end Closest

section Bisection

variable {β : Type*} [AddCommGroup β] [LinearOrder β]

/-- Halving the interval until its ends are neighbours, of which the nearer one is taken;
a midpoint that meets the target ends the search. -/
def bisect (f : ℕ → β) (target : β) : (fuel lo hi : ℕ) → Option ℕ
  | 0, _, _ => none
  | fuel + 1, lo, hi =>
    if hi - lo = 1 then some (if |f lo - target| < |f hi - target| then lo else hi)
    else if target < f ((hi - lo) / 2 + lo) then bisect f target fuel lo ((hi - lo) / 2 + lo)
    else if f ((hi - lo) / 2 + lo) < target then bisect f target fuel ((hi - lo) / 2 + lo) hi
    else some ((hi - lo) / 2 + lo)

variable {f : ℕ → β} {target : β}

lemma isClosest_of_neighbours (lo : ℕ) :
    IsClosest f target lo (lo + 1) (if |f lo - target| < |f (lo + 1) - target| then lo else lo + 1) := by
  have hends : ∀ b ∈ Set.Icc lo (lo + 1), b = lo ∨ b = lo + 1 := by
    rintro b ⟨hlo, hhi⟩
    omega
  split
  · next h =>
    refine ⟨⟨le_rfl, Nat.le_succ lo⟩, fun b hb => ?_⟩
    obtain rfl | rfl := hends b hb
    · exact le_rfl
    · exact h.le
  · next h =>
    refine ⟨⟨Nat.le_succ lo, le_rfl⟩, fun b hb => ?_⟩
    obtain rfl | rfl := hends b hb
    · exact not_lt.mp h
    · exact le_rfl

/-- An interval of at most `2 ^ fuel` steps is searched to the end. -/
theorem bisect_closest [IsOrderedAddMonoid β] (target : β) {fuel lo hi : ℕ} (hlt : lo < hi) (hfuel : hi - lo ≤ 2 ^ fuel)
    (hf : MonotoneOn f (Set.Icc lo hi)) :
    ∃ a, bisect f target (fuel + 1) lo hi = some a ∧ IsClosest f target lo hi a := by
  induction fuel generalizing lo hi with
  | zero =>
    obtain rfl : hi = lo + 1 := by omega
    exact ⟨_, if_pos (by omega), isClosest_of_neighbours lo⟩
  | succ fuel ih =>
    rw [bisect]
    by_cases hdiff : hi - lo = 1
    · obtain rfl : hi = lo + 1 := by omega
      exact ⟨_, if_pos hdiff, isClosest_of_neighbours lo⟩
    rw [if_neg hdiff]
    rw [pow_succ] at hfuel
    generalize hm : (hi - lo) / 2 + lo = mid
    have hlm : lo < mid := by omega
    have hmh : mid < hi := by omega
    have hmid : mid ∈ Set.Icc lo hi := ⟨hlm.le, hmh.le⟩
    obtain hgt | heq | hlt' := lt_trichotomy target (f mid)
    · obtain ⟨a, ha, hcl⟩ := ih hlm (by omega) (hf.mono (Set.Icc_subset_Icc_right hmh.le))
      exact ⟨a, by rw [if_pos hgt, ha], hcl.of_left hf hmid hgt.le⟩
    · refine ⟨mid, ?_, .of_eq hmid heq.symm⟩
      rw [if_neg heq.not_lt, if_neg heq.symm.not_lt]
    · obtain ⟨a, ha, hcl⟩ := ih hmh (by omega) (hf.mono (Set.Icc_subset_Icc_left hlm.le))
      exact ⟨a, by rw [if_neg hlt'.not_gt, if_pos hlt', ha], hcl.of_right hf hmid hlt'.le⟩

end Bisection

section Median

variable {α : Type*} [LinearOrder α]

/-- More than half of the list is at most `a`, and more than half is at least `a`. -/
def IsMedian (l : List α) (a : α) : Prop :=
  l.length < 2 * l.countP (· ≤ a) ∧ l.length < 2 * l.countP (a ≤ ·)

instance (l : List α) (a : α) : Decidable (IsMedian l a) := inferInstanceAs (Decidable (_ ∧ _))

lemma IsMedian.of_perm {l l' : List α} {a : α} (hp : l.Perm l') (h : IsMedian l a) : IsMedian l' a := by
  rw [IsMedian, ← hp.length_eq, ← hp.countP_eq, ← hp.countP_eq]
  exact h

/-- The middle of a sorted list of odd length. -/
lemma isMedian_middle {l : List α} (hs : l.Pairwise (· ≤ ·)) {k : ℕ} (hk : l.length = 2 * k + 1)
    (h : k < l.length) : IsMedian l (l.get ⟨k, h⟩) := by
  have hsplit : l = l.take k ++ l.get ⟨k, h⟩ :: l.drop (k + 1) := by
    rw [List.get_eq_getElem, List.getElem_cons_drop, List.take_append_drop]
  generalize l.get ⟨k, h⟩ = a at hsplit
  have htake : (l.take k).length = k := List.length_take_of_le h.le
  have hdrop : (l.drop (k + 1)).length = k := by
    rw [List.length_drop]
    omega
  rw [hsplit] at hs
  obtain ⟨-, htail, hcross⟩ := List.pairwise_append.mp hs
  have hbelow : (l.take k).countP (· ≤ a) = k := by
    rw [List.countP_eq_length.mpr, htake]
    exact fun b hb => decide_eq_true (hcross b hb a List.mem_cons_self)
  have habove : (l.drop (k + 1)).countP (a ≤ ·) = k := by
    rw [List.countP_eq_length.mpr, hdrop]
    exact fun b hb => decide_eq_true (List.rel_of_pairwise_cons htail hb)
  rw [IsMedian, hk, hsplit, List.countP_append, List.countP_append, List.countP_cons, List.countP_cons]
  simp only [hbelow, habove, le_refl, decide_true, if_true]
  omega

end Median
end Search
