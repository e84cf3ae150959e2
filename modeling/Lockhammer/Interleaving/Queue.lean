import Mathlib.Data.List.Nodup
import Mathlib.Data.List.Basic

/-!
# Neighbours in a queue

A queue without repetitions, seen through three relations: who is first, who is last
and who stands directly behind whom. Appending and removing an element are described
by how they change these relations, so that a proof about a queue never takes a list
apart.
-/
namespace Interleaving.Queue
variable {α : Type*}

/-- `y` stands directly behind `x`. -/
def Adj : List α → α → α → Prop
  | [], _, _ => False
  | a :: q, x, y => (x = a ∧ q.head? = some y) ∨ Adj q x y

lemma adj_append (l r : List α) (x y : α) :
    Adj (l ++ r) x y ↔
      Adj l x y ∨ (l.getLast? = some x ∧ r.head? = some y) ∨ Adj r x y := by
  induction l with
  | nil => simp [Adj]
  | cons a l ih =>
    rw [List.cons_append, Adj, ih, Adj]
    cases l with
    | nil => simp [Adj, eq_comm]
    | cons b l =>
      simp only [List.cons_append, List.head?_cons, List.getLast?_cons_cons]
      tauto

lemma Adj.mem_left {q : List α} {x y : α} (h : Adj q x y) : x ∈ q := by
  induction q with
  | nil => exact h.elim
  | cons a q ih =>
    rcases h with ⟨rfl, -⟩ | h
    · exact List.mem_cons_self
    · exact List.mem_cons_of_mem a (ih h)

lemma Adj.mem_right {q : List α} {x y : α} (h : Adj q x y) : y ∈ q := by
  induction q with
  | nil => exact h.elim
  | cons a q ih =>
    rcases h with ⟨-, h⟩ | h
    · exact List.mem_cons_of_mem a (List.mem_of_head? h)
    · exact List.mem_cons_of_mem a (ih h)

/-- What passes from everybody to the one behind passes from the first to all. -/
lemma adj_induction {q : List α} {P : α → Prop} (hhead : ∀ x, q.head? = some x → P x)
    (hadj : ∀ x y, Adj q x y → P x → P y) : ∀ x ∈ q, P x := by
  induction q with
  | nil => simp
  | cons a q ih =>
    have ha : P a := hhead a rfl
    intro x hx
    rcases List.mem_cons.mp hx with rfl | hx
    · exact ha
    · refine ih ?_ (fun x y h => hadj x y (Or.inr h)) x hx
      exact fun y hy => hadj a y (Or.inl ⟨rfl, hy⟩) ha

/-- Everybody is first or has somebody in front. -/
lemma head_or_adj {q : List α} {y : α} (h : y ∈ q) : q.head? = some y ∨ ∃ x, Adj q x y := by
  obtain ⟨l, r, rfl⟩ := List.append_of_mem h
  cases hl : l.getLast? with
  | none =>
    rw [List.getLast?_eq_none_iff.mp hl]
    exact Or.inl rfl
  | some x => exact Or.inr ⟨x, (adj_append _ _ _ _).mpr (Or.inr (Or.inl ⟨hl, rfl⟩))⟩

/-- Everybody is last or has somebody behind. -/
lemma last_or_adj {q : List α} {x : α} (h : x ∈ q) : q.getLast? = some x ∨ ∃ y, Adj q x y := by
  obtain ⟨l, r, rfl⟩ := List.append_of_mem h
  cases r with
  | nil => exact Or.inl (by simp)
  | cons y r => exact Or.inr ⟨y, (adj_append _ _ _ _).mpr (Or.inr (Or.inr (Or.inl ⟨rfl, rfl⟩)))⟩

section Push

lemma adj_push (q : List α) (t x y : α) :
    Adj (q ++ [t]) x y ↔ Adj q x y ∨ (q.getLast? = some x ∧ y = t) := by
  rw [adj_append]
  simp [Adj, eq_comm]

lemma head?_push (q : List α) (t x : α) :
    (q ++ [t]).head? = some x ↔ q.head? = some x ∨ (q = [] ∧ x = t) := by
  cases q <;> simp [eq_comm]

lemma getLast?_push (q : List α) (t : α) : (q ++ [t]).getLast? = some t := by simp

end Push

section Nodup
variable {q : List α} (hq : q.Nodup)
include hq

lemma Adj.ne {x y : α} (h : Adj q x y) : x ≠ y := by
  induction q with
  | nil => exact h.elim
  | cons a q ih =>
    rcases h with ⟨rfl, h⟩ | h
    · rintro rfl
      exact (List.nodup_cons.mp hq).1 (List.mem_of_head? h)
    · exact ih (List.nodup_cons.mp hq).2 h

/-- The first has nobody in front. -/
lemma Adj.head_ne {x y : α} (h : Adj q x y) : q.head? ≠ some y := by
  cases q with
  | nil => exact h.elim
  | cons a q =>
    rintro ha
    obtain rfl : a = y := by simpa using ha
    have hn := (List.nodup_cons.mp hq).1
    rcases h with ⟨-, h⟩ | h
    · exact hn (List.mem_of_head? h)
    · exact hn h.mem_right

/-- The last has nobody behind. -/
lemma Adj.last_ne {x y : α} (h : Adj q x y) : q.getLast? ≠ some x := by
  induction q with
  | nil => exact h.elim
  | cons a q ih =>
    obtain ⟨hn, hd⟩ := List.nodup_cons.mp hq
    cases q with
    | nil => rcases h with ⟨-, h⟩ | h <;> simp [Adj] at h
    | cons b q =>
      rw [List.getLast?_cons_cons]
      rcases h with ⟨rfl, -⟩ | h
      · intro hl
        exact hn (List.mem_of_getLast? hl)
      · exact ih hd h

lemma Adj.left_unique {x x' y : α} (h : Adj q x y) (h' : Adj q x' y) : x = x' := by
  induction q with
  | nil => exact h.elim
  | cons a q ih =>
    have hd := (List.nodup_cons.mp hq).2
    rcases h with ⟨rfl, h⟩ | h <;> rcases h' with ⟨rfl, h'⟩ | h'
    · rfl
    · exact absurd h (Adj.head_ne hd h')
    · exact absurd h' (Adj.head_ne hd h)
    · exact ih hd h h'

lemma Adj.right_unique {x y y' : α} (h : Adj q x y) (h' : Adj q x y') : y = y' := by
  induction q with
  | nil => exact h.elim
  | cons a q ih =>
    obtain ⟨hn, hd⟩ := List.nodup_cons.mp hq
    rcases h with ⟨e, h⟩ | h <;> rcases h' with ⟨e', h'⟩ | h'
    · rw [h] at h'
      exact Option.some.inj h'
    · exact absurd (e ▸ h'.mem_left) hn
    · exact absurd (e' ▸ h.mem_left) hn
    · exact ih hd h h'

/-- Who is first and last is alone. -/
lemma eq_singleton {t : α} (hh : q.head? = some t) (hl : q.getLast? = some t) : q = [t] := by
  cases q with
  | nil => simp at hh
  | cons a q =>
    obtain rfl : a = t := by simpa using hh
    cases q with
    | nil => rfl
    | cons b q =>
      rw [List.getLast?_cons_cons] at hl
      exact absurd (List.mem_of_getLast? hl) (List.nodup_cons.mp hq).1

end Nodup

section Split
variable {l r : List α} {a b t : α}

/-- Directly behind a member in front of `t` stands another one, or `t` itself. -/
lemma Adj.behind_front (hq : (l ++ t :: r).Nodup) (h : Adj (l ++ t :: r) a b) (ha : a ∈ l) : b ∈ l ∨ b = t := by
  obtain h | ⟨-, h⟩ | h := (adj_append _ _ _ _).mp h
  · exact Or.inl h.mem_right
  · exact Or.inr (Option.some.inj h).symm
  · exact absurd rfl ((List.nodup_append.mp hq).2.2 a ha a h.mem_left)

/-- Directly in front of one of them stands another one. -/
lemma Adj.front_front (hq : (l ++ t :: r).Nodup) (h : Adj (l ++ t :: r) a b) (hb : b ∈ l) : a ∈ l := by
  obtain h | ⟨h, -⟩ | h := (adj_append _ _ _ _).mp h
  · exact h.mem_left
  · exact List.mem_of_getLast? h
  · exact absurd rfl ((List.nodup_append.mp hq).2.2 b hb b h.mem_right)

end Split

section Remove
variable [DecidableEq α] {q : List α} (hq : q.Nodup) {t : α} (ht : t ∈ q)
include hq ht

lemma erase_split : ∃ l r, q = l ++ t :: r ∧ q.erase t = l ++ r ∧ t ∉ l ∧ t ∉ r := by
  obtain ⟨l, r, rfl⟩ := List.append_of_mem ht
  have hd := List.nodup_append.mp hq
  have hl : t ∉ l := fun h => hd.2.2 t h t List.mem_cons_self rfl
  exact ⟨l, r, rfl, by rw [List.erase_append_right _ hl, List.erase_cons_head], hl,
    (List.nodup_cons.mp hd.2.1).1⟩

/-- Removing `t` joins its neighbours and leaves all others as they were. -/
theorem adj_erase (x y : α) :
    Adj (q.erase t) x y ↔ (Adj q x y ∧ x ≠ t ∧ y ≠ t) ∨ (Adj q x t ∧ Adj q t y) := by
  obtain ⟨l, r, rfl, he, hl, hr⟩ := erase_split hq ht
  have hll {a b : α} (h : Adj l a b) : a ≠ t ∧ b ≠ t :=
    ⟨fun e => hl (e ▸ h.mem_left), fun e => hl (e ▸ h.mem_right)⟩
  have hrr {a b : α} (h : Adj r a b) : a ≠ t ∧ b ≠ t :=
    ⟨fun e => hr (e ▸ h.mem_left), fun e => hr (e ▸ h.mem_right)⟩
  have hlast {a : α} (h : l.getLast? = some a) : a ≠ t := fun e => hl (e ▸ List.mem_of_getLast? h)
  have hhead {b : α} (h : r.head? = some b) : b ≠ t := fun e => hr (e ▸ List.mem_of_head? h)
  have hin (a : α) : Adj (l ++ t :: r) a t ↔ l.getLast? = some a := by
    rw [adj_append, Adj]
    constructor
    · rintro (h | ⟨h, -⟩ | ⟨-, h⟩ | h)
      · exact absurd rfl (hll h).2
      · exact h
      · exact absurd rfl (hhead h)
      · exact absurd rfl (hrr h).2
    · exact fun h => Or.inr (Or.inl ⟨h, rfl⟩)
  have hout (b : α) : Adj (l ++ t :: r) t b ↔ r.head? = some b := by
    rw [adj_append, Adj]
    constructor
    · rintro (h | ⟨h, -⟩ | ⟨-, h⟩ | h)
      · exact absurd rfl (hll h).1
      · exact absurd rfl (hlast h)
      · exact h
      · exact absurd rfl (hrr h).1
    · exact fun h => Or.inr (Or.inr (Or.inl ⟨rfl, h⟩))
  rw [he, adj_append, hin, hout, adj_append, Adj]
  constructor
  · rintro (h | h | h)
    · exact Or.inl ⟨Or.inl h, hll h⟩
    · exact Or.inr h
    · exact Or.inl ⟨Or.inr (Or.inr (Or.inr h)), hrr h⟩
  · rintro (⟨h | ⟨-, h⟩ | ⟨h, -⟩ | h, hx, hy⟩ | h)
    · exact Or.inl h
    · exact absurd (Option.some.inj h).symm hy
    · exact absurd h hx
    · exact Or.inr (Or.inr h)
    · exact Or.inr (Or.inl h)

theorem head?_erase (x : α) :
    (q.erase t).head? = some x ↔
      (q.head? = some x ∧ x ≠ t) ∨ (q.head? = some t ∧ Adj q t x) := by
  obtain ⟨l, r, rfl, he, hl, hr⟩ := erase_split hq ht
  rw [he]
  cases l with
  | nil =>
    have hn : ¬ Adj r t x := fun h => hr h.mem_left
    simp only [List.nil_append, List.head?_cons, Option.some.injEq, true_and, Adj, hn, or_false]
    constructor
    · exact Or.inr
    · rintro (⟨rfl, h⟩ | h)
      · exact absurd rfl h
      · exact h
  | cons a l =>
    have ha : a ≠ t := fun e => hl (e ▸ List.mem_cons_self)
    simp only [List.cons_append, List.head?_cons, Option.some.injEq, ha, false_and, or_false]
    exact ⟨fun h => ⟨h, fun e => ha (h.trans e)⟩, And.left⟩

theorem getLast?_erase (x : α) :
    (q.erase t).getLast? = some x ↔
      (q.getLast? = some x ∧ x ≠ t) ∨ (q.getLast? = some t ∧ Adj q x t) := by
  obtain ⟨l, r, rfl, he, hl, hr⟩ := erase_split hq ht
  rw [he]
  cases hrr : r.getLast? with
  | none =>
    obtain rfl := List.getLast?_eq_none_iff.mp hrr
    have hn : ¬ Adj l x t := fun h => hl h.mem_right
    simp only [List.append_nil, List.getLast?_append, List.getLast?_singleton, Option.some_or,
      Option.some.injEq, adj_append, hn, List.head?_cons, and_true, true_and, Adj, List.head?_nil,
      reduceCtorEq, and_false, or_false, false_or]
    constructor
    · exact Or.inr
    · rintro (⟨rfl, h⟩ | h)
      · exact absurd rfl h
      · exact h
  | some b =>
    have hb : b ≠ t := fun e => hr (e ▸ List.mem_of_getLast? hrr)
    have hcons : (t :: r).getLast? = some b := by
      cases r with
      | nil => simp at hrr
      | cons a r => rw [List.getLast?_cons_cons, hrr]
    simp only [List.getLast?_append, hrr, hcons, Option.some_or, Option.some.injEq, hb, false_and,
      or_false]
    exact ⟨fun h => ⟨h, fun e => hb (h.trans e)⟩, And.left⟩

end Remove

section RemoveEnd
variable [DecidableEq α] {q : List α} (hq : q.Nodup) {t : α}
include hq

lemma getLast?_erase_of_adj {z : α} (h : Adj q t z) : (q.erase t).getLast? = q.getLast? := by
  have hlast := h.last_ne hq
  apply Option.ext
  intro u
  rw [getLast?_erase hq h.mem_left]
  constructor
  · rintro (⟨hu, -⟩ | ⟨hu, -⟩)
    · exact hu
    · exact absurd hu hlast
  · intro hu
    exact Or.inl ⟨hu, fun e => hlast (e ▸ hu)⟩

lemma getLast?_erase_last {x : α} (h : Adj q x t) (hl : q.getLast? = some t) :
    (q.erase t).getLast? = some x := (getLast?_erase hq h.mem_right x).mpr (Or.inr ⟨hl, h⟩)

end RemoveEnd

section Follow
variable [DecidableEq α]

/-- The queue of those with a flag, when the flag of `t` goes from `was` to `now`: a new
member is last, and who loses the flag leaves from where it stands. -/
def follow (t : α) (was now : Bool) (q : List α) : List α :=
  match was, now with
  | false, true => q ++ [t]
  | true, false => q.erase t
  | _, _ => q

@[simp] lemma follow_same (t : α) (b : Bool) (q : List α) : follow t b b q = q := by cases b <;> rfl

variable {t : α} {was now : Bool} {q : List α}

lemma follow_nodup (hq : q.Nodup) (ht : t ∈ q ↔ was = true) : (follow t was now q).Nodup := by
  cases was <;> cases now
  · exact hq
  · have hn : t ∉ q := by simpa using ht
    exact List.nodup_append.mpr ⟨hq, List.nodup_singleton t, by
      intro a ha b hb e
      rw [List.mem_singleton] at hb
      exact hn (hb ▸ e ▸ ha)⟩
  · exact hq.erase t
  · exact hq

lemma mem_follow_of_ne {u : α} (hu : u ≠ t) : u ∈ follow t was now q ↔ u ∈ q := by
  cases was <;> cases now
  · rfl
  · simp [follow, hu]
  · simp [follow, List.mem_erase_of_ne hu]
  · rfl

lemma mem_follow_of_mem {u : α} (h : was = true → now = true) (hu : u ∈ q) :
    u ∈ follow t was now q := by
  cases was <;> cases now
  · exact hu
  · exact List.mem_append_left _ hu
  · exact absurd (h rfl) (by decide)
  · exact hu

end Follow
end Interleaving.Queue
