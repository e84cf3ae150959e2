import Mathlib.Logic.Function.Basic
import Mathlib.Data.List.Nodup

/-!
# Linked lists in memory

A list whose nodes carry a `next` field, and possibly a `prev` field, seen through the
segments between two of its pointers. A write to a field is described by the segments it
leaves alone and the one it cuts short.
-/
namespace Interleaving.LinkedList
variable {α β : Type*}

/-- Following `next` from `h` passes the nodes of `l` in order and arrives at `e`. -/
def Seg (next : α → Option α) : Option α → List α → Option α → Prop
  | h, [], e => h = e
  | h, a :: l, e => h = some a ∧ Seg next (next a) l e

/-- Node `t` is met when following `next` from `h`. -/
inductive Reaches (next : α → Option α) : Option α → α → Prop
  | here {t : α} : Reaches next (some t) t
  | there {a t : α} (h : Reaches next (next a) t) : Reaches next (some a) t

/-- The link that a node behind `l` stores, when the first of `l` stores `b`. -/
def tip (link : α → β) : β → List α → β
  | b, [] => b
  | _, a :: l => tip link (link a) l

/-- Every node of `l` points back at the one before it, and the first at `b`. -/
def Back (link prev : α → β) : β → List α → Prop
  | _, [] => True
  | b, a :: l => prev a = b ∧ Back link prev (link a) l

section Next
variable {next next' : α → Option α} {h e : Option α} {l r : List α} {t : α}

@[simp] lemma seg_nil : Seg next h [] e ↔ h = e := Iff.rfl

@[simp] lemma seg_cons {a : α} : Seg next h (a :: l) e ↔ h = some a ∧ Seg next (next a) l e := Iff.rfl

lemma seg_append : Seg next h (l ++ r) e ↔ ∃ m, Seg next h l m ∧ Seg next m r e := by
  induction l generalizing h with
  | nil => simp
  | cons a l ih =>
    rw [List.cons_append, seg_cons, ih]
    constructor
    · rintro ⟨hh, m, hl, hr⟩
      exact ⟨m, ⟨hh, hl⟩, hr⟩
    · rintro ⟨m, ⟨hh, hl⟩, hr⟩
      exact ⟨hh, m, hl, hr⟩

/-- A segment depends on the fields of its own nodes only. -/
lemma Seg.frame (hs : Seg next h l e) (hn : ∀ a ∈ l, next' a = next a) : Seg next' h l e := by
  induction l generalizing h with
  | nil => exact hs
  | cons a l ih =>
    refine ⟨hs.1, ih ?_ fun b hb => hn b (List.mem_cons_of_mem a hb)⟩
    rw [hn a List.mem_cons_self]
    exact hs.2

lemma Seg.update [DecidableEq α] (hs : Seg next h l e) (ht : t ∉ l) (v : Option α) :
    Seg (Function.update next t v) h l e := by
  apply hs.frame
  intro a ha
  have hat : a ≠ t := fun he => ht (he ▸ ha)
  rw [Function.update_of_ne hat]

lemma Seg.head_eq (hs : Seg next h l none) : h = l.head? := by
  cases l with
  | nil => exact hs
  | cons a l => exact hs.1

/-- What stands behind a node of a list that ends with `NULL`. -/
lemma Seg.next_eq (hs : Seg next h (l ++ t :: r) none) : next t = r.head? := by
  obtain ⟨m, -, -, hr⟩ := seg_append.mp hs
  exact hr.head_eq

lemma Seg.reaches_iff (hs : Seg next h l none) : Reaches next h t ↔ t ∈ l := by
  constructor
  · intro ht
    induction ht generalizing l with
    | here =>
      cases l with
      | nil => cases hs
      | cons a l =>
        obtain rfl := Option.some.inj hs.1
        exact List.mem_cons_self
    | there _ ih =>
      cases l with
      | nil => cases hs
      | cons a l =>
        obtain rfl := Option.some.inj hs.1
        exact List.mem_cons_of_mem _ (ih hs.2)
  · intro ht
    induction l generalizing h with
    | nil => cases ht
    | cons a l ih =>
      rw [hs.1]
      rcases List.mem_cons.mp ht with rfl | ht
      · exact .here
      · exact .there (ih hs.2 ht)

/-- Storing in `q` what stands behind its neighbour `t` takes `t` out. -/
lemma Seg.unlink [DecidableEq α] {q : α} (hs : Seg next h (l ++ q :: t :: r) e)
    (hd : (l ++ q :: t :: r).Nodup) : Seg (Function.update next q (next t)) h (l ++ q :: r) e := by
  obtain ⟨m, hl, hm, hq, hr⟩ := seg_append.mp hs
  obtain ⟨-, hd', hdis⟩ := List.nodup_append.mp hd
  have hql : q ∉ l := fun hq => hdis q hq q List.mem_cons_self rfl
  have hqr : q ∉ r := fun hq => (List.nodup_cons.mp hd').1 (List.mem_cons_of_mem t hq)
  refine seg_append.mpr ⟨m, hl.update hql _, hm, ?_⟩
  rw [Function.update_self]
  exact hr.update hqr _

end Next

section Prev
variable {link prev prev' : α → β} {b : β} {l r : List α} {t : α}

@[simp] lemma tip_nil : tip link b [] = b := rfl

@[simp] lemma tip_cons {a : α} : tip link b (a :: l) = tip link (link a) l := rfl

@[simp] lemma tip_concat : tip link b (l ++ [t]) = link t := by
  induction l generalizing b with
  | nil => rfl
  | cons a l ih => exact ih

@[simp] lemma back_nil : Back link prev b [] := trivial

@[simp] lemma back_cons {a : α} :
    Back link prev b (a :: l) ↔ prev a = b ∧ Back link prev (link a) l := Iff.rfl

lemma back_append :
    Back link prev b (l ++ r) ↔ Back link prev b l ∧ Back link prev (tip link b l) r := by
  induction l generalizing b with
  | nil => simp
  | cons a l ih => rw [List.cons_append, back_cons, ih, back_cons, tip_cons, and_assoc]

lemma Back.frame (hs : Back link prev b l) (hp : ∀ a ∈ l, prev' a = prev a) :
    Back link prev' b l := by
  induction l generalizing b with
  | nil => trivial
  | cons a l ih =>
    refine ⟨?_, ih hs.2 fun c hc => hp c (List.mem_cons_of_mem a hc)⟩
    rw [hp a List.mem_cons_self]
    exact hs.1

lemma Back.update [DecidableEq α] (hs : Back link prev b l) (ht : t ∉ l) (v : β) :
    Back link (Function.update prev t v) b l := by
  apply hs.frame
  intro a ha
  have hat : a ≠ t := fun he => ht (he ▸ ha)
  rw [Function.update_of_ne hat]

/-- Storing `b` in the first node re-bases the list. -/
lemma Back.rebase [DecidableEq α] {a : α} {v : β} (hs : Back link prev b (a :: l)) (hd : (a :: l).Nodup) :
    Back link (Function.update prev a v) v (a :: l) :=
  ⟨Function.update_self a v prev, hs.2.update (List.nodup_cons.mp hd).1 v⟩

end Prev
end Interleaving.LinkedList
