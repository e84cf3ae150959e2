import Mathlib.Logic.Function.Basic

/-!
# Exclusive loads and stores

A word with the exclusive monitor of every thread. An exclusive load reserves the word for
its thread, every store ends all reservations, and an exclusive store goes through only
under a reservation. It may also fail under one: no thread can rely on a store that nobody
disturbed.
-/
namespace Interleaving

structure Exclusive (ι α : Type*) where
  val : α
  reserved : ι → Bool

namespace Exclusive
variable {ι α : Type*} [DecidableEq ι]

def init (v : α) : Exclusive ι α := ⟨v, fun _ => false⟩

/-- An exclusive load of `t`; what it reads is `m.val`. -/
def load (m : Exclusive ι α) (t : ι) : Exclusive ι α :=
  { m with reserved := Function.update m.reserved t true }

def store (_ : Exclusive ι α) (v : α) : Exclusive ι α := ⟨v, fun _ => false⟩

/-- An exclusive store of `t`; `fails` makes it fail also under a reservation. -/
def storeExclusive (m : Exclusive ι α) (t : ι) (v : α) (fails : Bool) : Bool × Exclusive ι α :=
  if m.reserved t = true ∧ fails = false then (true, m.store v)
  else (false, { m with reserved := Function.update m.reserved t false })

section Fields
variable {m : Exclusive ι α} {t : ι} (u : ι) (v : α) {fails : Bool}

@[simp] lemma load_val : (m.load t).val = m.val := rfl

@[simp] lemma load_reserved_self : (m.load t).reserved t = true := by simp [load]

omit [DecidableEq ι] in
@[simp] lemma store_val : (m.store v).val = v := rfl

lemma load_reserved_of_ne (h : u ≠ t) : (m.load t).reserved u = m.reserved u := by
  simp [load, h]

lemma reserved_of_load (h : u ≠ t) (hr : (m.load t).reserved u = true) : m.reserved u = true := by
  rwa [load_reserved_of_ne u h] at hr

lemma storeExclusive_success (h : m.reserved t = true ∧ fails = false) :
    m.storeExclusive t v fails = (true, m.store v) := by
  rw [storeExclusive, if_pos h]

lemma storeExclusive_failure (h : ¬ (m.reserved t = true ∧ fails = false)) :
    m.storeExclusive t v fails = (false, { m with reserved := Function.update m.reserved t false }) := by
  rw [storeExclusive, if_neg h]

end Fields
end Exclusive
end Interleaving
