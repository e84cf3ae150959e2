import Lockhammer.Interleaving.RetryLoop
import Lockhammer.Linux.OsqProperties

/-!
# The optimistic spin queue without LSE

The `xchg` and `cmpxchg` of lk_cmpxchg.h are loops of exclusive accesses in this build. Two kinds
of words are exchanged, `tail` and the `next` of the nodes.
-/
namespace Lockhammer.OsqLock
open Interleaving

section Loops
variable {n : ℕ}

inductive Cell (n : ℕ)
  | tail
  | next (t : Fin n)
  deriving DecidableEq

/-- What a word holds: a thread number plus one, or a pointer to a node. -/
abbrev Value (n : ℕ) : Type := ℕ ⊕ Option (Fin n)

def Shared.read (s : Shared n) : Cell n → Value n
  | .tail => .inl s.tail
  | .next t => .inr (s.next t)

def Shared.write (s : Shared n) : Cell n → Value n → Shared n
  | .tail, .inl v => { s with tail := v }
  | .next t, .inr v => s.setNext t v
  | _, _ => s

/-- The word that `xchg` or `cmpxchg` is called on. -/
def Pc.exchanges (t : Fin n) : Pc n → Option (Cell n)
  | .xchgTail | .waitCmpxchg _ _ | .unlockCmpxchg => some .tail
  | .stepACmpxchg prev => some (.next prev)
  | .waitXchg _ _ | .unlockXchg => some (.next t)
  | _ => none

/-- `__CMPXCHG_CASE` leaves its loop before the store when the comparison fails. -/
def Pc.stores (t : Fin n) : Pc n → Value n → Bool
  | .stepACmpxchg _, v => v = .inr (some t)
  | .waitCmpxchg _ _, v | .unlockCmpxchg, v => v = .inl (encodeCpu t)
  | _, _ => true

/-- The step on a word that holds `v`; it looks at nothing else. -/
def cellStep (t : Fin n) (p : Pc n) (cell : Cell n) (v : Value n) : Value n × Pc n :=
  let r := step t false ((start n).shared.write cell v) p
  (r.1.read cell, r.2)

def exclusiveLoop (t : Fin n) (p : Pc n) (cell : Cell n) : Rmw (Cell n) (Value n) Bool (Pc n) :=
  ⟨.exclusive, cell, p.stores t, fun v => (cellStep t p cell v).1, fun _ v => (cellStep t p cell v).2⟩

/-- The words that the plain stores of the queue change. -/
def Pc.touches (t : Fin n) : Pc n → Cell n → Bool
  | .setNext, cell => cell = .next t
  | .link prev, cell | .stepCNext prev _, cell => cell = .next prev
  | _, _ => false

@[simp] lemma read_setNext (s : Shared n) (t : Fin n) (v : Option (Fin n)) (cell : Cell n) :
    (s.setNext t v).read cell = if cell = .next t then .inr v else s.read cell := by
  cases cell with
  | tail => rfl
  | next u =>
    by_cases hu : u = t
    · subst hu
      simp [Shared.read, Shared.setNext]
    · simp [Shared.read, Shared.setNext, hu]

lemma read_write_of_ne {cell cell' : Cell n} (h : cell' ≠ cell) (s : Shared n) (v : Value n) :
    (s.write cell v).read cell' = s.read cell' := by
  cases cell with
  | tail =>
    cases v with
    | inl v =>
      cases cell' with
      | tail => exact absurd rfl h
      | next u => rfl
    | inr v => rfl
  | next u =>
    cases v with
    | inl v => rfl
    | inr v => rw [Shared.write, read_setNext, if_neg h]

/-- A plain store leaves the other words. -/
lemma read_of_not_touches {t : Fin n} {p : Pc n} (hp : p.exchanges t = none) {cell : Cell n}
    (hcell : p.touches t cell = false) (k : Bool) (s : Shared n) :
    (step t k s p).1.read cell = s.read cell := by
  cases p with
  | xchgTail | waitCmpxchg | unlockCmpxchg | stepACmpxchg | waitXchg | unlockXchg => cases hp
  | setNext | link | stepCNext =>
    simp only [step, read_setNext]
    rw [if_neg (by simpa [Pc.touches] using hcell)]
  | _ => cases cell <;> rfl

lemma step_of_exchanges {t : Fin n} {p : Pc n} {cell : Cell n} (hp : p.exchanges t = some cell) (k : Bool)
    (s : Shared n) : step t k s p =
      (if p.stores t (s.read cell) = true then s.write cell (cellStep t p cell (s.read cell)).1 else s,
        (cellStep t p cell (s.read cell)).2) := by
  cases p with
  | xchgTail =>
    obtain rfl : .tail = cell := by simpa [Pc.exchanges] using hp
    rfl
  | waitCmpxchg prev old =>
    obtain rfl : .tail = cell := by simpa [Pc.exchanges] using hp
    by_cases h : s.tail = encodeCpu t <;> simp [step, Pc.stores, cellStep, Shared.read, Shared.write, h]
  | unlockCmpxchg =>
    obtain rfl : .tail = cell := by simpa [Pc.exchanges] using hp
    by_cases h : s.tail = encodeCpu t <;> simp [step, Pc.stores, cellStep, Shared.read, Shared.write, h]
  | stepACmpxchg prev =>
    obtain rfl : .next prev = cell := by simpa [Pc.exchanges] using hp
    by_cases h : s.next prev = some t <;>
      simp [step, Pc.stores, cellStep, Shared.read, Shared.write, Shared.setNext, h]
  | waitXchg prev old =>
    obtain rfl : .next t = cell := by simpa [Pc.exchanges] using hp
    simp [step, Pc.stores, cellStep, Shared.read, Shared.write, Shared.setNext]
  | unlockXchg =>
    obtain rfl : .next t = cell := by simpa [Pc.exchanges] using hp
    simp [step, Pc.stores, cellStep, Shared.read, Shared.write, Shared.setNext]
  | _ => cases hp

def loops (n : ℕ) : Loops (machine n) (Cell n) (Value n) where
  read := Shared.read
  write := Shared.write
  loop t p := (p.exchanges t).map (exclusiveLoop t p)
  touched t p := p.touches t
  read_write_of_ne := read_write_of_ne
  obeys t p k s := by
    cases hp : p.exchanges t with
    | none => exact fun cell hcell => read_of_not_touches hp hcell k s
    | some cell => exact ⟨step_of_exchanges hp k s, fun h => by cases h⟩

end Loops

variable {n : ℕ} {tr : List (Fin n)}
  {d : Config (Fin n) (Monitored (Fin n) (Cell n) (Shared n)) (Place (Cell n) (Value n) Bool (Pc n))}

/-- What a step of `osq_unlock` comes to: it goes on, or it hands the lock over or frees it. -/
def UnlockStep (tr : List (Fin n)) (c c' : Config (Fin n) (Shared n) (Pc n)) (t : Fin n) : Prop :=
  ((c'.loc t).inUnlock = true ∧ c'.shared.tail = c.shared.tail ∧ c'.shared.locked = c.shared.locked) ∨
    ((c'.loc t) = .idle ∧ (HandsOver tr c c' t ∨ Frees c c' t))

/-- Also when a step is only one of a loop. -/
lemma unlockStep_fire (h : (loops n).machine.History ((loops n).observe obs) ((loops n).start (start n)) tr d)
    {t : Fin n} (ht : (d.loc t).place.inUnlock = true) (k : Bool × Bool) :
    UnlockStep tr (Loops.abs d) (Loops.abs ((loops n).machine.fire t k d)) t := by
  obtain ⟨q, hq, ho⟩ := history_coupled (Loops.history_abs h)
  obtain habs | ⟨habs, -⟩ := Loops.fire_abs h.reachable t k
  · rw [habs]
    exact hq.unlock_step ho k.1 ht
  · rw [habs]
    exact Or.inl ⟨ht, rfl, rfl⟩

/-- Without LSE the queue shows exactly the histories of the queue with single exchanges. In all
of them one thread at most is between a true return of `osq_lock` and the end of its unlock, no
null or wild pointer is followed, and an unlock serves the first arrival behind it that stays. -/
theorem osqLock_withoutLse :
    ((∃ d, (loops n).machine.History ((loops n).observe obs) ((loops n).start (start n)) tr d) ↔
      ∃ c, (machine n).History obs (start n) tr c) ∧
    ∀ d, (loops n).machine.History ((loops n).observe obs) ((loops n).start (start n)) tr d →
      (∀ t u, (d.loc t).place.holding = true → (d.loc u).place.holding = true → t = u) ∧
      (∀ t, (d.loc t).place ≠ .fault) ∧
      ∀ t k, (d.loc t).place.inUnlock = true →
        UnlockStep tr (Loops.abs d) (Loops.abs ((loops n).machine.fire t k d)) t := by
  refine ⟨⟨fun ⟨d, hd⟩ => ⟨_, Loops.history_abs hd⟩, fun ⟨c, hc⟩ => ?_⟩, fun d hd => ?_⟩
  · obtain ⟨d, hd, -⟩ := (Loops.history_iff (L := loops n)).mpr hc
    exact ⟨d, hd⟩
  · obtain ⟨q, hq⟩ := reachable_coupled (Loops.history_abs hd).reachable
    refine ⟨fun t u ht hu => ?_, hq.no_fault, fun t k ht => unlockStep_fire hd ht k⟩
    have htq : q.head? = some t := hq.first_of_holding ht
    exact Option.some.inj (htq.symm.trans (hq.first_of_holding hu))

/-- `a` has the lock. `b` and `d` load `tail` before either stores to it, and the store of `d` is lost,
so it queues behind `b`. Then `a` has taken `b` out of its `next`. -/
def lostStore (a b d : Fin n) : List (Fin n × Bool × Bool) :=
  [(a, 6), (b, 5), (d, 5), (b, 3), (d, 5), (a, 4)].flatMap fun p => List.replicate p.2 (p.1, false, false)

/-- The lock goes to `b`, who arrived first. -/
theorem osqLock_withoutLse_lostStore :
    (∀ u, (((loops 3).machine.run ((loops 3).start (start 3)) (lostStore 0 1 2)).loc u).place.holding = true → 0 = u) ∧
      (∀ u, (((loops 3).machine.run ((loops 3).start (start 3)) (lostStore 0 1 2)).loc u).place ≠ .fault) ∧
      (loops 3).machine.trace ((loops 3).observe obs) ((loops 3).start (start 3)) (lostStore 0 1 2) = [0, 1, 2] ∧
      HandsOver [0, 1, 2] (Loops.abs ((loops 3).machine.run ((loops 3).start (start 3)) (lostStore 0 1 2)))
        (Loops.abs ((loops 3).machine.fire 0 (false, false)
          ((loops 3).machine.run ((loops 3).start (start 3)) (lostStore 0 1 2)))) 0 := by
  have hpc : (((loops 3).machine.run ((loops 3).start (start 3)) (lostStore 0 1 2)).loc 0).place = .grant 1 := by
    decide +kernel
  have htr : (loops 3).machine.trace ((loops 3).observe obs) ((loops 3).start (start 3)) (lostStore 0 1 2) =
      [0, 1, 2] := by decide +kernel
  obtain ⟨hexcl, hfault, hunlock⟩ := osqLock_withoutLse.2 _ ((loops 3).machine.history_run ((loops 3).observe obs)
    ((loops 3).start (start 3)) (lostStore 0 1 2))
  rw [htr] at hunlock
  refine ⟨fun u hu => hexcl 0 u (by rw [hpc]; rfl) hu, hfault, htr, ?_⟩
  obtain ⟨hstill, -⟩ | ⟨-, hover | ⟨hfree, -⟩⟩ := hunlock 0 (false, false) (by rw [hpc]; rfl)
  · exact absurd hstill (by decide +kernel)
  · exact hover
  · exact absurd hfree (by decide +kernel)

end Lockhammer.OsqLock
