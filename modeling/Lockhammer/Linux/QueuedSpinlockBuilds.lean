import Lockhammer.Interleaving.RetryLoop
import Lockhammer.Linux.QueuedSpinlockOrder

/-!
# The builds of the queued spinlock

lk_atomics.h has three bodies for the operations on the lock word. With LSE each is one instruction.
Without it each is a loop of exclusive accesses. On x86 the fetch-or of the pending bit is a loop of
compare-and-swaps, and the others are instructions.
-/
namespace Lockhammer.QueuedSpinlock
open Interleaving

inductive Build
  | lse
  | exclusive
  | x86
  deriving DecidableEq

section Loops
variable {n : ℕ}

/-- The places where the lock word is read, compared or changed, and stored in one step. -/
def Pc.modifies : Pc n → Bool
  | .fast | .fetchOr | .fallbackCmpxchg | .tryCmpxchg _ | .xchgTail _ | .claim _ _ _ => true
  | _ => false

/-- A compare-and-swap whose comparison fails stores nothing. -/
def Pc.stores : Pc n → Qspinlock → Bool
  | .fast, l | .fallbackCmpxchg, l | .tryCmpxchg _, l => l.val = 0
  | .claim _ val _, l => l.val = val
  | _, _ => true

def Build.loopKind : Build → Pc n → Option LoopKind
  | .lse, _ => none
  | .exclusive, p => if p.modifies then some .exclusive else none
  | .x86, p => if p = .fetchOr then some .compareAndSwap else none

/-- What the step does, when the loop has loaded `l`; it looks at nothing but the word. -/
def wordStep (t : Fin n) (p : Pc n) (l : Qspinlock) : Qspinlock × Pc n :=
  let r := step t { (start n).shared with lock := l } p
  (r.1.lock, r.2)

def wordLoop (t : Fin n) (p : Pc n) (kind : LoopKind) : Rmw Unit Qspinlock Unit (Pc n) :=
  ⟨kind, (), p.stores, fun l => (wordStep t p l).1, fun _ l => (wordStep t p l).2⟩

lemma step_of_modifies {t : Fin n} {p : Pc n} (hp : p.modifies = true) (s : Shared n) :
    step t s p = (if p.stores s.lock = true then { s with lock := (wordStep t p s.lock).1 } else s,
      (wordStep t p s.lock).2) := by
  cases p with
  | fetchOr => rfl
  | xchgTail idx => rfl
  | fast =>
    by_cases h : s.lock.val = 0
    · simp only [step, wordStep, tryCmpxchg, Pc.stores, h, decide_true, if_true]
    · simp only [step, wordStep, tryCmpxchg, Pc.stores, h, decide_false, if_false, Bool.false_eq_true]
  | fallbackCmpxchg =>
    by_cases h : s.lock.val = 0
    · simp only [step, wordStep, tryCmpxchg, Pc.stores, h, decide_true, if_true]
    · simp only [step, wordStep, tryCmpxchg, Pc.stores, h, decide_false, if_false, Bool.false_eq_true]
  | tryCmpxchg idx =>
    by_cases h : s.lock.val = 0
    · simp only [step, wordStep, QueuedSpinlock.tryCmpxchg, Pc.stores, h, decide_true, if_true]
    · simp only [step, wordStep, QueuedSpinlock.tryCmpxchg, Pc.stores, h, decide_false, if_false,
        Bool.false_eq_true]
  | claim idx val next =>
    by_cases h : s.lock.val = val
    · simp only [step, wordStep, QueuedSpinlock.tryCmpxchg, Pc.stores, h, decide_true, if_true]
    · simp only [step, wordStep, QueuedSpinlock.tryCmpxchg, Pc.stores, h, decide_false, if_false,
        Bool.false_eq_true]
  | _ => cases hp

/-- The steps that store to the word. -/
def Pc.touches : Pc n → Bool
  | .undo | .pendTake | .setLocked _ _ | .unlock => true
  | p => p.modifies

lemma lock_of_not_touches {t : Fin n} {p : Pc n} (hp : p.touches = false) (s : Shared n) :
    (step t s p).1.lock = s.lock := by
  cases p with
  | undo | pendTake | setLocked | unlock => cases hp
  | fast | fetchOr | fallbackCmpxchg | tryCmpxchg | xchgTail | claim => cases hp
  | _ => rfl

lemma Build.modifies_of_loopKind {b : Build} {p : Pc n} {kind : LoopKind} (h : b.loopKind p = some kind) :
    p.modifies = true ∧ (kind = .compareAndSwap → p = .fetchOr) := by
  cases b with
  | lse => cases h
  | exclusive =>
    simp only [loopKind, Option.ite_none_right_eq_some, Option.some.injEq] at h
    obtain ⟨hp, rfl⟩ := h
    exact ⟨hp, fun hkind => by cases hkind⟩
  | x86 =>
    simp only [loopKind, Option.ite_none_right_eq_some, Option.some.injEq] at h
    obtain ⟨rfl, -⟩ := h
    exact ⟨rfl, fun _ => rfl⟩

def loops (b : Build) (n : ℕ) : Loops (machine n) Unit Qspinlock where
  read s _ := s.lock
  write s _ l := { s with lock := l }
  loop t p := (b.loopKind p).map (wordLoop t p)
  touched _ p _ := p.touches
  read_write_of_ne h := absurd rfl h
  obeys t p _ s := by
    cases hkind : b.loopKind p with
    | none => exact fun _ hp => lock_of_not_touches hp s
    | some kind =>
      obtain ⟨hp, hswap⟩ := Build.modifies_of_loopKind hkind
      refine ⟨step_of_modifies hp s, fun h v => ?_⟩
      obtain rfl := hswap h
      rfl

end Loops

section Builds
variable {n : ℕ} {b : Build} {tr : List (Event n)}
  {d : Config (Fin n) (Monitored (Fin n) Unit (Shared n)) (Place Unit Qspinlock Unit (Pc n))}

/-- Every build shows exactly the histories of the lock with single operations. In all of them one
thread at most is in the critical section, the locked byte is 1 while one is, no thread leaves its
first node, and nobody overtakes a thread that has exchanged the tail. -/
theorem queuedSpinlock_builds (hn : n ≤ 2 ^ 14 - 1) :
    ((∃ d, (loops b n).machine.History ((loops b n).observe event) ((loops b n).start (start n)) tr d) ↔
      ∃ c, (machine n).History event (start n) tr c) ∧
    ∀ d, (loops b n).machine.History ((loops b n).observe event) ((loops b n).start (start n)) tr d →
      (∀ t u, (d.loc t).place.inCritical = true → (d.loc u).place.inCritical = true → t = u) ∧
      (∀ t, (d.loc t).place.inCritical = true → d.shared.mem.lock.locked = 1) ∧
      (∀ t, (d.shared.mem.count t = 0 ∨ d.shared.mem.count t = 1) ∧
        (∀ idx, (d.loc t).place.idx = some idx → idx = 0) ∧ (d.loc t).place ≠ .fault) ∧
      ∀ x y e l m r r', x ≠ y → e.thread = y →
        tr = l ++ .publish x :: (m ++ e :: (r ++ .take y :: r')) → .take x ∈ m ++ r := by
  refine ⟨⟨fun ⟨d, hd⟩ => ⟨_, Loops.history_abs hd⟩, fun ⟨c, hc⟩ => ?_⟩, fun d hd => ?_⟩
  · obtain ⟨d, hd, -⟩ := (Loops.history_iff (L := loops b n)).mpr hc
    exact ⟨d, hd⟩
  · have habs := Loops.history_abs hd
    obtain ⟨q, prev, hq, hw, -⟩ := reachable_inv hn habs.reachable
    refine ⟨fun t u ht hu => ?_, fun t ht => ?_, fun t => ?_, fun x y e l m r r' hxy he htr => ?_⟩
    · exact hw.holder_unique t u (kind_of_inCritical ht) (kind_of_inCritical hu)
    · exact hw.locked_of t (kind_of_inCritical ht)
    · obtain ⟨hcount, hidx, -, -, hfault⟩ := (hq.pc_ok t).entry
      exact ⟨hcount, hidx, hfault⟩
    · exact take_before hn habs hxy he htr

/-- `b` loads the word for its fetch-or, `d` becomes pending before it, so the swap of `b` fails once
and `b` queues. Then `a` comes again, goes behind `b`, and all of them get the lock. -/
def lostSwap (a b d : Fin n) : List (Fin n × Unit × Bool) :=
  [(a, 2), (b, 3), (d, 4), (b, 7), (a, 2), (d, 2), (a, 9), (d, 2), (b, 7), (a, 5)].flatMap fun p =>
    List.replicate p.2 (p.1, (), false)

theorem queuedSpinlock_builds_lostSwap :
    (loops .x86 3).machine.trace ((loops .x86 3).observe event) ((loops .x86 3).start (start 3)) (lostSwap 0 1 2) =
        [.start 0, .take 0, .start 1, .start 2, .publish 1, .take 2, .start 0, .publish 0, .take 1, .take 0] ∧
      Event.take (n := 3) 1 ∈ [.take 2, .publish 0, .take 1] ∧
      (∀ u, (((loops .x86 3).machine.run ((loops .x86 3).start (start 3)) (lostSwap 0 1 2)).loc u).place.inCritical =
        true → 0 = u) ∧
      ((loops .x86 3).machine.run ((loops .x86 3).start (start 3)) (lostSwap 0 1 2)).shared.mem.lock.locked = 1 ∧
      ∀ t, (((loops .x86 3).machine.run ((loops .x86 3).start (start 3)) (lostSwap 0 1 2)).loc t).place ≠ .fault := by
  have htr : (loops .x86 3).machine.trace ((loops .x86 3).observe event) ((loops .x86 3).start (start 3))
      (lostSwap 0 1 2) =
        [Event.start 0, Event.take 0, Event.start 1, Event.start 2] ++ Event.publish 1 ::
          ([Event.take 2] ++ Event.start 0 :: ([Event.publish 0, Event.take 1] ++ Event.take 0 :: [])) := by
    decide +kernel
  have hin : (((loops .x86 3).machine.run ((loops .x86 3).start (start 3)) (lostSwap 0 1 2)).loc 0).place.inCritical =
      true := by decide +kernel
  obtain ⟨hexcl, hlocked, hentry, horder⟩ := (queuedSpinlock_builds (by decide)).2 _
    ((loops .x86 3).machine.history_run ((loops .x86 3).observe event) ((loops .x86 3).start (start 3)) (lostSwap 0 1 2))
  exact ⟨htr, horder 1 0 (.start 0) _ _ _ _ (by decide) rfl htr, fun u hu => hexcl 0 u hin hu, hlocked 0 hin,
    fun t => (hentry t).2.2⟩

end Builds

end Lockhammer.QueuedSpinlock
