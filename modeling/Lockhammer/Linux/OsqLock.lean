import Lockhammer.Interleaving.Machine

/-!
# The optimistic spin queue of ext/linux/osq_lock.h

An MCS-like queue of one node per thread. `tail` holds the number of the last thread, the
nodes are linked both ways, and a thread that has spun long enough takes its node out of
the queue again (Steps A, B and C of the source) and starts over. Every access to `tail`
or to a node is one step. The relaxation delays and the backoff sleep touch nothing
shared and are left out, as are the node fields that only they use.
-/
namespace Lockhammer.OsqLock
open Interleaving

def osqUnlockedVal : ℕ := 0

/-- Value 0 is "unlocked", so thread numbers are stored plus one. -/
def encodeCpu {n : ℕ} (t : Fin n) : ℕ := t + 1

/-- The node of an encoded thread number, if it lies in the pool. -/
def cpuToNode {n : ℕ} (encoded : ℕ) : Option (Fin n) :=
  if h : 0 < encoded ∧ encoded - 1 < n then some ⟨encoded - 1, h.2⟩ else none

/-- `global_osq.tail` and the fields of the nodes in the pool; node `t` is that of
thread `t`, and `none` is the null pointer. -/
structure Shared (n : ℕ) where
  tail : ℕ
  next : Fin n → Option (Fin n)
  prev : Fin n → Option (Fin n)
  locked : Fin n → ℕ
  cpu : Fin n → ℕ

section Stores
variable {n : ℕ} (s : Shared n) (t : Fin n)

def Shared.setNext (v : Option (Fin n)) : Shared n := { s with next := Function.update s.next t v }

def Shared.setPrev (v : Option (Fin n)) : Shared n := { s with prev := Function.update s.prev t v }

def Shared.setLocked (v : ℕ) : Shared n := { s with locked := Function.update s.locked t v }

def Shared.setCpu (v : ℕ) : Shared n := { s with cpu := Function.update s.cpu t v }

end Stores

/-- Where a thread is, with the variables it still needs. The four places of
`osq_wait_next` carry its argument `prev` (null when called by `osq_unlock`) and `old`.
`backoff` is between a false return of `osq_lock` and the next call; a null or wild
dereference goes to `fault`. -/
inductive Pc (n : ℕ)
  | idle
  | setLocked
  | setNext
  | setCpu
  | xchgTail
  | setPrev (prev : Fin n)
  | link (prev : Fin n)
  | spin (prev : Fin n)
  | stepARead (prev : Fin n)
  | stepACmpxchg (prev : Fin n)
  | stepALocked
  | stepAPrev
  | stepB (prev : Fin n)
  | waitTail (prev : Option (Fin n)) (old : ℕ)
  | waitCmpxchg (prev : Option (Fin n)) (old : ℕ)
  | waitNext (prev : Option (Fin n)) (old : ℕ)
  | waitXchg (prev : Option (Fin n)) (old : ℕ)
  | stepCPrev (prev next : Fin n)
  | stepCNext (prev next : Fin n)
  | backoff
  | critical
  | unlockCmpxchg
  | unlockXchg
  | grant (next : Fin n)
  | fault
  deriving DecidableEq

/-- What the caller of `osq_wait_next` does with its result: `osq_lock` (which passed a
`prev`) returns false or goes on to Step C, `osq_unlock` returns or sets `next->locked`. -/
def afterWaitNext {n : ℕ} : Option (Fin n) → Option (Fin n) → Pc n
  | some _, none => .backoff
  | some prev, some next => .stepCPrev prev next
  | none, none => .idle
  | none, some next => .grant next

/-- One atomic step of `osq_lock_acquire` (up to `critical`) or `osq_unlock`; `giveUp`
says whether a spinning thread has now passed `unqueue_retry`. -/
def step {n : ℕ} (t : Fin n) (giveUp : Bool) (s : Shared n) : Pc n → Shared n × Pc n
  | .idle => (s, .setLocked)
  | .setLocked => (s.setLocked t 0, .setNext)
  | .setNext => (s.setNext t none, .setCpu)
  | .setCpu => (s.setCpu t (encodeCpu t), .xchgTail)
  | .xchgTail =>
    ({ s with tail := encodeCpu t },
      if s.tail = osqUnlockedVal then .critical
      else match cpuToNode s.tail with
        | some prev => .setPrev prev
        | none => .fault)
  | .setPrev prev => (s.setPrev t (some prev), .link prev)
  | .link prev => (s.setNext prev (some t), .spin prev)
  | .spin prev =>
    (s, if s.locked t ≠ 0 then .critical else if giveUp then .stepARead prev else .spin prev)
  | .stepARead prev => (s, if s.next prev = some t then .stepACmpxchg prev else .stepALocked)
  | .stepACmpxchg prev =>
    if s.next prev = some t then (s.setNext prev none, .stepB prev) else (s, .stepALocked)
  | .stepALocked => (s, if s.locked t ≠ 0 then .critical else .stepAPrev)
  | .stepAPrev =>
    (s, match s.prev t with
      | some prev => .stepARead prev
      | none => .fault)
  | .stepB prev => (s, .waitTail (some prev) (s.cpu prev))
  | .waitTail prev old =>
    (s, if s.tail = encodeCpu t then .waitCmpxchg prev old else .waitNext prev old)
  | .waitCmpxchg prev old =>
    if s.tail = encodeCpu t then ({ s with tail := old }, afterWaitNext prev none)
    else (s, .waitNext prev old)
  | .waitNext prev old => (s, if s.next t ≠ none then .waitXchg prev old else .waitTail prev old)
  | .waitXchg prev old =>
    (s.setNext t none,
      match s.next t with
      | some next => afterWaitNext prev (some next)
      | none => .waitTail prev old)
  | .stepCPrev prev next => (s.setPrev next (some prev), .stepCNext prev next)
  | .stepCNext prev next => (s.setNext prev (some next), .backoff)
  | .backoff => (s, .setLocked)
  | .critical => (s, .unlockCmpxchg)
  | .unlockCmpxchg =>
    if s.tail = encodeCpu t then ({ s with tail := osqUnlockedVal }, .idle) else (s, .unlockXchg)
  | .unlockXchg =>
    (s.setNext t none,
      match s.next t with
      | some next => .grant next
      | none => .waitTail none osqUnlockedVal)
  | .grant next => (s.setLocked next 1, .idle)
  | .fault => (s, .fault)

def machine (n : ℕ) : Machine (Fin n) Bool (Shared n) (Pc n) where
  step := step

/-- After `osq_lock_init`: the pool is zeroed and `tail` is unlocked. -/
def start (n : ℕ) : Config (Fin n) (Shared n) (Pc n) :=
  ⟨⟨osqUnlockedVal, fun _ => none, fun _ => none, fun _ => 0, fun _ => 0⟩, fun _ => .idle⟩

/-- The event of a run is the exchange on `tail`. -/
def obs {n : ℕ} (t : Fin n) (_ : Bool) (_ : Shared n) : Pc n → Option (Fin n)
  | .xchgTail => some t
  | _ => none

section Places
variable {n : ℕ}

/-- In `osq_wait_next`. -/
def Pc.waitingNext : Pc n → Bool
  | .waitTail _ _ | .waitCmpxchg _ _ | .waitNext _ _ | .waitXchg _ _ => true
  | _ => false

/-- Linked and waiting for `locked`, not past Step A. -/
def Pc.waiting : Pc n → Bool
  | .spin _ | .stepARead _ | .stepACmpxchg _ | .stepALocked | .stepAPrev => true
  | _ => false

/-- Past Step A: committed to leaving. -/
def Pc.committed : Pc n → Bool
  | .stepB _ | .stepCPrev _ _ | .stepCNext _ _ => true
  | .waitTail prev _ | .waitCmpxchg prev _ | .waitNext prev _ | .waitXchg prev _ => prev.isSome
  | _ => false

/-- In `osq_unlock`, before the step that gives the lock up. -/
def Pc.inUnlock : Pc n → Bool
  | .unlockCmpxchg | .unlockXchg | .grant _ => true
  | .waitTail prev _ | .waitCmpxchg prev _ | .waitNext prev _ | .waitXchg prev _ => prev.isNone
  | _ => false

/-- Between a true return of `osq_lock` and the step that gives the lock up. -/
def Pc.holding (pc : Pc n) : Bool := pc = .critical || pc.inUnlock

/-- Between the exchange on `tail` and the step that takes the thread out of the queue. -/
def Pc.queued : Pc n → Bool
  | .setPrev _ | .link _ => true
  | pc => pc.waiting || pc.committed || pc.holding

/-- Inside `osq_lock` or `osq_unlock`. -/
def Pc.inside : Pc n → Bool
  | .idle | .backoff | .critical => false
  | _ => true

end Places
end Lockhammer.OsqLock
