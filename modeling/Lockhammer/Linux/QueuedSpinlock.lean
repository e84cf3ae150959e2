import Lockhammer.Interleaving.Machine
import Lockhammer.CLib.Bits

/-!
# The queued spinlock of ext/linux/queued_spinlock.h

The lock is a 32-bit word that is also accessed as two bytes and two half-words. A thread
takes it by a compare-exchange of the whole word, by the pending byte when it is the only
waiter, or through an MCS queue whose last node is encoded in the upper half-word. Each
thread has an entry of four nodes and a nesting count in `mcs_pool`. Every access to the
lock word, to a node or to a count is one step.
-/
namespace Lockhammer.QueuedSpinlock
open Interleaving CLib

section Word

/-- `struct qspinlock`: the parts of the word, from the lowest byte up. -/
@[ext]
structure Qspinlock where
  locked : BitVec 8
  pending : BitVec 8
  tail : BitVec 16
  deriving DecidableEq

/-- The whole word, `lock->val`. -/
def Qspinlock.val (l : Qspinlock) : BitVec 32 := l.tail ++ l.pending ++ l.locked

def Qspinlock.ofVal (v : BitVec 32) : Qspinlock :=
  ⟨v.extractLsb' 0 8, v.extractLsb' 8 8, v.extractLsb' 16 16⟩

/-- `_Q_SET_MASK` -/
def qSetMask (bits offset : ℕ) : BitVec 32 := ((1 <<< bits) - 1) <<< offset

def qLockedMask : BitVec 32 := qSetMask 8 0
def qPendingMask : BitVec 32 := qSetMask 8 8
def qTailIdxMask : BitVec 32 := qSetMask 2 16
def qTailCpuMask : BitVec 32 := qSetMask 14 18
def qTailMask : BitVec 32 := qTailIdxMask ||| qTailCpuMask
def qLockedPendingMask : BitVec 32 := qLockedMask ||| qPendingMask
def qLockedVal : BitVec 32 := 1 <<< 0
def qPendingVal : BitVec 32 := 1 <<< 8

abbrev maxNodes : ℕ := 4

/-- `_Q_PENDING_LOOPS` -/
def qPendingLoops : ℕ := 1

/-- A node of the pool: the entry of a thread and the place in it. -/
abbrev NodeId (n : ℕ) := Fin n × Fin maxNodes

def encodeTail (cpu idx : ℕ) : BitVec 32 :=
  (BitVec.ofNat 32 (cpu + 1) <<< 18) ||| (BitVec.ofNat 32 idx <<< 16)

/-- The node that a tail code names, if it lies in the pool. -/
def decodeTail {n : ℕ} (tail : BitVec 32) : Option (NodeId n) :=
  let cpu := (tail >>> 18).toNat
  let idx := ((tail &&& qTailIdxMask) >>> 16).toNat
  if h : (0 < cpu ∧ cpu - 1 < n) ∧ idx < maxNodes then some (⟨cpu - 1, h.1.2⟩, ⟨idx, h.2⟩) else none

/-- `atomic_try_cmpxchg` on the whole word: success, and the word after it. -/
def tryCmpxchg (l : Qspinlock) (exp new : BitVec 32) : Bool × Qspinlock :=
  if l.val = exp then (true, .ofVal new) else (false, l)

/-- `queued_fetch_set_pending_acquire` -/
def queuedFetchSetPendingAcquire (l : Qspinlock) : BitVec 32 × Qspinlock :=
  (l.val, .ofVal (l.val ||| qPendingVal))

/-- `xchg_tail` exchanges the upper half-word only. -/
def xchgTail (l : Qspinlock) (tail : BitVec 32) : BitVec 32 × Qspinlock :=
  ((l.tail.setWidth 32) <<< 16, { l with tail := (tail >>> 16).setWidth 16 })

def clearPending (l : Qspinlock) : Qspinlock := { l with pending := 0 }

def clearPendingSetLocked (l : Qspinlock) : Qspinlock :=
  { l with locked := qLockedVal.extractLsb' 0 8, pending := qLockedVal.extractLsb' 8 8 }

def setLocked (l : Qspinlock) : Qspinlock := { l with locked := qLockedVal.setWidth 8 }

end Word

/-- The lock word and `mcs_pool`. -/
structure Shared (n : ℕ) where
  lock : Qspinlock
  next : NodeId n → Option (NodeId n)
  locked : NodeId n → ℕ
  count : Fin n → ℕ

section Stores
variable {n : ℕ} (s : Shared n)

def Shared.setNext (x : NodeId n) (v : Option (NodeId n)) : Shared n :=
  { s with next := Function.update s.next x v }

def Shared.setNodeLocked (x : NodeId n) (v : ℕ) : Shared n :=
  { s with locked := Function.update s.locked x v }

def Shared.setCount (t : Fin n) (v : ℕ) : Shared n :=
  { s with count := Function.update s.count t v }

end Stores

/-- Where a thread is, with the variables it still needs. The places from `initLocked` to
`handoff` carry the index of the thread's node; a wild pointer goes to `fault`. -/
inductive Pc (n : ℕ)
  | idle
  | fast
  | pendSpin (cnt : ℕ)
  | fetchOr
  | undo
  | pendWait
  | pendTake
  | incCount
  | fallbackRead
  | fallbackCmpxchg
  | initLocked (idx : Fin maxNodes)
  | initNext (idx : Fin maxNodes)
  | tryRead (idx : Fin maxNodes)
  | tryCmpxchg (idx : Fin maxNodes)
  | xchgTail (idx : Fin maxNodes)
  | link (idx : Fin maxNodes) (prev : NodeId n)
  | waitLocked (idx : Fin maxNodes)
  | readNext (idx : Fin maxNodes)
  | headWait (idx : Fin maxNodes) (next : Option (NodeId n))
  | claim (idx : Fin maxNodes) (val : BitVec 32) (next : Option (NodeId n))
  | setLocked (idx : Fin maxNodes) (next : Option (NodeId n))
  | waitNext (idx : Fin maxNodes)
  | handoff (idx : Fin maxNodes) (next : NodeId n)
  | decCount
  | critical
  | unlock
  | fault
  deriving DecidableEq

/-- "If we observe any contention; queue", else set pending. -/
def afterPendSpin {n : ℕ} (val : BitVec 32) : Pc n :=
  if val &&& ~~~qLockedMask ≠ 0 then .incCount else .fetchOr

/-- Entry of `queued_spin_lock_slowpath` with the value that the fast path saw. -/
def slowpath {n : ℕ} (val : BitVec 32) : Pc n :=
  if val = qPendingVal then .pendSpin qPendingLoops else afterPendSpin val

/-- What follows the fetch-or, by the value before it: undo and queue, queue, wait for the
owner, or take the free lock. -/
def afterFetchOr {n : ℕ} (val : BitVec 32) : Pc n :=
  if val &&& ~~~qLockedMask ≠ 0 then if val &&& qPendingMask = 0 then .undo else .incCount
  else if val &&& qLockedMask ≠ 0 then .pendWait else .pendTake

/-- One atomic step of `lock_acquire` (up to `critical`) or `lock_release`. -/
def step {n : ℕ} (t : Fin n) (s : Shared n) : Pc n → Shared n × Pc n
  | .idle => (s, .fast)
  | .fast =>
    let r := QueuedSpinlock.tryCmpxchg s.lock 0 qLockedVal
    ({ s with lock := r.2 }, if r.1 then .critical else slowpath s.lock.val)
  | .pendSpin cnt =>
    (s, if s.lock.val ≠ qPendingVal ∨ cnt = 0 then afterPendSpin s.lock.val else .pendSpin (cnt - 1))
  | .fetchOr =>
    let r := queuedFetchSetPendingAcquire s.lock
    ({ s with lock := r.2 }, afterFetchOr r.1)
  | .undo => ({ s with lock := clearPending s.lock }, .incCount)
  | .pendWait => (s, if s.lock.locked = 0 then .pendTake else .pendWait)
  | .pendTake => ({ s with lock := clearPendingSetLocked s.lock }, .critical)
  | .incCount =>
    (s.setCount t (s.count t + 1),
      if h : s.count t < maxNodes then .initLocked ⟨s.count t, h⟩ else .fallbackRead)
  | .fallbackRead => (s, if s.lock.val ≠ 0 then .fallbackRead else .fallbackCmpxchg)
  | .fallbackCmpxchg =>
    let r := QueuedSpinlock.tryCmpxchg s.lock 0 qLockedVal
    ({ s with lock := r.2 }, if r.1 then .decCount else .fallbackRead)
  | .initLocked idx => (s.setNodeLocked (t, idx) 0, .initNext idx)
  | .initNext idx => (s.setNext (t, idx) none, .tryRead idx)
  | .tryRead idx => (s, if s.lock.val ≠ 0 then .xchgTail idx else .tryCmpxchg idx)
  | .tryCmpxchg idx =>
    let r := QueuedSpinlock.tryCmpxchg s.lock 0 qLockedVal
    ({ s with lock := r.2 }, if r.1 then .decCount else .xchgTail idx)
  | .xchgTail idx =>
    let r := QueuedSpinlock.xchgTail s.lock (encodeTail t idx)
    ({ s with lock := r.2 },
      if r.1 &&& qTailMask ≠ 0 then
        match decodeTail r.1 with
        | some prev => .link idx prev
        | none => .fault
      else .headWait idx none)
  | .link idx prev => (s.setNext prev (some (t, idx)), .waitLocked idx)
  | .waitLocked idx => (s, if s.locked (t, idx) ≠ 0 then .readNext idx else .waitLocked idx)
  | .readNext idx => (s, .headWait idx (s.next (t, idx)))
  | .headWait idx next =>
    (s, if s.lock.val &&& qLockedPendingMask ≠ 0 then .headWait idx next
      else if s.lock.val &&& qTailMask = encodeTail t idx then .claim idx s.lock.val next
      else .setLocked idx next)
  | .claim idx val next =>
    let r := QueuedSpinlock.tryCmpxchg s.lock val qLockedVal
    ({ s with lock := r.2 }, if r.1 then .decCount else .setLocked idx next)
  | .setLocked idx next =>
    ({ s with lock := QueuedSpinlock.setLocked s.lock },
      match next with
      | some next => .handoff idx next
      | none => .waitNext idx)
  | .waitNext idx =>
    (s, match s.next (t, idx) with
      | some next => .handoff idx next
      | none => .waitNext idx)
  | .handoff _ next => (s.setNodeLocked next 1, .decCount)
  | .decCount => (s.setCount t (s.count t - 1), .critical)
  | .critical => (s, .unlock)
  | .unlock => ({ s with lock := { s.lock with locked := 0 } }, .idle)
  | .fault => (s, .fault)

def machine (n : ℕ) : Machine (Fin n) Unit (Shared n) (Pc n) where
  step t _ := step t

/-- A zero lock word, and `mcs_pool` zeroed by `mcs_init_locks`. -/
def start (n : ℕ) : Config (Fin n) (Shared n) (Pc n) :=
  ⟨⟨⟨0, 0, 0⟩, fun _ => none, fun _ => 0, fun _ => 0⟩, fun _ => .idle⟩

section Views

lemma val_toNat (l : Qspinlock) :
    l.val.toNat = l.tail.toNat * 2 ^ 16 + l.pending.toNat * 2 ^ 8 + l.locked.toNat := by
  have h : l.val.toNat = (l.tail.toNat * 2 ^ 8 + l.pending.toNat) * 2 ^ 8 + l.locked.toNat := by
    rw [← append_toNat, ← append_toNat]
    rfl
  rw [h, Nat.add_mul, Nat.mul_assoc, ← Nat.pow_add]

lemma Qspinlock.ofVal_val (l : Qspinlock) : Qspinlock.ofVal l.val = l := by
  have hk := l.locked.isLt
  have hp := l.pending.isLt
  have ht := l.tail.isLt
  apply Qspinlock.ext
  · apply BitVec.eq_of_toNat_eq
    rw [Qspinlock.ofVal, extract_toNat, val_toNat]
    omega
  · apply BitVec.eq_of_toNat_eq
    rw [Qspinlock.ofVal, extract_toNat, val_toNat]
    omega
  · apply BitVec.eq_of_toNat_eq
    rw [Qspinlock.ofVal, extract_toNat, val_toNat]
    omega

lemma Qspinlock.val_inj {l m : Qspinlock} : l.val = m.val ↔ l = m := by
  constructor
  · intro h
    rw [← l.ofVal_val, h, m.ofVal_val]
  · rintro rfl
    rfl

lemma Qspinlock.val_and (l m : Qspinlock) :
    l.val &&& m.val = Qspinlock.val ⟨l.locked &&& m.locked, l.pending &&& m.pending,
      l.tail &&& m.tail⟩ := by
  rw [Qspinlock.val, Qspinlock.val, Qspinlock.val]
  exact BitVec.and_append.trans (congrArg (· ++ _) BitVec.and_append)

lemma Qspinlock.val_or (l m : Qspinlock) :
    l.val ||| m.val = Qspinlock.val ⟨l.locked ||| m.locked, l.pending ||| m.pending,
      l.tail ||| m.tail⟩ := by
  rw [Qspinlock.val, Qspinlock.val, Qspinlock.val]
  exact BitVec.or_append.trans (congrArg (· ++ _) BitVec.or_append)

lemma Qspinlock.val_eq_zero_iff {l : Qspinlock} :
    l.val = 0 ↔ l.locked = 0 ∧ l.pending = 0 ∧ l.tail = 0 := by
  rw [show (0 : BitVec 32) = Qspinlock.val ⟨0, 0, 0⟩ from rfl, Qspinlock.val_inj]
  cases l
  simp

section Masks
variable {l : Qspinlock}

lemma val_and_contended : l.val &&& ~~~qLockedMask = 0 ↔ l.pending = 0 ∧ l.tail = 0 := by
  rw [show ~~~qLockedMask = Qspinlock.val ⟨0, BitVec.allOnes 8, BitVec.allOnes 16⟩ from rfl,
    Qspinlock.val_and, Qspinlock.val_eq_zero_iff]
  simp only [BitVec.and_allOnes, BitVec.and_zero, BitVec.ofNat_eq_ofNat, true_and]

lemma val_and_qPendingMask : l.val &&& qPendingMask = 0 ↔ l.pending = 0 := by
  rw [show qPendingMask = Qspinlock.val ⟨0, BitVec.allOnes 8, 0⟩ from rfl,
    Qspinlock.val_and, Qspinlock.val_eq_zero_iff]
  simp only [BitVec.and_allOnes, BitVec.and_zero, BitVec.ofNat_eq_ofNat, true_and, and_true]

lemma val_and_qLockedMask : l.val &&& qLockedMask = 0 ↔ l.locked = 0 := by
  rw [show qLockedMask = Qspinlock.val ⟨BitVec.allOnes 8, 0, 0⟩ from rfl,
    Qspinlock.val_and, Qspinlock.val_eq_zero_iff]
  simp only [BitVec.and_allOnes, BitVec.and_zero, BitVec.ofNat_eq_ofNat, and_true]

lemma val_and_qLockedPendingMask :
    l.val &&& qLockedPendingMask = 0 ↔ l.locked = 0 ∧ l.pending = 0 := by
  rw [show qLockedPendingMask = Qspinlock.val ⟨BitVec.allOnes 8, BitVec.allOnes 8, 0⟩ from rfl,
    Qspinlock.val_and, Qspinlock.val_eq_zero_iff]
  simp only [BitVec.and_allOnes, BitVec.and_zero, BitVec.ofNat_eq_ofNat, and_true]

lemma val_and_qTailMask : l.val &&& qTailMask = Qspinlock.val ⟨0, 0, l.tail⟩ := by
  rw [show qTailMask = Qspinlock.val ⟨0, 0, BitVec.allOnes 16⟩ from rfl, Qspinlock.val_and]
  simp only [BitVec.and_allOnes, BitVec.and_zero, BitVec.ofNat_eq_ofNat]

/-- A word with both bytes clear is its tail. -/
lemma val_and_qTailMask_of_free (h : l.val &&& qLockedPendingMask = 0) :
    l.val &&& qTailMask = l.val := by
  obtain ⟨hl, hp⟩ := val_and_qLockedPendingMask.mp h
  rw [val_and_qTailMask, Qspinlock.val_inj]
  exact Qspinlock.ext hl.symm hp.symm rfl

end Masks

lemma ofVal_qLockedVal : Qspinlock.ofVal qLockedVal = ⟨1, 0, 0⟩ := by decide

lemma queuedFetchSetPendingAcquire_eq (l : Qspinlock) :
    queuedFetchSetPendingAcquire l = (l.val, { l with pending := l.pending ||| 1 }) := by
  rw [queuedFetchSetPendingAcquire, show qPendingVal = Qspinlock.val ⟨0, 1, 0⟩ from rfl,
    Qspinlock.val_or, Qspinlock.ofVal_val]
  simp

lemma afterFetchOr_val {n : ℕ} (l : Qspinlock) :
    (afterFetchOr l.val : Pc n) =
      if l.pending = 0 ∧ l.tail = 0 then if l.locked = 0 then .pendTake else .pendWait
      else if l.pending = 0 then .undo else .incCount := by
  simp only [afterFetchOr, ne_eq, val_and_contended, val_and_qPendingMask, val_and_qLockedMask,
    ite_not]

/-- The tail half-word of thread `cpu` with node 0. -/
def tailCode (cpu : ℕ) : BitVec 16 := BitVec.ofNat 16 (4 * (cpu + 1))

lemma encodeTail_zero (cpu : ℕ) : encodeTail cpu 0 = Qspinlock.val ⟨0, 0, tailCode cpu⟩ := by
  apply BitVec.eq_of_toNat_eq
  rw [val_toNat]
  simp [encodeTail, tailCode, BitVec.toNat_shiftLeft, Nat.shiftLeft_eq]
  omega

lemma xchgTail_eq (l : Qspinlock) (cpu : ℕ) :
    xchgTail l (encodeTail cpu 0) = (Qspinlock.val ⟨0, 0, l.tail⟩, { l with tail := tailCode cpu }) := by
  have h1 : (l.tail.setWidth 32) <<< 16 = Qspinlock.val ⟨0, 0, l.tail⟩ := by
    apply BitVec.eq_of_toNat_eq
    rw [val_toNat]
    have := l.tail.isLt
    simp [BitVec.toNat_shiftLeft, Nat.shiftLeft_eq]
    omega
  have h2 : (encodeTail cpu 0 >>> 16).setWidth 16 = tailCode cpu := by
    apply BitVec.eq_of_toNat_eq
    rw [encodeTail_zero]
    have := (tailCode cpu).isLt
    simp [val_toNat, Nat.shiftRight_eq_div_pow]
    omega
  rw [xchgTail, h1, h2]

lemma tailCode_toNat {n : ℕ} (hn : n ≤ 2 ^ 14 - 1) (t : Fin n) :
    (tailCode t).toNat = 4 * (t + 1) := by
  have ht := t.isLt
  simp only [tailCode, BitVec.toNat_ofNat]
  omega

lemma tailCode_ne_zero {n : ℕ} (hn : n ≤ 2 ^ 14 - 1) (t : Fin n) : tailCode t ≠ 0 := by
  intro h
  have := congrArg BitVec.toNat h
  rw [tailCode_toNat hn] at this
  simp at this

lemma tailCode_injective {n : ℕ} (hn : n ≤ 2 ^ 14 - 1) :
    Function.Injective fun t : Fin n => tailCode t := by
  intro a b h
  have := congrArg BitVec.toNat h
  rw [tailCode_toNat hn, tailCode_toNat hn] at this
  omega

lemma decodeTail_tailCode {n : ℕ} (hn : n ≤ 2 ^ 14 - 1) (t : Fin n) :
    decodeTail (Qspinlock.val ⟨0, 0, tailCode t⟩) = some (t, 0) := by
  have ht := t.isLt
  have hval : (Qspinlock.val ⟨0, 0, tailCode t⟩).toNat = 4 * (t + 1) * 2 ^ 16 := by
    rw [val_toNat, tailCode_toNat hn]
    simp
  have hcpu : (Qspinlock.val ⟨0, 0, tailCode t⟩ >>> 18).toNat = t + 1 := by
    rw [BitVec.toNat_ushiftRight, hval, Nat.shiftRight_eq_div_pow]
    omega
  have hand : tailCode t &&& 3 = 0 := by
    apply BitVec.eq_of_toNat_eq
    rw [BitVec.toNat_and, tailCode_toNat hn]
    exact (Nat.and_two_pow_sub_one_eq_mod (4 * (t + 1)) 2).trans (Nat.mul_mod_right 4 (t + 1))
  have hidx : ((Qspinlock.val ⟨0, 0, tailCode t⟩ &&& qTailIdxMask) >>> 16).toNat = 0 := by
    rw [show qTailIdxMask = Qspinlock.val ⟨0, 0, 3⟩ from rfl, Qspinlock.val_and, hand]
    simp only [BitVec.and_self]
    rfl
  simp only [decodeTail, hcpu, hidx]
  simp

end Views
end Lockhammer.QueuedSpinlock
