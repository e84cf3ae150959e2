import Lockhammer.Interleaving.Machine
import Lockhammer.CLib.Bits

/-!
# The hybrid spinlocks of ext/linux (aarch64 bodies)

A ticket lock with one-byte tickets in front of an MCS queue, both in one 32-bit word:
the tail of the queue in the lower half-word, then the byte `serving`, then the byte
`next`. A thread draws a ticket at once when there is no queue and few tickets are out;
otherwise it queues, and only the head of the queue draws. In hybrid_spinlock.h the head
keeps its place until it is served, in hybrid_spinlock_fastdequeue.h it hands the queue
on as soon as it has drawn. A store-exclusive fails when the word was written since the
load-exclusive before it; it may also fail for no reason.
-/
namespace Lockhammer.HybridSpinlock
open Interleaving CLib

/-- The two headers. -/
inductive Header
  | hybridSpinlock
  | fastdequeue
  deriving DecidableEq, Repr

/-- `_Q_THRESHOLD` -/
def qThreshold : Header → ℕ
  | .hybridSpinlock => 4
  | .fastdequeue => 6

/-- `_Q_DEQUEUE_THRESHOLD`, in hybrid_spinlock_fastdequeue.h only. -/
def qDequeueThreshold : ℕ := 2

section Word

/-- The parts of the lock word, from the lowest byte up. -/
@[ext]
structure LockWord where
  tail : BitVec 16
  serving : BitVec 8
  next : BitVec 8
  deriving DecidableEq

def LockWord.val (l : LockWord) : BitVec 32 := l.next ++ l.serving ++ l.tail

def LockWord.ofVal (v : BitVec 32) : LockWord :=
  ⟨v.extractLsb' 0 16, v.extractLsb' 16 8, v.extractLsb' 24 8⟩

/-- `_Q_SET_MASK` -/
def qSetMask (bits offset : ℕ) : BitVec 32 := ((1 <<< bits) - 1) <<< offset

def qTailIdxMask : BitVec 32 := qSetMask 2 0
def qTailCpuMask : BitVec 32 := qSetMask 14 2
def qTailMask : BitVec 32 := qTailCpuMask ||| qTailIdxMask

def ticketInc : BitVec 32 := 0x01000000

/-- The instruction: swap the bytes of each half-word. -/
def rev16 (v : BitVec 32) : BitVec 32 :=
  v.extractLsb' 16 8 ++ v.extractLsb' 24 8 ++ v.extractLsb' 0 8 ++ v.extractLsb' 8 8

/-- The `rev16`/`eor` test: the word equals its byte-swapped self. -/
def palindromic (v : BitVec 32) : Bool := rev16 v ^^^ v == 0

/-- The tests before a direct draw: at the threshold, or with a tail, queue up. -/
def mustQueue (h : Header) (ticket : BitVec 32) : Bool :=
  palindromic (ticket - BitVec.ofNat 32 (qThreshold h) <<< 24) || ticket &&& qTailMask != 0

/-- The `bgt` of the head of the queue in hybrid_spinlock_fastdequeue.h. -/
def aboveDequeueThreshold (ticket : BitVec 32) : Bool :=
  (BitVec.ofNat 32 qDequeueThreshold <<< 24).slt ((ticket - ticket <<< 8) &&& 0xFF000000)

def ticketDepth (ticketval : BitVec 32) : BitVec 32 :=
  (((ticketval &&& 0xff000000) >>> 24) - ((ticketval &&& 0x00ff0000) >>> 16)) &&& 0xff

/-- The byte a waiter compares `serving` with. -/
def ticketByte (ticket : BitVec 32) : BitVec 8 := (ticket >>> 24).setWidth 8

abbrev maxNodes : ℕ := 4

/-- A node of `mcs_pool`: the entry of a thread and the place in it. -/
abbrev NodeId (n : ℕ) := Fin n × Fin maxNodes

def encodeTail (cpu idx : ℕ) : BitVec 32 := (BitVec.ofNat 32 (cpu + 1) <<< 2) ||| BitVec.ofNat 32 idx

/-- The node that a tail code names, if it lies in the pool. -/
def decodeTail {n : ℕ} (tail : BitVec 32) : Option (NodeId n) :=
  let cpu := ((tail &&& qTailCpuMask) >>> 2).toNat
  let idx := (tail &&& qTailIdxMask).toNat
  if h : (0 < cpu ∧ cpu - 1 < n) ∧ idx < maxNodes then some (⟨cpu - 1, h.1.2⟩, ⟨idx, h.2⟩) else none

/-- `xchg_tail` exchanges the lower half-word only. -/
def xchgTail (l : LockWord) (tail : BitVec 32) : BitVec 32 × LockWord :=
  (l.tail.setWidth 32, { l with tail := (tail &&& qTailMask).setWidth 16 })

end Word

/-- The lock word with the exclusive monitor of each thread, and `mcs_pool`. -/
structure Shared (n : ℕ) where
  lock : LockWord
  exclusive : Fin n → Bool
  next : NodeId n → Option (NodeId n)
  locked : NodeId n → ℕ
  count : Fin n → ℕ

section Stores
variable {n : ℕ} (s : Shared n)

/-- Any store to the lock word clears every monitor. -/
def Shared.setLock (l : LockWord) : Shared n := { s with lock := l, exclusive := fun _ => false }

/-- `ldaxr` by thread `t`. -/
def Shared.loadExclusive (t : Fin n) : Shared n :=
  { s with exclusive := Function.update s.exclusive t true }

def Shared.setNext (x : NodeId n) (v : Option (NodeId n)) : Shared n :=
  { s with next := Function.update s.next x v }

def Shared.setNodeLocked (x : NodeId n) (v : ℕ) : Shared n :=
  { s with locked := Function.update s.locked x v }

def Shared.setCount (t : Fin n) (v : ℕ) : Shared n :=
  { s with count := Function.update s.count t v }

end Stores

/-- Where a thread is, with the variables it still needs. The places from `initLocked` to
`handoff` carry the index of the thread's node; those after a draw carry the word it was
drawn from. A wild pointer goes to `fault`. -/
inductive Pc (n : ℕ)
  | idle
  | fastLoad
  | fastStore (ticket : BitVec 32)
  | drawLoad
  | drawStore (ticket : BitVec 32)
  | waitServing (ticket : BitVec 32)
  | incCount
  | initLocked (idx : Fin maxNodes)
  | initNext (idx : Fin maxNodes)
  | xchgTail (idx : Fin maxNodes)
  | link (idx : Fin maxNodes) (prev : NodeId n)
  | waitLocked (idx : Fin maxNodes)
  | readNext (idx : Fin maxNodes)
  | headLoad (idx : Fin maxNodes) (next : Option (NodeId n))
  | headStore (idx : Fin maxNodes) (next : Option (NodeId n)) (ticket : BitVec 32)
  | headWait (idx : Fin maxNodes) (next : Option (NodeId n)) (ticket : BitVec 32)
  | readVal (idx : Fin maxNodes) (next : Option (NodeId n)) (ticket : BitVec 32)
  | clearTail (idx : Fin maxNodes) (next : Option (NodeId n)) (ticket val : BitVec 32)
  | waitNext (idx : Fin maxNodes) (ticket : BitVec 32)
  | handoff (idx : Fin maxNodes) (next : NodeId n) (ticket : BitVec 32)
  | decCount (ticket : BitVec 32)
  | lateWait (ticket : BitVec 32)
  | critical (depth : BitVec 32)
  | loadServing
  | storeServing (tmp : BitVec 8)
  | fault
  deriving DecidableEq

/-- After the `while` over the tail: to the compare-exchange, to the link, or to its wait. -/
def afterVal {n : ℕ} (t : Fin n) (idx : Fin maxNodes) (next : Option (NodeId n))
    (ticket val : BitVec 32) : Pc n :=
  if val &&& qTailMask = encodeTail t idx then .clearTail idx next ticket val
  else match next with
    | some next => .handoff idx next ticket
    | none => .waitNext idx ticket

/-- `stxr` of the ticket word plus one; `fails` is a failure for no reason. -/
def stxr {n : ℕ} (t : Fin n) (fails : Bool) (s : Shared n) (ticket : BitVec 32) : Option (Shared n) :=
  if s.exclusive t = true ∧ fails = false then some (s.setLock (.ofVal (ticket + ticketInc))) else none

/-- One atomic step of `lock_acquire` with `hybrid_spinlock_slowpath` (up to `critical`) or
of `lock_release`. -/
def step {n : ℕ} (h : Header) (t : Fin n) (fails : Bool) (s : Shared n) : Pc n → Shared n × Pc n
  | .idle => (s, .fastLoad)
  | .fastLoad =>
    (s.loadExclusive t,
      if palindromic s.lock.val then .fastStore s.lock.val
      else if mustQueue h s.lock.val then .incCount else .drawLoad)
  | .fastStore ticket =>
    match stxr t fails s ticket with
    | some s' => (s', .critical 0)
    | none => (s, .fastLoad)
  | .drawLoad =>
    (s.loadExclusive t, if mustQueue h s.lock.val then .incCount else .drawStore s.lock.val)
  | .drawStore ticket =>
    match stxr t fails s ticket with
    | some s' => (s', .waitServing ticket)
    | none => (s, .drawLoad)
  | .waitServing ticket =>
    (s, if s.lock.serving = ticketByte ticket then .critical (ticketDepth ticket)
      else .waitServing ticket)
  | .incCount =>
    (s.setCount t (s.count t + 1),
      if h : s.count t < maxNodes then .initLocked ⟨s.count t, h⟩ else .fault)
  | .initLocked idx => (s.setNodeLocked (t, idx) 0, .initNext idx)
  | .initNext idx => (s.setNext (t, idx) none, .xchgTail idx)
  | .xchgTail idx =>
    let r := HybridSpinlock.xchgTail s.lock (encodeTail t idx)
    (s.setLock r.2,
      if r.1 &&& qTailMask ≠ 0 then
        match decodeTail r.1 with
        | some prev => .link idx prev
        | none => .fault
      else .headLoad idx none)
  | .link idx prev => (s.setNext prev (some (t, idx)), .waitLocked idx)
  | .waitLocked idx => (s, if s.locked (t, idx) ≠ 0 then .readNext idx else .waitLocked idx)
  | .readNext idx => (s, .headLoad idx (s.next (t, idx)))
  | .headLoad idx next =>
    (s.loadExclusive t,
      if h = .fastdequeue ∧ aboveDequeueThreshold s.lock.val = true then .headLoad idx next
      else .headStore idx next s.lock.val)
  | .headStore idx next ticket =>
    match stxr t fails s ticket with
    | some s' =>
      (s', match h with
        | .hybridSpinlock => .headWait idx next ticket
        | .fastdequeue => .readVal idx next ticket)
    | none => (s, .headLoad idx next)
  | .headWait idx next ticket =>
    (s, if s.lock.serving = ticketByte ticket then .readVal idx next ticket
      else .headWait idx next ticket)
  | .readVal idx next ticket => (s, afterVal t idx next ticket s.lock.val)
  | .clearTail idx next ticket val =>
    if s.lock.val = val then (s.setLock (.ofVal (val &&& ~~~qTailMask)), .decCount ticket)
    else (s, afterVal t idx next ticket s.lock.val)
  | .waitNext idx ticket =>
    (s, match s.next (t, idx) with
      | some next => .handoff idx next ticket
      | none => .waitNext idx ticket)
  | .handoff _ next ticket => (s.setNodeLocked next 1, .decCount ticket)
  | .decCount ticket =>
    (s.setCount t (s.count t - 1),
      match h with
      | .hybridSpinlock => .critical (ticketDepth ticket)
      | .fastdequeue => .lateWait ticket)
  | .lateWait ticket =>
    (s, if s.lock.serving = ticketByte ticket then .critical (ticketDepth ticket)
      else .lateWait ticket)
  | .critical _ => (s, .loadServing)
  | .loadServing => (s, .storeServing s.lock.serving)
  | .storeServing tmp => (s.setLock { s.lock with serving := tmp + 1 }, .idle)
  | .fault => (s, .fault)

def machine (h : Header) (n : ℕ) : Machine (Fin n) Bool (Shared n) (Pc n) where
  step := step h

/-- A zero lock word, and `mcs_pool` zeroed by `mcs_init_locks`. -/
def start (n : ℕ) : Config (Fin n) (Shared n) (Pc n) :=
  ⟨⟨⟨0, 0, 0⟩, fun _ => false, fun _ => none, fun _ => 0, fun _ => 0⟩, fun _ => .idle⟩

/-- Between the return of `lock_acquire` and the end of `lock_release`. -/
def Pc.inCritical {n : ℕ} : Pc n → Bool
  | .critical _ => true
  | .loadServing => true
  | .storeServing _ => true
  | _ => false

section Views

lemma LockWord.val_toNat (l : LockWord) :
    l.val.toNat = l.next.toNat * 2 ^ 24 + l.serving.toNat * 2 ^ 16 + l.tail.toNat := by
  have h : l.val.toNat = (l.next.toNat * 2 ^ 8 + l.serving.toNat) * 2 ^ 16 + l.tail.toNat := by
    rw [← append_toNat, ← append_toNat]
    rfl
  rw [h]
  omega

/-- A word is known by the numbers in its parts. -/
lemma LockWord.ofVal_eq {v : BitVec 32} {l : LockWord} (h : v.toNat = l.val.toNat) :
    LockWord.ofVal v = l := by
  have hs := l.serving.isLt
  have ht := l.tail.isLt
  have hn := l.next.isLt
  rw [l.val_toNat] at h
  apply LockWord.ext
  · apply BitVec.eq_of_toNat_eq
    rw [LockWord.ofVal, extract_toNat, h]
    omega
  · apply BitVec.eq_of_toNat_eq
    rw [LockWord.ofVal, extract_toNat, h]
    omega
  · apply BitVec.eq_of_toNat_eq
    rw [LockWord.ofVal, extract_toNat, h]
    omega

lemma LockWord.val_inj {l m : LockWord} : l.val = m.val ↔ l = m := by
  constructor
  · intro h
    rw [← LockWord.ofVal_eq (l := l) rfl, h, LockWord.ofVal_eq rfl]
  · rintro rfl
    rfl

lemma ofVal_add_ticketInc (l : LockWord) :
    LockWord.ofVal (l.val + ticketInc) = { l with next := l.next + 1 } := by
  apply LockWord.ofVal_eq
  have hs := l.serving.isLt
  have ht := l.tail.isLt
  have hn := l.next.isLt
  have hi : ticketInc.toNat = 2 ^ 24 := rfl
  have h1 : BitVec.toNat (1 : BitVec 8) = 1 := rfl
  rw [BitVec.toNat_add, l.val_toNat, LockWord.val_toNat]
  simp only [BitVec.toNat_add, hi, h1]
  omega

lemma ticketByte_val (l : LockWord) : ticketByte l.val = l.next := by
  apply BitVec.eq_of_toNat_eq
  have hs := l.serving.isLt
  have ht := l.tail.isLt
  have hn := l.next.isLt
  rw [ticketByte, BitVec.toNat_setWidth, BitVec.toNat_ushiftRight, l.val_toNat,
    Nat.shiftRight_eq_div_pow]
  omega

lemma val_and_qTailMask (l : LockWord) : l.val &&& qTailMask = l.tail.setWidth 32 := by
  apply BitVec.eq_of_toNat_eq
  have ht := l.tail.isLt
  have hm : qTailMask.toNat = 2 ^ 16 - 1 := by decide
  rw [BitVec.toNat_and, hm, Nat.and_two_pow_sub_one_eq_mod, l.val_toNat, BitVec.toNat_setWidth]
  omega

lemma LockWord.val_and_qTailMask_eq_zero (l : LockWord) : l.val &&& qTailMask = 0 ↔ l.tail = 0 := by
  have ht := l.tail.isLt
  rw [val_and_qTailMask, ← BitVec.toNat_inj, BitVec.toNat_setWidth, ← BitVec.toNat_inj]
  have h0 : BitVec.toNat (0 : BitVec 32) = BitVec.toNat (0 : BitVec 16) := rfl
  rw [h0]
  omega

lemma LockWord.val_and (l m : LockWord) :
    l.val &&& m.val = LockWord.val ⟨l.tail &&& m.tail, l.serving &&& m.serving, l.next &&& m.next⟩ := by
  rw [LockWord.val, LockWord.val, LockWord.val]
  exact BitVec.and_append.trans (congrArg (· ++ _) BitVec.and_append)

/-- Clearing the tail keeps both ticket bytes. -/
lemma ofVal_and_not_qTailMask (l : LockWord) :
    LockWord.ofVal (l.val &&& ~~~qTailMask) = { l with tail := 0 } := by
  rw [show ~~~qTailMask = LockWord.val ⟨0, BitVec.allOnes 8, BitVec.allOnes 8⟩ from rfl,
    LockWord.val_and, LockWord.ofVal_eq rfl]
  simp only [BitVec.and_allOnes, BitVec.and_zero, BitVec.ofNat_eq_ofNat]

/-- The test holds exactly when the two bytes of each half-word agree. -/
lemma palindromic_val {l : LockWord} : palindromic l.val = true ↔
    l.next = l.serving ∧ l.tail.toNat / 2 ^ 8 = l.tail.toNat % 2 ^ 8 := by
  have hs := l.serving.isLt
  have ht := l.tail.isLt
  have hn := l.next.isLt
  have hr : (rev16 l.val).toNat = l.serving.toNat * 2 ^ 24 + l.next.toNat * 2 ^ 16 +
      l.tail.toNat % 2 ^ 8 * 2 ^ 8 + l.tail.toNat / 2 ^ 8 := by
    rw [rev16, append_toNat, append_toNat, append_toNat]
    simp only [extract_toNat, l.val_toNat]
    omega
  have hxor : palindromic l.val = true ↔ rev16 l.val = l.val := by
    rw [palindromic, beq_iff_eq]
    exact BitVec.xor_eq_zero_iff
  rw [hxor, ← BitVec.toNat_inj, hr, l.val_toNat, ← BitVec.toNat_inj]
  omega

/-- The subtraction of the threshold touches `next` only. -/
lemma val_sub_threshold (l : LockWord) (k : ℕ) :
    l.val - BitVec.ofNat 32 k <<< 24 = LockWord.val { l with next := l.next - BitVec.ofNat 8 k } := by
  apply BitVec.eq_of_toNat_eq
  have hs := l.serving.isLt
  have ht := l.tail.isLt
  have hn := l.next.isLt
  rw [BitVec.toNat_sub, LockWord.val_toNat, LockWord.val_toNat]
  simp only [BitVec.toNat_shiftLeft, BitVec.toNat_sub, BitVec.toNat_ofNat, Nat.shiftLeft_eq]
  omega

/-- A direct draw needs an empty queue and a depth other than the threshold. -/
lemma mustQueue_val {h : Header} {l : LockWord} : mustQueue h l.val = false ↔
    l.tail = 0 ∧ l.next ≠ l.serving + BitVec.ofNat 8 (qThreshold h) := by
  have htail := l.val_and_qTailMask_eq_zero
  have hnext : l.next - BitVec.ofNat 8 (qThreshold h) = l.serving ↔
      l.next = l.serving + BitVec.ofNat 8 (qThreshold h) := by
    constructor
    · intro he
      rw [← he, BitVec.sub_add_cancel]
    · intro he
      rw [he, BitVec.add_sub_cancel]
  have hpal := palindromic_val (l := { l with next := l.next - BitVec.ofNat 8 (qThreshold h) })
  rw [← val_sub_threshold l] at hpal
  simp only [hnext] at hpal
  rw [mustQueue, Bool.or_eq_false_iff, bne_eq_false_iff_eq, htail, and_comm]
  apply and_congr_right
  intro hz
  rw [← Bool.not_eq_true, hpal, hz]
  simp

lemma LockWord.val_ofVal (v : BitVec 32) : (LockWord.ofVal v).val = v := by
  apply BitVec.eq_of_toNat_eq
  have hv := v.isLt
  rw [LockWord.val_toNat, LockWord.ofVal]
  simp only [extract_toNat]
  omega

lemma and_top_byte_toNat (v : BitVec 32) : (v &&& 0xFF000000).toNat = v.toNat / 2 ^ 24 * 2 ^ 24 := by
  have hv := v.isLt
  have hmask : (0xFF000000 : BitVec 32) = LockWord.val ⟨0, 0, BitVec.allOnes 8⟩ := by decide
  have h0 : BitVec.toNat (0 : BitVec 16) = 0 := rfl
  have h0' : BitVec.toNat (0 : BitVec 8) = 0 := rfl
  rw [hmask, ← LockWord.val_ofVal v, LockWord.val_and, LockWord.val_toNat, LockWord.val_ofVal]
  simp only [LockWord.ofVal, BitVec.and_allOnes, extract_toNat]
  rw [show v.extractLsb' 0 16 &&& (0 : BitVec 16) = 0 from BitVec.and_zero,
    show v.extractLsb' 16 8 &&& (0 : BitVec 8) = 0 from BitVec.and_zero, h0, h0']
  omega

/-- What the bytes below `next` borrow from it in `ticket - (ticket << 8)`. -/
def LockWord.borrow (l : LockWord) : ℕ :=
  if l.serving.toNat * 2 ^ 16 + l.tail.toNat < l.tail.toNat * 2 ^ 8 then 1 else 0

lemma LockWord.borrow_le (l : LockWord) : l.borrow ≤ 1 := by
  unfold LockWord.borrow
  split <;> omega

/-- The top byte of `ticket - (ticket << 8)` is the depth, less the borrow from below. -/
lemma dequeue_top_byte (l : LockWord) :
    (l.val - l.val <<< 8).toNat / 2 ^ 24 =
      (l.next.toNat + 2 ^ 9 - l.serving.toNat - l.borrow) % 2 ^ 8 := by
  have hs := l.serving.isLt
  have ht := l.tail.isLt
  have hn := l.next.isLt
  have hshift : (l.val <<< 8).toNat = l.serving.toNat * 2 ^ 24 + l.tail.toNat * 2 ^ 8 := by
    rw [BitVec.toNat_shiftLeft, l.val_toNat, Nat.shiftLeft_eq]
    omega
  have htop {K r : ℕ} (hr : r < 2 ^ 24) : (K * 2 ^ 24 + r) % 2 ^ 32 / 2 ^ 24 = K % 2 ^ 8 := by omega
  rw [BitVec.toNat_sub, hshift, l.val_toNat]
  unfold LockWord.borrow
  split
  · next hb =>
    have he : 2 ^ 32 - (l.serving.toNat * 2 ^ 24 + l.tail.toNat * 2 ^ 8) +
        (l.next.toNat * 2 ^ 24 + l.serving.toNat * 2 ^ 16 + l.tail.toNat) =
        (l.next.toNat + 2 ^ 8 - l.serving.toNat - 1) * 2 ^ 24 +
          (l.serving.toNat * 2 ^ 16 + l.tail.toNat + 2 ^ 24 - l.tail.toNat * 2 ^ 8) := by omega
    rw [he, htop (by omega)]
    omega
  · next hb =>
    have he : 2 ^ 32 - (l.serving.toNat * 2 ^ 24 + l.tail.toNat * 2 ^ 8) +
        (l.next.toNat * 2 ^ 24 + l.serving.toNat * 2 ^ 16 + l.tail.toNat) =
        (l.next.toNat + 2 ^ 8 - l.serving.toNat) * 2 ^ 24 +
          (l.serving.toNat * 2 ^ 16 + l.tail.toNat - l.tail.toNat * 2 ^ 8) := by omega
    rw [he, htop (by omega)]
    omega

/-- The head waits while the depth, less the borrow, is 3 or more as a signed byte. -/
lemma aboveDequeueThreshold_val (l : LockWord) : aboveDequeueThreshold l.val = true ↔
    3 ≤ (l.next.toNat + 2 ^ 9 - l.serving.toNat - l.borrow) % 2 ^ 8 ∧
      (l.next.toNat + 2 ^ 9 - l.serving.toNat - l.borrow) % 2 ^ 8 < 2 ^ 7 := by
  have hthr : (BitVec.ofNat 32 qDequeueThreshold <<< 24).toInt = 2 ^ 25 := by decide
  rw [aboveDequeueThreshold, BitVec.slt_iff_toInt_lt, hthr, BitVec.toInt_eq_toNat_cond,
    and_top_byte_toNat, dequeue_top_byte]
  have hlt := Nat.mod_lt (l.next.toNat + 2 ^ 9 - l.serving.toNat - l.borrow) (show 2 ^ 8 > 0 by decide)
  generalize (l.next.toNat + 2 ^ 9 - l.serving.toNat - l.borrow) % 2 ^ 8 = top at hlt ⊢
  split <;> omega

/-- The tail half-word of thread `cpu` with node 0. -/
def tailCode (cpu : ℕ) : BitVec 16 := BitVec.ofNat 16 (4 * (cpu + 1))

lemma encodeTail_zero {n : ℕ} (hn : n ≤ 513) (t : Fin n) :
    encodeTail t 0 = (tailCode t).setWidth 32 := by
  apply BitVec.eq_of_toNat_eq
  have ht := t.isLt
  simp [encodeTail, tailCode, BitVec.toNat_shiftLeft, Nat.shiftLeft_eq]
  omega

lemma tailCode_toNat {n : ℕ} (hn : n ≤ 513) (t : Fin n) : (tailCode t).toNat = 4 * (t + 1) := by
  have ht := t.isLt
  simp only [tailCode, BitVec.toNat_ofNat]
  omega

lemma tailCode_ne_zero {n : ℕ} (hn : n ≤ 513) (t : Fin n) : tailCode t ≠ 0 := by
  intro h
  have := congrArg BitVec.toNat h
  rw [tailCode_toNat hn] at this
  simp at this

lemma tailCode_injective {n : ℕ} (hn : n ≤ 513) : Function.Injective fun t : Fin n => tailCode t := by
  intro a b h
  have := congrArg BitVec.toNat h
  rw [tailCode_toNat hn, tailCode_toNat hn] at this
  omega

lemma setWidth_inj {x y : BitVec 16} : x.setWidth 32 = y.setWidth 32 ↔ x = y := by
  rw [← BitVec.toNat_inj, ← BitVec.toNat_inj, BitVec.toNat_setWidth, BitVec.toNat_setWidth]
  have hx := x.isLt
  have hy := y.isLt
  omega

lemma setWidth_and_qTailMask (x : BitVec 16) : x.setWidth 32 &&& qTailMask = x.setWidth 32 := by
  have h := val_and_qTailMask ⟨x, 0, 0⟩
  rwa [show LockWord.val ⟨x, 0, 0⟩ = x.setWidth 32 from ?_] at h
  apply BitVec.eq_of_toNat_eq
  have hx := x.isLt
  rw [LockWord.val_toNat, BitVec.toNat_setWidth]
  simp
  omega

lemma decodeTail_tailCode {n : ℕ} (hn : n ≤ 513) (t : Fin n) :
    decodeTail ((tailCode t).setWidth 32) = some (t, 0) := by
  have ht := t.isLt
  have hcode := tailCode_toNat hn t
  have hv : ((tailCode t).setWidth 32).toNat = 4 * (t + 1) := by
    rw [BitVec.toNat_setWidth, hcode]
    omega
  have hidx : ((tailCode t).setWidth 32 &&& qTailIdxMask).toNat = 0 := by
    rw [BitVec.toNat_and, hv, show qTailIdxMask.toNat = 2 ^ 2 - 1 by decide,
      Nat.and_two_pow_sub_one_eq_mod]
    omega
  have hcpu : (((tailCode t).setWidth 32 &&& qTailCpuMask) >>> 2).toNat = t + 1 := by
    rw [BitVec.toNat_ushiftRight, BitVec.toNat_and, hv, Nat.shiftRight_and_distrib,
      show qTailCpuMask.toNat >>> 2 = 2 ^ 14 - 1 by decide, Nat.and_two_pow_sub_one_eq_mod,
      Nat.shiftRight_eq_div_pow]
    omega
  simp only [decodeTail, hcpu, hidx]
  simp

lemma xchgTail_eq {n : ℕ} (hn : n ≤ 513) (l : LockWord) (t : Fin n) :
    xchgTail l (encodeTail t 0) = (l.tail.setWidth 32, { l with tail := tailCode t }) := by
  rw [xchgTail, encodeTail_zero hn, setWidth_and_qTailMask]
  simp

end Views

section Dequeue
variable {n : ℕ}

/-- The tickets between the one being served and the next one. -/
def LockWord.depth (l : LockWord) : ℕ := (l.next - l.serving).toNat

/-- The head of the queue goes on to its store, the branch back to the load not taken. -/
def DrawsAt (t : Fin n) (fails : Bool) (s : Shared n) (idx : Fin maxNodes)
    (next : Option (NodeId n)) : Prop :=
  (step .fastdequeue t fails s (.headLoad idx next)).2 = .headStore idx next s.lock.val

lemma drawsAt_iff {t : Fin n} {fails : Bool} {s : Shared n} {idx : Fin maxNodes}
    {next : Option (NodeId n)} :
    DrawsAt t fails s idx next ↔ aboveDequeueThreshold s.lock.val = false := by
  unfold DrawsAt step
  cases aboveDequeueThreshold s.lock.val <;> simp

/-- At most half of the tickets being out, the head draws while the depth, less the borrow,
is within the threshold. -/
lemma aboveDequeueThreshold_eq_false {l : LockWord} (hd : l.depth ≤ 127) :
    aboveDequeueThreshold l.val = false ↔ l.depth ≤ qDequeueThreshold + l.borrow := by
  have hb := l.borrow_le
  have hs := l.serving.isLt
  have hn := l.next.isLt
  have hdepth : l.depth = (l.next.toNat + 2 ^ 8 - l.serving.toNat) % 2 ^ 8 := by
    rw [LockWord.depth, BitVec.toNat_sub]
    omega
  rw [← Bool.not_eq_true, aboveDequeueThreshold_val, qDequeueThreshold]
  omega

/-- The head of the queue draws a ticket exactly up to the threshold, unless the depth is
one above it and `serving` and the tail borrow from the difference. -/
theorem dequeueThreshold_exact_iff (t : Fin n) (fails : Bool) (s : Shared n) (idx : Fin maxNodes)
    (next : Option (NodeId n)) (hd : s.lock.depth ≤ 127) :
    (DrawsAt t fails s idx next ↔ s.lock.depth ≤ qDequeueThreshold) ↔
      ¬ (s.lock.depth = qDequeueThreshold + 1 ∧
        s.lock.serving.toNat * 2 ^ 16 + s.lock.tail.toNat < s.lock.tail.toNat * 2 ^ 8) := by
  rw [drawsAt_iff, aboveDequeueThreshold_eq_false hd]
  unfold LockWord.borrow
  split <;> omega

/-- Thread 0 alone in the queue, tickets 253 to 258 drawn before it and served up to 255. -/
def threeOut : Shared 7 :=
  ⟨⟨tailCode 0, 0, 3⟩, fun _ => false, fun _ => none, fun _ => 0, fun t => if t = 0 then 1 else 0⟩

theorem dequeueThreshold_draws_at_three :
    threeOut.lock.depth = 3 ∧ ¬ (DrawsAt 0 false threeOut 0 none ↔ threeOut.lock.depth ≤ qDequeueThreshold) := by
  refine ⟨by decide, fun h => ?_⟩
  exact absurd (h.mp (drawsAt_iff.mpr (by decide))) (by decide)

theorem dequeueThreshold_exact_two :
    (⟨1, 255, 1⟩ : LockWord).depth = 2 ∧
      (DrawsAt 0 false { threeOut with lock := ⟨1, 255, 1⟩ } 0 none ↔ (2 : ℕ) ≤ qDequeueThreshold) :=
  ⟨by decide, (dequeueThreshold_exact_iff 0 false { threeOut with lock := ⟨1, 255, 1⟩ } 0 none
    (by decide)).mpr (by decide)⟩

end Dequeue

end Lockhammer.HybridSpinlock
