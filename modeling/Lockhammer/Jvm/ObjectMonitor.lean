import Lockhammer.Jvm.ParkEvent

/-!
# The ObjectMonitor of jvm_objectmonitor.h

A thread that finds `_owner` taken spins, pushes a node onto `_cxq` and parks. The owner
gives the lock up, looks whether anybody waits and no successor is awake, and takes the
lock again to wake somebody: it moves `_cxq` over to `_EntryList` when that is empty, drops
the lock and unparks the first. A thread that got the lock takes its own node out of
whichever list it is on.

The knobs have their defaults and `NDEBUG` is set, as in the Makefile. The nodes stand on
the stacks of their threads, one node a thread.
-/
namespace Lockhammer.JvmMonitor
open Interleaving Jvm

def knobPreSpin : ℕ := 10
def knobSpinLimit : ℕ := 5000
def knobPoverty : ℕ := 1000
def knobBonus : ℕ := 100
def knobBonusB : ℕ := 100
def knobPenalty : ℕ := 200

inductive TState
  | undef
  | ready
  | run
  | wait
  | enter
  | cxq
  deriving DecidableEq, Repr

/-- A `_prev` field: `NULL`, the constant `0xBAD`, or the node of a thread. -/
inductive Link (ι : Type*)
  | null
  | bad
  | node (t : ι)
  deriving DecidableEq, Repr

def Link.ofOption {ι : Type*} : Option ι → Link ι
  | none => .null
  | some t => .node t

/-- The `ObjectMonitor`, the fields of every thread's `ObjectWaiter` and `park_events`. -/
structure ObjectMonitor (ι : Type*) where
  owner : Option ι
  entryList : Option ι
  cxq : Option ι
  succ : Option ι
  responsible : Option ι
  spinDuration : ℕ
  count : ℤ
  next : ι → Option ι
  prev : ι → Link ι
  tState : ι → TState
  parkEvents : ι → ParkEvent ι

/-- Which of its three calls a `TrySpin` is in. -/
inductive SpinCaller
  | enter
  | enterI
  | futile
  deriving DecidableEq, Repr

/-- Which of its calls a `TryLock` is in. -/
inductive TryLockCaller
  | preSpin (k : SpinCaller) (ctr : ℕ)
  | abort (k : SpinCaller)
  | enterI
  | push
  | loop
  | woken
  deriving DecidableEq, Repr

/-- The next shared access of a thread, with the locals that are still alive. -/
inductive Pc (ι : Type*)
  | idle
  | enterCas
  -- TryLock
  | tryRead (r : TryLockCaller)
  | tryCas (r : TryLockCaller)
  -- TrySpin
  | bonusRead (k : SpinCaller) (bonus : ℕ)
  | bonusStore (k : SpinCaller) (x : ℕ)
  | spinRead (k : SpinCaller)
  | firstSuccRead (k : SpinCaller) (ctr : ℕ)
  | firstSuccStore (k : SpinCaller) (ctr : ℕ)
  | ownerRead (k : SpinCaller) (ctr : ℕ) (prv : Option ι)
  | spinCas (k : SpinCaller)
  | wonSucc (k : SpinCaller)
  | wonClear (k : SpinCaller)
  | succRead (k : SpinCaller) (ctr : ℕ) (prv : Option ι)
  | succStore (k : SpinCaller) (ctr : ℕ) (prv : Option ι)
  | penaltyRead (k : SpinCaller) (ctr : ℕ) (prv : Option ι)
  | penaltyStore (k : SpinCaller) (ctr : ℕ) (prv : Option ι) (x : ℕ)
  | abortSucc (k : SpinCaller)
  | abortClear (k : SpinCaller)
  -- EnterI
  | incCount
  | initNode
  | initCond
  | initMutex
  | initEvent
  | initNParked
  | pushRead
  | pushCas (nxt : Option ι)
  | pushedEntry
  | respCas
  | respRead
  | parking (timed : Bool) (q : ParkPc)
  | futileSucc
  | futileClear
  -- UnlinkAfterAcquire
  | unlinkState
  | unlinkNext
  | unlinkPrev (nxt : Option ι)
  | unlinkSetPrev (nxt : ι) (prv : Link ι)
  | unlinkSetNext (nxt : Option ι) (prv : ι)
  | unlinkEntry (nxt : Option ι) (prv : Link ι)
  | unlinkSetEntry (nxt : Option ι)
  | cxqRead
  | cxqNext
  | cxqCas (nx : Option ι)
  | cxqReread
  | walk (p q : Option ι)
  | splice (q : ι) (nx : Option ι)
  -- the end of EnterI and of Enter
  | egressSucc
  | egressClear
  | egressResp
  | egressRespClear
  | decCount
  | critical (depth : ℤ)
  -- Exit
  | exitOwner
  | exitSteal
  | exitResp
  | release
  | emptyEntry
  | emptyCxq (entryNull : Bool)
  | emptySucc
  | exitCas
  | exitGuarantee
  | exitEntry
  | exitCxq
  | drainCas (w : Option ι)
  | storeEntry (w : Option ι)
  | drainGuarantee (p : ι) (q : Option ι)
  | drainState (p : ι) (q : Option ι)
  | drainPrev (p : ι) (q : Option ι)
  | drainNext (p : ι)
  | drainedSucc
  | drainedEntry
  | drainedGuarantee (w : ι)
  -- ExitEpilog
  | epilogSucc (w : ι)
  | epilogRelease (w : ι)
  | unparking (w : ι) (q : UnparkPc)
  -- a failed guarantee, or `NULL` dereferenced
  | fault
  deriving DecidableEq, Repr

section Returns
variable {ι : Type*}

/-- What follows a `TrySpin` that returned `b`. -/
def spun : SpinCaller → Bool → Pc ι
  | .enter, true => .critical 1
  | .enter, false => .incCount
  | .enterI, true => .decCount
  | .enterI, false => .initNode
  | .futile, true => .unlinkState
  | .futile, false => .futileSucc

/-- What follows a `TryLock` that took the lock. -/
def won : TryLockCaller → Pc ι
  | .preSpin k _ => .bonusRead k knobBonusB
  | .abort k => spun k true
  | .enterI | .push => .decCount
  | .loop | .woken => .unlinkState

/-- What follows a `TryLock` that did not. -/
def lost : TryLockCaller → Pc ι
  | .preSpin k 0 => .spinRead k
  | .preSpin k (ctr + 1) => .tryRead (.preSpin k ctr)
  | .abort k => spun k false
  | .enterI => .tryRead (.preSpin .enterI knobPreSpin)
  | .push => .pushRead
  | .loop => .respRead
  | .woken => .tryRead (.preSpin .futile knobPreSpin)

/-- The head of the spin loop: `while (--ctr >= 0)`. -/
def spinLoop (k : SpinCaller) (prv : Option ι) : ℕ → Pc ι
  | 0 => .abortSucc k
  | ctr + 1 => .ownerRead k ctr prv

def afterPark (timed : Bool) : ParkPc → Pc ι
  | .returned => .tryRead .woken
  | q => .parking timed q

def afterUnpark (w : ι) : UnparkPc → Pc ι
  | .returned => .idle
  | q => .unparking w q

/-- The head of the drain loop. -/
def drainLoop (q : Option ι) : Option ι → Pc ι
  | none => .drainedSucc
  | some p => .drainGuarantee p q

/-- After the store to the node behind: the node in front is next, if there is one. -/
def unlinkFront (nxt : Option ι) : Link ι → Pc ι
  | .null => .unlinkEntry nxt .null
  | .node prv => .unlinkSetNext nxt prv
  | .bad => .fault

end Returns

section Steps
variable {ι : Type*} [DecidableEq ι]

/-- One atomic step of thread `me`: the lock is taken whenever an idle thread is scheduled
and left whenever its holder is. `k` ends condition waits. -/
def step (me : ι) (k : Wakeup) (s : ObjectMonitor ι) : Pc ι → ObjectMonitor ι × Pc ι
  | .idle => (s, .enterCas)
  | .enterCas =>
    if s.owner = none then ({ s with owner := some me }, .critical 1)
    else (s, .tryRead (.preSpin .enter knobPreSpin))
  | .tryRead r => (s, if s.owner = none then .tryCas r else lost r)
  | .tryCas r => if s.owner = none then ({ s with owner := some me }, won r) else (s, lost r)
  | .bonusRead k bonus =>
    (s, if s.spinDuration < knobSpinLimit then
        .bonusStore k ((if s.spinDuration < knobPoverty then knobPoverty else s.spinDuration) + bonus)
      else spun k true)
  | .bonusStore k x => ({ s with spinDuration := x }, spun k true)
  | .spinRead k =>
    (s, if s.spinDuration = 0 then spun k false else .firstSuccRead k s.spinDuration)
  | .firstSuccRead k ctr =>
    (s, if s.succ = none then .firstSuccStore k ctr else spinLoop k none ctr)
  | .firstSuccStore k ctr => ({ s with succ := some me }, spinLoop k none ctr)
  | .ownerRead k ctr prv =>
    (s, if s.owner = none then .spinCas k
      else if s.owner ≠ prv ∧ prv ≠ none then .abortSucc k
      else .succRead k ctr s.owner)
  | .spinCas k =>
    if s.owner = none then ({ s with owner := some me }, .wonSucc k) else (s, .abortSucc k)
  | .wonSucc k => (s, if s.succ = some me then .wonClear k else .bonusRead k knobBonus)
  | .wonClear k => ({ s with succ := none }, .bonusRead k knobBonus)
  | .succRead k ctr prv => (s, if s.succ = none then .succStore k ctr prv else .penaltyRead k ctr prv)
  | .succStore k ctr prv => ({ s with succ := some me }, .penaltyRead k ctr prv)
  | .penaltyRead k ctr prv =>
    (s, if s.spinDuration = 0 then spinLoop k prv ctr
      else .penaltyStore k ctr prv (s.spinDuration - knobPenalty))
  | .penaltyStore k ctr prv x => ({ s with spinDuration := x }, spinLoop k prv ctr)
  | .abortSucc k => (s, if s.succ = some me then .abortClear k else spun k false)
  | .abortClear k => ({ s with succ := none }, .tryRead (.abort k))
  | .incCount => ({ s with count := s.count + 1 }, .tryRead .enterI)
  | .initNode =>
    ({ s with
        next := Function.update s.next me none
        prev := Function.update s.prev me .bad
        tState := Function.update s.tState me .cxq }, .initCond)
  | .initCond =>
    ({ s with parkEvents :=
        Function.update s.parkEvents me { s.parkEvents me with sleeping := false } }, .initMutex)
  | .initMutex =>
    ({ s with parkEvents :=
        Function.update s.parkEvents me { s.parkEvents me with mutex := none } }, .initEvent)
  | .initEvent =>
    ({ s with parkEvents :=
        Function.update s.parkEvents me { s.parkEvents me with event := 0 } }, .initNParked)
  | .initNParked =>
    ({ s with parkEvents :=
        Function.update s.parkEvents me { s.parkEvents me with nParked := 0 } }, .pushRead)
  | .pushRead => ({ s with next := Function.update s.next me s.cxq }, .pushCas s.cxq)
  | .pushCas nxt =>
    if s.cxq = nxt then
      ({ s with cxq := some me }, if nxt = none then .pushedEntry else .tryRead .loop)
    else (s, .tryRead .push)
  | .pushedEntry => (s, if s.entryList = none then .respCas else .tryRead .loop)
  | .respCas =>
    (if s.responsible = none then { s with responsible := some me } else s, .tryRead .loop)
  | .respRead => (s, .parking (decide (s.responsible = some me)) .entry)
  | .parking timed q =>
    let r := if timed then parkTimed me k (s.parkEvents me) q else park me k (s.parkEvents me) q
    ({ s with parkEvents := Function.update s.parkEvents me r.1 }, afterPark timed r.2)
  | .futileSucc => (s, if s.succ = some me then .futileClear else .tryRead .loop)
  | .futileClear => ({ s with succ := none }, .tryRead .loop)
  | .unlinkState => (s, if s.tState me = .enter then .unlinkNext else .cxqRead)
  | .unlinkNext => (s, .unlinkPrev (s.next me))
  | .unlinkPrev none => (s, unlinkFront none (s.prev me))
  | .unlinkPrev (some nxt) => (s, .unlinkSetPrev nxt (s.prev me))
  | .unlinkSetPrev nxt prv =>
    ({ s with prev := Function.update s.prev nxt prv }, unlinkFront (some nxt) prv)
  | .unlinkSetNext nxt prv =>
    ({ s with next := Function.update s.next prv nxt }, .unlinkEntry nxt (.node prv))
  | .unlinkEntry nxt _ => (s, if s.entryList = some me then .unlinkSetEntry nxt else .egressSucc)
  | .unlinkSetEntry nxt => ({ s with entryList := nxt }, .egressSucc)
  | .cxqRead => (s, if s.cxq = some me then .cxqNext else .walk s.cxq none)
  | .cxqNext => (s, .cxqCas (s.next me))
  | .cxqCas nx => if s.cxq = some me then ({ s with cxq := nx }, .egressSucc) else (s, .cxqReread)
  | .cxqReread => (s, .walk s.cxq none)
  | .walk none _ => (s, .fault)
  | .walk (some p) q =>
    if p = me then
      match q with
      | none => (s, .fault)
      | some q => (s, .splice q (s.next p))
    else (s, .walk (s.next p) (some p))
  | .splice q nx => ({ s with next := Function.update s.next q nx }, .egressSucc)
  | .egressSucc => (s, if s.succ = some me then .egressClear else .egressResp)
  | .egressClear => ({ s with succ := none }, .egressResp)
  | .egressResp => (s, if s.responsible = some me then .egressRespClear else .decCount)
  | .egressRespClear => ({ s with responsible := none }, .decCount)
  | .decCount => ({ s with count := s.count - 1 }, .critical (s.count - 1))
  | .critical _ => (s, .exitOwner)
  | .exitOwner => (s, if s.owner = some me then .exitResp else .exitSteal)
  | .exitSteal => ({ s with owner := some me }, .exitResp)
  | .exitResp => ({ s with responsible := none }, .release)
  | .release => ({ s with owner := none }, .emptyEntry)
  | .emptyEntry => (s, .emptyCxq (decide (s.entryList = none)))
  | .emptyCxq entryNull => (s, if entryNull = true ∧ s.cxq = none then .idle else .emptySucc)
  | .emptySucc => (s, if s.succ = none then .exitCas else .idle)
  | .exitCas => if s.owner = none then ({ s with owner := some me }, .exitGuarantee) else (s, .idle)
  | .exitGuarantee => (s, if s.owner = some me then .exitEntry else .fault)
  | .exitEntry =>
    match s.entryList with
    | none => (s, .exitCxq)
    | some w => (s, .epilogSucc w)
  | .exitCxq => (s, if s.cxq = none then .release else .drainCas s.cxq)
  | .drainCas w => if s.cxq = w then ({ s with cxq := none }, .storeEntry w) else (s, .drainCas s.cxq)
  | .storeEntry w => ({ s with entryList := w }, drainLoop none w)
  | .drainGuarantee p q => (s, if s.tState p = .cxq then .drainState p q else .fault)
  | .drainState p q => ({ s with tState := Function.update s.tState p .enter }, .drainPrev p q)
  | .drainPrev p q => ({ s with prev := Function.update s.prev p (.ofOption q) }, .drainNext p)
  | .drainNext p => (s, drainLoop (some p) (s.next p))
  | .drainedSucc => (s, if s.succ = none then .drainedEntry else .release)
  | .drainedEntry =>
    match s.entryList with
    | none => (s, .release)
    | some w => (s, .drainedGuarantee w)
  | .drainedGuarantee w => (s, if s.tState w = .enter then .epilogSucc w else .fault)
  | .epilogSucc w => ({ s with succ := some w }, .epilogRelease w)
  | .epilogRelease w => ({ s with owner := none }, .unparking w .xchg)
  | .unparking w q =>
    let r := unpark me (s.parkEvents w) q
    ({ s with parkEvents := Function.update s.parkEvents w r.1 }, afterUnpark w r.2)
  | .fault => (s, .fault)

def objectMonitor (ι : Type*) [DecidableEq ι] : Machine ι Wakeup (ObjectMonitor ι) (Pc ι) where
  step := step

/-- After `jvm_init_locks`; the nodes do not exist yet. -/
def jvmInitLocks (ι : Type*) : Config ι (ObjectMonitor ι) (Pc ι) where
  shared :=
    { owner := none, entryList := none, cxq := none, succ := none, responsible := none
      spinDuration := 0, count := 0
      next := fun _ => none, prev := fun _ => .null, tState := fun _ => .undef
      parkEvents := fun _ => parkeventInit }
  loc _ := .idle

/-- Everything one step of thread `me` can do. -/
inductive Step (me : ι) : ObjectMonitor ι → Pc ι → ObjectMonitor ι → Pc ι → Prop
  | call {s} : Step me s .idle s .enterCas
  | enterWon {s} (h : s.owner = none) :
      Step me s .enterCas { s with owner := some me } (.critical 1)
  | enterLost {s} (h : s.owner ≠ none) :
      Step me s .enterCas s (.tryRead (.preSpin .enter knobPreSpin))
  | tryFree {s} (r : TryLockCaller) (h : s.owner = none) : Step me s (.tryRead r) s (.tryCas r)
  | tryBusy {s} (r : TryLockCaller) (h : s.owner ≠ none) : Step me s (.tryRead r) s (lost r)
  | tryWon {s} (r : TryLockCaller) (h : s.owner = none) :
      Step me s (.tryCas r) { s with owner := some me } (won r)
  | tryLost {s} (r : TryLockCaller) (h : s.owner ≠ none) : Step me s (.tryCas r) s (lost r)
  | bonusRead {s} (k : SpinCaller) (bonus x : ℕ) : Step me s (.bonusRead k bonus) s (.bonusStore k x)
  | bonusFull {s} (k : SpinCaller) (bonus : ℕ) : Step me s (.bonusRead k bonus) s (spun k true)
  | bonusStore {s} (k : SpinCaller) (x : ℕ) :
      Step me s (.bonusStore k x) { s with spinDuration := x } (spun k true)
  | spinDenied {s} (k : SpinCaller) : Step me s (.spinRead k) s (spun k false)
  | spinAdmitted {s} (k : SpinCaller) (ctr : ℕ) : Step me s (.spinRead k) s (.firstSuccRead k ctr)
  | firstSuccFree {s} (k : SpinCaller) (ctr : ℕ) (h : s.succ = none) :
      Step me s (.firstSuccRead k ctr) s (.firstSuccStore k ctr)
  | firstSuccTaken {s} (k : SpinCaller) (ctr : ℕ) :
      Step me s (.firstSuccRead k ctr) s (spinLoop k none ctr)
  | firstSuccStore {s} (k : SpinCaller) (ctr : ℕ) :
      Step me s (.firstSuccStore k ctr) { s with succ := some me } (spinLoop k none ctr)
  | ownerFree {s} (k : SpinCaller) (ctr : ℕ) (prv : Option ι) (h : s.owner = none) :
      Step me s (.ownerRead k ctr prv) s (.spinCas k)
  | ownerChanged {s} (k : SpinCaller) (ctr : ℕ) (prv : Option ι) :
      Step me s (.ownerRead k ctr prv) s (.abortSucc k)
  | ownerSame {s} (k : SpinCaller) (ctr : ℕ) (prv ox : Option ι) :
      Step me s (.ownerRead k ctr prv) s (.succRead k ctr ox)
  | spinWon {s} (k : SpinCaller) (h : s.owner = none) :
      Step me s (.spinCas k) { s with owner := some me } (.wonSucc k)
  | spinLost {s} (k : SpinCaller) (h : s.owner ≠ none) : Step me s (.spinCas k) s (.abortSucc k)
  | wonMine {s} (k : SpinCaller) (h : s.succ = some me) : Step me s (.wonSucc k) s (.wonClear k)
  | wonOther {s} (k : SpinCaller) (h : s.succ ≠ some me) :
      Step me s (.wonSucc k) s (.bonusRead k knobBonus)
  | wonClear {s} (k : SpinCaller) :
      Step me s (.wonClear k) { s with succ := none } (.bonusRead k knobBonus)
  | succFree {s} (k : SpinCaller) (ctr : ℕ) (prv : Option ι) (h : s.succ = none) :
      Step me s (.succRead k ctr prv) s (.succStore k ctr prv)
  | succTaken {s} (k : SpinCaller) (ctr : ℕ) (prv : Option ι) :
      Step me s (.succRead k ctr prv) s (.penaltyRead k ctr prv)
  | succStore {s} (k : SpinCaller) (ctr : ℕ) (prv : Option ι) :
      Step me s (.succStore k ctr prv) { s with succ := some me } (.penaltyRead k ctr prv)
  | penaltyNone {s} (k : SpinCaller) (ctr : ℕ) (prv : Option ι) :
      Step me s (.penaltyRead k ctr prv) s (spinLoop k prv ctr)
  | penaltyRead {s} (k : SpinCaller) (ctr : ℕ) (prv : Option ι) (x : ℕ) :
      Step me s (.penaltyRead k ctr prv) s (.penaltyStore k ctr prv x)
  | penaltyStore {s} (k : SpinCaller) (ctr : ℕ) (prv : Option ι) (x : ℕ) :
      Step me s (.penaltyStore k ctr prv x) { s with spinDuration := x } (spinLoop k prv ctr)
  | abortMine {s} (k : SpinCaller) (h : s.succ = some me) : Step me s (.abortSucc k) s (.abortClear k)
  | abortOther {s} (k : SpinCaller) (h : s.succ ≠ some me) :
      Step me s (.abortSucc k) s (spun k false)
  | abortClear {s} (k : SpinCaller) :
      Step me s (.abortClear k) { s with succ := none } (.tryRead (.abort k))
  | incCount {s} : Step me s .incCount { s with count := s.count + 1 } (.tryRead .enterI)
  | initNode {s} : Step me s .initNode
      { s with
        next := Function.update s.next me none
        prev := Function.update s.prev me .bad
        tState := Function.update s.tState me .cxq } .initCond
  | initCond {s} : Step me s .initCond
      { s with parkEvents :=
        Function.update s.parkEvents me { s.parkEvents me with sleeping := false } } .initMutex
  | initMutex {s} : Step me s .initMutex
      { s with parkEvents :=
        Function.update s.parkEvents me { s.parkEvents me with mutex := none } } .initEvent
  | initEvent {s} : Step me s .initEvent
      { s with parkEvents :=
        Function.update s.parkEvents me { s.parkEvents me with event := 0 } } .initNParked
  | initNParked {s} : Step me s .initNParked
      { s with parkEvents :=
        Function.update s.parkEvents me { s.parkEvents me with nParked := 0 } } .pushRead
  | pushRead {s} :
      Step me s .pushRead { s with next := Function.update s.next me s.cxq } (.pushCas s.cxq)
  | pushWon {s} (nxt : Option ι) (h : s.cxq = nxt) :
      Step me s (.pushCas nxt) { s with cxq := some me }
        (if nxt = none then .pushedEntry else .tryRead .loop)
  | pushLost {s} (nxt : Option ι) (h : s.cxq ≠ nxt) : Step me s (.pushCas nxt) s (.tryRead .push)
  | pushedEmpty {s} (h : s.entryList = none) : Step me s .pushedEntry s .respCas
  | pushedOther {s} : Step me s .pushedEntry s (.tryRead .loop)
  | respCas {s} (r : Option ι) : Step me s .respCas { s with responsible := r } (.tryRead .loop)
  | respRead {s} (timed : Bool) : Step me s .respRead s (.parking timed .entry)
  | park {s} (timed : Bool) {q q' : ParkPc} {e : ParkEvent ι}
      (h : ParkStep me (s.parkEvents me) q e q') :
      Step me s (.parking timed q) { s with parkEvents := Function.update s.parkEvents me e }
        (afterPark timed q')
  | futileMine {s} (h : s.succ = some me) : Step me s .futileSucc s .futileClear
  | futileOther {s} (h : s.succ ≠ some me) : Step me s .futileSucc s (.tryRead .loop)
  | futileClear {s} : Step me s .futileClear { s with succ := none } (.tryRead .loop)
  | unlinkEnter {s} (h : s.tState me = .enter) : Step me s .unlinkState s .unlinkNext
  | unlinkCxq {s} (h : s.tState me ≠ .enter) : Step me s .unlinkState s .cxqRead
  | unlinkNext {s} : Step me s .unlinkNext s (.unlinkPrev (s.next me))
  | unlinkPrevLast {s} : Step me s (.unlinkPrev none) s (unlinkFront none (s.prev me))
  | unlinkPrev {s} (nxt : ι) : Step me s (.unlinkPrev (some nxt)) s (.unlinkSetPrev nxt (s.prev me))
  | unlinkSetPrev {s} (nxt : ι) (prv : Link ι) :
      Step me s (.unlinkSetPrev nxt prv) { s with prev := Function.update s.prev nxt prv }
        (unlinkFront (some nxt) prv)
  | unlinkSetNext {s} (nxt : Option ι) (prv : ι) :
      Step me s (.unlinkSetNext nxt prv) { s with next := Function.update s.next prv nxt }
        (.unlinkEntry nxt (.node prv))
  | unlinkFirst {s} (nxt : Option ι) (prv : Link ι) (h : s.entryList = some me) :
      Step me s (.unlinkEntry nxt prv) s (.unlinkSetEntry nxt)
  | unlinkInner {s} (nxt : Option ι) (prv : Link ι) (h : s.entryList ≠ some me) :
      Step me s (.unlinkEntry nxt prv) s .egressSucc
  | unlinkSetEntry {s} (nxt : Option ι) :
      Step me s (.unlinkSetEntry nxt) { s with entryList := nxt } .egressSucc
  | cxqFirst {s} (h : s.cxq = some me) : Step me s .cxqRead s .cxqNext
  | cxqInner {s} (h : s.cxq ≠ some me) : Step me s .cxqRead s (.walk s.cxq none)
  | cxqNext {s} : Step me s .cxqNext s (.cxqCas (s.next me))
  | cxqWon {s} (nx : Option ι) (h : s.cxq = some me) :
      Step me s (.cxqCas nx) { s with cxq := nx } .egressSucc
  | cxqLost {s} (nx : Option ι) (h : s.cxq ≠ some me) : Step me s (.cxqCas nx) s .cxqReread
  | cxqReread {s} : Step me s .cxqReread s (.walk s.cxq none)
  | walkOff {s} (q : Option ι) : Step me s (.walk none q) s .fault
  | walkFirst {s} : Step me s (.walk (some me) none) s .fault
  | walkFound {s} (q : ι) : Step me s (.walk (some me) (some q)) s (.splice q (s.next me))
  | walkOn {s} (p : ι) (q : Option ι) (h : p ≠ me) :
      Step me s (.walk (some p) q) s (.walk (s.next p) (some p))
  | splice {s} (q : ι) (nx : Option ι) :
      Step me s (.splice q nx) { s with next := Function.update s.next q nx } .egressSucc
  | egressMine {s} (h : s.succ = some me) : Step me s .egressSucc s .egressClear
  | egressOther {s} (h : s.succ ≠ some me) : Step me s .egressSucc s .egressResp
  | egressClear {s} : Step me s .egressClear { s with succ := none } .egressResp
  | egressRespMine {s} : Step me s .egressResp s .egressRespClear
  | egressRespOther {s} : Step me s .egressResp s .decCount
  | egressRespClear {s} : Step me s .egressRespClear { s with responsible := none } .decCount
  | decCount {s} : Step me s .decCount { s with count := s.count - 1 } (.critical (s.count - 1))
  | leave {s} (depth : ℤ) : Step me s (.critical depth) s .exitOwner
  | exitOwner {s} (h : s.owner = some me) : Step me s .exitOwner s .exitResp
  | exitForeign {s} (h : s.owner ≠ some me) : Step me s .exitOwner s .exitSteal
  | exitSteal {s} : Step me s .exitSteal { s with owner := some me } .exitResp
  | exitResp {s} : Step me s .exitResp { s with responsible := none } .release
  | release {s} : Step me s .release { s with owner := none } .emptyEntry
  | emptyEntry {s} : Step me s .emptyEntry s (.emptyCxq (decide (s.entryList = none)))
  | emptyBoth {s} (h : s.cxq = none) : Step me s (.emptyCxq true) s .idle
  | emptyNot {s} (b : Bool) : Step me s (.emptyCxq b) s .emptySucc
  | succNone {s} (h : s.succ = none) : Step me s .emptySucc s .exitCas
  | succSome {s} (h : s.succ ≠ none) : Step me s .emptySucc s .idle
  | exitWon {s} (h : s.owner = none) :
      Step me s .exitCas { s with owner := some me } .exitGuarantee
  | exitLost {s} (h : s.owner ≠ none) : Step me s .exitCas s .idle
  | exitGuarantee {s} : Step me s .exitGuarantee s .exitEntry
  | exitGuaranteeFails {s} (h : s.owner ≠ some me) : Step me s .exitGuarantee s .fault
  | exitEntryNone {s} (h : s.entryList = none) : Step me s .exitEntry s .exitCxq
  | exitEntry {s} (w : ι) (h : s.entryList = some w) : Step me s .exitEntry s (.epilogSucc w)
  | exitCxqNone {s} : Step me s .exitCxq s .release
  | exitCxq {s} : Step me s .exitCxq s (.drainCas s.cxq)
  | drainWon {s} (w : Option ι) (h : s.cxq = w) :
      Step me s (.drainCas w) { s with cxq := none } (.storeEntry w)
  | drainLost {s} (w : Option ι) : Step me s (.drainCas w) s (.drainCas s.cxq)
  | storeEntry {s} (w : Option ι) :
      Step me s (.storeEntry w) { s with entryList := w } (drainLoop none w)
  | drainGuarantee {s} (p : ι) (q : Option ι) : Step me s (.drainGuarantee p q) s (.drainState p q)
  | drainGuaranteeFails {s} (p : ι) (q : Option ι) (h : s.tState p ≠ .cxq) :
      Step me s (.drainGuarantee p q) s .fault
  | drainState {s} (p : ι) (q : Option ι) :
      Step me s (.drainState p q) { s with tState := Function.update s.tState p .enter }
        (.drainPrev p q)
  | drainPrev {s} (p : ι) (q : Option ι) :
      Step me s (.drainPrev p q) { s with prev := Function.update s.prev p (.ofOption q) }
        (.drainNext p)
  | drainNext {s} (p : ι) : Step me s (.drainNext p) s (drainLoop (some p) (s.next p))
  | drainedSuccNone {s} (h : s.succ = none) : Step me s .drainedSucc s .drainedEntry
  | drainedSucc {s} : Step me s .drainedSucc s .release
  | drainedEntryNone {s} (h : s.entryList = none) : Step me s .drainedEntry s .release
  | drainedEntry {s} (w : ι) (h : s.entryList = some w) :
      Step me s .drainedEntry s (.drainedGuarantee w)
  | drainedGuarantee {s} (w : ι) : Step me s (.drainedGuarantee w) s (.epilogSucc w)
  | drainedGuaranteeFails {s} (w : ι) (h : s.tState w ≠ .enter) :
      Step me s (.drainedGuarantee w) s .fault
  | epilogSucc {s} (w : ι) : Step me s (.epilogSucc w) { s with succ := some w } (.epilogRelease w)
  | epilogRelease {s} (w : ι) :
      Step me s (.epilogRelease w) { s with owner := none } (.unparking w .xchg)
  | unpark {s} (w : ι) {q q' : UnparkPc} {e : ParkEvent ι}
      (h : UnparkStep me (s.parkEvents w) q e q') :
      Step me s (.unparking w q) { s with parkEvents := Function.update s.parkEvents w e }
        (afterUnpark w q')
  | stuck {s} : Step me s .fault s .fault

theorem step_step (me : ι) (k : Wakeup) (s : ObjectMonitor ι) (pc : Pc ι) :
    Step me s pc (step me k s pc).1 (step me k s pc).2 := by
  cases pc with
  | idle => exact .call
  | enterCas =>
    simp only [step]
    split
    · next h => exact .enterWon h
    · next h => exact .enterLost h
  | tryRead r =>
    simp only [step]
    split
    · next h => exact .tryFree r h
    · next h => exact .tryBusy r h
  | tryCas r =>
    simp only [step]
    split
    · next h => exact .tryWon r h
    · next h => exact .tryLost r h
  | bonusRead k bonus =>
    simp only [step]
    split
    · exact .bonusRead k bonus _
    · exact .bonusFull k bonus
  | bonusStore k x => exact .bonusStore k x
  | spinRead k =>
    simp only [step]
    split
    · exact .spinDenied k
    · exact .spinAdmitted k _
  | firstSuccRead k ctr =>
    simp only [step]
    split
    · next h => exact .firstSuccFree k ctr h
    · exact .firstSuccTaken k ctr
  | firstSuccStore k ctr => exact .firstSuccStore k ctr
  | ownerRead k ctr prv =>
    simp only [step]
    split
    · next h => exact .ownerFree k ctr prv h
    · split
      · exact .ownerChanged k ctr prv
      · exact .ownerSame k ctr prv _
  | spinCas k =>
    simp only [step]
    split
    · next h => exact .spinWon k h
    · next h => exact .spinLost k h
  | wonSucc k =>
    simp only [step]
    split
    · next h => exact .wonMine k h
    · next h => exact .wonOther k h
  | wonClear k => exact .wonClear k
  | succRead k ctr prv =>
    simp only [step]
    split
    · next h => exact .succFree k ctr prv h
    · exact .succTaken k ctr prv
  | succStore k ctr prv => exact .succStore k ctr prv
  | penaltyRead k ctr prv =>
    simp only [step]
    split
    · exact .penaltyNone k ctr prv
    · exact .penaltyRead k ctr prv _
  | penaltyStore k ctr prv x => exact .penaltyStore k ctr prv x
  | abortSucc k =>
    simp only [step]
    split
    · next h => exact .abortMine k h
    · next h => exact .abortOther k h
  | abortClear k => exact .abortClear k
  | incCount => exact .incCount
  | initNode => exact .initNode
  | initCond => exact .initCond
  | initMutex => exact .initMutex
  | initEvent => exact .initEvent
  | initNParked => exact .initNParked
  | pushRead => exact .pushRead
  | pushCas nxt =>
    simp only [step]
    split
    · next h => exact .pushWon nxt h
    · next h => exact .pushLost nxt h
  | pushedEntry =>
    simp only [step]
    split
    · next h => exact .pushedEmpty h
    · exact .pushedOther
  | respCas =>
    simp only [step]
    split
    · exact .respCas _
    · exact .respCas s.responsible
  | respRead => exact .respRead _
  | parking timed q =>
    cases timed
    · exact .park false (parkStep_step q)
    · exact .park true (parkStep_step q)
  | futileSucc =>
    simp only [step]
    split
    · next h => exact .futileMine h
    · next h => exact .futileOther h
  | futileClear => exact .futileClear
  | unlinkState =>
    simp only [step]
    split
    · next h => exact .unlinkEnter h
    · next h => exact .unlinkCxq h
  | unlinkNext => exact .unlinkNext
  | unlinkPrev nxt =>
    cases nxt with
    | none => exact .unlinkPrevLast
    | some nxt => exact .unlinkPrev nxt
  | unlinkSetPrev nxt prv => exact .unlinkSetPrev nxt prv
  | unlinkSetNext nxt prv => exact .unlinkSetNext nxt prv
  | unlinkEntry nxt prv =>
    simp only [step]
    split
    · next h => exact .unlinkFirst nxt prv h
    · next h => exact .unlinkInner nxt prv h
  | unlinkSetEntry nxt => exact .unlinkSetEntry nxt
  | cxqRead =>
    simp only [step]
    split
    · next h => exact .cxqFirst h
    · next h => exact .cxqInner h
  | cxqNext => exact .cxqNext
  | cxqCas nx =>
    simp only [step]
    split
    · next h => exact .cxqWon nx h
    · next h => exact .cxqLost nx h
  | cxqReread => exact .cxqReread
  | walk p q =>
    cases p with
    | none => exact .walkOff q
    | some p =>
      simp only [step]
      split
      · next h =>
        subst h
        cases q with
        | none => exact .walkFirst
        | some q => exact .walkFound q
      · next h => exact .walkOn p q h
  | splice q nx => exact .splice q nx
  | egressSucc =>
    simp only [step]
    split
    · next h => exact .egressMine h
    · next h => exact .egressOther h
  | egressClear => exact .egressClear
  | egressResp =>
    simp only [step]
    split
    · exact .egressRespMine
    · exact .egressRespOther
  | egressRespClear => exact .egressRespClear
  | decCount => exact .decCount
  | critical depth => exact .leave depth
  | exitOwner =>
    simp only [step]
    split
    · next h => exact .exitOwner h
    · next h => exact .exitForeign h
  | exitSteal => exact .exitSteal
  | exitResp => exact .exitResp
  | release => exact .release
  | emptyEntry => exact .emptyEntry
  | emptyCxq entryNull =>
    simp only [step]
    split
    · next h =>
      rw [h.1]
      exact .emptyBoth h.2
    · exact .emptyNot entryNull
  | emptySucc =>
    simp only [step]
    split
    · next h => exact .succNone h
    · next h => exact .succSome h
  | exitCas =>
    simp only [step]
    split
    · next h => exact .exitWon h
    · next h => exact .exitLost h
  | exitGuarantee =>
    simp only [step]
    split
    · exact .exitGuarantee
    · next h => exact .exitGuaranteeFails h
  | exitEntry =>
    simp only [step]
    split
    · next h => exact .exitEntryNone h
    · next w h => exact .exitEntry w h
  | exitCxq =>
    simp only [step]
    split
    · exact .exitCxqNone
    · exact .exitCxq
  | drainCas w =>
    simp only [step]
    split
    · next h => exact .drainWon w h
    · exact .drainLost w
  | storeEntry w => exact .storeEntry w
  | drainGuarantee p q =>
    simp only [step]
    split
    · exact .drainGuarantee p q
    · next h => exact .drainGuaranteeFails p q h
  | drainState p q => exact .drainState p q
  | drainPrev p q => exact .drainPrev p q
  | drainNext p => exact .drainNext p
  | drainedSucc =>
    simp only [step]
    split
    · next h => exact .drainedSuccNone h
    · exact .drainedSucc
  | drainedEntry =>
    simp only [step]
    split
    · next h => exact .drainedEntryNone h
    · next w h => exact .drainedEntry w h
  | drainedGuarantee w =>
    simp only [step]
    split
    · exact .drainedGuarantee w
    · next h => exact .drainedGuaranteeFails w h
  | epilogSucc w => exact .epilogSucc w
  | epilogRelease w => exact .epilogRelease w
  | unparking w q => exact .unpark w (unpark_step q)
  | fault => exact .stuck

end Steps

/-! The owner. -/

section Owner
variable {ι : Type*}

/-- From the successful compare-and-swap of `_owner` to the store that gives it up. -/
def Pc.owns : Pc ι → Bool
  | .bonusRead _ _ | .bonusStore _ _ | .wonSucc _ | .wonClear _ => true
  | .unlinkState | .unlinkNext | .unlinkPrev _ | .unlinkSetPrev _ _ | .unlinkSetNext _ _
  | .unlinkEntry _ _ | .unlinkSetEntry _ => true
  | .cxqRead | .cxqNext | .cxqCas _ | .cxqReread | .walk _ _ | .splice _ _ => true
  | .egressSucc | .egressClear | .egressResp | .egressRespClear | .decCount => true
  | .critical _ | .exitOwner | .exitSteal | .exitResp | .release => true
  | .exitGuarantee | .exitEntry | .exitCxq | .drainCas _ | .storeEntry _ | .drainGuarantee _ _
  | .drainState _ _ | .drainPrev _ _ | .drainNext _ | .drainedSucc | .drainedEntry
  | .drainedGuarantee _ | .epilogSucc _ | .epilogRelease _ => true
  | .fault => true
  | _ => false

@[simp] lemma spun_owns (k : SpinCaller) (b : Bool) : (spun k b : Pc ι).owns = b := by
  cases k <;> cases b <;> rfl

@[simp] lemma won_owns (r : TryLockCaller) : (won r : Pc ι).owns = true := by
  cases r with
  | abort k => exact spun_owns k true
  | _ => rfl

@[simp] lemma lost_owns (r : TryLockCaller) : (lost r : Pc ι).owns = false := by
  cases r with
  | preSpin k ctr => cases ctr <;> rfl
  | abort k => exact spun_owns k false
  | _ => rfl

@[simp] lemma spinLoop_owns (k : SpinCaller) (prv : Option ι) (ctr : ℕ) :
    (spinLoop k prv ctr).owns = false := by cases ctr <;> rfl

@[simp] lemma afterPark_owns (timed : Bool) (q : ParkPc) : (afterPark timed q : Pc ι).owns = false := by
  cases q <;> rfl

@[simp] lemma afterUnpark_owns (w : ι) (q : UnparkPc) : (afterUnpark w q).owns = false := by
  cases q <;> rfl

@[simp] lemma drainLoop_owns (q p : Option ι) : (drainLoop q p).owns = true := by cases p <;> rfl

@[simp] lemma unlinkFront_owns (nxt : Option ι) (prv : Link ι) : (unlinkFront nxt prv).owns = true := by
  cases prv <;> rfl

/-- `_owner` names the thread that is at a place of an owner. -/
def OwnerOk (c : Config ι (ObjectMonitor ι) (Pc ι)) : Prop :=
  ∀ t, c.shared.owner = some t ↔ (c.loc t).owns = true

/-- Two threads are never at places of an owner together. -/
lemma OwnerOk.unique {c : Config ι (ObjectMonitor ι) (Pc ι)} (h : OwnerOk c) {t u : ι}
    (ht : (c.loc t).owns = true) (hu : (c.loc u).owns = true) : t = u := by
  have hto := (h t).mpr ht
  have huo := (h u).mpr hu
  exact Option.some.inj (hto.symm.trans huo)

variable [DecidableEq ι] {me : ι} {s s' : ObjectMonitor ι} {pc pc' : Pc ι}

/-- A step keeps the lock as it is, takes it from nobody, or gives it up. -/
lemma Step.owner (hs : Step me s pc s' pc') (h : s.owner = some me ↔ pc.owns = true) :
    (s'.owner = s.owner ∧ pc'.owns = pc.owns) ∨
      (s.owner = none ∧ s'.owner = some me ∧ pc'.owns = true) ∨
      (s.owner = some me ∧ s'.owner = none ∧ pc'.owns = false) := by
  cases hs with
  | enterWon h0 => exact .inr (.inl ⟨h0, rfl, rfl⟩)
  | tryWon r h0 => exact .inr (.inl ⟨h0, rfl, won_owns r⟩)
  | spinWon k h0 => exact .inr (.inl ⟨h0, rfl, rfl⟩)
  | exitWon h0 => exact .inr (.inl ⟨h0, rfl, rfl⟩)
  | exitSteal => exact .inl ⟨(h.mpr rfl).symm, rfl⟩
  | release => exact .inr (.inr ⟨h.mpr rfl, rfl, rfl⟩)
  | epilogRelease w => exact .inr (.inr ⟨h.mpr rfl, rfl, rfl⟩)
  | pushWon nxt h0 =>
    refine .inl ⟨rfl, ?_⟩
    split <;> rfl
  | tryBusy r | tryLost r => exact .inl ⟨rfl, lost_owns r⟩
  | bonusFull k | bonusStore k => exact .inl ⟨rfl, spun_owns k true⟩
  | spinDenied k | abortOther k => exact .inl ⟨rfl, spun_owns k false⟩
  | firstSuccTaken k ctr | firstSuccStore k ctr => exact .inl ⟨rfl, spinLoop_owns k none ctr⟩
  | penaltyNone k ctr prv | penaltyStore k ctr prv => exact .inl ⟨rfl, spinLoop_owns k prv ctr⟩
  | park timed => exact .inl ⟨rfl, afterPark_owns timed _⟩
  | unpark w => exact .inl ⟨rfl, afterUnpark_owns w _⟩
  | unlinkPrevLast | unlinkSetPrev => exact .inl ⟨rfl, unlinkFront_owns _ _⟩
  | storeEntry | drainNext => exact .inl ⟨rfl, drainLoop_owns _ _⟩
  | _ => exact .inl ⟨rfl, rfl⟩

end Owner

section Runs
variable {ι : Type*} [DecidableEq ι] {c : Config ι (ObjectMonitor ι) (Pc ι)}

lemma OwnerOk.fire (h : OwnerOk c) (t : ι) (k : Wakeup) : OwnerOk ((objectMonitor ι).fire t k c) := by
  have hs := step_step t k c.shared (c.loc t)
  intro u
  rw [Machine.fire_shared, Machine.fire_loc]
  change (step t k c.shared (c.loc t)).1.owner = some u ↔
    (if u = t then (step t k c.shared (c.loc t)).2 else c.loc u).owns = true
  rcases hs.owner (h t) with ⟨ho, hp⟩ | ⟨h0, ho, hp⟩ | ⟨h0, ho, hp⟩
  · rw [ho, h u]
    split
    · next hu => rw [hp, hu]
    · rfl
  · rw [ho]
    split
    · next hu => simp [hp, hu]
    · next hu =>
      have hn : ¬ (c.loc u).owns = true := by
        rw [← h u, h0]
        exact nofun
      simp [hn, Ne.symm hu]
  · rw [ho]
    split
    · next hu => simp [hp]
    · next hu =>
      have hn : ¬ (c.loc u).owns = true := by
        rw [← h u, h0]
        exact fun e => hu (Option.some.inj e).symm
      simp [hn]

theorem reachable_ownerOk (h : (objectMonitor ι).Reachable (jvmInitLocks ι) c) : OwnerOk c :=
  Machine.Reachable.invariant _ (P := OwnerOk) h (fun t => by simp [jvmInitLocks, Pc.owns])
    fun _ t k hc => hc.fire t k

end Runs

end Lockhammer.JvmMonitor
