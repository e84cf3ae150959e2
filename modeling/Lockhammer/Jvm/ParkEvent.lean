import Lockhammer.Interleaving.Machine
import Mathlib.Data.Int.Order.Basic

/-!
# park and unpark of jvm_objectmonitor.h

A ParkEvent is a flag `_Event` with a mutex and a condition variable. Its owner parks on
it: it takes the flag from 1 to 0 and returns, or from 0 to -1 and blocks. Anybody may
unpark it: set the flag to 1 and, when it was -1, signal. The signal is sent after the
mutex has been dropped, so it may come late.
-/
namespace Lockhammer.Jvm
open Interleaving

/-- `struct ParkEvent`, with the holder of `_mutex` and whether the owner of the event is in
the wait set of `_cond`. -/
structure ParkEvent (ι : Type*) where
  event : ℤ
  nParked : ℤ
  mutex : Option ι
  sleeping : Bool
  deriving DecidableEq

def parkeventInit {ι : Type*} : ParkEvent ι := ⟨0, 0, none, false⟩

/-- What the environment does to a thread in the condition wait. -/
inductive Wakeup
  | none
  | spurious
  | timeout
  deriving DecidableEq, Repr

/-- Where the owner is in `park` or `parkTimed`. -/
inductive ParkPc
  | entry
  | readEvent
  | cmpxchg (v : ℤ)
  | mutexLock
  | countIn
  | testEvent
  | condWait
  | blocked
  | relock (timedOut : Bool)
  | countOut
  | resetEvent
  | mutexUnlock
  | lastCheck
  | returned
  | guaranteeFailed
  deriving DecidableEq, Repr

/-- Where a thread is in `unpark`. -/
inductive UnparkPc
  | xchg
  | mutexLock
  | readParked
  | mutexUnlock (anyWaiters : ℤ)
  | signal
  | returned
  deriving DecidableEq, Repr

section Steps
variable {ι : Type*}

/-- One atomic step of `park` (`timed = false`) or `parkTimed` (`timed = true`) of thread
`me`. Only `parkTimed` has the guarantee on entry and leaves the wait on a timeout; only
`park` has the guarantee at the end. -/
def parkStep (timed : Bool) (me : ι) (k : Wakeup) (e : ParkEvent ι) : ParkPc → ParkEvent ι × ParkPc
  | .entry => (e, if timed = true ∧ e.nParked ≠ 0 then .guaranteeFailed else .readEvent)
  | .readEvent => (e, .cmpxchg e.event)
  | .cmpxchg v =>
    if e.event = v then
      ({ e with event := v - 1 },
        if v < 0 then .guaranteeFailed
        else if v = 0 then .mutexLock
        else if timed then .returned else .lastCheck)
    else (e, .readEvent)
  | .mutexLock => if e.mutex = none then ({ e with mutex := some me }, .countIn) else (e, .mutexLock)
  | .countIn =>
    if e.nParked = 0 then ({ e with nParked := e.nParked + 1 }, .testEvent) else (e, .guaranteeFailed)
  | .testEvent => (e, if e.event < 0 then .condWait else .countOut)
  | .condWait => ({ e with mutex := none, sleeping := true }, .blocked)
  | .blocked =>
    if e.sleeping = false then (e, .relock false)
    else match k with
      | .none => (e, .blocked)
      | .spurious => ({ e with sleeping := false }, .relock false)
      | .timeout => if timed then ({ e with sleeping := false }, .relock true) else (e, .blocked)
  | .relock timedOut =>
    if e.mutex = none then
      ({ e with mutex := some me }, if timedOut then .countOut else .testEvent)
    else (e, .relock timedOut)
  | .countOut => ({ e with nParked := e.nParked - 1 }, .resetEvent)
  | .resetEvent => ({ e with event := 0 }, .mutexUnlock)
  | .mutexUnlock => ({ e with mutex := none }, if timed then .returned else .lastCheck)
  | .lastCheck => (e, if 0 ≤ e.event then .returned else .guaranteeFailed)
  | .returned => (e, .returned)
  | .guaranteeFailed => (e, .guaranteeFailed)

def park (me : ι) := parkStep false me
def parkTimed (me : ι) := parkStep true me

/-- One atomic step of `unpark` by thread `me`. -/
def unpark (me : ι) (e : ParkEvent ι) : UnparkPc → ParkEvent ι × UnparkPc
  | .xchg => ({ e with event := 1 }, if 0 ≤ e.event then .returned else .mutexLock)
  | .mutexLock =>
    if e.mutex = none then ({ e with mutex := some me }, .readParked) else (e, .mutexLock)
  | .readParked => (e, .mutexUnlock e.nParked)
  | .mutexUnlock anyWaiters =>
    ({ e with mutex := none }, if anyWaiters ≠ 0 then .signal else .returned)
  | .signal => ({ e with sleeping := false }, .returned)
  | .returned => (e, .returned)

end Steps

/-! One event, one parker, any unparkers. -/

/-- The local state of the parker or of an unparker. A thread at `returned` is outside
and may call again. -/
inductive Pc
  | parker (timed : Bool) (q : ParkPc)
  | unparker (q : UnparkPc)
  deriving DecidableEq, Repr

/-- Thread `none` parks, the others unpark. The environment decides which of `park` and
`parkTimed` is called next and when a wait ends by itself. -/
def parkMachine (U : Type*) [DecidableEq U] :
    Machine (Option U) (Bool × Wakeup) (ParkEvent (Option U)) Pc where
  step me k e
    | .parker _ .returned => (e, .parker k.1 .entry)
    | .parker timed q =>
      let r := if timed then parkTimed me k.2 e q else park me k.2 e q
      (r.1, .parker timed r.2)
    | .unparker .returned => (e, .unparker .xchg)
    | .unparker q => ((unpark me e q).1, .unparker (unpark me e q).2)

def parkStart (U : Type*) : Config (Option U) (ParkEvent (Option U)) Pc where
  shared := parkeventInit
  loc
    | none => .parker false .returned
    | some _ => .unparker .returned

/-- Between its exchange and its signal. -/
def UnparkPc.underWay : UnparkPc → Bool
  | .xchg | .returned => false
  | _ => true

/-- In the condition wait and not signalled. -/
def Blocked {ι : Type*} (e : ParkEvent ι) (pc : Pc) : Prop :=
  (∃ timed, pc = .parker timed .blocked) ∧ e.sleeping = true

/-! What the flag and the count can be at each place of the parker. -/

/-- Nobody is going to block. -/
structure ParkEvent.Calm {ι : Type*} (e : ParkEvent ι) : Prop where
  event : e.event = 0 ∨ e.event = 1
  nParked : e.nParked = 0
  sleeping : e.sleeping = false

/-- The parker has taken the flag to -1; an unparker may have set it to 1 since. -/
structure ParkEvent.Taken {ι : Type*} (e : ParkEvent ι) (nParked : ℤ) : Prop where
  event : e.event = -1 ∨ e.event = 1
  nParked : e.nParked = nParked

def ParkOk {ι : Type*} (e : ParkEvent ι) : ParkPc → Prop
  | .entry | .readEvent | .mutexUnlock | .lastCheck | .returned => e.Calm
  | .cmpxchg v => 0 ≤ v ∧ e.Calm
  | .mutexLock | .countIn | .resetEvent => e.Taken 0 ∧ e.sleeping = false
  | .testEvent | .condWait | .relock _ | .countOut => e.Taken 1 ∧ e.sleeping = false
  | .blocked => e.Taken 1
  | .guaranteeFailed => False

def ParkPc.holdsMutex : ParkPc → Bool
  | .countIn | .testEvent | .condWait | .countOut | .resetEvent | .mutexUnlock => true
  | _ => false

def UnparkPc.holdsMutex : UnparkPc → Bool
  | .readParked | .mutexUnlock _ => true
  | _ => false

/-- Everything one step of the parker can do. -/
inductive ParkStep {ι : Type*} (me : ι) :
    ParkEvent ι → ParkPc → ParkEvent ι → ParkPc → Prop
  | stay {e q} : ParkStep me e q e q
  | entry {e} : ParkStep me e .entry e .readEvent
  | entryFails {e} (h : e.nParked ≠ 0) : ParkStep me e .entry e .guaranteeFailed
  | read {e} : ParkStep me e .readEvent e (.cmpxchg e.event)
  | retry {e v} : ParkStep me e (.cmpxchg v) e .readEvent
  | negative {e v} (h : v < 0) :
      ParkStep me e (.cmpxchg v) { e with event := v - 1 } .guaranteeFailed
  | take {e} (h : e.event = 0) :
      ParkStep me e (.cmpxchg 0) { e with event := -1 } .mutexLock
  | pass {e v q} (hv : 0 < v) (h : e.event = v) (hq : q = .returned ∨ q = .lastCheck) :
      ParkStep me e (.cmpxchg v) { e with event := v - 1 } q
  | lock {e} (h : e.mutex = none) :
      ParkStep me e .mutexLock { e with mutex := some me } .countIn
  | countIn {e} (h : e.nParked = 0) :
      ParkStep me e .countIn { e with nParked := e.nParked + 1 } .testEvent
  | countInFails {e} (h : e.nParked ≠ 0) : ParkStep me e .countIn e .guaranteeFailed
  | testNegative {e} (h : e.event < 0) : ParkStep me e .testEvent e .condWait
  | testPassed {e} : ParkStep me e .testEvent e .countOut
  | wait {e} : ParkStep me e .condWait { e with mutex := none, sleeping := true } .blocked
  | wake {e b} : ParkStep me e .blocked { e with sleeping := false } (.relock b)
  | relock {e b q} (h : e.mutex = none) (hq : q = .countOut ∨ q = .testEvent) :
      ParkStep me e (.relock b) { e with mutex := some me } q
  | countOut {e} : ParkStep me e .countOut { e with nParked := e.nParked - 1 } .resetEvent
  | resetEvent {e} : ParkStep me e .resetEvent { e with event := 0 } .mutexUnlock
  | unlock {e q} (hq : q = .returned ∨ q = .lastCheck) :
      ParkStep me e .mutexUnlock { e with mutex := none } q
  | lastCheck {e} : ParkStep me e .lastCheck e .returned
  | lastCheckFails {e} (h : e.event < 0) : ParkStep me e .lastCheck e .guaranteeFailed

/-- Everything one step of an unparker can do. -/
inductive UnparkStep {ι : Type*} (me : ι) : ParkEvent ι → UnparkPc → ParkEvent ι → UnparkPc → Prop
  | stay {e r} : UnparkStep me e r e r
  | post {e} (h : 0 ≤ e.event) : UnparkStep me e .xchg { e with event := 1 } .returned
  | claim {e} (h : e.event < 0) : UnparkStep me e .xchg { e with event := 1 } .mutexLock
  | lock {e} (h : e.mutex = none) :
      UnparkStep me e .mutexLock { e with mutex := some me } .readParked
  | readParked {e} : UnparkStep me e .readParked e (.mutexUnlock e.nParked)
  | unlock {e} (a : ℤ) : UnparkStep me e (.mutexUnlock a) { e with mutex := none }
      (if a ≠ 0 then .signal else .returned)
  | signal {e} : UnparkStep me e .signal { e with sleeping := false } .returned

section Steps
variable {ι : Type*} {timed : Bool} {me : ι} {k : Wakeup} {e e' : ParkEvent ι}

theorem parkStep_step (q : ParkPc) :
    ParkStep me e q (parkStep timed me k e q).1 (parkStep timed me k e q).2 := by
  cases q with
  | entry =>
    simp only [parkStep]
    split
    · next h => exact .entryFails h.2
    · exact .entry
  | readEvent => exact .read
  | cmpxchg v =>
    simp only [parkStep]
    split
    · next h =>
      by_cases hneg : v < 0
      · simp only [if_pos hneg]
        exact .negative hneg
      · by_cases h0 : v = 0
        · subst h0
          exact .take h
        · simp only [if_neg hneg, if_neg h0]
          exact .pass (by omega) h (by cases timed <;> simp)
    · exact .retry
  | mutexLock =>
    simp only [parkStep]
    split
    · next h => exact .lock h
    · exact .stay
  | countIn =>
    simp only [parkStep]
    split
    · next h => exact .countIn h
    · next h => exact .countInFails h
  | testEvent =>
    simp only [parkStep]
    split
    · next h => exact .testNegative h
    · exact .testPassed
  | condWait => exact .wait
  | blocked =>
    simp only [parkStep]
    split
    · next h =>
      have he : e = { e with sleeping := false } := by rw [← h]
      have hw : ParkStep me e .blocked { e with sleeping := false } (.relock false) := .wake
      rwa [← he] at hw
    · cases k with
      | none => exact .stay
      | spurious => exact .wake
      | timeout =>
        simp only
        split
        · exact .wake
        · exact .stay
  | relock timedOut =>
    simp only [parkStep]
    split
    · next h => exact .relock h (by cases timedOut <;> simp)
    · exact .stay
  | countOut => exact .countOut
  | resetEvent => exact .resetEvent
  | mutexUnlock =>
    simp only [parkStep]
    exact .unlock (by cases timed <;> simp)
  | lastCheck =>
    simp only [parkStep]
    split
    · exact .lastCheck
    · next h => exact .lastCheckFails (not_le.mp h)
  | returned => exact .stay
  | guaranteeFailed => exact .stay

/-- No guarantee of `park` or `parkTimed` fails. -/
lemma ParkStep.ok {q q' : ParkPc} (hs : ParkStep me e q e' q') (h : ParkOk e q) :
    ParkOk e' q' := by
  cases hs with
  | stay => exact h
  | entry => exact h
  | entryFails hn => exact hn h.nParked
  | read =>
    refine ⟨?_, h⟩
    have := h.event
    omega
  | retry => exact h.2
  | negative hv => exact absurd h.1 (not_le.mpr hv)
  | take => exact ⟨⟨Or.inl rfl, h.2.nParked⟩, h.2.sleeping⟩
  | @pass v _ hv he hq =>
    have hcalm : ({ e with event := v - 1 } : ParkEvent ι).Calm := by
      refine ⟨Or.inl ?_, h.2.nParked, h.2.sleeping⟩
      have := h.2.event
      change v - 1 = 0
      omega
    rcases hq with rfl | rfl <;> exact hcalm
  | lock => exact ⟨⟨h.1.event, h.1.nParked⟩, h.2⟩
  | countIn hn => exact ⟨⟨h.1.event, by simp [hn]⟩, h.2⟩
  | countInFails hn => exact hn h.1.nParked
  | testNegative => exact h
  | testPassed => exact h
  | wait => exact ⟨h.1.event, h.1.nParked⟩
  | wake => exact ⟨⟨h.event, h.nParked⟩, rfl⟩
  | relock _ hq =>
    have ht : ({ e with mutex := some me } : ParkEvent ι).Taken 1 := ⟨h.1.event, h.1.nParked⟩
    rcases hq with rfl | rfl <;> exact ⟨ht, h.2⟩
  | countOut => exact ⟨⟨h.1.event, by simp [h.1.nParked]⟩, h.2⟩
  | resetEvent => exact ⟨Or.inl rfl, h.1.nParked, h.2⟩
  | unlock hq =>
    have hcalm : ({ e with mutex := none } : ParkEvent ι).Calm := ⟨h.event, h.nParked, h.sleeping⟩
    rcases hq with rfl | rfl <;> exact hcalm
  | lastCheck => exact h
  | lastCheckFails hn =>
    have := h.event
    change False
    omega

/-- Whoever holds the mutex after its step took it or had it. -/
lemma ParkStep.holdsMutex {q q' : ParkPc} (hs : ParkStep me e q e' q')
    (h : q.holdsMutex = true → e.mutex = some me) (hq : q'.holdsMutex = true) :
    e'.mutex = some me := by
  cases hs with
  | lock => rfl
  | relock => rfl
  | stay => exact h hq
  | countIn => exact h rfl
  | testNegative => exact h rfl
  | testPassed => exact h rfl
  | countOut => exact h rfl
  | resetEvent => exact h rfl
  | pass _ _ hr => rcases hr with rfl | rfl <;> cases hq
  | unlock hr => rcases hr with rfl | rfl <;> cases hq
  | _ => cases hq

/-- A step leaves the mutex alone unless it was free or the parker's. -/
lemma ParkStep.mutex_eq {q q' : ParkPc} (hs : ParkStep me e q e' q')
    (h : q.holdsMutex = true → e.mutex = some me) {other : ι} (hne : other ≠ me)
    (ho : e.mutex = some other) : e'.mutex = some other := by
  have hfree : e.mutex ≠ none := by simp [ho]
  have hmine : e.mutex ≠ some me := by simpa [ho] using hne
  cases hs with
  | lock hn => exact absurd hn hfree
  | relock hn => exact absurd hn hfree
  | wait => exact absurd (h rfl) hmine
  | unlock => exact absurd (h rfl) hmine
  | _ => exact ho

theorem unpark_step (r : UnparkPc) : UnparkStep me e r (unpark me e r).1 (unpark me e r).2 := by
  cases r with
  | xchg =>
    simp only [unpark]
    split
    · next h => exact .post h
    · next h => exact .claim (not_le.mp h)
  | mutexLock =>
    simp only [unpark]
    split
    · next h => exact .lock h
    · exact .stay
  | readParked => exact .readParked
  | mutexUnlock a => exact .unlock a
  | signal => exact .signal
  | returned => exact .stay

/-- An unparker moves the flag only to 1 and does not touch the count. -/
lemma UnparkStep.ok {r r' : UnparkPc} (hs : UnparkStep me e r e' r') {q : ParkPc}
    (h : ParkOk e q) : ParkOk e' q := by
  have hcalm {e' : ParkEvent ι} (hc : e.Calm) (he : e'.event = e.event ∨ e'.event = 1)
      (hn : e'.nParked = e.nParked) (hw : e'.sleeping = e.sleeping ∨ e'.sleeping = false) :
      e'.Calm := by
    have h01 := hc.event
    refine ⟨by omega, hn.trans hc.nParked, ?_⟩
    rcases hw with hw | hw
    · rw [hw, hc.sleeping]
    · exact hw
  have htaken {e' : ParkEvent ι} {m : ℤ} (hc : e.Taken m) (he : e'.event = e.event ∨ e'.event = 1)
      (hn : e'.nParked = e.nParked) : e'.Taken m := by
    have h01 := hc.event
    exact ⟨by omega, hn.trans hc.nParked⟩
  have hmain : (e'.event = e.event ∨ e'.event = 1) ∧ e'.nParked = e.nParked ∧
      (e'.sleeping = e.sleeping ∨ e'.sleeping = false) := by
    cases hs <;> simp
  obtain ⟨he, hn, hw⟩ := hmain
  have hsl (hf : e.sleeping = false) : e'.sleeping = false := by
    rcases hw with hw | hw
    · rw [hw, hf]
    · exact hw
  cases q with
  | cmpxchg v => exact ⟨h.1, hcalm h.2 he hn hw⟩
  | entry => exact hcalm h he hn hw
  | readEvent => exact hcalm h he hn hw
  | mutexUnlock => exact hcalm h he hn hw
  | lastCheck => exact hcalm h he hn hw
  | returned => exact hcalm h he hn hw
  | blocked => exact htaken h he hn
  | guaranteeFailed => exact h
  | _ => exact ⟨htaken h.1 he hn, hsl h.2⟩

lemma UnparkStep.holdsMutex {r r' : UnparkPc} (hs : UnparkStep me e r e' r')
    (h : r.holdsMutex = true → e.mutex = some me) (hr : r'.holdsMutex = true) :
    e'.mutex = some me := by
  cases hs with
  | lock => rfl
  | stay => exact h hr
  | readParked => exact h rfl
  | unlock a =>
    split at hr <;> cases hr
  | _ => cases hr

lemma UnparkStep.mutex_eq {r r' : UnparkPc} (hs : UnparkStep me e r e' r')
    (h : r.holdsMutex = true → e.mutex = some me) {other : ι} (hne : other ≠ me)
    (ho : e.mutex = some other) : e'.mutex = some other := by
  have hfree : e.mutex ≠ none := by simp [ho]
  have hmine : e.mutex ≠ some me := by simpa [ho] using hne
  cases hs with
  | lock hn => exact absurd hn hfree
  | unlock => exact absurd (h rfl) hmine
  | _ => exact ho

end Steps

/-! The invariant of the machine. -/

def Pc.holdsMutex : Pc → Bool
  | .parker _ q => q.holdsMutex
  | .unparker r => r.holdsMutex

/-- An unparker that is going to signal when the parker has counted itself in. -/
def UnparkPc.waking : UnparkPc → Prop
  | .mutexLock | .readParked | .signal => True
  | .mutexUnlock a => a ≠ 0
  | .xchg | .returned => False

/-- The parker goes to sleep, or sleeps, only on a flag of -1 or with somebody about to
signal it. While it still holds the mutex that unparker waits for the mutex. -/
structure ParkInv {U : Type*} (c : Config (Option U) (ParkEvent (Option U)) Pc) (timed : Bool)
    (q : ParkPc) : Prop where
  parker : c.loc none = .parker timed q
  unparkers : ∀ u, ∃ r, c.loc (some u) = .unparker r
  ok : ParkOk c.shared q
  mutex : ∀ i, (c.loc i).holdsMutex = true → c.shared.mutex = some i
  closing : q = .condWait → c.shared.event = 1 → ∃ u, c.loc (some u) = .unparker .mutexLock
  waking : q = .blocked → c.shared.sleeping = true → c.shared.event = 1 →
    ∃ u r, c.loc (some u) = .unparker r ∧ r.waking

lemma parkStart_inv (U : Type*) : ParkInv (parkStart U) false .returned where
  parker := rfl
  unparkers _ := ⟨.returned, rfl⟩
  ok := ⟨Or.inl rfl, rfl, rfl⟩
  mutex i h := by cases i <;> cases h
  closing h := by cases h
  waking h := by cases h

variable {U : Type*} [DecidableEq U] {c : Config (Option U) (ParkEvent (Option U)) Pc}
  {timed : Bool} {q : ParkPc}

/-- A step of the parker inside a call. -/
lemma ParkInv.parkerStep (h : ParkInv c timed q) {k : Bool × Wakeup} {e' : ParkEvent (Option U)}
    {q' : ParkPc} (hs : (parkMachine U).step none k c.shared (c.loc none) = (e', .parker timed q'))
    (hp : ParkStep none c.shared q e' q') :
    ParkInv ((parkMachine U).fire none k c) timed q' := by
  have hloc := Machine.fire_loc_eq (parkMachine U) hs
  have hmine : q.holdsMutex = true → c.shared.mutex = some none := by
    intro hq
    exact h.mutex none (by rw [h.parker]; exact hq)
  have hothers (u : U) : ((parkMachine U).fire none k c).loc (some u) = c.loc (some u) := by
    rw [hloc, if_neg (by simp)]
  refine ⟨?_, ?_, ?_, ?_, ?_, ?_⟩
  · rw [hloc, if_pos rfl]
  · intro u
    rw [hothers]
    exact h.unparkers u
  · rw [Machine.fire_shared_eq _ hs]
    exact hp.ok h.ok
  · rw [Machine.fire_shared_eq _ hs]
    intro i hi
    cases i with
    | none =>
      rw [hloc, if_pos rfl] at hi
      exact hp.holdsMutex hmine hi
    | some u =>
      rw [hothers] at hi
      exact hp.mutex_eq hmine (by simp) (h.mutex _ hi)
  · -- it has just seen the flag negative
    rw [Machine.fire_shared_eq _ hs]
    rintro rfl he
    cases hp with
    | stay =>
      obtain ⟨u, hu⟩ := h.closing rfl he
      exact ⟨u, by rw [hothers, hu]⟩
    | testNegative hneg => omega
    | pass _ _ hq => simp at hq
    | relock _ hq => simp at hq
    | unlock hq => simp at hq
  · rw [Machine.fire_shared_eq _ hs]
    rintro rfl hsl he
    cases hp with
    | stay =>
      obtain ⟨u, r, hu, hr⟩ := h.waking rfl hsl he
      exact ⟨u, r, by rw [hothers, hu], hr⟩
    | wait =>
      obtain ⟨u, hu⟩ := h.closing rfl he
      exact ⟨u, .mutexLock, by rw [hothers, hu], trivial⟩
    | pass _ _ hq => simp at hq
    | relock _ hq => simp at hq
    | unlock hq => simp at hq

/-- A step of an unparker inside a call. -/
lemma ParkInv.unparkerStep (h : ParkInv c timed q) {u : U} {r r' : UnparkPc} {k : Bool × Wakeup}
    {e' : ParkEvent (Option U)} (hr : c.loc (some u) = .unparker r)
    (hs : (parkMachine U).step (some u) k c.shared (c.loc (some u)) = (e', .unparker r'))
    (hp : UnparkStep (some u) c.shared r e' r') :
    ParkInv ((parkMachine U).fire (some u) k c) timed q := by
  have hloc := Machine.fire_loc_eq (parkMachine U) hs
  have hmine : r.holdsMutex = true → c.shared.mutex = some (some u) := by
    intro hq
    exact h.mutex (some u) (by rw [hr]; exact hq)
  refine ⟨?_, ?_, ?_, ?_, ?_, ?_⟩
  · rw [hloc, if_neg (by simp), h.parker]
  · intro v
    rw [hloc]
    split
    · exact ⟨r', rfl⟩
    · exact h.unparkers v
  · rw [Machine.fire_shared_eq _ hs]
    exact hp.ok h.ok
  · rw [Machine.fire_shared_eq _ hs]
    intro i hi
    rw [hloc] at hi
    split at hi
    · next hi' =>
      rw [hi']
      exact hp.holdsMutex hmine hi
    · next hi' => exact hp.mutex_eq hmine hi' (h.mutex i hi)
  · rw [Machine.fire_shared_eq _ hs]
    rintro rfl he
    -- the parker holds the mutex, so nobody leaves the queue for it
    have hheld : c.shared.mutex = some none := h.mutex none (by rw [h.parker]; rfl)
    have hkeep (he' : c.shared.event = 1) (hne : r = .mutexLock → r' = .mutexLock) :
        ∃ v, ((parkMachine U).fire (some u) k c).loc (some v) = .unparker .mutexLock := by
      obtain ⟨v, hv⟩ := h.closing rfl he'
      refine ⟨v, ?_⟩
      rw [hloc]
      split
      · next hvu =>
        rw [hvu, hr] at hv
        rw [hne (Pc.unparker.inj hv)]
      · exact hv
    cases hp with
    | claim => exact ⟨u, by rw [hloc, if_pos rfl]⟩
    | post hpos =>
      refine hkeep ?_ (by simp)
      have := h.ok.1.event
      omega
    | lock hfree => simp [hheld] at hfree
    | stay => exact hkeep he id
    | readParked => exact hkeep he (by simp)
    | unlock a => exact hkeep he (by simp)
    | signal => exact hkeep he (by simp)
  · rw [Machine.fire_shared_eq _ hs]
    rintro rfl hsl he
    have hkeep (he' : c.shared.event = 1) (hsl' : c.shared.sleeping = true)
        (hne : r.waking → r'.waking) : ∃ v s,
        ((parkMachine U).fire (some u) k c).loc (some v) = .unparker s ∧ s.waking := by
      obtain ⟨v, s, hv, hw⟩ := h.waking rfl hsl' he'
      by_cases hvu : some v = some u
      · rw [hvu, hr] at hv
        rw [← Pc.unparker.inj hv] at hw
        exact ⟨u, r', by rw [hloc, if_pos rfl], hne hw⟩
      · exact ⟨v, s, by rw [hloc, if_neg hvu, hv], hw⟩
    cases hp with
    | claim => exact ⟨u, .mutexLock, by rw [hloc, if_pos rfl], trivial⟩
    | post hpos =>
      refine hkeep ?_ hsl (by simp [UnparkPc.waking])
      have := h.ok.event
      omega
    | lock => exact hkeep he hsl (by simp [UnparkPc.waking])
    | stay => exact hkeep he hsl id
    | readParked =>
      -- the sleeping parker has counted itself in
      refine hkeep he hsl fun _ => ?_
      rw [h.ok.nParked]
      exact Int.one_ne_zero
    | unlock a =>
      refine hkeep he hsl fun ha => ?_
      have hne : a ≠ 0 := ha
      rw [if_pos hne]
      trivial
    | signal => cases hsl

theorem parkInv_step (h : ParkInv c timed q) (i : Option U) (k : Bool × Wakeup) :
    ∃ timed' q', ParkInv ((parkMachine U).fire i k c) timed' q' := by
  cases i with
  | none =>
    by_cases hq : q = .returned
    · -- the next call
      subst hq
      have hs : (parkMachine U).step none k c.shared (c.loc none) = (c.shared, .parker k.1 .entry) := by
        rw [h.parker]
        rfl
      have hloc := Machine.fire_loc_eq (parkMachine U) hs
      refine ⟨k.1, .entry, ?_, ?_, ?_, ?_, by simp, by simp⟩
      · rw [hloc, if_pos rfl]
      · intro u
        rw [hloc, if_neg (by simp)]
        exact h.unparkers u
      · rw [Machine.fire_shared_eq _ hs]
        exact h.ok
      · rw [Machine.fire_shared_eq _ hs]
        intro i hi
        rw [hloc] at hi
        split at hi
        · cases hi
        · exact h.mutex i hi
    · have hp : ParkStep none c.shared q (parkStep timed none k.2 c.shared q).1
          (parkStep timed none k.2 c.shared q).2 := parkStep_step q
      refine ⟨timed, _, h.parkerStep (k := k) ?_ hp⟩
      rw [h.parker]
      cases q <;> cases timed <;> first | exact absurd rfl hq | rfl
  | some u =>
    obtain ⟨r, hr⟩ := h.unparkers u
    by_cases hret : r = .returned
    · subst hret
      have hs : (parkMachine U).step (some u) k c.shared (c.loc (some u)) =
          (c.shared, .unparker .xchg) := by
        rw [hr]
        rfl
      have hloc := Machine.fire_loc_eq (parkMachine U) hs
      have hold (v : U) {s : UnparkPc} (hv : c.loc (some v) = .unparker s) (hne : s ≠ .returned) :
          ((parkMachine U).fire (some u) k c).loc (some v) = .unparker s := by
        rw [hloc]
        split
        · next hvu =>
          rw [hvu, hr] at hv
          exact absurd (Pc.unparker.inj hv).symm hne
        · exact hv
      refine ⟨timed, q, ?_, ?_, ?_, ?_, ?_, ?_⟩
      · rw [hloc, if_neg (by simp), h.parker]
      · intro v
        rw [hloc]
        split
        · exact ⟨_, rfl⟩
        · exact h.unparkers v
      · rw [Machine.fire_shared_eq _ hs]
        exact h.ok
      · rw [Machine.fire_shared_eq _ hs]
        intro i hi
        rw [hloc] at hi
        split at hi
        · cases hi
        · exact h.mutex i hi
      · rw [Machine.fire_shared_eq _ hs]
        intro hq he
        obtain ⟨v, hv⟩ := h.closing hq he
        exact ⟨v, hold v hv (by simp)⟩
      · rw [Machine.fire_shared_eq _ hs]
        intro hq hsl he
        obtain ⟨v, s, hv, hw⟩ := h.waking hq hsl he
        exact ⟨v, s, hold v hv (by rintro rfl; exact hw), hw⟩
    · refine ⟨timed, q, h.unparkerStep hr (k := k) ?_ (unpark_step r)⟩
      rw [hr]
      cases r <;> first | exact absurd rfl hret | rfl

theorem reachable_parkInv (h : (parkMachine U).Reachable (parkStart U) c) :
    ∃ timed q, ParkInv c timed q := by
  refine h.invariant (parkMachine U) (P := fun c => ∃ timed q, ParkInv c timed q)
    ⟨false, .returned, parkStart_inv U⟩ ?_
  rintro c i k ⟨timed, q, hi⟩
  exact parkInv_step hi i k

lemma ParkOk.event {ι : Type*} {e : ParkEvent ι} {q : ParkPc} (h : ParkOk e q) :
    e.event = -1 ∨ e.event = 0 ∨ e.event = 1 := by
  have hc (hc : e.Calm) : e.event = -1 ∨ e.event = 0 ∨ e.event = 1 := Or.inr hc.event
  have ht {m : ℤ} (ht : e.Taken m) : e.event = -1 ∨ e.event = 0 ∨ e.event = 1 := by
    have := ht.event
    omega
  cases q with
  | cmpxchg v => exact hc h.2
  | blocked => exact ht h
  | guaranteeFailed => exact h.elim
  | entry => exact hc h
  | readEvent => exact hc h
  | mutexUnlock => exact hc h
  | lastCheck => exact hc h
  | returned => exact hc h
  | _ => exact ht h.1

lemma ParkOk.nParked {ι : Type*} {e : ParkEvent ι} {q : ParkPc} (h : ParkOk e q) :
    e.nParked = 0 ∨ e.nParked = 1 := by
  cases q with
  | cmpxchg v => exact Or.inl h.2.nParked
  | blocked => exact Or.inr (ParkEvent.Taken.nParked h)
  | guaranteeFailed => exact h.elim
  | mutexLock => exact Or.inl h.1.nParked
  | countIn => exact Or.inl h.1.nParked
  | resetEvent => exact Or.inl h.1.nParked
  | testEvent => exact Or.inr h.1.nParked
  | condWait => exact Or.inr h.1.nParked
  | relock => exact Or.inr h.1.nParked
  | countOut => exact Or.inr h.1.nParked
  | _ => exact Or.inl (ParkEvent.Calm.nParked h)

/-- The protocol on one event, in every run of one parker and any unparkers: no guarantee
of `park` or `parkTimed` fails, `_Event` is -1, 0 or 1 and `_nParked` 0 or 1, and the
parker is never asleep on a flag that is not negative unless an unparker is still between
its exchange and its signal. -/
theorem park_unpark_protocol (h : (parkMachine U).Reachable (parkStart U) c) :
    (∀ i timed, c.loc i ≠ .parker timed .guaranteeFailed) ∧
    (c.shared.event = -1 ∨ c.shared.event = 0 ∨ c.shared.event = 1) ∧
    (c.shared.nParked = 0 ∨ c.shared.nParked = 1) ∧
    (Blocked c.shared (c.loc none) → 0 ≤ c.shared.event →
      ∃ u r, c.loc (some u) = .unparker r ∧ r.underWay = true) := by
  obtain ⟨timed, q, hi⟩ := reachable_parkInv h
  refine ⟨?_, hi.ok.event, hi.ok.nParked, ?_⟩
  · intro i t hf
    cases i with
    | none =>
      rw [hi.parker] at hf
      cases hf
      exact hi.ok
    | some u =>
      obtain ⟨r, hr⟩ := hi.unparkers u
      rw [hr] at hf
      cases hf
  · rintro ⟨⟨t, ht⟩, hsl⟩ he
    rw [hi.parker] at ht
    cases ht
    have h1 : c.shared.event = 1 := by
      have := hi.ok.event
      have := ParkEvent.Taken.event hi.ok
      omega
    obtain ⟨u, r, hu, hw⟩ := hi.waking rfl hsl h1
    refine ⟨u, r, hu, ?_⟩
    cases r <;> first | rfl | exact hw.elim

/-- The parker blocks in `park` and one unparker exchanges the flag. -/
def parkThenPost (u : U) : List (Option U × (Bool × Wakeup)) :=
  [none, none, none, none, none, none, none, none, some u, some u].map fun i => (i, (false, .none))

theorem park_unpark_protocol_one :
    Blocked ((parkMachine Unit).run (parkStart Unit) (parkThenPost ())).shared
      (((parkMachine Unit).run (parkStart Unit) (parkThenPost ())).loc none) ∧
    ∃ u r, ((parkMachine Unit).run (parkStart Unit) (parkThenPost ())).loc (some u) = .unparker r ∧
      r.underWay = true := by
  have hb : Blocked ((parkMachine Unit).run (parkStart Unit) (parkThenPost ())).shared
      (((parkMachine Unit).run (parkStart Unit) (parkThenPost ())).loc none) :=
    ⟨⟨false, by decide⟩, by decide⟩
  refine ⟨hb, ?_⟩
  exact (park_unpark_protocol
    ((parkMachine Unit).reachable_run (parkStart Unit) (parkThenPost ()))).2.2.2 hb (by decide)

end Lockhammer.Jvm
