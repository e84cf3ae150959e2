import Lockhammer.Jvm.ObjectMonitorLists
import Lockhammer.Jvm.Succession

/-!
# No waiter of the ObjectMonitor is stranded

Every step of the monitor is a step of the succession protocol, so that the protocol's
invariants hold of the monitor.
-/
namespace Lockhammer.JvmMonitor
open Interleaving Jvm Succession

section Places
variable {ι : Type*}

/-- While `TrySpin` has not set `_succ`. -/
def SpinCaller.before : SpinCaller → Place ι
  | .futile => .awake
  | _ => .fresh

/-- While `TrySpin` may have set `_succ`. -/
def SpinCaller.spinning : SpinCaller → Place ι
  | .futile => .awake
  | _ => .spinning

/-- After `TrySpin` has taken the lock and looked at `_succ`. -/
def SpinCaller.after : SpinCaller → Place ι
  | .futile => .heir
  | _ => .holder

def TryLockCaller.place : TryLockCaller → Place ι
  | .preSpin k _ | .abort k => k.before
  | .enterI | .push => .fresh
  | .loop => .drowsy
  | .woken => .awake

def parkPlace : ParkPc → Place ι
  | .entry | .readEvent | .cmpxchg _ => .dozing
  | .mutexLock | .countIn | .testEvent | .condWait | .blocked | .relock _ => .parked
  | .countOut | .resetEvent | .guaranteeFailed => .rousing
  | .mutexUnlock | .lastCheck | .returned => .awake

def unparkPlace (w : ι) : UnparkPc → Place ι
  | .xchg => .waking w
  | .mutexLock | .readParked | .mutexUnlock _ | .signal => .signalling w
  | .returned => .outside

def Pc.place : Pc ι → Place ι
  | .idle => .outside
  | .enterCas => .calling
  | .tryRead r | .tryCas r => r.place
  | .spinRead k => k.before
  | .firstSuccRead k _ | .firstSuccStore k _ | .ownerRead k _ _ | .spinCas k | .succRead k _ _
  | .succStore k _ _ | .penaltyRead k _ _ | .penaltyStore k _ _ _ | .abortSucc k | .abortClear k =>
    k.spinning
  | .wonSucc _ | .wonClear _ => .heir
  | .bonusRead k _ | .bonusStore k _ => k.after
  | .incCount | .initNode | .initCond | .initMutex | .initEvent | .initNParked | .pushRead
  | .pushCas _ => .fresh
  | .pushedEntry | .respCas => .drowsy
  | .respRead => .dozing
  | .parking _ q => parkPlace q
  | .futileSucc | .futileClear => .awake
  | .unlinkState | .unlinkNext | .unlinkPrev _ | .unlinkSetPrev _ _ | .unlinkSetNext _ _
  | .unlinkEntry _ _ | .unlinkSetEntry _ | .cxqRead | .cxqNext | .cxqCas _ | .cxqReread | .walk _ _
  | .splice _ _ | .egressSucc | .egressClear => .heir
  | .egressResp | .egressRespClear | .decCount | .critical _ | .exitOwner | .exitSteal | .exitResp
  | .release | .exitGuarantee | .exitEntry | .exitCxq | .drainCas _ | .storeEntry _
  | .drainGuarantee _ _ | .drainState _ _ | .drainPrev _ _ | .drainNext _ | .drainedSucc
  | .drainedEntry | .drainedGuarantee _ | .epilogSucc _ | .fault => .holder
  | .epilogRelease w => .epilog w
  | .emptyEntry => .checkEntry
  | .emptyCxq entryNull => .checkCxq entryNull
  | .emptySucc => .checkSucc
  | .exitCas => .retake
  | .unparking w q => unparkPlace w q

/-- The monitor as the protocol sees it. -/
def view (s : ObjectMonitor ι) (loc : ι → Pc ι) : View ι where
  owner := s.owner
  succ := s.succ
  entryList := s.entryList
  place t := (loc t).place
  event t := (s.parkEvents t).event

lemma afterPark_place (timed : Bool) (q : ParkPc) : (afterPark timed q : Pc ι).place = parkPlace q := by
  cases q <;> rfl

lemma afterUnpark_place (w : ι) (q : UnparkPc) : (afterUnpark w q).place = unparkPlace w q := by
  cases q <;> rfl

lemma unlinkFront_place {nxt : Option ι} {prv : Link ι} (h : unlinkFront nxt prv ≠ .fault) :
    (unlinkFront nxt prv).place = .heir := by
  cases prv with
  | bad => exact absurd rfl h
  | null | node => rfl

/-- What a place tells of the thread that is there. -/
structure Pc.Placed (pc : Pc ι) : Prop where
  owns : pc.place.owns = pc.owns
  waits : pc.place.waits = (pc.queued && !pc.owns)
  calling : pc.place = .calling → pc = .enterCas
  signalling : ∀ t, pc.place = .signalling t → ∃ q, pc = .unparking t q ∧ q.underWay = true

lemma Pc.placed (pc : Pc ι) : pc.Placed := by
  cases pc with
  | enterCas => exact ⟨rfl, rfl, fun _ => rfl, nofun⟩
  | tryRead r | tryCas r =>
    cases r with
    | preSpin k | abort k => cases k <;> exact ⟨rfl, rfl, nofun, nofun⟩
    | _ => exact ⟨rfl, rfl, nofun, nofun⟩
  | parking timed q => cases q <;> exact ⟨rfl, rfl, nofun, nofun⟩
  | unparking w q =>
    refine ⟨?_, ?_, ?_, fun t ht => ?_⟩
    · cases q <;> rfl
    · cases q <;> rfl
    · cases q <;> exact nofun
    · cases q <;> cases ht <;> exact ⟨_, rfl, rfl⟩
  | unlinkEntry nxt prv => cases prv <;> exact ⟨rfl, rfl, nofun, nofun⟩
  | bonusRead k | bonusStore k | spinRead k | firstSuccRead k | firstSuccStore k | ownerRead k
  | spinCas k | wonSucc k | wonClear k | succRead k | succStore k | penaltyRead k | penaltyStore k
  | abortSucc k | abortClear k => cases k <;> exact ⟨rfl, rfl, nofun, nofun⟩
  | _ => exact ⟨rfl, rfl, nofun, nofun⟩

lemma OwnerOk.owner_eq {s : ObjectMonitor ι} {loc : ι → Pc ι} (h : OwnerOk ⟨s, loc⟩) {t : ι} {pc : Pc ι}
    (hpc : loc t = pc) (ho : pc.owns = true) : s.owner = some t := by
  refine (h t).mpr ?_
  change (loc t).owns = true
  rw [hpc]
  exact ho

lemma OwnerOk.owned {s : ObjectMonitor ι} {loc : ι → Pc ι} (h : OwnerOk ⟨s, loc⟩) : (view s loc).Owned := by
  intro t
  change s.owner = some t ↔ (loc t).place.owns = true
  rw [(loc t).placed.owns]
  exact h t

/-- What the lists tell the protocol. -/
structure ListFacts (s : ObjectMonitor ι) (loc : ι → Pc ι) : Prop where
  wakee : ∀ z w, loc z = .epilogSucc w ∨ loc z = .epilogRelease w → (loc w).place.waits = true
  empty : s.owner = none → s.entryList = none → s.cxq = none → ∀ t, (loc t).place.waits = false
  fault : ∀ t, loc t ≠ .fault

lemma Lists.facts {s : ObjectMonitor ι} {loc : ι → Pc ι} {C E : List ι}
    (h : Lists s loc C E) (hown : OwnerOk ⟨s, loc⟩) : ListFacts s loc := by
  refine ⟨fun z w hz => ?_, fun ho he hc t => ?_, fun t ht => ?_⟩
  · have hzowns : (loc z).owns = true := by rcases hz with hz | hz <;> rw [hz] <;> rfl
    have hzq : (loc z).queued = false := by rcases hz with hz | hz <;> rw [hz] <;> rfl
    have hw : w ∈ E := by
      rcases hz with hz | hz
      · exact (h.shape (hown.owner_eq hz rfl) hz).2
      · exact (h.shape (hown.owner_eq hz rfl) hz).2
    have hq : (loc w).queued = true := (h.mem w).mp (List.mem_append_right C hw)
    have ho : (loc w).owns = false := by
      by_contra hn
      have hwz := hown.unique (t := w) (u := z) (by simpa using hn) hzowns
      rw [hwz, hzq] at hq
      cases hq
    rw [(loc w).placed.waits, hq, ho]
    rfl
  · have hE : E = [] := (h.free ho).eq_nil he
    have hC : C = [] := by
      have hhead := h.stack.head_eq
      rw [hc] at hhead
      exact List.head?_eq_none_iff.mp hhead.symm
    have hq : (loc t).queued = false := by
      have hmem := h.mem t
      rw [hC, hE] at hmem
      simpa using hmem
    rw [(loc t).placed.waits, hq]
    rfl
  · exact h.shape (hown.owner_eq ht rfl) ht

end Places

section Refinement
variable {ι : Type*} [DecidableEq ι] {me : ι} {s s' : ObjectMonitor ι} {loc : ι → Pc ι} {pc pc' : Pc ι}

lemma place_update (loc : ι → Pc ι) (me : ι) (pc' : Pc ι) :
    (fun t => (Function.update loc me pc' t).place) = Function.update (fun t => (loc t).place) me pc'.place := by
  funext t
  exact Function.apply_update (fun _ => Pc.place) loc me pc' t

lemma event_update (events : ι → ParkEvent ι) (w : ι) (e : ParkEvent ι) :
    (fun t => (Function.update events w e t).event) =
      Function.update (fun t => (events t).event) w e.event := by
  funext t
  exact Function.apply_update (fun _ => ParkEvent.event) events w e t

/-- A write to a park event, as the protocol sees it. -/
lemma hop_event {w : ι} {e : ParkEvent ι} {p : Place ι}
    (h : Hop me (view s loc) { (view s loc).put me p with
      event := Function.update (view s loc).event w e.event }) :
    Hop me (view s loc) ⟨s.owner, s.succ, s.entryList, Function.update (view s loc).place me p,
      fun t => (Function.update s.parkEvents w e t).event⟩ := by
  rw [event_update]
  exact h

/-- A write to the other fields of a park event is not seen. -/
lemma hop_event_same {w : ι} {e : ParkEvent ι} {p : Place ι} (he : e.event = (s.parkEvents w).event)
    (h : Hop me (view s loc) ((view s loc).put me p)) :
    Hop me (view s loc) { (view s loc).put me p with
      event := Function.update (view s loc).event w e.event } := by
  have hsame : Function.update (view s loc).event w e.event = (view s loc).event := by
    rw [he]
    exact Function.update_eq_self w (view s loc).event
  rw [hsame]
  exact h

/-- `park` and `parkTimed`, as the protocol sees them. -/
lemma ParkStep.hop {q q' : ParkPc} {e : ParkEvent ι} (hs : ParkStep me (s.parkEvents me) q e q')
    (hp : (view s loc).place me = parkPlace q) :
    Hop me (view s loc) { (view s loc).put me (parkPlace q') with
      event := Function.update (view s loc).event me e.event } := by
  cases hs with
  | take h => exact .slept hp h
  | @pass v q' hv he hq =>
    rcases hq with rfl | rfl <;> exact .passed (v - 1) hp (by omega)
  | @negative v hv => exact .failed (v - 1) hp
  | resetEvent => exact .ended hp
  | entryFails | countInFails | lastCheckFails | testPassed =>
    refine hop_event_same rfl ?_
    first | exact .roused (.inl hp) | exact .roused (.inr (.inl hp)) | exact .roused (.inr (.inr hp))
  | relock _ hq =>
    refine hop_event_same rfl ?_
    rcases hq with rfl | rfl
    · exact .roused (.inr (.inl hp))
    · exact .stay _ hp
  | unlock hq =>
    refine hop_event_same rfl ?_
    rcases hq with rfl | rfl <;> exact .stay _ hp
  | _ =>
    refine hop_event_same rfl ?_
    exact .stay _ hp

lemma UnparkStep.hop {w : ι} {q q' : UnparkPc} {e : ParkEvent ι}
    (hs : UnparkStep me (s.parkEvents w) q e q') (hp : (view s loc).place me = unparkPlace w q) :
    Hop me (view s loc) { (view s loc).put me (unparkPlace w q') with
      event := Function.update (view s loc).event w e.event } := by
  cases hs with
  | post => exact .posted w hp
  | claim h => exact .claimed w hp h
  | unlock a =>
    refine hop_event_same rfl ?_
    split
    · exact .stay _ hp
    · exact .signalled w hp
  | signal =>
    refine hop_event_same rfl ?_
    exact .signalled w hp
  | _ =>
    refine hop_event_same rfl ?_
    exact .stay _ hp

/-- Every step of the monitor is a step of the protocol. -/
theorem Step.hop (hs : Step me s pc s' pc') (hpc : loc me = pc) (hown : OwnerOk ⟨s, loc⟩)
    (hl : ListFacts s loc) (hnf : pc' ≠ .fault) :
    Hop me (view s loc) (view s' (Function.update loc me pc')) := by
  have hp : (view s loc).place me = pc.place := congrArg Pc.place hpc
  have hview : view s' (Function.update loc me pc') =
      ⟨s'.owner, s'.succ, s'.entryList, Function.update (view s loc).place me pc'.place,
        fun t => (s'.parkEvents t).event⟩ := by
    rw [view, place_update]
    rfl
  rw [hview]
  cases hs with
  | call => exact .call hp
  | enterWon ho => exact .taken (.inl hp) ho
  | enterLost ho => exact .refused hp ho
  | tryBusy r ho | tryLost r ho =>
    cases r with
    | preSpin k ctr => cases ctr <;> exact .stay _ hp
    | abort k => cases k <;> exact .stay _ hp
    | loop => exact .tired hp ho
    | enterI | push | woken => exact .stay _ hp
  | tryWon r ho =>
    cases r with
    | preSpin k ctr =>
      cases k with
      | futile => exact .inherited (.inr (.inr hp)) ho
      | enter | enterI => exact .taken (.inr (.inl hp)) ho
    | abort k =>
      cases k with
      | futile => exact .inherited (.inr (.inr hp)) ho
      | enter | enterI => exact .taken (.inr (.inl hp)) ho
    | enterI | push => exact .taken (.inr (.inl hp)) ho
    | loop => exact .inherited (.inr (.inl hp)) ho
    | woken => exact .inherited (.inr (.inr hp)) ho
  | bonusFull k | bonusStore k | spinDenied k => cases k <;> exact .stay _ hp
  | spinAdmitted k =>
    cases k with
    | futile => exact .stay _ hp
    | enter | enterI => exact .admitted hp
  | firstSuccTaken k ctr | penaltyNone k ctr | penaltyStore k ctr => cases ctr <;> exact .stay _ hp
  | firstSuccStore k ctr =>
    cases k with
    | futile => cases ctr <;> exact .named .awake hp (.inr rfl)
    | enter | enterI => cases ctr <;> exact .named .spinning hp (.inl rfl)
  | succStore k =>
    cases k with
    | futile => exact .named .awake hp (.inr rfl)
    | enter | enterI => exact .named .spinning hp (.inl rfl)
  | spinWon k ho =>
    cases k with
    | futile => exact .inherited (.inr (.inr hp)) ho
    | enter | enterI => exact .inherited (.inl hp) ho
  | wonOther k hn =>
    cases k with
    | futile => exact .stay _ hp
    | enter | enterI => exact .shed hp hn
  | wonClear k =>
    cases k with
    | futile => exact .cleared .heir .heir hp (.inr (.inr (.inr (.inl ⟨rfl, rfl⟩))))
    | enter | enterI => exact .cleared .heir .holder hp (.inr (.inr (.inr (.inr ⟨rfl, rfl⟩))))
  | abortOther k hn =>
    cases k with
    | futile => exact .stay _ hp
    | enter | enterI => exact .abandoned hp hn
  | abortClear k =>
    cases k with
    | futile => exact .cleared .awake .awake hp (.inr (.inl ⟨rfl, rfl⟩))
    | enter | enterI => exact .cleared .spinning .fresh hp (.inl ⟨rfl, rfl⟩)
  | initCond | initMutex | initNParked =>
    exact hop_event (hop_event_same rfl (.stay _ hp))
  | initEvent => exact hop_event (.reset hp)
  | pushWon nxt =>
    split <;> exact .pushed hp
  | park timed h =>
    rw [afterPark_place]
    exact hop_event (ParkStep.hop h hp)
  | futileOther hn => exact .resumed hp hn
  | futileClear => exact .cleared .awake .drowsy hp (.inr (.inr (.inl ⟨rfl, rfl⟩)))
  | unlinkPrevLast | unlinkSetPrev =>
    rw [unlinkFront_place hnf]
    exact .stay _ hp
  | unlinkSetEntry nxt => exact .worked .heir nxt hp rfl
  | egressOther hn => exact .shed hp hn
  | egressClear => exact .cleared .heir .holder hp (.inr (.inr (.inr (.inr ⟨rfl, rfl⟩))))
  | exitSteal =>
    rw [← hown.owner_eq hpc rfl]
    exact .stay _ hp
  | release => exact .released hp
  | emptyEntry => exact .sawEntry hp
  | emptyBoth hc => exact .sawEmpty hp fun ho he => hl.empty ho he hc
  | emptyNot b => exact .sawSome b hp
  | succNone => exact .noSucc hp
  | succSome hn => exact .someSucc hp hn
  | exitWon ho => exact .taken (.inr (.inr hp)) ho
  | exitLost ho => exact .retakeLost hp ho
  | storeEntry w => cases w <;> exact .worked .holder _ hp rfl
  | drainNext p => cases s.next p <;> exact .stay _ hp
  | epilogSucc w => exact .chosen w hp (hl.wakee me w (.inl hpc))
  | epilogRelease w => exact .dropped w hp (hl.wakee me w (.inr hpc))
  | unpark w h =>
    rw [afterUnpark_place]
    exact hop_event (UnparkStep.hop h hp)
  | walkOff | walkFirst | exitGuaranteeFails | drainGuaranteeFails | drainedGuaranteeFails | stuck =>
    exact absurd rfl hnf
  | _ => exact .stay _ hp

end Refinement

section Runs
variable {ι : Type*} [DecidableEq ι] {c : Config ι (ObjectMonitor ι) (Pc ι)}

lemma reachable_listFacts (h : (objectMonitor ι).Reachable (jvmInitLocks ι) c) :
    ListFacts c.shared c.loc := by
  obtain ⟨C, E, hl⟩ := reachable_lists h
  exact hl.facts (reachable_ownerOk h)

lemma fire_hop (h : (objectMonitor ι).Reachable (jvmInitLocks ι) c) (t : ι) (k : Wakeup) :
    Hop t (view c.shared c.loc)
      (view ((objectMonitor ι).fire t k c).shared ((objectMonitor ι).fire t k c).loc) := by
  have hnf := (reachable_listFacts (h.fire _ t k)).fault t
  rw [Machine.fire_loc_self] at hnf
  exact (step_step t k c.shared (c.loc t)).hop rfl (reachable_ownerOk h) (reachable_listFacts h) hnf

/-- The protocol's invariants hold in every reachable state. -/
theorem reachable_succession (h : (objectMonitor ι).Reachable (jvmInitLocks ι) c) :
    (view c.shared c.loc).Flagged ∧ (view c.shared c.loc).Heralded ∧ (view c.shared c.loc).Attended := by
  induction h with
  | start =>
    refine ⟨fun t ht => ?_, nofun, fun _ ⟨t, ht⟩ => ?_⟩
    · exact absurd ht (lt_irrefl 0)
    · rcases ht with ⟨hp, -⟩ | ⟨hp, -⟩ <;> cases hp
  | fire hc t k _ ih =>
    obtain ⟨hf, hh, ha⟩ := ih
    have hhop := fire_hop hc t k
    exact ⟨hhop.flagged hf, hhop.heralded hh, hhop.attended ha hh (reachable_ownerOk hc).owned⟩

/-- A call that finds the lock taken comes when no unpark of the caller's event is under way. -/
def CallsApart (t : ι) (_k : Wakeup) (c : Config ι (ObjectMonitor ι) (Pc ι)) : Prop :=
  c.loc t = .enterCas → c.shared.owner ≠ none → ∀ z q, c.loc z = .unparking t q → q.underWay = false

/-- In an unpark of the event of `t`, before its return. -/
def Pc.unparks (pc : Pc ι) (t : ι) : Bool :=
  match pc with
  | .unparking u q => u = t && q.underWay
  | _ => false

lemma callsApart_iff {t : ι} {k : Wakeup} {c : Config ι (ObjectMonitor ι) (Pc ι)} : CallsApart t k c ↔
    (c.loc t = .enterCas → c.shared.owner ≠ none → ∀ z, (c.loc z).unparks t = false) := by
  refine forall_congr' fun _ => forall_congr' fun _ => forall_congr' fun z => ?_
  constructor
  · intro h
    cases hz : c.loc z with
    | unparking u q =>
      by_cases hu : u = t
      · subst hu
        simpa [Pc.unparks] using h q hz
      · simp [Pc.unparks, hu]
    | _ => rfl
  · rintro h q hz
    simpa [hz, Pc.unparks] using h

instance {n : ℕ} (t : Fin n) (k : Wakeup) (c : Config (Fin n) (ObjectMonitor (Fin n)) (Pc (Fin n))) :
    Decidable (CallsApart t k c) :=
  decidable_of_iff _ callsApart_iff.symm

theorem reachableUnder_apart
    (h : (objectMonitor ι).ReachableUnder CallsApart (jvmInitLocks ι) c) :
    (view c.shared c.loc).Apart := by
  induction h with
  | start => exact fun z t hz => by cases hz
  | @fire c hc t k hg ih =>
    have hr := hc.reachable
    refine (fire_hop hr t k).apart ih (reachable_succession hr).1 fun hp ho z hz => ?_
    obtain ⟨q, hq, hu⟩ := (c.loc z).placed.signalling t hz
    rw [hg ((c.loc t).placed.calling hp) ho z q hq] at hu
    cases hu

end Runs

section Statements
variable {ι : Type*}

/-- Outside `lock_acquire` and `lock_release`. -/
def Pc.outside : Pc ι → Bool
  | .idle | .critical _ => true
  | _ => false

/-- In `park` or `parkTimed`, from the decrement of `_Event` that found it 0 to the test of
`_Event` that ends the wait. -/
def Pc.parked : Pc ι → Bool
  | .parking _ .mutexLock | .parking _ .countIn | .parking _ .testEvent | .parking _ .condWait
  | .parking _ .blocked | .parking _ (.relock _) => true
  | _ => false

lemma Pc.parked_place {pc : Pc ι} (h : pc.parked = true) : pc.place = .parked := by
  cases pc with
  | parking timed q => cases q <;> first | rfl | cases h
  | _ => cases h

/-- The lock is free, and every thread is outside or sleeps. -/
def Stranded (c : Config ι (ObjectMonitor ι) (Pc ι)) : Prop :=
  c.shared.owner = none ∧
    (∀ t, (c.loc t).outside = true ∨ ((c.loc t).parked = true ∧ (c.shared.parkEvents t).event < 0)) ∧
    ∃ t, (c.loc t).parked = true

/-- In `parkevent_init`. -/
def Pc.initialises : Pc ι → Bool
  | .initCond | .initMutex | .initEvent | .initNParked => true
  | _ => false

lemma Pc.initialises_place {pc : Pc ι} (h : pc.initialises = true) : pc.place = .fresh := by
  cases pc <;> first | rfl | cases h

/-- A thread initialises its park event anew while another thread is between the exchange
and the return of an unpark of it. -/
def ReinitialisedInUse (c : Config ι (ObjectMonitor ι) (Pc ι)) : Prop :=
  ∃ z t q, z ≠ t ∧ c.loc z = .unparking t q ∧ q.underWay = true ∧ (c.loc t).initialises = true

lemma apart_not_reinitialised {c : Config ι (ObjectMonitor ι) (Pc ι)}
    (h : (view c.shared c.loc).Apart) : ¬ ReinitialisedInUse c := by
  rintro ⟨z, t, q, -, hz, hq, ht⟩
  have hsig : (view c.shared c.loc).place z = .signalling t := by
    change (c.loc z).place = .signalling t
    rw [hz]
    cases q <;> first | rfl | cases hq
  have hu : (c.loc t).place.unlisted = false := h z t hsig
  rw [Pc.initialises_place ht] at hu
  cases hu

end Statements

/-- No reachable state leaves the lock free with waiters that nobody is going to wake. -/
theorem objectMonitor_not_stranded {n : ℕ} {c : Config (Fin n) (ObjectMonitor (Fin n)) (Pc (Fin n))}
    (h : (objectMonitor (Fin n)).Reachable (jvmInitLocks (Fin n)) c) : ¬ Stranded c := by
  rintro ⟨ho, hall, t, ht⟩
  have hattended := (reachable_succession h).2.2
  have hasleep {u : Fin n} (hu : (c.loc u).parked = true) (he : (c.shared.parkEvents u).event < 0) :
      (view c.shared c.loc).Asleep u := .inr ⟨Pc.parked_place hu, he⟩
  have hcases (u : Fin n) : c.loc u = .idle ∨ (view c.shared c.loc).Asleep u := by
    rcases hall u with hu | ⟨hu, he⟩
    · cases hpc : c.loc u with
      | idle => exact .inl rfl
      | critical d =>
        -- the holder would be the owner
        have howner := (reachable_ownerOk h).owner_eq hpc rfl
        rw [ho] at howner
        cases howner
      | _ =>
        rw [hpc] at hu
        cases hu
    · exact .inr (hasleep hu he)
  refine hattended.not_stranded ho (fun u => ?_) t ?_
  · rcases hcases u with hu | hu
    · exact .inl (congrArg Pc.place hu)
    · exact .inr hu
  · rcases hcases t with hu | hu
    · rw [hu] at ht
      cases ht
    · exact hu

/-- Thread `b` parks while `a` is inside, then `a` gives the lock up. -/
def parkedBehind {ι : Type*} (a b : ι) : List (ι × Wakeup) :=
  List.replicate 2 (a, .none) ++ List.replicate 46 (b, .none) ++ List.replicate 4 (a, .none)

/-- The lock is free and a waiter sleeps, but the exiting thread is still about. -/
theorem objectMonitor_not_stranded_two :
    ((objectMonitor (Fin 2)).run (jvmInitLocks (Fin 2)) (parkedBehind 0 1)).shared.owner = none ∧
    (((objectMonitor (Fin 2)).run (jvmInitLocks (Fin 2)) (parkedBehind 0 1)).loc 1).parked = true ∧
    (((objectMonitor (Fin 2)).run (jvmInitLocks (Fin 2)) (parkedBehind 0 1)).shared.parkEvents 1).event = -1 ∧
    ¬ Stranded ((objectMonitor (Fin 2)).run (jvmInitLocks (Fin 2)) (parkedBehind 0 1)) :=
  ⟨by decide +kernel, by decide +kernel, by decide +kernel,
    objectMonitor_not_stranded ((objectMonitor (Fin 2)).reachable_run _ _)⟩

/-- A park event is never initialised in use in the runs in which no call finds the lock
taken while an unpark of the caller's event is under way; with two threads all runs are so. -/
theorem parkEvent_not_reinitialised {n : ℕ} {c : Config (Fin n) (ObjectMonitor (Fin n)) (Pc (Fin n))} :
    ((objectMonitor (Fin n)).ReachableUnder CallsApart (jvmInitLocks (Fin n)) c →
      ¬ ReinitialisedInUse c) ∧
    (n ≤ 2 → (objectMonitor (Fin n)).Reachable (jvmInitLocks (Fin n)) c → ¬ ReinitialisedInUse c) := by
  refine ⟨fun h => apart_not_reinitialised (reachableUnder_apart h), fun hn h => ?_⟩
  refine apart_not_reinitialised (reachableUnder_apart (h.under _ fun c t k hc => ?_))
  -- the owner, the caller and the unparker are three threads
  intro hcall ho z q hz
  exfalso
  have hown := reachable_ownerOk hc
  obtain ⟨o, ho⟩ := Option.ne_none_iff_exists'.mp ho
  have hot : o ≠ t := by
    rintro rfl
    have := (hown o).mp ho
    rw [hcall] at this
    cases this
  have hoz : o ≠ z := by
    rintro rfl
    have := (hown o).mp ho
    rw [hz] at this
    cases this
  have hzt : z ≠ t := by
    rintro rfl
    rw [hcall] at hz
    cases hz
  omega

/-- Thread `b` parks behind `a`, which leaves and is about to signal it. -/
def unparkBegun {ι : Type*} (a b : ι) : List (ι × Wakeup) :=
  List.replicate 2 (a, .none) ++ List.replicate 46 (b, .none) ++ List.replicate 23 (a, .none)

/-- Then `b` wakes by itself and takes the lock, and `d` finds it taken. -/
def contended {ι : Type*} (a b d : ι) : List (ι × Wakeup) :=
  unparkBegun a b ++ [(b, .spurious)] ++ List.replicate 16 (b, .none) ++ List.replicate 30 (d, .none)

/-- With three threads, `d` initialises its own event while the unpark of `b` is under way. -/
theorem parkEvent_not_reinitialised_contended :
    ((objectMonitor (Fin 2)).run (jvmInitLocks (Fin 2)) (unparkBegun 0 1)).loc 0 =
      .unparking 1 .mutexLock ∧
    ¬ ReinitialisedInUse ((objectMonitor (Fin 2)).run (jvmInitLocks (Fin 2)) (unparkBegun 0 1)) ∧
    ((objectMonitor (Fin 3)).run (jvmInitLocks (Fin 3)) (contended 0 1 2)).loc 0 = .unparking 1 .mutexLock ∧
    (((objectMonitor (Fin 3)).run (jvmInitLocks (Fin 3)) (contended 0 1 2)).loc 2).initialises = true ∧
    ¬ ReinitialisedInUse ((objectMonitor (Fin 3)).run (jvmInitLocks (Fin 3)) (contended 0 1 2)) :=
  ⟨by decide +kernel,
    parkEvent_not_reinitialised.2 (by decide) ((objectMonitor (Fin 2)).reachable_run _ _),
    by decide +kernel, by decide +kernel,
    parkEvent_not_reinitialised.1 (Machine.ReachableUnder.start.run _ _ (by decide +kernel))⟩

/-- Before `a` signals it, `b` wakes by itself, takes the lock, leaves, and contends again
with `d`. -/
def remade {ι : Type*} (a b d : ι) : List (ι × Wakeup) :=
  unparkBegun a b ++ [(b, .spurious)] ++ List.replicate 22 (b, .none) ++ List.replicate 2 (d, .none) ++
    List.replicate 29 (b, .none)

theorem parkEvent_reinitialised :
    ∃ c, (objectMonitor (Fin 3)).Reachable (jvmInitLocks (Fin 3)) c ∧ ReinitialisedInUse c :=
  ⟨(objectMonitor (Fin 3)).run (jvmInitLocks (Fin 3)) (remade 0 1 2),
    (objectMonitor (Fin 3)).reachable_run _ _, 0, 1, .mutexLock, by decide, by decide +kernel, rfl,
    by decide +kernel⟩

end Lockhammer.JvmMonitor
