import Mathlib.Logic.Function.Basic
import Mathlib.Data.Int.Order.Basic

/-!
# The succession protocol

Who sees to it that a parked thread gets the lock. The protocol is about the owner, the
successor named in `_succ`, the flags of the park events, and the place of each thread: an
exiting thread drops the lock and looks again, unless a successor is named; who is named is
awake, or is about to be woken by the thread that named it.
-/
namespace Lockhammer.Succession

/-- What a thread is about to do.

* `fresh` and `spinning` threads contend and have no node on the lists; only while spinning
  may a thread name itself.
* `drowsy` threads try the lock once more before they park, `dozing` threads are going to
  park unless their flag is 1, `parked` threads sleep while their flag is -1, `rousing`
  threads have been let out of the wait and `awake` threads are back.
* An `heir` owns the lock and may still be named; a `holder` is not.
* An `epilog w` has named `w` and still owns the lock, a `waking w` has dropped it and is
  going to set the flag of `w`, a `signalling w` has set it from -1. -/
inductive Place (ι : Type*)
  | outside
  | calling
  | fresh
  | spinning
  | drowsy
  | dozing
  | parked
  | rousing
  | awake
  | heir
  | holder
  | epilog (w : ι)
  | checkEntry
  | checkCxq (entryNull : Bool)
  | checkSucc
  | retake
  | waking (w : ι)
  | signalling (w : ι)
  deriving DecidableEq, Repr

namespace Place
variable {ι : Type*}

def owns : Place ι → Bool
  | .heir | .holder | .epilog _ => true
  | _ => false

/-- On a list and not the owner. -/
def waits : Place ι → Bool
  | .drowsy | .dozing | .parked | .rousing | .awake => true
  | _ => false

/-- Going to look at `_owner` before anything else can stop it. -/
def restless : Place ι → Bool
  | .calling | .fresh | .spinning | .drowsy | .rousing | .awake => true
  | _ => false

/-- Where `_succ` may name the thread. -/
def named : Place ι → Bool
  | .spinning | .drowsy | .dozing | .parked | .rousing | .awake | .heir => true
  | _ => false

/-- The thread that has been named and not yet woken. -/
def herald : Place ι → Option ι
  | .epilog w | .waking w => some w
  | _ => none

/-- Contending without a node. -/
def unlisted : Place ι → Bool
  | .fresh | .spinning => true
  | _ => false

/-- With the flag possibly at -1. -/
def mayBeNegative : Place ι → Bool
  | .parked | .rousing => true
  | _ => false

end Place

structure View (ι : Type*) where
  owner : Option ι
  succ : Option ι
  entryList : Option ι
  place : ι → Place ι
  event : ι → ℤ

section Steps
variable {ι : Type*} [DecidableEq ι]

def View.put (v : View ι) (t : ι) (p : Place ι) : View ι :=
  { v with place := Function.update v.place t p }

def View.set (v : View ι) (t : ι) (x : ℤ) : View ι :=
  { v with event := Function.update v.event t x }

@[simp] lemma View.put_place_self (v : View ι) (t : ι) (p : Place ι) : (v.put t p).place t = p := by
  simp [View.put]

lemma View.put_place_of_ne (v : View ι) {t u : ι} (h : u ≠ t) (p : Place ι) :
    (v.put t p).place u = v.place u := by simp [View.put, h]

@[simp] lemma View.put_event (v : View ι) (t : ι) (p : Place ι) : (v.put t p).event = v.event := rfl

@[simp] lemma View.set_event_self (v : View ι) (t : ι) (x : ℤ) : (v.set t x).event t = x := by
  simp [View.set]

lemma View.set_event_of_ne (v : View ι) {t u : ι} (h : u ≠ t) (x : ℤ) :
    (v.set t x).event u = v.event u := by simp [View.set, h]

@[simp] lemma View.set_place (v : View ι) (t : ι) (x : ℤ) : (v.set t x).place = v.place := rfl

/-- What one step of `me` can do to the protocol. -/
inductive Hop (me : ι) (v : View ι) : View ι → Prop
  | stay (p : Place ι) (h : v.place me = p) : Hop me v (v.put me p)
  | call (h : v.place me = .outside) : Hop me v (v.put me .calling)
  | refused (h : v.place me = .calling) (ho : v.owner ≠ none) : Hop me v (v.put me .fresh)
  | admitted (h : v.place me = .fresh) : Hop me v (v.put me .spinning)
  | abandoned (h : v.place me = .spinning) (hs : v.succ ≠ some me) : Hop me v (v.put me .fresh)
  | pushed (h : v.place me = .fresh) : Hop me v (v.put me .drowsy)
  | tired (h : v.place me = .drowsy) (ho : v.owner ≠ none) : Hop me v (v.put me .dozing)
  | resumed (h : v.place me = .awake) (hs : v.succ ≠ some me) : Hop me v (v.put me .drowsy)
  | roused (h : v.place me = .dozing ∨ v.place me = .parked ∨ v.place me = .awake) :
      Hop me v (v.put me .rousing)
  | taken (h : v.place me = .calling ∨ v.place me = .fresh ∨ v.place me = .retake) (ho : v.owner = none) :
      Hop me v { v.put me .holder with owner := some me }
  | inherited (h : v.place me = .spinning ∨ v.place me = .drowsy ∨ v.place me = .awake)
      (ho : v.owner = none) : Hop me v { v.put me .heir with owner := some me }
  | shed (h : v.place me = .heir) (hs : v.succ ≠ some me) : Hop me v (v.put me .holder)
  | worked (p : Place ι) (e : Option ι) (h : v.place me = p) (ho : p.owns = true) :
      Hop me v { v.put me p with entryList := e }
  | released (h : v.place me = .holder) : Hop me v { v.put me .checkEntry with owner := none }
  | dropped (w : ι) (h : v.place me = .epilog w) (hw : (v.place w).waits = true) :
      Hop me v { v.put me (.waking w) with owner := none }
  | sawEntry (h : v.place me = .checkEntry) : Hop me v (v.put me (.checkCxq (decide (v.entryList = none))))
  | sawEmpty (h : v.place me = .checkCxq true)
      (hw : v.owner = none → v.entryList = none → ∀ t, (v.place t).waits = false) :
      Hop me v (v.put me .outside)
  | sawSome (b : Bool) (h : v.place me = .checkCxq b) : Hop me v (v.put me .checkSucc)
  | noSucc (h : v.place me = .checkSucc) : Hop me v (v.put me .retake)
  | someSucc (h : v.place me = .checkSucc) (hs : v.succ ≠ none) : Hop me v (v.put me .outside)
  | retakeLost (h : v.place me = .retake) (ho : v.owner ≠ none) : Hop me v (v.put me .outside)
  | named (p : Place ι) (h : v.place me = p) (hp : p = .spinning ∨ p = .awake) :
      Hop me v { v.put me p with succ := some me }
  | cleared (p p' : Place ι) (h : v.place me = p)
      (hp : (p = .spinning ∧ p' = .fresh) ∨ (p = .awake ∧ p' = .awake) ∨ (p = .awake ∧ p' = .drowsy) ∨
        (p = .heir ∧ p' = .heir) ∨ (p = .heir ∧ p' = .holder)) :
      Hop me v { v.put me p' with succ := none }
  | chosen (w : ι) (h : v.place me = .holder) (hw : (v.place w).waits = true) :
      Hop me v { v.put me (.epilog w) with succ := some w }
  | reset (h : v.place me = .fresh) : Hop me v ((v.put me .fresh).set me 0)
  | slept (h : v.place me = .dozing) (he : v.event me = 0) : Hop me v ((v.put me .parked).set me (-1))
  | passed (x : ℤ) (h : v.place me = .dozing) (hx : 0 ≤ x) : Hop me v ((v.put me .awake).set me x)
  | failed (x : ℤ) (h : v.place me = .dozing) : Hop me v ((v.put me .rousing).set me x)
  | ended (h : v.place me = .rousing) : Hop me v ((v.put me .awake).set me 0)
  | posted (w : ι) (h : v.place me = .waking w) : Hop me v ((v.put me .outside).set w 1)
  | claimed (w : ι) (h : v.place me = .waking w) (he : v.event w < 0) :
      Hop me v ((v.put me (.signalling w)).set w 1)
  | signalled (w : ι) (h : v.place me = .signalling w) : Hop me v (v.put me .outside)

end Steps

section Invariants
variable {ι : Type*}

/-- `owner` names the thread at the place of an owner. -/
def View.Owned (v : View ι) : Prop := ∀ t, v.owner = some t ↔ (v.place t).owns = true

/-- Parked, or going to be, with nobody having set its flag. -/
def View.Asleep (v : View ι) (t : ι) : Prop :=
  (v.place t = .dozing ∧ v.event t ≤ 0) ∨ (v.place t = .parked ∧ v.event t < 0)

/-- Asleep, or going to be if it fails to take the lock. -/
def View.Sleepy (v : View ι) (t : ι) : Prop := v.Asleep t ∨ (v.place t = .drowsy ∧ v.event t ≤ 0)

/-- A thread that will take the lock, look for sleepers or wake one. -/
inductive View.Agent (v : View ι) (t : ι) : Prop
  | restless (h : (v.place t).restless = true)
  | flagged (h : v.place t = .dozing ∨ v.place t = .parked) (ha : ¬ v.Asleep t)
  | checkEntry (h : v.place t = .checkEntry)
  | checkCxq (b : Bool) (h : v.place t = .checkCxq b) (hb : b = true → v.entryList = none)
  | checkSucc (h : v.place t = .checkSucc)
  | retake (h : v.place t = .retake)
  | waking (w : ι) (h : v.place t = .waking w) (ha : v.Asleep w)

/-- While the lock is free and somebody sleeps, an agent is about. -/
def View.Attended (v : View ι) : Prop := v.owner = none → (∃ t, v.Asleep t) → ∃ a, v.Agent a

/-- Who is named and sleepy is going to be woken by the thread that named it. -/
def View.Heralded (v : View ι) : Prop := ∀ t, v.succ = some t →
  (v.place t).named = true ∧ (v.Sleepy t → ∃ z, (v.place z).herald = some t)

/-- A flag is -1 only while its thread is in the wait. -/
def View.Flagged (v : View ι) : Prop := ∀ t, v.event t < 0 → (v.place t).mayBeNegative = true

/-- Nobody contends without a node while an unpark of its event is under way. -/
def View.Apart (v : View ι) : Prop := ∀ z t, v.place z = .signalling t → (v.place t).unlisted = false

end Invariants

section Flags
variable {ι : Type*} [DecidableEq ι] {me : ι} {v v' : View ι}

lemma View.Flagged.put (h : v.Flagged) {p : Place ι}
    (hp : (v.place me).mayBeNegative = true → p.mayBeNegative = true) : (v.put me p).Flagged := by
  intro t ht
  by_cases htm : t = me
  · subst htm
    rw [View.put_place_self]
    exact hp (h t ht)
  · rw [View.put_place_of_ne v htm]
    exact h t ht

lemma View.Flagged.set (h : v.Flagged) {t : ι} {x : ℤ} (hx : x < 0 → (v.place t).mayBeNegative = true) :
    (v.set t x).Flagged := by
  intro u hu
  by_cases hut : u = t
  · subst hut
    rw [View.set_event_self] at hu
    exact hx hu
  · rw [View.set_event_of_ne v hut] at hu
    exact h u hu

/-- A thread that sets its own flag as it moves. -/
lemma View.Flagged.putSet (h : v.Flagged) {p : Place ι} {x : ℤ}
    (hx : x < 0 → p.mayBeNegative = true) : ((v.put me p).set me x).Flagged := by
  intro t ht
  by_cases htm : t = me
  · subst htm
    rw [View.set_event_self] at ht
    rw [View.set_place, View.put_place_self]
    exact hx ht
  · rw [View.set_event_of_ne _ htm] at ht
    rw [View.set_place, View.put_place_of_ne v htm]
    exact h t ht

theorem Hop.flagged (hs : Hop me v v') (h : v.Flagged) : v'.Flagged := by
  cases hs with
  | stay p hp => exact h.put fun hn => hp ▸ hn
  | worked p e hp => exact h.put fun hn => hp ▸ hn
  | named p hp => exact h.put fun hn => hp ▸ hn
  | cleared p p' hp hpp =>
    apply h.put
    rw [hp]
    rcases hpp with ⟨rfl, -⟩ | ⟨rfl, -⟩ | ⟨rfl, -⟩ | ⟨rfl, -⟩ | ⟨rfl, -⟩ <;> exact nofun
  | roused => exact h.put fun _ => rfl
  | taken hp | inherited hp =>
    apply h.put
    rcases hp with hp | hp | hp <;> rw [hp] <;> exact nofun
  | reset => exact h.putSet fun hx => absurd hx (by decide)
  | slept => exact h.putSet fun _ => rfl
  | passed x _ hx => exact h.putSet fun hn => absurd hn (not_lt.mpr hx)
  | failed x => exact h.putSet fun _ => rfl
  | ended => exact h.putSet fun hx => absurd hx (by decide)
  | posted w hp | claimed w hp =>
    refine View.Flagged.set (h.put ?_) fun hx => absurd hx (by decide)
    rw [hp]
    exact nofun
  | call hp | refused hp | admitted hp | abandoned hp | pushed hp | tired hp | resumed hp | shed hp
  | released hp | dropped _ hp | sawEntry hp | sawEmpty hp | sawSome _ hp | noSucc hp | someSucc hp
  | retakeLost hp | chosen _ hp | signalled _ hp =>
    apply h.put
    rw [hp]
    exact nofun

lemma View.Apart.put (h : v.Apart) {p : Place ι}
    (hp : p.unlisted = true → (v.place me).unlisted = true ∨ ∀ z, v.place z ≠ .signalling me)
    (hz : ∀ t, p = .signalling t → v.place me = .signalling t) : (v.put me p).Apart := by
  intro z t hzt
  have hzv : v.place z = .signalling t := by
    by_cases hzm : z = me
    · subst hzm
      rw [View.put_place_self] at hzt
      exact hz t hzt
    · rwa [View.put_place_of_ne v hzm] at hzt
  by_cases htm : t = me
  · subst htm
    rw [View.put_place_self]
    have hv := h z t hzv
    by_contra hu
    rcases hp (by simpa using hu) with ht | ht
    · rw [ht] at hv
      cases hv
    · exact ht z hzv
  · rw [View.put_place_of_ne v htm]
    exact h z t hzv

/-- Nobody starts to contend without a node while an unpark of its event is under way, if
that is so at the moment its call finds the lock taken. -/
theorem Hop.apart (hs : Hop me v v') (h : v.Apart) (hf : v.Flagged)
    (hg : v.place me = .calling → v.owner ≠ none → ∀ z, v.place z ≠ .signalling me) : v'.Apart := by
  cases hs with
  | stay p hp => exact h.put (fun hu => .inl (hp ▸ hu)) fun t ht => hp.trans ht
  | worked p e hp => exact h.put (fun hu => .inl (hp ▸ hu)) fun t ht => hp.trans ht
  | named p hp => exact h.put (fun hu => .inl (hp ▸ hu)) fun t ht => hp.trans ht
  | refused hp ho => exact h.put (fun _ => .inr (hg hp ho)) nofun
  | admitted hp | abandoned hp | reset hp => exact h.put (fun _ => .inl (by rw [hp]; rfl)) nofun
  | cleared p p' hp hpp =>
    rcases hpp with ⟨rfl, rfl⟩ | ⟨-, rfl⟩ | ⟨-, rfl⟩ | ⟨-, rfl⟩ | ⟨-, rfl⟩
    · exact h.put (fun _ => .inl (by rw [hp]; rfl)) nofun
    all_goals exact h.put nofun nofun
  | claimed w hp he =>
    intro z t hzt
    have hne : ∀ u, (v.place u).mayBeNegative = true → u ≠ me := by
      rintro u hu rfl
      rw [hp] at hu
      cases hu
    have hw : (v.place w).mayBeNegative = true := hf w he
    rw [View.set_place] at hzt ⊢
    by_cases hzm : z = me
    · subst hzm
      rw [View.put_place_self] at hzt
      cases hzt
      rw [View.put_place_of_ne v (hne _ hw)]
      revert hw
      cases v.place w <;> first | exact fun _ => rfl | exact nofun
    · rw [View.put_place_of_ne v hzm] at hzt
      by_cases htm : t = me
      · rw [htm, View.put_place_self]
        rfl
      · rw [View.put_place_of_ne v htm]
        exact h z t hzt
  | _ => exact h.put nofun nofun

end Flags

section Named
variable {ι : Type*} {v v' : View ι}

lemma View.sleepy_congr {t : ι} (hp : v'.place t = v.place t) (he : v'.event t = v.event t) :
    v'.Sleepy t ↔ v.Sleepy t := by
  unfold View.Sleepy View.Asleep
  rw [hp, he]

lemma View.not_sleepy {t : ι} (h : (v.place t).waits = true → (v.place t).restless = true)
    (hd : v.place t ≠ .drowsy) : ¬ v.Sleepy t := by
  rintro ((⟨hp, -⟩ | ⟨hp, -⟩) | ⟨hp, -⟩)
  · rw [hp] at h
    cases h rfl
  · rw [hp] at h
    cases h rfl
  · exact hd hp

/-- Who has its flag set is not going to sleep. -/
lemma View.not_sleepy_of_event {t : ι} (h : v.event t = 1) : ¬ v.Sleepy t := by
  rintro ((⟨-, he⟩ | ⟨-, he⟩) | ⟨-, he⟩) <;> omega

/-- A step of `me` that keeps the name. The others sleep no more than before, and whom they
are going to be woken by is still about. -/
lemma View.Heralded.of (h : v.Heralded) (me : ι) (hsucc : v'.succ = v.succ)
    (hplace : ∀ t, t ≠ me → v'.place t = v.place t) (hsleepy : ∀ t, t ≠ me → v'.Sleepy t → v.Sleepy t)
    (hme : v.succ = some me → (v'.place me).named = true ∧ (v'.Sleepy me → v.Sleepy me))
    (hz : ∀ t, v'.Sleepy t → (v.place me).herald = some t → (v'.place me).herald = some t) :
    v'.Heralded := by
  intro t ht
  rw [hsucc] at ht
  obtain ⟨hn, hs⟩ := h t ht
  have hback : v'.Sleepy t → v.Sleepy t := by
    by_cases htm : t = me
    · subst htm
      exact (hme ht).2
    · exact hsleepy t htm
  refine ⟨?_, fun hs' => ?_⟩
  · by_cases htm : t = me
    · subst htm
      exact (hme ht).1
    · rw [hplace t htm]
      exact hn
  · obtain ⟨z, hzt⟩ := hs (hback hs')
    refine ⟨z, ?_⟩
    by_cases hzm : z = me
    · subst hzm
      exact hz t hs' hzt
    · rw [hplace z hzm]
      exact hzt

lemma View.Heralded.not_named (h : v.Heralded) {t : ι} (ht : (v.place t).named = false) :
    v.succ ≠ some t := by
  intro hs
  rw [(h t hs).1] at ht
  cases ht

variable [DecidableEq ι] {me : ι}

lemma View.Heralded.put (h : v.Heralded) {p : Place ι}
    (hme : v.succ = some me → p.named = true ∧ ((v.put me p).Sleepy me → v.Sleepy me))
    (hz : ∀ t, (v.place me).herald = some t → p.herald = some t) : (v.put me p).Heralded := by
  refine h.of me rfl (fun t ht => View.put_place_of_ne v ht p) (fun t ht => ?_) ?_ ?_
  · exact (View.sleepy_congr (View.put_place_of_ne v ht p) rfl).mp
  · rwa [View.put_place_self]
  · rw [View.put_place_self]
    exact fun t _ => hz t

lemma View.Heralded.putSame (h : v.Heralded) {p : Place ι} (hp : v.place me = p) :
    (v.put me p).Heralded := by
  have hsame : (v.put me p).place me = v.place me := by rw [View.put_place_self, hp]
  refine h.put (fun hn => ⟨hp ▸ (h me hn).1, ?_⟩) fun t ht => hp ▸ ht
  exact (View.sleepy_congr hsame rfl).mp

/-- A thread that sets its own flag as it moves. -/
lemma View.Heralded.putSet (h : v.Heralded) {p : Place ι} {x : ℤ}
    (hme : v.succ = some me → p.named = true ∧ (((v.put me p).set me x).Sleepy me → v.Sleepy me))
    (hz : (v.place me).herald = none) : ((v.put me p).set me x).Heralded := by
  refine h.of me rfl (fun t ht => View.put_place_of_ne v ht p) (fun t ht => ?_) ?_ ?_
  · have hp : ((v.put me p).set me x).place t = v.place t := View.put_place_of_ne v ht p
    exact (View.sleepy_congr hp (View.set_event_of_ne (v.put me p) ht x)).mp
  · rwa [View.set_place, View.put_place_self]
  · intro t _ ht
    rw [hz] at ht
    cases ht

/-- A thread sets the flag of the one it has named. -/
lemma View.Heralded.wake (h : v.Heralded) {w : ι} {p : Place ι} (hw : v.place me = .waking w) :
    ((v.put me p).set w 1).Heralded := by
  have hnot : ¬ ((v.put me p).set w 1).Sleepy w := View.not_sleepy_of_event (View.set_event_self _ w 1)
  refine h.of me rfl (fun t ht => View.put_place_of_ne v ht p) (fun t ht hs => ?_) (fun hs => ?_) ?_
  · have htw : t ≠ w := fun e => hnot (e ▸ hs)
    have hp : ((v.put me p).set w 1).place t = v.place t := View.put_place_of_ne v ht p
    exact (View.sleepy_congr hp (View.set_event_of_ne (v.put me p) htw 1)).mp hs
  · exact absurd hs (h.not_named (by rw [hw]; rfl))
  · intro t hs ht
    rw [hw] at ht
    cases ht
    exact absurd hs hnot

theorem Hop.heralded (hs : Hop me v v') (h : v.Heralded) : v'.Heralded := by
  cases hs with
  | stay p hp => exact h.putSame hp
  | worked p e hp => exact h.putSame hp
  | abandoned hp hn | resumed hp hn | shed hp hn =>
    exact h.put (fun hs => absurd hs hn) (by rw [hp]; exact nofun)
  | tired hp =>
    refine h.put (fun _ => ⟨rfl, fun hs => .inr ⟨hp, ?_⟩⟩) (by rw [hp]; exact nofun)
    rcases hs with (⟨-, he⟩ | ⟨hq, -⟩) | ⟨hq, -⟩
    · exact he
    · rw [View.put_place_self] at hq
      cases hq
    · rw [View.put_place_self] at hq
      cases hq
  | roused hp =>
    refine h.put (fun _ => ⟨rfl, fun hs => ?_⟩) ?_
    · exact absurd hs (View.not_sleepy (by simp [Place.restless]) (by simp))
    · rcases hp with hp | hp | hp <;> rw [hp] <;> exact nofun
  | taken hp =>
    refine h.put (fun hs => absurd hs (h.not_named ?_)) ?_
    · rcases hp with hp | hp | hp <;> rw [hp] <;> rfl
    · rcases hp with hp | hp | hp <;> rw [hp] <;> exact nofun
  | inherited hp =>
    refine h.put (fun _ => ⟨rfl, fun hs => ?_⟩) ?_
    · exact absurd hs (View.not_sleepy (by simp [Place.waits]) (by simp))
    · rcases hp with hp | hp | hp <;> rw [hp] <;> exact nofun
  | dropped w hp =>
    refine h.put (fun hs => absurd hs (h.not_named (by rw [hp]; rfl))) ?_
    rw [hp]
    exact fun t ht => ht
  | named p hp hpp =>
    rintro t ht
    obtain rfl : me = t := Option.some.inj ht
    have hplace : (v.put me p).place me = p := View.put_place_self v me p
    refine ⟨?_, fun hs => ?_⟩
    · change ((v.put me p).place me).named = true
      rw [hplace]
      rcases hpp with rfl | rfl <;> rfl
    · refine absurd (show (v.put me p).Sleepy me from hs) (View.not_sleepy ?_ ?_)
      · rw [hplace]
        rcases hpp with rfl | rfl <;> simp [Place.restless]
      · rw [hplace]
        rcases hpp with rfl | rfl <;> exact nofun
  | cleared p p' hp hpp => exact nofun
  | chosen w hp hw =>
    rintro t ht
    obtain rfl : w = t := Option.some.inj ht
    have hwm : w ≠ me := by
      rintro rfl
      rw [hp] at hw
      cases hw
    refine ⟨?_, fun _ => ⟨me, ?_⟩⟩
    · change ((v.put me (.epilog w)).place w).named = true
      rw [View.put_place_of_ne v hwm]
      revert hw
      cases v.place w <;> first | exact fun _ => rfl | exact nofun
    · change ((v.put me (.epilog w)).place me).herald = some w
      rw [View.put_place_self]
      rfl
  | reset hp =>
    exact h.putSet (fun hs => absurd hs (h.not_named (by rw [hp]; rfl))) (by rw [hp]; rfl)
  | slept hp he =>
    refine h.putSet (fun _ => ⟨rfl, fun _ => .inl (.inl ⟨hp, ?_⟩)⟩) (by rw [hp]; rfl)
    rw [he]
  | passed x hp | failed x hp =>
    refine h.putSet (fun _ => ⟨rfl, fun hs => ?_⟩) (by rw [hp]; rfl)
    exact absurd hs (View.not_sleepy (by simp [Place.restless]) (by simp))
  | ended hp =>
    refine h.putSet (fun _ => ⟨rfl, fun hs => ?_⟩) (by rw [hp]; rfl)
    exact absurd hs (View.not_sleepy (by simp [Place.restless]) (by simp))
  | posted w hp | claimed w hp => exact h.wake hp
  | call hp | refused hp | admitted hp | pushed hp | released hp | sawEntry hp | sawEmpty hp
  | sawSome _ hp | noSucc hp | someSucc hp | retakeLost hp | signalled _ hp =>
    refine h.put (fun hs => absurd hs (h.not_named (by rw [hp]; rfl))) ?_
    rw [hp]
    exact nofun

end Named

section Agents
variable {ι : Type*} {v v' : View ι}

lemma View.asleep_congr {t : ι} (hp : v'.place t = v.place t) (he : v'.event t = v.event t) :
    v'.Asleep t ↔ v.Asleep t := by
  unfold View.Asleep
  rw [hp, he]

lemma View.Asleep.waits {t : ι} (h : v.Asleep t) : (v.place t).waits = true := by
  rcases h with ⟨hp, -⟩ | ⟨hp, -⟩ <;> rw [hp] <;> rfl

/-- Who waits is asleep or an agent. -/
lemma View.agent_of_waits {t : ι} (h : (v.place t).waits = true) (ha : ¬ v.Asleep t) : v.Agent t := by
  cases hp : v.place t with
  | dozing => exact .flagged (.inl hp) ha
  | parked => exact .flagged (.inr hp) ha
  | drowsy | rousing | awake =>
    refine .restless ?_
    rw [hp]
    rfl
  | _ =>
    rw [hp] at h
    cases h

lemma View.Attended.of_owner (h : v.owner ≠ none) : v.Attended := fun ho => absurd ho h

lemma View.Attended.of_agent {t : ι} (h : v.Agent t) : v.Attended := fun _ _ => ⟨t, h⟩

section
variable {t : ι} (h : v.Agent t)
include h

lemma View.Agent.not_asleep : ¬ v.Asleep t := by
  intro hs
  cases h with
  | flagged _ hn => exact hn hs
  | restless hu | checkEntry hu | checkCxq _ hu | checkSucc hu | retake hu | waking _ hu =>
    rcases hs with ⟨hp, -⟩ | ⟨hp, -⟩ <;> rw [hp] at hu <;> cases hu

lemma View.Agent.not_outside : v.place t ≠ .outside := by
  intro hp
  cases h with
  | flagged hu =>
    rw [hp] at hu
    rcases hu with hu | hu <;> cases hu
  | restless hu | checkEntry hu | checkCxq _ hu | checkSucc hu | retake hu | waking _ hu =>
    rw [hp] at hu
    cases hu

lemma View.Agent.not_signalling (w : ι) : v.place t ≠ .signalling w := by
  intro hp
  cases h with
  | flagged hu =>
    rw [hp] at hu
    rcases hu with hu | hu <;> cases hu
  | restless hu | checkEntry hu | checkCxq _ hu | checkSucc hu | retake hu | waking _ hu =>
    rw [hp] at hu
    cases hu

lemma View.Agent.entryList_eq (hp : v.place t = .checkCxq true) : v.entryList = none := by
  cases h with
  | checkCxq b hb hnull =>
    rw [hp] at hb
    cases hb
    exact hnull rfl
  | flagged hu =>
    rw [hp] at hu
    rcases hu with hu | hu <;> cases hu
  | restless hu | checkEntry hu | checkSucc hu | retake hu | waking _ hu =>
    rw [hp] at hu
    cases hu

lemma View.Agent.wakee {w : ι} (hp : v.place t = .waking w) : v.Asleep w := by
  cases h with
  | waking u hu hs =>
    rw [hp] at hu
    cases hu
    exact hs
  | flagged hu =>
    rw [hp] at hu
    rcases hu with hu | hu <;> cases hu
  | restless hu | checkEntry hu | checkCxq _ hu | checkSucc hu | retake hu =>
    rw [hp] at hu
    cases hu

/-- An agent stays one while its place is the same and those it is to wake still sleep. -/
lemma View.Agent.of (hplace : v'.place t = v.place t) (hentry : v'.entryList = v.entryList)
    (hs : v'.Asleep t → v.Asleep t) (hw : ∀ w, v.place t = .waking w → v.Asleep w → v'.Asleep w) :
    v'.Agent t := by
  cases h with
  | restless hu => exact .restless (hplace ▸ hu)
  | flagged hu hn => exact .flagged (hplace ▸ hu) fun hs' => hn (hs hs')
  | checkEntry hu => exact .checkEntry (hplace ▸ hu)
  | checkCxq b hu hb => exact .checkCxq b (hplace ▸ hu) (hentry ▸ hb)
  | checkSucc hu => exact .checkSucc (hplace ▸ hu)
  | retake hu => exact .retake (hplace ▸ hu)
  | waking w hu hws => exact .waking w (hplace ▸ hu) (hw w hu hws)

end

/-- Somebody named is up, or its waker is. -/
lemma View.Heralded.agent (h : v.Heralded) (hown : v.Owned) (ho : v.owner = none) {t : ι}
    (hs : v.succ = some t) :
    ∃ a, v.Agent a ∧ ((v.place a).named = true ∨ (v.place a).herald ≠ none) := by
  obtain ⟨hn, hz⟩ := h t hs
  have hfree (u : ι) : (v.place u).owns = false := by
    by_contra hu
    have := (hown u).mpr (by simpa using hu)
    rw [ho] at this
    cases this
  by_cases ha : v.Asleep t
  · obtain ⟨z, hz⟩ := hz (.inl ha)
    cases hp : v.place z with
    | epilog w =>
      have := hfree z
      rw [hp] at this
      cases this
    | waking w =>
      rw [hp] at hz
      cases hz
      exact ⟨z, .waking t hp ha, .inr (by rw [hp]; exact nofun)⟩
    | _ =>
      rw [hp] at hz
      cases hz
  · refine ⟨t, ?_, .inl hn⟩
    cases hp : v.place t with
    | spinning =>
      refine .restless ?_
      rw [hp]
      rfl
    | drowsy | dozing | parked | rousing | awake =>
      refine View.agent_of_waits ?_ ha
      rw [hp]
      rfl
    | heir =>
      have := hfree t
      rw [hp] at this
      cases this
    | _ =>
      rw [hp] at hn
      cases hn

/-- The lock is never free with every thread outside or asleep and somebody asleep. -/
theorem View.Attended.not_stranded (h : v.Attended) (ho : v.owner = none)
    (hall : ∀ t, v.place t = .outside ∨ v.Asleep t) (t : ι) : ¬ v.Asleep t := by
  intro ht
  obtain ⟨a, ha⟩ := h ho ⟨t, ht⟩
  rcases hall a with hp | hs
  · exact ha.not_outside hp
  · exact ha.not_asleep hs

variable [DecidableEq ι] {me : ι}

lemma View.put_self (v : View ι) (t : ι) : v.put t (v.place t) = v := by simp [View.put]

lemma View.asleep_put {p : Place ι} {t : ι} (ht : t ≠ me) : (v.put me p).Asleep t ↔ v.Asleep t :=
  View.asleep_congr (View.put_place_of_ne v ht p) rfl

/-- An agent stays one when another thread moves that is not asleep. -/
lemma View.Agent.put {a : ι} {p : Place ι} (h : v.Agent a) (ha : a ≠ me) (hme : ¬ v.Asleep me) :
    (v.put me p).Agent a := by
  refine h.of (View.put_place_of_ne v ha p) rfl (View.asleep_put ha).mp fun w _ hw => ?_
  have hwm : w ≠ me := fun e => hme (e ▸ hw)
  exact (View.asleep_put hwm).mpr hw

/-- A thread moves away that was not the only agent. -/
lemma View.Attended.put (h : v.Attended) {p : Place ι} (hw : (v.place me).waits = false)
    (hp : p.waits = false)
    (hother : v.owner = none → (∃ t, v.Asleep t) → v.Agent me → ∃ a, a ≠ me ∧ v.Agent a) :
    (v.put me p).Attended := by
  have hme : ¬ v.Asleep me := fun hs => by
    rw [hs.waits] at hw
    cases hw
  rintro ho ⟨t, ht⟩
  have htm : t ≠ me := by
    rintro rfl
    have hwaits := ht.waits
    rw [View.put_place_self, hp] at hwaits
    cases hwaits
  have hex : ∃ t, v.Asleep t := ⟨t, (View.asleep_put htm).mp ht⟩
  obtain ⟨a, ha⟩ := h ho hex
  by_cases ham : a = me
  · subst ham
    obtain ⟨b, hbm, hb⟩ := hother ho hex ha
    exact ⟨b, hb.put hbm hme⟩
  · exact ⟨a, ha.put ham hme⟩

/-- A thread wakes the one it has named. -/
lemma View.Attended.wake (h : v.Attended) {w : ι} {p : Place ι} (hw : v.place me = .waking w)
    (hp : p.waits = false) : ((v.put me p).set w 1).Attended := by
  have hup : ¬ ((v.put me p).set w 1).Asleep w := by
    rintro (⟨-, he⟩ | ⟨-, he⟩) <;> rw [View.set_event_self] at he <;> omega
  have hme : (v.place me).waits = false := by rw [hw]; rfl
  have hplace {t : ι} (ht : t ≠ me) : ((v.put me p).set w 1).place t = v.place t :=
    View.put_place_of_ne v ht p
  have hsame {t : ι} (ht : t ≠ me) (htw : t ≠ w) : ((v.put me p).set w 1).Asleep t ↔ v.Asleep t :=
    View.asleep_congr (hplace ht) (View.set_event_of_ne (v.put me p) htw 1)
  -- if the woken thread waits, it is the agent
  by_cases hwaits : (v.place w).waits = true
  · have hwm : w ≠ me := by
      rintro rfl
      rw [hme] at hwaits
      cases hwaits
    exact .of_agent (View.agent_of_waits (by rw [hplace hwm]; exact hwaits) hup)
  · have hnot : ¬ v.Asleep w := fun hs => hwaits hs.waits
    rintro ho ⟨t, ht⟩
    have htm : t ≠ me := by
      rintro rfl
      have := ht.waits
      rw [View.set_place, View.put_place_self, hp] at this
      cases this
    have htw : t ≠ w := fun e => hup (e ▸ ht)
    obtain ⟨a, ha⟩ := h ho ⟨t, (hsame htm htw).mp ht⟩
    have ham : a ≠ me := fun e => hnot (ha.wakee (e ▸ hw))
    refine ⟨a, ha.of (hplace ham) rfl (fun hs => ?_) fun u _ hs => ?_⟩
    · have haw : a ≠ w := fun e => hup (e ▸ hs)
      exact (hsame ham haw).mp hs
    · have huw : u ≠ w := fun e => hnot (e ▸ hs)
      have hum : u ≠ me := by
        rintro rfl
        have := hs.waits
        rw [hme] at this
        cases this
      exact (hsame hum huw).mpr hs

/-- A thread goes to sleep that was going to. -/
lemma View.Attended.sleep (h : v.Attended) (hp : v.place me = .dozing) (he : v.event me = 0) :
    ((v.put me .parked).set me (-1)).Attended := by
  have hplace {t : ι} (ht : t ≠ me) : ((v.put me .parked).set me (-1)).place t = v.place t :=
    View.put_place_of_ne v ht _
  have hself : ((v.put me .parked).set me (-1)).Asleep me := by
    refine .inr ⟨View.put_place_self v me _, ?_⟩
    rw [View.set_event_self]
    decide
  have hbefore : v.Asleep me := .inl ⟨hp, le_of_eq he⟩
  have hsame (t : ι) : ((v.put me .parked).set me (-1)).Asleep t ↔ v.Asleep t := by
    by_cases ht : t = me
    · subst ht
      exact iff_of_true hself hbefore
    · exact View.asleep_congr (hplace ht) (View.set_event_of_ne (v.put me .parked) ht _)
  intro ho _
  obtain ⟨a, ha⟩ := h ho ⟨me, hbefore⟩
  have ham : a ≠ me := fun e => ha.not_asleep (e ▸ hbefore)
  exact ⟨a, ha.of (hplace ham) rfl (hsame a).mp fun w _ => (hsame w).mpr⟩

theorem Hop.attended (hs : Hop me v v') (h : v.Attended) (hh : v.Heralded) (hown : v.Owned) :
    v'.Attended := by
  have howner {p : Place ι} (hp : v.place me = p) (ho : p.owns = true) : v.owner ≠ none := by
    rw [(hown me).mpr (hp ▸ ho)]
    exact nofun
  have hput (p : Place ι) : (v.put me p).place me = p := View.put_place_self v me p
  cases hs with
  | stay p hp =>
    rw [← hp, View.put_self]
    exact h
  | call | admitted | abandoned | pushed | resumed | roused =>
    refine .of_agent (t := me) (.restless ?_)
    rw [hput]
    rfl
  | reset | passed | failed | ended =>
    refine .of_agent (t := me) (.restless ?_)
    rw [View.set_place, hput]
    rfl
  | refused _ ho | tired _ ho | retakeLost _ ho => exact .of_owner ho
  | taken | inherited => exact .of_owner nofun
  | worked p e hp ho => exact .of_owner (howner hp ho)
  | shed hp => exact .of_owner (howner hp rfl)
  | chosen w hp => exact .of_owner (howner hp rfl)
  | named p hp hpp =>
    refine .of_agent (t := me) (.restless ?_)
    change ((v.put me p).place me).restless = true
    rw [hput]
    rcases hpp with rfl | rfl <;> rfl
  | cleared p p' hp hpp =>
    have hrest (hr : p'.restless = true) : View.Attended { v.put me p' with succ := none } := by
      refine .of_agent (t := me) (.restless ?_)
      change ((v.put me p').place me).restless = true
      rw [hput]
      exact hr
    rcases hpp with ⟨-, rfl⟩ | ⟨-, rfl⟩ | ⟨-, rfl⟩ | ⟨rfl, -⟩ | ⟨rfl, -⟩
    · exact hrest rfl
    · exact hrest rfl
    · exact hrest rfl
    · exact .of_owner (howner hp rfl)
    · exact .of_owner (howner hp rfl)
  | released hp => exact .of_agent (t := me) (.checkEntry (hput _))
  | dropped w hp hw =>
    have hwm : w ≠ me := by
      rintro rfl
      rw [hp] at hw
      cases hw
    by_cases ha : v.Asleep w
    · exact .of_agent (t := me) (.waking w (hput _) ((View.asleep_put hwm).mpr ha))
    · refine .of_agent (t := w) (View.agent_of_waits ?_ fun hs => ha ((View.asleep_put hwm).mp hs))
      change ((v.put me (.waking w)).place w).waits = true
      rw [View.put_place_of_ne v hwm]
      exact hw
  | sawEntry hp => exact .of_agent (t := me) (.checkCxq _ (hput _) of_decide_eq_true)
  | sawEmpty hp hw =>
    refine h.put (by rw [hp]; rfl) rfl fun ho ⟨t, ht⟩ ha => ?_
    have hnone := hw ho (ha.entryList_eq hp) t
    rw [ht.waits] at hnone
    cases hnone
  | sawSome b hp => exact .of_agent (t := me) (.checkSucc (hput _))
  | noSucc hp => exact .of_agent (t := me) (.retake (hput _))
  | someSucc hp hs =>
    refine h.put (by rw [hp]; rfl) rfl fun ho _ _ => ?_
    obtain ⟨t, ht⟩ := Option.ne_none_iff_exists'.mp hs
    obtain ⟨a, ha, hplace⟩ := hh.agent hown ho ht
    refine ⟨a, ?_, ha⟩
    rintro rfl
    rw [hp] at hplace
    rcases hplace with hplace | hplace
    · cases hplace
    · exact hplace rfl
  | slept hp he => exact h.sleep hp he
  | posted w hp | claimed w hp => exact h.wake hp rfl
  | signalled w hp =>
    exact h.put (by rw [hp]; rfl) rfl fun _ _ ha => absurd hp (ha.not_signalling w)

end Agents

end Lockhammer.Succession
