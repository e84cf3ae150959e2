import Lockhammer.Interleaving.Ownership
import Lockhammer.Interleaving.RetryLoop
import Lockhammer.Mysql.EventMutex
import Lockhammer.Mysql.CasEventMutex

/-!
# Mutual exclusion of the event mutexes

However signals get lost, the lock word always tells whether somebody is between an acquire and
its release. This needs no condition on the run, and it holds for every body of the
test-and-set: the exchange, the exchange as a loop, and the single store-exclusive.
-/
namespace Lockhammer.EventMutex
open Interleaving

/-- The two words of the mutex. -/
inductive Cell
  | lock
  | evGeneration
  deriving DecidableEq

def Shared.read (s : Shared) : Cell → Word
  | .lock => s.lock
  | .evGeneration => s.evGeneration

def Shared.write (s : Shared) : Cell → Word → Shared
  | .lock, v => { s with lock := v }
  | .evGeneration, v => { s with evGeneration := v }

/-- `swap64` without LSE, and how its caller goes on with what it returns. -/
def swapLoop (val : Word) (next : Word → Pc) : Rmw Cell Word Unit Pc :=
  ⟨.exclusive, .lock, fun _ => true, fun old => (swap64 old val).2, fun _ => next⟩

def tasLoop (lost : Pc) : Rmw Cell Word Unit Pc :=
  swapLoop stateLocked fun old => if (tasLock old).1 = true then .critical else lost

/-- The exchanges of the mutex. -/
def exclusiveLoop : Pc → Option (Rmw Cell Word Unit Pc)
  | .tryFirst => some (tasLoop (.isFree 0 maxSpins₀))
  | .tryFree nSpins maxSpins => some (tasLoop (.isFree nSpins maxSpins))
  | .tryLast nSpins maxSpins waitState => some (tasLoop (.poll nSpins maxSpins waitState))
  | .unlock => some (swapLoop stateUnlocked fun _ => .signalRead)
  | _ => none

def loops (n : ℕ) : Loops (machine n) Cell Word where
  read := Shared.read
  write := Shared.write
  loop _ := exclusiveLoop
  touched _ p l := match p, l with
    | .signalWrite _, .evGeneration => true
    | _, _ => false
  read_write_of_ne := by
    intro l l' h s v
    cases l <;> cases l' <;> first | rfl | exact absurd rfl h
  obeys := by
    rintro i p ⟨⟩ s
    cases p with
    | tryFirst => exact ⟨rfl, fun h => by cases h⟩
    | tryFree nSpins maxSpins => exact ⟨rfl, fun h => by cases h⟩
    | tryLast nSpins maxSpins waitState => exact ⟨rfl, fun h => by cases h⟩
    | unlock => exact ⟨rfl, fun h => by cases h⟩
    | isFree nSpins maxSpins =>
      intro l _
      simp only [machine, step]
      split
      · rfl
      · split <;> rfl
    | poll nSpins maxSpins waitState =>
      intro l _
      simp only [machine, step]
      split <;> rfl
    | signalWrite version =>
      intro l hl
      cases l with
      | lock => rfl
      | evGeneration => cases hl
    | _ => exact fun _ _ => rfl

def Free (s : Shared) : Prop := s.lock = stateUnlocked

variable {n : ℕ} {c : Config (Fin n) Shared Pc} {t : Fin n}

/-- A test-and-set takes the free lock, or leaves the lock taken. -/
lemma handles_tas {s : Shared} {p lost : Pc} (hp : p.holding = false) (hlost : lost.holding = false) :
    Handles Free Pc.holding s p { s with lock := (tasLock s.lock).2 }
      (if (tasLock s.lock).1 = true then .critical else lost) := by
  have hlocked : ¬ Free { s with lock := (tasLock s.lock).2 } := by
    change stateLocked ≠ stateUnlocked
    decide
  by_cases hfree : s.lock = stateUnlocked
  · have hgot : (tasLock s.lock).1 = true := by simp [tasLock, swap64, hfree]
    rw [if_pos hgot]
    exact .takes hfree hlocked rfl
  · have hlose : ¬ (tasLock s.lock).1 = true := by simp [tasLock, swap64, hfree]
    rw [if_neg hlose]
    exact .keeps (iff_of_false hlocked hfree) (hlost.trans hp.symm)

theorem step_owned (h : Owned Free Pc.holding c) (t : Fin n) :
    Owned Free Pc.holding ((machine n).fire t () c) := by
  refine h.fire (s := (step c.shared (c.loc t)).1) (p := (step c.shared (c.loc t)).2) rfl ?_
  cases hpc : c.loc t with
  | tryFirst => exact handles_tas rfl rfl
  | tryFree i m => exact handles_tas rfl rfl
  | tryLast i m w => exact handles_tas rfl rfl
  | isFree i m =>
    simp only [step]
    split
    · exact .keeps Iff.rfl rfl
    · split <;> exact .keeps Iff.rfl rfl
  | poll i m w =>
    simp only [step]
    split <;> exact .keeps Iff.rfl rfl
  | unlock => exact .frees rfl rfl rfl
  | _ => exact .keeps Iff.rfl rfl

lemma reachable_owned (h : (machine n).Reachable (start n) c) : Owned Free Pc.holding c :=
  h.invariant (machine n) (.of_free rfl fun _ => rfl) fun _ t _ ho => step_owned ho t

end Lockhammer.EventMutex

namespace Lockhammer.CasEventMutex
open Interleaving

def Free {n : ℕ} (s : Shared n) : Prop := s.lock.val = stateUnlocked

/-- Between the load-exclusive and the store-exclusive a reservation is one of the free lock. -/
structure Guarded {n : ℕ} (c : Config (Fin n) (Shared n) Pc) : Prop where
  owned : Owned Free Pc.holding c
  reserved : ∀ t, (c.loc t).trying = true → c.shared.lock.reserved t = true → Free c.shared

variable {n : ℕ} {body : Body} {c : Config (Fin n) (Shared n) Pc} {t : Fin n} {fails : Bool}

lemma start_guarded (n : ℕ) : Guarded (start n) :=
  ⟨.of_free rfl fun _ => rfl, fun t ht => by cases ht⟩

/-- What has to be shown of one step: what it does with the lock, and that no reservation
outlives the free lock. -/
lemma Guarded.fire (h : Guarded c) {s : Shared n} {p : Pc}
    (hs : step body t fails c.shared (c.loc t) = (s, p))
    (hdoes : Handles Free Pc.holding c.shared (c.loc t) s p)
    (hown : p.trying = true → s.lock.reserved t = true → Free s)
    (hother : ∀ u, u ≠ t → s.lock.reserved u = true → c.shared.lock.reserved u = true ∧
      (Free c.shared → Free s)) : Guarded ((machine n body).fire t fails c) := by
  refine ⟨h.owned.fire hs hdoes, fun u hu hr => ?_⟩
  rw [Machine.fire_shared_eq (machine n body) hs] at hr ⊢
  rw [Machine.fire_loc_eq (machine n body) hs] at hu
  by_cases he : u = t
  · subst he
    rw [if_pos rfl] at hu
    exact hown hu hr
  · rw [if_neg he] at hu
    obtain ⟨hr', hfree⟩ := hother u he hr
    exact hfree (h.reserved u hu hr')

lemma Guarded.quiet (h : Guarded c) {p : Pc} (hs : step body t fails c.shared (c.loc t) = (c.shared, p))
    (hhold : p.holding = (c.loc t).holding) (htry : p.trying = false) :
    Guarded ((machine n body).fire t fails c) := by
  refine h.fire hs (.keeps Iff.rfl hhold) (fun ht => ?_) fun u _ hr => ⟨hr, id⟩
  rw [htry] at ht
  cases ht

/-- A plain store ends all reservations. -/
lemma Guarded.stored (h : Guarded c) {v : Word} {s : Shared n} {p : Pc}
    (hs : step body t fails c.shared (c.loc t) = (s, p)) (hlock : s.lock = c.shared.lock.store v)
    (hdoes : Handles Free Pc.holding c.shared (c.loc t) s p) :
    Guarded ((machine n body).fire t fails c) := by
  refine h.fire hs hdoes (fun _ hr => ?_) fun u _ hr => ?_
  · rw [hlock] at hr
    cases hr
  · rw [hlock] at hr
    cases hr

lemma Guarded.tasLock (h : Guarded c) {k : Try} (hpc : c.loc t = .tasLock k) :
    Guarded ((machine n body).fire t fails c) := by
  have hhold : (c.loc t).holding = false := by rw [hpc]; rfl
  have hlocked : stateLocked ≠ stateUnlocked := by decide
  cases body with
  | swap =>
    by_cases hf : c.shared.lock.val = stateUnlocked
    · refine h.stored (s := { c.shared with lock := c.shared.lock.store stateLocked }) (p := .critical)
        ?_ rfl (.takes hf hlocked rfl)
      rw [hpc, step]
      simp [swap64, hf]
    · refine h.stored (s := { c.shared with lock := c.shared.lock.store stateLocked }) (p := k.failed)
        ?_ rfl (.keeps (iff_of_false hlocked hf) (k.failed_holding.trans hhold.symm))
      rw [hpc, step]
      simp [swap64, hf]
  | exclusive =>
    have hother (u : Fin n) (hu : u ≠ t) (hr : (c.shared.lock.load t).reserved u = true) :
        c.shared.lock.reserved u = true ∧ (Free c.shared → Free c.shared) :=
      ⟨Exclusive.reserved_of_load u hu hr, id⟩
    by_cases hf : c.shared.lock.val = stateUnlocked
    · exact h.fire (s := { c.shared with lock := c.shared.lock.load t }) (p := .stxr k)
        (by rw [hpc, step]; simp [hf]) (.keeps Iff.rfl hhold.symm) (fun _ _ => hf) hother
    · refine h.fire (s := { c.shared with lock := c.shared.lock.load t }) (p := k.failed)
        (by rw [hpc, step]; simp [hf]) (.keeps Iff.rfl (k.failed_holding.trans hhold.symm)) (fun ht => ?_)
        hother
      rw [k.failed_trying] at ht
      cases ht

lemma Guarded.stxr (h : Guarded c) {k : Try} (hpc : c.loc t = .stxr k) :
    Guarded ((machine n body).fire t fails c) := by
  by_cases hok : c.shared.lock.reserved t = true ∧ fails = false
  · refine h.stored (s := { c.shared with lock := c.shared.lock.store stateLocked }) (p := .critical)
      ?_ rfl (.takes (h.reserved t (by rw [hpc]; rfl) hok.1) (by decide : stateLocked ≠ stateUnlocked) rfl)
    rw [hpc, step, Exclusive.storeExclusive_success _ hok]
    rfl
  · refine h.fire (s := { c.shared with lock := { c.shared.lock with
        reserved := Function.update c.shared.lock.reserved t false } }) (p := k.failed)
      ?_ (.keeps Iff.rfl ?_) (fun ht => ?_) fun u hu hr => ?_
    · rw [hpc, step, Exclusive.storeExclusive_failure _ hok]
      rfl
    · rw [hpc, k.failed_holding]
      rfl
    · rw [k.failed_trying] at ht
      cases ht
    · simp only [Function.update_of_ne hu] at hr
      exact ⟨hr, id⟩

theorem step_guarded (h : Guarded c) (t : Fin n) (fails : Bool) :
    Guarded ((machine n body).fire t fails c) := by
  cases hpc : c.loc t with
  | idle => exact h.quiet (p := .tasLock .first) (by rw [hpc]; rfl) (by rw [hpc]; rfl) rfl
  | tasLock k => exact h.tasLock hpc
  | stxr k => exact h.stxr hpc
  | isFree i m =>
    by_cases hf : c.shared.lock.val = stateUnlocked
    · exact h.quiet (by rw [hpc, step, if_pos hf]) (by rw [hpc]; rfl) rfl
    · by_cases hi : i + 1 < m
      · exact h.quiet (by rw [hpc, step, if_neg hf, if_pos hi]) (by rw [hpc]; rfl) rfl
      · exact h.quiet (by rw [hpc, step, if_neg hf, if_neg hi]) (by rw [hpc]; rfl) rfl
  | readGeneration i m => exact h.quiet (by rw [hpc, step]) (by rw [hpc]; rfl) rfl
  | poll i m w =>
    by_cases hw : c.shared.evGeneration = w
    · exact h.quiet (by rw [hpc, step, if_pos hw]) (by rw [hpc]) rfl
    · exact h.quiet (by rw [hpc, step, if_neg hw]) (by rw [hpc]; rfl) rfl
  | critical => exact h.quiet (p := .tasUnlock) (by rw [hpc]; rfl) (by rw [hpc]; rfl) rfl
  | tasUnlock =>
    exact h.stored (s := { c.shared with lock := c.shared.lock.store stateUnlocked }) (p := .lockSignal)
      (by rw [hpc]; rfl) rfl (.frees (by rw [hpc]; rfl) rfl rfl)
  | lockSignal =>
    refine h.fire (s := { c.shared with evGeneration := c.shared.evGeneration + 1 }) (p := .idle)
      (by rw [hpc]; rfl) (.keeps Iff.rfl (by rw [hpc]; rfl)) (fun ht => by cases ht) fun u _ hr => ⟨hr, id⟩

lemma reachable_owned (h : (machine n body).Reachable (start n) c) : Owned Free Pc.holding c :=
  (h.invariant (machine n body) (start_guarded n) fun _ t fails hi => step_guarded hi t fails).owned

/-- The event mutexes exclude. In every run, signals lost or not: at most one thread is between its
acquire and its unlock, and the lock word is unlocked exactly while there is none. For
event_mutex.h this is said of both builds of the exchange, for cas_event_mutex.h of both bodies. -/
theorem eventMutexes_exclusion :
    (∀ c, (EventMutex.machine n).Reachable (EventMutex.start n) c →
      Owned EventMutex.Free EventMutex.Pc.holding c) ∧
    (∀ d, (EventMutex.loops n).machine.Reachable ((EventMutex.loops n).start (EventMutex.start n)) d →
      Owned EventMutex.Free EventMutex.Pc.holding (Loops.abs d)) ∧
    ∀ body c, (machine n body).Reachable (start n) c → Owned Free Pc.holding c :=
  ⟨fun _ hc => EventMutex.reachable_owned hc,
    fun _ hd => EventMutex.reachable_owned (Loops.reachable_abs hd), fun _ _ hc => reachable_owned hc⟩

theorem eventMutexes_exclusion_two :
    Owned Free Pc.holding ((machine 2 .exclusive).run (start 2) (undisturbedFailure 0 1)) :=
  eventMutexes_exclusion.2.2 _ _ ((machine 2 .exclusive).reachable_run _ _)

end Lockhammer.CasEventMutex
