import Lockhammer.Interleaving.Machine
import Lockhammer.Interleaving.Exclusive
import Lockhammer.Atomics.Primitives

/-!
# The event mutex of ext/mysql/cas_event_mutex.h

The test-and-set has two bodies: an exchange, and a load-exclusive followed by one
store-exclusive that is not retried. The waiting protocol is that of the event mutex, with
`lock_signal` taken as one atomic increment here. Delays (`ut_delay`) change nothing shared
and are left out.
-/
namespace Lockhammer.CasEventMutex
open Interleaving

/-- `enum mutex_state_t`; `MUTEX_STATE_WAITERS` is not used. -/
def stateUnlocked : Word := 0
def stateLocked : Word := 1

/-- The two bodies of `tas_lock`. -/
inductive Body
  | swap
  | exclusive
  deriving DecidableEq, Repr

structure Shared (n : ℕ) where
  lock : Exclusive (Fin n) Word
  evGeneration : Word

/-- Where `try_lock` was called: in `lock_enter`, on a lock seen free, and as the last
attempt before the poll. -/
inductive Try
  | first
  | free (nSpins maxSpins : BitVec 32)
  | last (nSpins maxSpins : BitVec 32) (waitState : Word)
  deriving DecidableEq, Repr

inductive Pc
  | idle
  | tasLock (k : Try)
  | stxr (k : Try)
  | isFree (nSpins maxSpins : BitVec 32)
  | readGeneration (nSpins maxSpins : BitVec 32)
  | poll (nSpins maxSpins : BitVec 32) (waitState : Word)
  | critical
  | tasUnlock
  | lockSignal
  deriving DecidableEq, Repr

/-- `lock_enter(lock, 30, 200)`; the step of `max_spins` is its first value. -/
def maxSpins₀ : BitVec 32 := 30

/-- Where a caller goes on when its `try_lock` has returned 0. -/
def Try.failed : Try → Pc
  | .first => .isFree 0 maxSpins₀
  | .free nSpins maxSpins => .isFree nSpins maxSpins
  | .last nSpins maxSpins waitState => .poll nSpins maxSpins waitState

/-- One atomic step; `idle` and `critical` only enter the next call. `fails` is read by the
store-exclusive alone. -/
def step {n : ℕ} (body : Body) (t : Fin n) (fails : Bool) (s : Shared n) : Pc → Shared n × Pc
  | .idle => (s, .tasLock .first)
  | .tasLock k =>
    match body with
    | .swap =>
      let r := swap64 s.lock.val stateLocked
      ({ s with lock := s.lock.store r.2 }, if r.1 = stateUnlocked then .critical else k.failed)
    | .exclusive =>
      ({ s with lock := s.lock.load t }, if s.lock.val ≠ stateUnlocked then k.failed else .stxr k)
  | .stxr k =>
    let r := s.lock.storeExclusive t stateLocked fails
    ({ s with lock := r.2 }, if r.1 = true then .critical else k.failed)
  | .isFree nSpins maxSpins =>
    if s.lock.val = stateUnlocked then (s, .tasLock (.free nSpins maxSpins))
    else if nSpins + 1 < maxSpins then (s, .isFree (nSpins + 1) maxSpins)
    else (s, .readGeneration (nSpins + 1) (nSpins + 1 + maxSpins₀))
  | .readGeneration nSpins maxSpins => (s, .tasLock (.last nSpins maxSpins s.evGeneration))
  | .poll nSpins maxSpins waitState =>
    if s.evGeneration = waitState then (s, .poll nSpins maxSpins waitState)
    else (s, .isFree nSpins maxSpins)
  | .critical => (s, .tasUnlock)
  | .tasUnlock => ({ s with lock := s.lock.store stateUnlocked }, .lockSignal)
  | .lockSignal => ({ s with evGeneration := s.evGeneration + 1 }, .idle)

def machine (n : ℕ) (body : Body) : Machine (Fin n) Bool (Shared n) Pc where
  step := step body

/-- After `event_mutex_init`, with `ev_generation` statically 0. -/
def start (n : ℕ) : Config (Fin n) (Shared n) Pc :=
  ⟨⟨Exclusive.init stateUnlocked, 0⟩, fun _ => .idle⟩

/-- Inside `lock_enter`. -/
def Pc.inEnter : Pc → Bool
  | .tasLock _ | .stxr _ | .isFree .. | .readGeneration .. | .poll .. => true
  | _ => false

/-- Inside `lock_exit`. -/
def Pc.inExit : Pc → Bool
  | .tasUnlock | .lockSignal => true
  | _ => false

/-- The free lock with nobody left to signal, and a thread that would poll forever. -/
structure Stranded {n : ℕ} (c : Config (Fin n) (Shared n) Pc) : Prop where
  free : c.shared.lock.val = stateUnlocked
  released : ∀ t, (c.loc t).inExit = false
  polling : ∀ t, (c.loc t).inEnter = true → ∃ i m w, c.loc t = .poll i m w
  stuck : ∃ t i m w, c.loc t = .poll i m w ∧ c.shared.evGeneration = w

/-- The generation saved by a thread that polls, or that will poll when its pending
store-exclusive fails. -/
def Pc.saved : Pc → Option Word
  | .poll _ _ w | .stxr (.last _ _ w) => some w
  | _ => none

/-- No signal brings back a generation that a waiting thread has saved. -/
def FreshSignal {n : ℕ} (t : Fin n) (c : Config (Fin n) (Shared n) Pc) : Prop :=
  c.loc t = .lockSignal → ∀ u, (c.loc u).saved ≠ some (c.shared.evGeneration + 1)

/-- The last attempt before the poll does not fail undisturbed while nobody is in
`lock_exit` and the saved generation is still the current one. -/
def HonestLastTry {n : ℕ} (t : Fin n) (fails : Bool) (c : Config (Fin n) (Shared n) Pc) : Prop :=
  ∀ i m w, c.loc t = .stxr (.last i m w) → c.shared.lock.reserved t = true → fails = true →
    (∃ u, (c.loc u).inExit = true) ∨ c.shared.evGeneration ≠ w

def Guard {n : ℕ} (t : Fin n) (fails : Bool) (c : Config (Fin n) (Shared n) Pc) : Prop :=
  FreshSignal t c ∧ HonestLastTry t fails c

/-- The generation saved by a thread at the store-exclusive of its last attempt. -/
def Pc.lastTry : Pc → Option Word
  | .stxr (.last _ _ w) => some w
  | _ => none

lemma honestLastTry_iff {n : ℕ} {t : Fin n} {fails : Bool} {c : Config (Fin n) (Shared n) Pc} :
    HonestLastTry t fails c ↔ ∀ w ∈ (c.loc t).lastTry, c.shared.lock.reserved t = true →
      fails = true → (∃ u, (c.loc u).inExit = true) ∨ c.shared.evGeneration ≠ w := by
  constructor
  · intro h w hw
    cases ht : c.loc t with
    | stxr k =>
      cases k with
      | last i m v =>
        obtain rfl : v = w := by simpa [ht, Pc.lastTry] using hw
        exact h i m v ht
      | first => simp [ht, Pc.lastTry] at hw
      | free i m => simp [ht, Pc.lastTry] at hw
    | _ => simp [ht, Pc.lastTry] at hw
  · exact fun h i m w ht => h w (by rw [ht]; rfl)

instance {n : ℕ} (t : Fin n) (c : Config (Fin n) (Shared n) Pc) : Decidable (FreshSignal t c) :=
  inferInstanceAs (Decidable (_ → _))

instance {n : ℕ} (t : Fin n) (fails : Bool) (c : Config (Fin n) (Shared n) Pc) :
    Decidable (HonestLastTry t fails c) :=
  @decidable_of_iff _ _ honestLastTry_iff.symm (Option.decidableForallMem _)

instance {n : ℕ} (t : Fin n) (fails : Bool) (c : Config (Fin n) (Shared n) Pc) :
    Decidable (Guard t fails c) := inferInstanceAs (Decidable (_ ∧ _))

/-- Threads that own the lock word. -/
def Pc.holding : Pc → Bool
  | .critical | .tasUnlock => true
  | _ => false

/-- Between the load-exclusive and the store-exclusive. -/
def Pc.trying : Pc → Bool
  | .stxr _ => true
  | _ => false

/-- Somebody has a signal still to send. -/
def Owed {n : ℕ} (c : Config (Fin n) (Shared n) Pc) : Prop :=
  ∃ u, (c.loc u).holding = true ∨ c.loc u = .lockSignal

structure Inv {n : ℕ} (c : Config (Fin n) (Shared n) Pc) : Prop where
  locked : ∀ t, (c.loc t).holding = true → c.shared.lock.val ≠ stateUnlocked
  unique : ∀ t u, (c.loc t).holding = true → (c.loc u).holding = true → t = u
  held : c.shared.lock.val ≠ stateUnlocked → ∃ t, (c.loc t).holding = true
  /-- A reservation still seen by its thread is one of the free lock. -/
  reserved : ∀ t, (c.loc t).trying = true → c.shared.lock.reserved t = true →
    c.shared.lock.val = stateUnlocked
  /-- Who waits for the current generation is owed a signal, unless its last attempt can
  still succeed. -/
  wakeup : ∀ t, (c.loc t).saved = some c.shared.evGeneration →
    ((c.loc t).trying = true ∧ c.shared.lock.reserved t = true) ∨ Owed c

variable {n : ℕ} {body : Body} {c : Config (Fin n) (Shared n) Pc} {t : Fin n} {fails : Bool}

lemma start_inv (n : ℕ) : Inv (start n) := by
  constructor <;> simp [start, Pc.holding, Pc.trying, Pc.saved, Exclusive.init]

lemma Try.failed_holding (k : Try) : k.failed.holding = false := by cases k <;> rfl

lemma Try.failed_trying (k : Try) : k.failed.trying = false := by cases k <;> rfl

/-- Only the last attempt goes on to a poll. -/
lemma Try.failed_saved {k : Try} {w : Word} (h : k.failed.saved = some w) :
    ∃ i m, k = .last i m w := by
  cases k with
  | first => simp [Try.failed, Pc.saved] at h
  | free i m => simp [Try.failed, Pc.saved] at h
  | last i m v =>
    obtain rfl : v = w := by simpa [Try.failed, Pc.saved] using h
    exact ⟨i, m, rfl⟩

/-- What a test-and-set sees: an owner, or a free lock that nobody owns. -/
lemma Inv.owed_of_locked (h : Inv c) (hl : c.shared.lock.val ≠ stateUnlocked) : Owed c := by
  obtain ⟨u, hu⟩ := h.held hl
  exact ⟨u, Or.inl hu⟩

lemma Inv.no_holder (h : Inv c) (hf : c.shared.lock.val = stateUnlocked) (u : Fin n) :
    (c.loc u).holding = false := by
  by_contra hu
  exact h.locked u (by simpa using hu) hf

/-- A step that changes neither the lock's state nor who owns it or owes a signal. The
reservations of the others stay, or somebody owes a signal. -/
lemma Inv.quiet (h : Inv c) {s : Shared n} {p : Pc}
    (hs : step body t fails c.shared (c.loc t) = (s, p))
    (hval : s.lock.val = stateUnlocked ↔ c.shared.lock.val = stateUnlocked)
    (hgen : s.evGeneration = c.shared.evGeneration)
    (hres : ∀ u, u ≠ t → s.lock.reserved u = c.shared.lock.reserved u ∨
      (s.lock.reserved u = false ∧ Owed c))
    (hhold : p.holding = (c.loc t).holding) (hsig : c.loc t = .lockSignal → p = .lockSignal)
    (htry : p.trying = true → s.lock.reserved t = true → s.lock.val = stateUnlocked)
    (hsaved : p.saved = some c.shared.evGeneration →
      (p.trying = true ∧ s.lock.reserved t = true) ∨ Owed c) :
    Inv ((machine n body).fire t fails c) := by
  have hloc := Machine.fire_loc_eq (machine n body) (k := fails) hs
  have hsh := Machine.fire_shared_eq (machine n body) (k := fails) hs
  have hh (u : Fin n) : (((machine n body).fire t fails c).loc u).holding = (c.loc u).holding := by
    rw [hloc]
    split
    · next he => rw [hhold, he]
    · rfl
  have howed : Owed c → Owed ((machine n body).fire t fails c) := by
    rintro ⟨u, hu | hu⟩
    · exact ⟨u, Or.inl (by rwa [hh])⟩
    · refine ⟨u, Or.inr ?_⟩
      rw [hloc]
      split
      · next he => exact hsig (he ▸ hu)
      · exact hu
  constructor
  · intro u hu
    rw [hsh, ne_eq, hval]
    exact h.locked u (by rwa [hh] at hu)
  · intro u v hu hv
    rw [hh] at hu hv
    exact h.unique u v hu hv
  · intro hl
    rw [hsh, ne_eq, hval] at hl
    obtain ⟨u, hu⟩ := h.held hl
    exact ⟨u, by rwa [hh]⟩
  · intro u hu hr
    rw [hsh] at hr ⊢
    rw [hloc] at hu
    split at hu
    · next he => exact htry hu (he ▸ hr)
    · next he =>
      rw [hval]
      rcases hres u he with hru | ⟨hru, -⟩
      · exact h.reserved u hu (hru ▸ hr)
      · rw [hru] at hr
        contradiction
  · intro u hu
    rw [hsh, hgen] at hu
    rw [hsh]
    rw [hloc] at hu ⊢
    split at hu
    · next he =>
      rw [if_pos he, he]
      exact (hsaved hu).imp id howed
    · next he =>
      rw [if_neg he]
      rcases h.wakeup u hu with ⟨htu, hru⟩ | ho
      · rcases hres u he with hru' | ⟨-, ho⟩
        · exact Or.inl ⟨htu, hru'.trans hru⟩
        · exact Or.inr (howed ho)
      · exact Or.inr (howed ho)

/-- Taking the free lock: the new owner owes everybody a signal. -/
lemma Inv.take (h : Inv c) (hfree : c.shared.lock.val = stateUnlocked)
    (hs : step body t fails c.shared (c.loc t) =
      ({ c.shared with lock := c.shared.lock.store stateLocked }, .critical)) :
    Inv ((machine n body).fire t fails c) := by
  have hloc := Machine.fire_loc_eq (machine n body) (k := fails) hs
  have hsh := Machine.fire_shared_eq (machine n body) (k := fails) hs
  have hlocked : stateLocked ≠ stateUnlocked := by decide
  have hh (u : Fin n) : (((machine n body).fire t fails c).loc u).holding = true ↔ u = t := by
    rw [hloc]
    by_cases he : u = t
    · simp [he, Pc.holding]
    · simp [he, h.no_holder hfree]
  constructor
  · intro u _
    rw [hsh]
    exact hlocked
  · intro u v hu hv
    rw [(hh u).mp hu, (hh v).mp hv]
  · exact fun _ => ⟨t, (hh t).mpr rfl⟩
  · intro u _ hr
    rw [hsh] at hr
    contradiction
  · exact fun u _ => Or.inr ⟨t, Or.inl ((hh t).mpr rfl)⟩

/-- The owner frees the lock and now owes a signal. -/
lemma Inv.tasUnlock (h : Inv c) (hpc : c.loc t = .tasUnlock) :
    Inv ((machine n body).fire t fails c) := by
  have hs : step body t fails c.shared (c.loc t) =
      ({ c.shared with lock := c.shared.lock.store stateUnlocked }, .lockSignal) := by
    rw [hpc, step]
  have hloc := Machine.fire_loc_eq (machine n body) (k := fails) hs
  have hsh := Machine.fire_shared_eq (machine n body) (k := fails) hs
  have hh (u : Fin n) : (((machine n body).fire t fails c).loc u).holding = false := by
    rw [hloc]
    split
    · rfl
    · next he =>
      by_contra hu
      exact he (h.unique u t (by simpa using hu) (by simp [hpc, Pc.holding]))
  constructor
  · intro u hu
    rw [hh] at hu
    contradiction
  · intro u v hu
    rw [hh] at hu
    contradiction
  · intro hl
    rw [hsh] at hl
    exact absurd rfl hl
  · intro u _ hr
    rw [hsh] at hr
    contradiction
  · intro u _
    refine Or.inr ⟨t, Or.inr ?_⟩
    rw [hloc, if_pos rfl]

/-- A fresh signal changes the generation of everybody who waits. -/
lemma Inv.lockSignal (h : Inv c) (hpc : c.loc t = .lockSignal) (hg : FreshSignal t c) :
    Inv ((machine n body).fire t fails c) := by
  have hs : step body t fails c.shared (c.loc t) =
      ({ c.shared with evGeneration := c.shared.evGeneration + 1 }, .idle) := by
    rw [hpc, step]
  have hloc := Machine.fire_loc_eq (machine n body) (k := fails) hs
  have hsh := Machine.fire_shared_eq (machine n body) (k := fails) hs
  have hh (u : Fin n) : (((machine n body).fire t fails c).loc u).holding = (c.loc u).holding := by
    rw [hloc]
    split
    · next he => simp [he, hpc, Pc.holding]
    · rfl
  constructor
  · intro u hu
    rw [hh] at hu
    rw [hsh]
    exact h.locked u hu
  · intro u v hu hv
    rw [hh] at hu hv
    exact h.unique u v hu hv
  · intro hl
    rw [hsh] at hl
    obtain ⟨u, hu⟩ := h.held hl
    exact ⟨u, by rwa [hh]⟩
  · intro u hu hr
    rw [hsh] at hr ⊢
    rw [hloc] at hu
    split at hu
    · contradiction
    · exact h.reserved u hu hr
  · intro u hu
    rw [hsh, hloc] at hu
    split at hu
    · contradiction
    · exact absurd hu (hg hpc u)

lemma Inv.tasLock (h : Inv c) {k : Try} (hpc : c.loc t = .tasLock k) :
    Inv ((machine n body).fire t fails c) := by
  by_cases hf : c.shared.lock.val = stateUnlocked
  · cases body with
    | swap => exact h.take hf (by rw [hpc, step]; simp [swap64, hf])
    | exclusive =>
      refine h.quiet (s := { c.shared with lock := c.shared.lock.load t }) (p := .stxr k)
        (by rw [hpc, step]; simp [hf]) (by simp) rfl ?_ (by rw [hpc]; rfl) (by simp [hpc])
        (fun _ _ => hf) (fun _ => Or.inl ⟨rfl, by simp⟩)
      exact fun u hu => Or.inl (Exclusive.load_reserved_of_ne u hu)
  · have howed := h.owed_of_locked hf
    have hlocked : stateLocked ≠ stateUnlocked := by decide
    cases body with
    | swap =>
      refine h.quiet (s := { c.shared with lock := c.shared.lock.store stateLocked })
        (p := k.failed) (by rw [hpc, step]; simp [swap64, hf]) (by simp [hf, hlocked]) rfl
        (fun u _ => Or.inr ⟨rfl, howed⟩) ?_ (by simp [hpc]) ?_ (fun _ => Or.inr howed)
      · rw [hpc, k.failed_holding]
        rfl
      · simp [k.failed_trying]
    | exclusive =>
      refine h.quiet (s := { c.shared with lock := c.shared.lock.load t }) (p := k.failed)
        (by rw [hpc, step]; simp [hf]) (by simp) rfl
        (fun u hu => Or.inl (Exclusive.load_reserved_of_ne u hu)) ?_ (by simp [hpc]) ?_
        (fun _ => Or.inr howed)
      · rw [hpc, k.failed_holding]
        rfl
      · simp [k.failed_trying]

/-- The store-exclusive: under a reservation the lock is free; without one, or when it
fails honestly, whoever goes on to poll is owed a signal. -/
lemma Inv.stxr (h : Inv c) {k : Try} (hpc : c.loc t = .stxr k) (hg : HonestLastTry t fails c) :
    Inv ((machine n body).fire t fails c) := by
  by_cases hok : c.shared.lock.reserved t = true ∧ fails = false
  · have hfree := h.reserved t (by rw [hpc]; rfl) hok.1
    exact h.take hfree (by rw [hpc, step, Exclusive.storeExclusive_success _ hok]; rfl)
  · refine h.quiet (s := { c.shared with lock := { c.shared.lock with
        reserved := Function.update c.shared.lock.reserved t false } }) (p := k.failed)
      (by rw [hpc, step, Exclusive.storeExclusive_failure _ hok]; rfl) Iff.rfl rfl ?_ ?_ (by simp [hpc])
      ?_ ?_
    · intro u hu
      simp [hu]
    · rw [hpc, k.failed_holding]
      rfl
    · simp [k.failed_trying]
    · intro hsaved
      obtain ⟨i, m, rfl⟩ := Try.failed_saved hsaved
      refine Or.inr ?_
      rcases h.wakeup t (by rw [hpc]; rfl) with ⟨-, hr⟩ | ho
      · -- undisturbed: the honest last attempt fails only with somebody in `lock_exit`
        have hf : fails = true := by simpa [hr] using hok
        rcases hg i m _ hpc hr hf with ⟨u, hu⟩ | hne
        · refine ⟨u, ?_⟩
          cases hu' : c.loc u <;> simp [hu', Pc.inExit, Pc.holding] at hu ⊢
        · exact absurd rfl hne
      · exact ho

theorem step_inv (h : Inv c) (hg : Guard t fails c) : Inv ((machine n body).fire t fails c) := by
  have hquiet {p : Pc} (hs : step body t fails c.shared (c.loc t) = (c.shared, p))
      (hh : p.holding = (c.loc t).holding) (hsig : c.loc t ≠ .lockSignal) (htry : p.trying = false)
      (hp : p.saved = none ∨ p = c.loc t) : Inv ((machine n body).fire t fails c) := by
    refine h.quiet hs Iff.rfl rfl (fun u _ => Or.inl rfl) hh (fun e => absurd e hsig) (by simp [htry]) ?_
    intro hsaved
    rcases hp with hp | hp
    · simp [hp] at hsaved
    · rw [hp] at hsaved ⊢
      exact h.wakeup t hsaved
  cases hpc : c.loc t with
  | idle => exact hquiet (by rw [hpc, step]) (by rw [hpc]; rfl) (by simp [hpc]) rfl (Or.inl rfl)
  | tasLock k => exact h.tasLock hpc
  | stxr k => exact h.stxr hpc hg.2
  | isFree i m =>
    by_cases hf : c.shared.lock.val = stateUnlocked
    · exact hquiet (by rw [hpc, step, if_pos hf]) (by rw [hpc]; rfl) (by simp [hpc]) rfl (Or.inl rfl)
    · by_cases hi : i + 1 < m
      · exact hquiet (by rw [hpc, step, if_neg hf, if_pos hi]) (by rw [hpc]; rfl) (by simp [hpc]) rfl
          (Or.inl rfl)
      · exact hquiet (by rw [hpc, step, if_neg hf, if_neg hi]) (by rw [hpc]; rfl) (by simp [hpc]) rfl
          (Or.inl rfl)
  | readGeneration i m =>
    exact hquiet (by rw [hpc, step]) (by rw [hpc]; rfl) (by simp [hpc]) rfl (Or.inl rfl)
  | poll i m w =>
    by_cases hw : c.shared.evGeneration = w
    · exact hquiet (by rw [hpc, step, if_pos hw]) (by rw [hpc]) (by simp [hpc]) rfl (Or.inr hpc.symm)
    · exact hquiet (by rw [hpc, step, if_neg hw]) (by rw [hpc]; rfl) (by simp [hpc]) rfl (Or.inl rfl)
  | critical => exact hquiet (by rw [hpc, step]) (by rw [hpc]; rfl) (by simp [hpc]) rfl (Or.inl rfl)
  | tasUnlock => exact h.tasUnlock hpc
  | lockSignal => exact h.lockSignal hpc hg.1

lemma Inv.not_stranded (h : Inv c) : ¬ Stranded c := by
  intro hst
  obtain ⟨t, i, m, w, ht, hw⟩ := hst.stuck
  rcases h.wakeup t (by rw [ht, hw]; rfl) with ⟨htry, -⟩ | ⟨u, hu | hu⟩
  · rw [ht] at htry
    contradiction
  · exact h.locked u hu hst.free
  · have hr := hst.released u
    rw [hu] at hr
    contradiction

/-- With either body, in every run in which the last attempt before a poll fails
undisturbed only while somebody is in `lock_exit` or the generation has moved on, and no
signal brings back a saved generation, no state strands a waiter. -/
theorem casEventMutex_no_lost_wakeup
    (h : (machine n body).ReachableUnder Guard (start n) c) : ¬ Stranded c := by
  have hinv : Inv c := h.invariant (machine n body) (start_inv n) (fun c t fails hi hg => step_inv hi hg)
  exact hinv.not_stranded

/-- `a` takes the lock and `b` saves generation 0; `a` frees the lock; the last attempt of
`b` sees it free, fails undisturbed while `a` is still in `lock_exit`, and `b` polls; `a`
signals. -/
def honestFailure (a b : Fin n) : List (Fin n × Bool) :=
  (List.replicate 3 a ++ List.replicate 33 b ++ List.replicate 2 a ++ [b]).map
    (fun t => (t, false)) ++ [(b, true), (a, false)]

/-- The signal is fresh for the waiter, which then sees the lock free and takes it. -/
theorem casEventMutex_no_lost_wakeup_woken :
    ¬ Stranded ((machine 2 .exclusive).run (start 2) (honestFailure 0 1)) ∧
    ((machine 2 .exclusive).run (start 2) (honestFailure 0 1)).shared.lock.val = stateUnlocked ∧
    ((machine 2 .exclusive).run (start 2) (honestFailure 0 1)).shared.evGeneration = 1 ∧
    ((machine 2 .exclusive).run (start 2) (honestFailure 0 1)).loc 0 = .idle ∧
    ((machine 2 .exclusive).run (start 2) (honestFailure 0 1)).loc 1 = .poll 30 60 0 ∧
    ((machine 2 .exclusive).run ((machine 2 .exclusive).run (start 2) (honestFailure 0 1))
      (List.replicate 4 (1, false))).loc 1 = .critical :=
  ⟨casEventMutex_no_lost_wakeup (Machine.ReachableUnder.start.run (machine 2 .exclusive)
    (honestFailure 0 1) (by decide +kernel)), by decide +kernel, by decide +kernel,
    by decide +kernel, by decide +kernel, by decide +kernel⟩

/-- `a` takes the lock and `b` gives up spinning; `a` frees the lock and signals; only now
`b` saves the generation, sees the lock free, and its store-exclusive fails. -/
def undisturbedFailure (a b : Fin n) : List (Fin n × Bool) :=
  (List.replicate 3 a ++ List.replicate 32 b ++ List.replicate 3 a ++ List.replicate 2 b).map
    (fun t => (t, false)) ++ [(b, true)]

theorem casEventMutex_loses_wakeup :
    ∃ c, (machine 2 .exclusive).Reachable (start 2) c ∧ Stranded c := by
  have h0 : ((machine 2 .exclusive).run (start 2) (undisturbedFailure 0 1)).loc 0 = .idle := by
    decide +kernel
  have h1 : ((machine 2 .exclusive).run (start 2) (undisturbedFailure 0 1)).loc 1 = .poll 30 60 1 := by
    decide +kernel
  have hv : ((machine 2 .exclusive).run (start 2) (undisturbedFailure 0 1)).shared.lock.val =
      stateUnlocked := by
    decide +kernel
  have hg : ((machine 2 .exclusive).run (start 2) (undisturbedFailure 0 1)).shared.evGeneration = 1 := by
    decide +kernel
  have hr := (machine 2 .exclusive).reachable_run (start 2) (undisturbedFailure 0 1)
  generalize (machine 2 .exclusive).run (start 2) (undisturbedFailure 0 1) = c at h0 h1 hv hg hr
  refine ⟨c, hr, hv, ?_, ?_, ⟨1, 30, 60, 1, h1, hg⟩⟩
  · intro t
    match t with
    | 0 => rw [h0]; rfl
    | 1 => rw [h1]; rfl
  · intro t ht
    match t with
    | 0 => rw [h0] at ht; contradiction
    | 1 => exact ⟨30, 60, 1, h1⟩

/-- `a` takes the lock, `b` saves the generation and polls, `a` frees the lock and signals. -/
def givenUp (a b : Fin n) : List (Fin n × Bool) :=
  (List.replicate 2 a ++ List.replicate 34 b ++ List.replicate 3 a).map fun t => (t, false)

/-- One acquire and release without contention. -/
def uncontendedRound (a : Fin n) : List (Fin n × Bool) := List.replicate 5 (a, false)

lemma uncontendedRound_run (hf : c.shared.lock.val = stateUnlocked) (ht : c.loc t = .idle) :
    (machine n .swap).run c (uncontendedRound t) =
      ⟨⟨Exclusive.init stateUnlocked, c.shared.evGeneration + 1⟩, c.loc⟩ := by
  obtain ⟨s, loc⟩ := c
  have hloc : Function.update loc t Pc.idle = loc := by
    rw [← ht, Function.update_eq_self]
  simp_all [uncontendedRound, Machine.run, List.replicate, Machine.fire, machine, step, swap64,
    Exclusive.store, Exclusive.init, stateUnlocked]

/-- Rounds of one thread count the generation up and change nothing else. -/
lemma rounds_reachable (hf : c.shared.lock.val = stateUnlocked) (ht : c.loc t = .idle)
    (hr : (machine n .swap).Reachable (start n) c) (k : ℕ) :
    (machine n .swap).Reachable (start n)
      ⟨⟨Exclusive.init stateUnlocked, c.shared.evGeneration + 1 + BitVec.ofNat 64 k⟩, c.loc⟩ := by
  induction k with
  | zero =>
    have hrun := (machine n .swap).reachable_run_of hr (uncontendedRound t)
    rw [uncontendedRound_run hf ht] at hrun
    simpa using hrun
  | succ k ih =>
    have hrun := (machine n .swap).reachable_run_of ih (uncontendedRound t)
    have hround := uncontendedRound_run (t := t) (c := ⟨⟨Exclusive.init stateUnlocked,
      c.shared.evGeneration + 1 + BitVec.ofNat 64 k⟩, c.loc⟩) rfl ht
    rw [hround] at hrun
    rwa [BitVec.ofNat_add, ← add_assoc]

/-- The exchange body loses a wakeup only through the wrap of the counter: after 2^64
signals during one poll the generation is the saved one again. -/
theorem swap_loses_wakeup_after_wrap :
    ∃ c, (machine 2 .swap).Reachable (start 2) c ∧ Stranded c := by
  have hsched := (machine 2 .swap).reachable_run (start 2) (givenUp 0 1)
  have h0 : ((machine 2 .swap).run (start 2) (givenUp 0 1)).loc 0 = .idle := by decide +kernel
  have h1 : ((machine 2 .swap).run (start 2) (givenUp 0 1)).loc 1 = .poll 30 60 0 := by decide +kernel
  have hv : ((machine 2 .swap).run (start 2) (givenUp 0 1)).shared.lock.val = stateUnlocked := by
    decide +kernel
  have hg : ((machine 2 .swap).run (start 2) (givenUp 0 1)).shared.evGeneration = 1 := by decide +kernel
  generalize (machine 2 .swap).run (start 2) (givenUp 0 1) = c at hsched h0 h1 hv hg
  have hr := rounds_reachable hv h0 hsched (2^64 - 2)
  have hwrap : c.shared.evGeneration + 1 + BitVec.ofNat 64 (2^64 - 2) = 0 := by
    rw [hg]
    decide
  refine ⟨_, hr, rfl, ?_, ?_, ⟨1, 30, 60, 0, h1, hwrap⟩⟩
  · intro t
    match t with
    | 0 => exact congrArg Pc.inExit h0
    | 1 => exact congrArg Pc.inExit h1
  · intro t ht
    match t with
    | 0 => exact absurd (ht.symm.trans (congrArg Pc.inEnter h0)) (by decide)
    | 1 => exact ⟨30, 60, 0, h1⟩

end Lockhammer.CasEventMutex
