import Lockhammer.Interleaving.Machine
import Lockhammer.Atomics.Primitives

/-!
# The event mutex of ext/mysql/event_mutex.h

A test-and-set lock with a generation counter: a waiter that keeps losing saves the
generation, tries once more, and polls until the generation changes. The releaser
frees the lock first and bumps the generation afterwards, by a plain read and a plain
write. Delays (`ut_delay`) change nothing shared and are left out.
-/
namespace Lockhammer.EventMutex
open Interleaving

def stateUnlocked : Word := 0
def stateLocked : Word := 1

structure Shared where
  lock : Word
  evGeneration : Word
  deriving DecidableEq, Repr

/-- Where a thread is in lock_acquire or lock_release, with the locals it still needs. -/
inductive Pc
  | idle
  | tryFirst
  | isFree (nSpins maxSpins : BitVec 32)
  | tryFree (nSpins maxSpins : BitVec 32)
  | readGeneration (nSpins maxSpins : BitVec 32)
  | tryLast (nSpins maxSpins : BitVec 32) (waitState : Word)
  | poll (nSpins maxSpins : BitVec 32) (waitState : Word)
  | critical
  | unlock
  | signalRead
  | signalWrite (version : Word)
  deriving DecidableEq, Repr

/-- `lock_enter(lock, 30, 600)`; the step of `max_spins` is its first value. -/
def maxSpins₀ : BitVec 32 := 30

/-- `tas_lock`: the lock word after the exchange, and whether it was free. -/
def tasLock (lock : Word) : Bool × Word :=
  ((swap64 lock stateLocked).1 = stateUnlocked, (swap64 lock stateLocked).2)

/-- One atomic step; `idle` and `critical` only enter the next call. -/
def step (s : Shared) : Pc → Shared × Pc
  | .idle => (s, .tryFirst)
  | .tryFirst =>
    let r := tasLock s.lock
    ({ s with lock := r.2 }, if r.1 then .critical else .isFree 0 maxSpins₀)
  | .isFree nSpins maxSpins =>
    if s.lock = stateUnlocked then (s, .tryFree nSpins maxSpins)
    else if nSpins + 1 < maxSpins then (s, .isFree (nSpins + 1) maxSpins)
    else (s, .readGeneration (nSpins + 1) (nSpins + 1 + maxSpins₀))
  | .tryFree nSpins maxSpins =>
    let r := tasLock s.lock
    ({ s with lock := r.2 }, if r.1 then .critical else .isFree nSpins maxSpins)
  | .readGeneration nSpins maxSpins => (s, .tryLast nSpins maxSpins s.evGeneration)
  | .tryLast nSpins maxSpins waitState =>
    let r := tasLock s.lock
    ({ s with lock := r.2 }, if r.1 then .critical else .poll nSpins maxSpins waitState)
  | .poll nSpins maxSpins waitState =>
    if s.evGeneration = waitState then (s, .poll nSpins maxSpins waitState)
    else (s, .isFree nSpins maxSpins)
  | .critical => (s, .unlock)
  | .unlock => ({ s with lock := (swap64 s.lock stateUnlocked).2 }, .signalRead)
  | .signalRead => (s, .signalWrite s.evGeneration)
  | .signalWrite version => ({ s with evGeneration := version + 1 }, .idle)

def machine (n : ℕ) : Machine (Fin n) Unit Shared Pc where
  step _ _ := step

/-- After `event_mutex_init`, with `ev_generation` statically 0. -/
def start (n : ℕ) : Config (Fin n) Shared Pc := ⟨⟨stateUnlocked, 0⟩, fun _ => .idle⟩

def Pc.inAcquire : Pc → Bool
  | .tryFirst | .isFree .. | .tryFree .. | .readGeneration .. | .tryLast .. | .poll .. => true
  | _ => false

def Pc.inRelease : Pc → Bool
  | .unlock | .signalRead | .signalWrite _ => true
  | _ => false

/-- The free lock with nobody left to signal, and a thread that would poll forever. -/
structure Stranded {n : ℕ} (c : Config (Fin n) Shared Pc) : Prop where
  free : c.shared.lock = stateUnlocked
  released : ∀ t, (c.loc t).inRelease = false
  polling : ∀ t, (c.loc t).inAcquire = true → ∃ i m w, c.loc t = .poll i m w
  stuck : ∃ t i m w, c.loc t = .poll i m w ∧ c.shared.evGeneration = w

/-- Thread `t` is not about to write back a generation that a polling thread has saved. -/
def FreshSignal {n : ℕ} (t : Fin n) (_ : Unit) (c : Config (Fin n) Shared Pc) : Prop :=
  ∀ version, c.loc t = .signalWrite version →
    ∀ u i m w, c.loc u = .poll i m w → version + 1 ≠ w

/-- The generation a thread is about to write. -/
def Pc.writing : Pc → Option Word
  | .signalWrite version => some (version + 1)
  | _ => none

/-- The generation a polling thread has saved. -/
def Pc.saved : Pc → Option Word
  | .poll _ _ w => some w
  | _ => none

lemma freshSignal_iff {n : ℕ} {t : Fin n} {c : Config (Fin n) Shared Pc} :
    FreshSignal t () c ↔ ∀ w ∈ (c.loc t).writing, ∀ u, (c.loc u).saved ≠ some w := by
  constructor
  · intro h w hw u hu
    cases ht : c.loc t <;> simp only [ht, Pc.writing, Option.mem_def, reduceCtorEq] at hw
    cases hpc : c.loc u <;> simp only [hpc, Pc.saved, reduceCtorEq] at hu
    exact h _ ht u _ _ _ hpc (Option.some.inj (hw.trans hu.symm))
  · intro h version ht u i m w hu he
    exact h (version + 1) (by rw [ht]; rfl) u (by rw [hu, he]; rfl)

instance {n : ℕ} (t : Fin n) (k : Unit) (c : Config (Fin n) Shared Pc) :
    Decidable (FreshSignal t k c) :=
  @decidable_of_iff _ _ freshSignal_iff.symm (Option.decidableForallMem _)

/-- Threads that own the lock word. -/
def Pc.holding : Pc → Bool
  | .critical | .unlock => true
  | _ => false

/-- Between the unlock and the generation bump. -/
def Pc.signalling : Pc → Bool
  | .signalRead | .signalWrite _ => true
  | _ => false

structure Inv {n : ℕ} (c : Config (Fin n) Shared Pc) : Prop where
  locked : ∀ t, (c.loc t).holding = true → c.shared.lock ≠ stateUnlocked
  unique : ∀ t u, (c.loc t).holding = true → (c.loc u).holding = true → t = u
  held : c.shared.lock ≠ stateUnlocked → ∃ t, (c.loc t).holding = true
  /-- Whoever polls the current generation has a signal still to come. -/
  wakeup : ∀ t i m w, c.loc t = .poll i m w → c.shared.evGeneration = w →
    ∃ u, (c.loc u).holding = true ∨ (c.loc u).signalling = true

variable {n : ℕ} {c : Config (Fin n) Shared Pc} {t : Fin n}

lemma start_inv (n : ℕ) : Inv (start n) := by
  constructor <;> simp [start, Pc.holding]

/-- Steps that leave the store alone, keep who holds and who signals, and start no poll. -/
lemma Inv.quiet (h : Inv c) {p : Pc} (hs : step c.shared (c.loc t) = (c.shared, p))
    (hh : p.holding = (c.loc t).holding) (hg : (c.loc t).signalling = true → p.signalling = true)
    (hp : ∀ i m w, p = .poll i m w → c.loc t = .poll i m w) :
    Inv ((machine n).fire t () c) := by
  have hloc := Machine.fire_loc_eq (machine n) (k := ()) hs
  have hhold (u : Fin n) : (((machine n).fire t () c).loc u).holding = (c.loc u).holding := by
    rw [hloc]
    split
    · next he => rw [hh, he]
    · rfl
  refine ⟨?_, ?_, ?_, ?_⟩
  · intro u hu
    rw [Machine.fire_shared_eq (machine n) (k := ()) hs]
    exact h.locked u (by rwa [hhold] at hu)
  · intro u v hu hv
    rw [hhold] at hu hv
    exact h.unique u v hu hv
  · intro hl
    rw [Machine.fire_shared_eq (machine n) (k := ()) hs] at hl
    obtain ⟨u, hu⟩ := h.held hl
    exact ⟨u, by rwa [hhold]⟩
  · intro u i m w hu hw
    rw [Machine.fire_shared_eq (machine n) (k := ()) hs] at hw
    have hpoll : c.loc u = .poll i m w := by
      rw [hloc] at hu
      split at hu
      · next he => rw [he]; exact hp i m w hu
      · exact hu
    obtain ⟨v, hv⟩ := h.wakeup u i m w hpoll hw
    refine ⟨v, hv.imp (fun hv => by rwa [hhold]) (fun hv => ?_)⟩
    rw [hloc]
    split
    · next he => exact hg (by rwa [he] at hv)
    · exact hv

/-- A test-and-set: it takes the free lock, or it leaves the holder where it is. -/
lemma Inv.tas (h : Inv c) {p : Pc} (hold : (c.loc t).holding = false)
    (hs : step c.shared (c.loc t) =
      ({ c.shared with lock := (tasLock c.shared.lock).2 },
        if (tasLock c.shared.lock).1 then .critical else p))
    (hp : p.holding = false) : Inv ((machine n).fire t () c) := by
  have hloc := Machine.fire_loc_eq (machine n) (k := ()) hs
  have hsh := Machine.fire_shared_eq (machine n) (k := ()) hs
  have hlock : (tasLock c.shared.lock).2 ≠ stateUnlocked := by
    change stateLocked ≠ stateUnlocked
    decide
  by_cases hfree : c.shared.lock = stateUnlocked
  · have hgot : (tasLock c.shared.lock).1 = true := by simp [tasLock, swap64, hfree]
    have hnone (u : Fin n) : (c.loc u).holding = false := by
      by_contra hu
      exact h.locked u (by simpa using hu) hfree
    have hhold (u : Fin n) :
        (((machine n).fire t () c).loc u).holding = true ↔ u = t := by
      rw [hloc]
      by_cases he : u = t
      · simp [he, hgot, Pc.holding]
      · simp [he, hnone]
    refine ⟨?_, ?_, ?_, ?_⟩
    · intro u _
      rw [hsh]
      exact hlock
    · intro u v hu hv
      rw [(hhold u).mp hu, (hhold v).mp hv]
    · exact fun _ => ⟨t, (hhold t).mpr rfl⟩
    · exact fun u i m w _ _ => ⟨t, Or.inl ((hhold t).mpr rfl)⟩
  · have hlost : (tasLock c.shared.lock).1 = false := by simp [tasLock, swap64, hfree]
    have hhold (u : Fin n) : (((machine n).fire t () c).loc u).holding = (c.loc u).holding := by
      rw [hloc]
      split
      · next he => simp [he, hlost, hp, hold]
      · rfl
    obtain ⟨v, hv⟩ := h.held hfree
    refine ⟨?_, ?_, ?_, ?_⟩
    · intro u _
      rw [hsh]
      exact hlock
    · intro u w hu hw
      rw [hhold] at hu hw
      exact h.unique u w hu hw
    · exact fun _ => ⟨v, by rwa [hhold]⟩
    · exact fun u i m w _ _ => ⟨v, Or.inl (by rwa [hhold])⟩

/-- The holder frees the lock and now owes a signal. -/
lemma Inv.unlock (h : Inv c) (hpc : c.loc t = .unlock) : Inv ((machine n).fire t () c) := by
  have hs : step c.shared (c.loc t) =
      ({ c.shared with lock := (swap64 c.shared.lock stateUnlocked).2 }, .signalRead) := by
    rw [hpc, step]
  have hloc := Machine.fire_loc_eq (machine n) (k := ()) hs
  have hsh := Machine.fire_shared_eq (machine n) (k := ()) hs
  have hhold (u : Fin n) : (((machine n).fire t () c).loc u).holding = false := by
    rw [hloc]
    split
    · rfl
    · next he =>
      by_contra hu
      exact he (h.unique u t (by simpa using hu) (by simp [hpc, Pc.holding]))
  refine ⟨?_, ?_, ?_, ?_⟩
  · intro u hu
    rw [hhold] at hu
    contradiction
  · intro u v hu
    rw [hhold] at hu
    contradiction
  · intro hl
    rw [hsh] at hl
    exact absurd rfl hl
  · intro u i m w _ _
    refine ⟨t, Or.inr ?_⟩
    rw [hloc, if_pos rfl]
    rfl

/-- A fresh bump changes the generation of everybody who polls. -/
lemma Inv.bump (h : Inv c) {version : Word} (hpc : c.loc t = .signalWrite version)
    (hg : FreshSignal t () c) : Inv ((machine n).fire t () c) := by
  have hs : step c.shared (c.loc t) = ({ c.shared with evGeneration := version + 1 }, .idle) := by
    rw [hpc, step]
  have hloc := Machine.fire_loc_eq (machine n) (k := ()) hs
  have hsh := Machine.fire_shared_eq (machine n) (k := ()) hs
  have hhold (u : Fin n) : (((machine n).fire t () c).loc u).holding = (c.loc u).holding := by
    rw [hloc]
    split
    · next he => simp [he, hpc, Pc.holding]
    · rfl
  refine ⟨?_, ?_, ?_, ?_⟩
  · intro u hu
    rw [hhold] at hu
    rw [hsh]
    exact h.locked u hu
  · intro u v hu hv
    rw [hhold] at hu hv
    exact h.unique u v hu hv
  · intro hl
    rw [hsh] at hl
    obtain ⟨u, hu⟩ := h.held hl
    exact ⟨u, by rwa [hhold]⟩
  · intro u i m w hu hw
    rw [hsh] at hw
    rw [hloc] at hu
    split at hu
    · contradiction
    · exact absurd hw (hg version hpc u i m w hu)

theorem step_inv (h : Inv c) (hg : FreshSignal t () c) : Inv ((machine n).fire t () c) := by
  cases hpc : c.loc t with
  | idle => exact h.quiet (by rw [hpc, step]) (by rw [hpc]; rfl) (by simp [hpc, Pc.signalling]) (by simp)
  | tryFirst =>
    exact h.tas (by rw [hpc]; rfl) (by rw [hpc, step]) rfl
  | isFree i m =>
    by_cases hf : c.shared.lock = stateUnlocked
    · exact h.quiet (by rw [hpc, step, if_pos hf]) (by rw [hpc]; rfl)
        (by simp [hpc, Pc.signalling]) (by simp)
    · by_cases hi : i + 1 < m
      · exact h.quiet (by rw [hpc, step, if_neg hf, if_pos hi]) (by rw [hpc]; rfl)
          (by simp [hpc, Pc.signalling]) (by simp)
      · exact h.quiet (by rw [hpc, step, if_neg hf, if_neg hi]) (by rw [hpc]; rfl)
          (by simp [hpc, Pc.signalling]) (by simp)
  | tryFree i m =>
    exact h.tas (by rw [hpc]; rfl) (by rw [hpc, step]) rfl
  | readGeneration i m =>
    exact h.quiet (by rw [hpc, step]) (by rw [hpc]; rfl) (by simp [hpc, Pc.signalling]) (by simp)
  | tryLast i m w =>
    exact h.tas (by rw [hpc]; rfl) (by rw [hpc, step]) rfl
  | poll i m w =>
    by_cases hw : c.shared.evGeneration = w
    · exact h.quiet (by rw [hpc, step, if_pos hw]) (by rw [hpc]) (by simp [hpc, Pc.signalling])
        (fun _ _ _ he => hpc.trans he)
    · exact h.quiet (by rw [hpc, step, if_neg hw]) (by rw [hpc]; rfl)
        (by simp [hpc, Pc.signalling]) (by simp)
  | critical =>
    exact h.quiet (by rw [hpc, step]) (by rw [hpc]; rfl) (by simp [hpc, Pc.signalling]) (by simp)
  | unlock => exact h.unlock hpc
  | signalRead =>
    exact h.quiet (by rw [hpc, step]) (by rw [hpc]; rfl) (fun _ => rfl) (by simp)
  | signalWrite version => exact h.bump hpc hg

lemma Inv.not_stranded (h : Inv c) : ¬ Stranded c := by
  intro hst
  obtain ⟨t, i, m, w, ht, hw⟩ := hst.stuck
  obtain ⟨u, hu | hu⟩ := h.wakeup t i m w ht hw
  · exact h.locked u hu hst.free
  · have hr := hst.released u
    cases hpc : c.loc u <;> simp [hpc, Pc.signalling, Pc.inRelease] at hu hr

/-- In every run in which no signal writes back a generation that a thread polling at
that moment has saved, no state strands a waiter. -/
theorem eventMutex_no_lost_wakeup
    (h : (machine n).ReachableUnder FreshSignal (start n) c) : ¬ Stranded c := by
  have hinv : Inv c := h.invariant (machine n) (start_inv n) (fun c t _ hi hg => step_inv hi hg)
  exact hinv.not_stranded

/-- `a` takes the lock; `b` gives up spinning, saves generation 0 and polls; `a` frees the
lock and signals. -/
def freshSignal (a b : Fin n) : List (Fin n × Unit) :=
  (List.replicate 2 a ++ List.replicate 34 b ++ List.replicate 4 a).map fun t => (t, ())

/-- The signal of generation 1 is fresh for the waiter, which then sees the lock free and
takes it. -/
theorem eventMutex_no_lost_wakeup_woken :
    ¬ Stranded ((machine 2).run (start 2) (freshSignal 0 1)) ∧
    ((machine 2).run (start 2) (freshSignal 0 1)).shared = ⟨stateUnlocked, 1⟩ ∧
    ((machine 2).run (start 2) (freshSignal 0 1)).loc 0 = .idle ∧
    ((machine 2).run (start 2) (freshSignal 0 1)).loc 1 = .poll 30 60 0 ∧
    ((machine 2).run ((machine 2).run (start 2) (freshSignal 0 1))
      (List.replicate 3 (1, ()))).loc 1 = .critical :=
  ⟨eventMutex_no_lost_wakeup (Machine.ReachableUnder.start.run (machine 2) (freshSignal 0 1)
    (by decide +kernel)), by decide +kernel, by decide +kernel, by decide +kernel,
    by decide +kernel⟩

/-- `a` takes the lock, frees it and reads generation 0; `b` then signals generation 1 and
locks again; `d` saves generation 1 and polls; `b` frees the lock and signals 2; only now
`a` writes 1. -/
def overlappingSignals (a b d : Fin n) : List (Fin n × Unit) :=
  (List.replicate 5 a ++ List.replicate 8 b ++ List.replicate 34 d ++ List.replicate 4 b ++
    [a]).map fun t => (t, ())

theorem eventMutex_loses_wakeup :
    ∃ c, (machine 3).Reachable (start 3) c ∧ Stranded c := by
  have h0 : ((machine 3).run (start 3) (overlappingSignals 0 1 2)).loc 0 = .idle := by decide +kernel
  have h1 : ((machine 3).run (start 3) (overlappingSignals 0 1 2)).loc 1 = .idle := by decide +kernel
  have h2 : ((machine 3).run (start 3) (overlappingSignals 0 1 2)).loc 2 = .poll 30 60 1 := by decide +kernel
  have hs : ((machine 3).run (start 3) (overlappingSignals 0 1 2)).shared = ⟨stateUnlocked, 1⟩ := by
    decide +kernel
  have hr := (machine 3).reachable_run (start 3) (overlappingSignals 0 1 2)
  generalize (machine 3).run (start 3) (overlappingSignals 0 1 2) = c at h0 h1 h2 hs hr
  refine ⟨c, hr, by rw [hs], ?_, ?_, ⟨2, 30, 60, 1, h2, by rw [hs]⟩⟩
  · intro t
    match t with
    | 0 => rw [h0]; rfl
    | 1 => rw [h1]; rfl
    | 2 => rw [h2]; rfl
  · intro t ht
    match t with
    | 0 => rw [h0] at ht; contradiction
    | 1 => rw [h1] at ht; contradiction
    | 2 => exact ⟨30, 60, 1, h2⟩

end Lockhammer.EventMutex
