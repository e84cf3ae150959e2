import Lockhammer.Interleaving.RetryLoop
import Lockhammer.Measure.Barrier
import Lockhammer.Measure.StartHandshake

/-!
# The synchronization of hmr without LSE

The additions to the barrier word and to the two words of the start handshake are loops of
exclusive accesses in this build. The polls load exclusively too, but store nothing.
-/
namespace Lockhammer.Barrier
open Interleaving

/-- `fetchadd64_acquire` -/
def exclusiveLoop (x : Thread) : Option LoopKind :=
  match x.pc with
  | .add _ => some .exclusive
  | _ => none

def loops (n : ℕ) : Loops (machine n) Unit Word :=
  .ofWord (machine n) exclusiveLoop (fun _ _ => true) Thread.storing
    (fun _ _ _ h => by cases h)
    (by
      rintro i ⟨pc, calls⟩ v h hs
      cases pc with
      | outside => rfl
      | add g => cases h
      | store s => cases hs
      | wait s =>
        simp only [machine, step]
        split <;> rfl)
    (fun _ _ _ => rfl)

variable {n : ℕ} {tr : List (Event n)}

/-- The barrier without LSE shows exactly the histories of the barrier with single additions. In
each of them, a return from call `k` comes after all `n` additions of call `k`, no two threads
are more than one call apart, and a completed round has exactly one store branch. -/
theorem synchronizeThreads_withoutLse (h1 : 1 ≤ n) (hn : n < 2^31) :
    ((∃ d, (loops n).machine.History ((loops n).observe observe) ((loops n).start (start n)) tr d) ↔
      ∃ c, (machine n).History observe (start n) tr c) ∧
    ∀ d, (loops n).machine.History ((loops n).observe observe) ((loops n).start (start n)) tr d →
      (∀ t u k, Returned tr t k → Added tr u k) ∧
      (∀ t u, (d.loc t).place.calls ≤ (d.loc u).place.calls + 1) ∧
      ∀ k, (∀ t, Added tr t k) → ∃! t, .added t k true ∈ tr := by
  refine ⟨⟨fun ⟨d, hd⟩ => ⟨_, Loops.history_abs hd⟩, fun ⟨c, hc⟩ => ?_⟩, fun d hd => ?_⟩
  · obtain ⟨d, hd, -⟩ := (Loops.history_iff (L := loops n)).mpr hc
    exact ⟨d, hd⟩
  · obtain ⟨K, hi, hl⟩ := history_inv h1 hn (Loops.history_abs hd)
    refine ⟨fun t u k hr => ?_, fun t u => ?_, fun k hall => ?_⟩
    · rw [hl.returned] at hr
      rw [hl.added]
      exact hr.trans_le ((hi.calls_le t).1.trans (hi.calls_le u).2)
    · have ht : (d.loc t).place.calls ≤ K := (hi.calls_le t).1
      have hu : K ≤ (d.loc u).place.adds := (hi.calls_le u).2
      simp only [Thread.adds] at hu
      split at hu <;> omega
    · obtain ⟨t, ht⟩ := hl.branch_exists hi hall
      exact ⟨t, ht, fun u hu => hl.branch_unique u t k hu ht⟩

theorem synchronizeThreads_withoutLse_two :
    (∃ d, (loops 2).machine.History ((loops 2).observe observe) ((loops 2).start (start 2))
      ((machine 2).trace observe (start 2) (twoThreadRound 0 1)) d) :=
  (synchronizeThreads_withoutLse (by decide) (by decide)).1.mpr
    ⟨_, (machine 2).history_run observe (start 2) (twoThreadRound 0 1)⟩

end Lockhammer.Barrier

namespace Lockhammer.StartHandshake
open Interleaving

inductive Cell
  | syncLock
  | readyLock
  deriving DecidableEq

def Locks.read (l : Locks) : Cell → Word
  | .syncLock => l.syncLock
  | .readyLock => l.readyLock

def Locks.write (l : Locks) : Cell → Word → Locks
  | .syncLock, v => { l with syncLock := v }
  | .readyLock, v => { l with readyLock := v }

/-- The loop of `fetchadd64_acquire` or `fetchadd64_release` on one of the words. -/
def addLoop (cell : Cell) (addend : Word) (next : Word → Pc) : Rmw Cell Word Unit Pc :=
  ⟨.exclusive, cell, fun _ => true, fun old => old + addend, fun _ => next⟩

def exclusiveLoop : Pc → Option (Rmw Cell Word Unit Pc)
  | .entry => some (addLoop .syncLock 2 fun _ => .setCpuAffinity)
  | .setLsb => some (addLoop .syncLock 1 .checkSync)
  | .addReady => some (addLoop .readyLock 1 fun _ => .waitSync)
  | _ => none

def loops (ddebug : Bool) (n : ℕ) : Loops (machine ddebug n) Cell Word where
  read := Locks.read
  write := Locks.write
  loop _ := exclusiveLoop
  touched _ _ _ := false
  read_write_of_ne := by
    intro l l' h s v
    cases l <;> cases l' <;> first | rfl | exact absurd rfl h
  obeys := by
    rintro i p ⟨⟩ s
    cases p with
    | entry => exact ⟨rfl, fun h => by cases h⟩
    | setLsb => exact ⟨rfl, fun h => by cases h⟩
    | addReady => exact ⟨rfl, fun h => by cases h⟩
    | _ => exact fun _ _ => rfl

variable {ddebug : Bool} {n : ℕ}

/-- The start handshake without LSE. Nobody calibrates before all are pinned, the value that the
marshal's addition returns is the expected one, and once the marshal has passed every poll is for the
value that is there. -/
theorem hmr_startHandshake_withoutLse (h1 : 1 ≤ n) (hn : n < 2^64)
    {d : Config (Fin n) (Monitored (Fin n) Cell Locks) (Place Cell Word Unit Pc)}
    (h : (loops ddebug n).machine.Reachable ((loops ddebug n).start (start n)) d) :
    (∀ t, (d.loc t).place.calibrates = true → ∀ u, (d.loc u).place.pinned = true) ∧
    (∀ t, (d.loc t).place ≠ .unexpected) ∧
    ∀ t : Fin n, t.val = 0 → (d.loc t).place.passed = true → d.shared.mem.syncLock = BitVec.ofNat 64 (2 * n + 1) := by
  obtain ⟨b, hi⟩ := reachable_inv h1 hn (Loops.reachable_abs h)
  refine ⟨fun t ht u => ?_, fun t ht => ?_, fun t ht0 ht => ?_⟩
  · have hpassed : ((Loops.abs d).loc t).passed = true := by
      change (d.loc t).place.passed = true
      revert ht
      cases (d.loc t).place <;> simp [Pc.calibrates, Pc.passed]
    obtain rfl := hi.released_of_passed hpassed
    exact hi.pinned u
  · have hp := hi.placed t
    change Placed n b t (d.loc t).place at hp
    rw [ht] at hp
    exact hp
  · obtain rfl := hi.released_of_passed (t := t) ht
    refine hi.sync_of_full (Or.inr rfl) ht0 ?_
    change (d.loc t).place.arrived = true
    revert ht
    cases (d.loc t).place <;> simp [Pc.passed, Pc.arrived]

/-- Both workers load the sync word before either stores to it, and one of the stores is lost;
the subordinate reports, and the marshal sets the low bit. -/
def lostStore {n : ℕ} (marshal subordinate : Fin n) : List (Fin n × Unit × Bool) :=
  ([marshal, subordinate, marshal, subordinate] ++ List.replicate 6 subordinate ++
    List.replicate 5 marshal).map fun t => (t, (), false)

theorem hmr_startHandshake_withoutLse_two :
    (((loops true 2).machine.run ((loops true 2).start (start 2)) (lostStore 0 1)).loc 0).place = .calibrateTimer ∧
    (∀ u, (((loops true 2).machine.run ((loops true 2).start (start 2)) (lostStore 0 1)).loc u).place.pinned = true) ∧
    (((loops true 2).machine.run ((loops true 2).start (start 2)) (lostStore 0 1)).loc 1).place ≠ .unexpected ∧
    ((loops true 2).machine.run ((loops true 2).start (start 2)) (lostStore 0 1)).shared.mem.syncLock = 5 := by
  obtain ⟨hpinned, hexpected, hsync⟩ := hmr_startHandshake_withoutLse (n := 2) (by decide) (by decide)
    ((loops true 2).machine.reachable_run ((loops true 2).start (start 2)) (lostStore 0 1))
  have hpc : (((loops true 2).machine.run ((loops true 2).start (start 2)) (lostStore 0 1)).loc 0).place =
      .calibrateTimer := by decide +kernel
  exact ⟨hpc, hpinned 0 (by rw [hpc]; rfl), hexpected 1, hsync 0 rfl (by rw [hpc]; rfl)⟩

end Lockhammer.StartHandshake
