import Lockhammer.Interleaving.RetryLoop
import Lockhammer.Tests.CounterLocks

/-!
# The counter locks without LSE

Every atomic operation of the three locks is a loop of exclusive accesses in this build. A loop of
`cas64` is left without a store when the loaded value is not the expected one.
-/
namespace Lockhammer.CounterLocks
open Interleaving CasLockref

/-- The same of a build with loops: an acquire or a release goes through with the store of its
loop. -/
structure ExactBuild {n : ℕ} {ρ : Type} {M : Machine (Fin n) Unit Word ρ} (L : Loops M Unit Word)
    (V : View ρ) (decode : Word → ℕ)
    (d : Config (Fin n) (Monitored (Fin n) Unit Word) (Place Unit Word Unit ρ)) : Prop where
  word : decode d.shared.mem = (Loops.abs d).count (V.holding · = true)
  acquired : ∀ t k, L.GoesThrough t k d → V.acquires (d.loc t).place d.shared.mem = true →
    Acquired V decode ((Loops.abs d).count (V.holding · = true)) (d.loc t).place
      ((L.machine.fire t k d).loc t).place (L.machine.fire t k d).shared.mem
  released : ∀ t k, L.GoesThrough t k d → V.releases (d.loc t).place d.shared.mem = true →
    Released V decode ((Loops.abs d).count (V.holding · = true)) (d.loc t).place
      ((L.machine.fire t k d).loc t).place (L.machine.fire t k d).shared.mem
  other : ∀ t k, ¬ (L.GoesThrough t k d ∧ (V.acquires (d.loc t).place d.shared.mem = true ∨
      V.releases (d.loc t).place d.shared.mem = true)) →
    Unchanged V d.shared.mem (d.loc t).place ((L.machine.fire t k d).loc t).place
      (L.machine.fire t k d).shared.mem

section Build
variable {n : ℕ} {ρ : Type} {M : Machine (Fin n) Unit Word ρ} {L : Loops M Unit Word} {V : View ρ}
  {decode : Word → ℕ} {c₀ : Config (Fin n) Word ρ}
  {d : Config (Fin n) (Monitored (Fin n) Unit Word) (Place Unit Word Unit ρ)}

/-- Every update is the store of a loop, and nobody returns within a loop. -/
lemma ExactCount.build (h : ExactCount M V decode (Loops.abs d))
    (hd : L.machine.Reachable (L.start c₀) d)
    (hupdate : ∀ t p v, V.acquires p v = true ∨ V.releases p v = true →
      ∃ r, L.loop t p = some r ∧ r.stores (L.read v r.cell) = true)
    (hdepth : ∀ t p, (∃ r, L.loop t p = some r) → V.depth p = none) :
    ExactBuild L V decode d := by
  -- a step within a loop
  have hwithin (t : Fin n) (k : Unit × Bool) (habs : Loops.abs (L.machine.fire t k d) = Loops.abs d)
      (hloop : ∃ r, L.loop t (d.loc t).place = some r) :
      Unchanged V d.shared.mem (d.loc t).place ((L.machine.fire t k d).loc t).place
        (L.machine.fire t k d).shared.mem := by
    have hplace : ((L.machine.fire t k d).loc t).place = (d.loc t).place :=
      congrArg (fun c => c.loc t) habs
    rw [hplace]
    exact ⟨congrArg Config.shared habs, rfl, fun _ => hdepth t _ hloop⟩
  refine ⟨h.word, fun t k hgo hacq => ?_, fun t k hgo hrel => ?_, fun t k hno => ?_⟩
  · have hstep := h.acquired t hacq
    rw [← Loops.fire_abs_of_goesThrough hd hgo] at hstep
    exact hstep
  · have hstep := h.released t hrel
    rw [← Loops.fire_abs_of_goesThrough hd hgo] at hstep
    exact hstep
  · by_cases hup : V.acquires (d.loc t).place d.shared.mem = true ∨
        V.releases (d.loc t).place d.shared.mem = true
    · obtain ⟨r, hloop, hstores⟩ := hupdate t _ _ hup
      exact hwithin t k (Loops.fire_abs_of_waits hloop hstores fun hgo => hno ⟨hgo, hup⟩) ⟨r, hloop⟩
    · obtain habs | ⟨habs, hloop⟩ := Loops.fire_abs hd t k
      · obtain ⟨hacq, hrel⟩ := not_or.mp hup
        have hstep := h.other t (Bool.eq_false_iff.mpr hacq) (Bool.eq_false_iff.mpr hrel)
        change Unchanged V _ _ ((M.fire t k.1 (Loops.abs d)).loc t) (M.fire t k.1 (Loops.abs d)).shared at hstep
        rw [← habs] at hstep
        exact hstep
      · exact hwithin t k habs hloop

end Build

lemma casContract_of_ne {mem newval expected : Word} (h : mem ≠ expected) :
    (casContract mem newval expected).2 = mem := by
  rw [casContract, if_neg h]

namespace Lockref

def exclusiveLoop : Pc → Option LoopKind
  | .acquireCas _ | .releaseCas _ => some .exclusive
  | _ => none

/-- `cbnz` leaves the loop of `cas64` when the loaded value is not the expected one. -/
def stores : Pc → Word → Bool
  | .acquireCas old, v | .releaseCas old, v => v = old
  | _, _ => true

def loops (n : ℕ) : Loops (machine n) Unit Word :=
  .ofWord (machine n) exclusiveLoop stores (fun _ => false)
    (by
      intro i p v h
      cases p with
      | acquireCas old => exact casContract_of_ne (by simpa [stores] using h)
      | releaseCas old => exact casContract_of_ne (by simpa [stores] using h)
      | _ => cases h)
    (by
      intro i p v h _
      cases p <;> first | rfl | cases h)
    (by
      intro p v h
      cases p <;> cases h)

lemma loops_update {n : ℕ} {t : Fin n} {p : Pc} {v : Word}
    (h : view.acquires p v = true ∨ view.releases p v = true) :
    ∃ r, (loops n).loop t p = some r ∧ r.stores ((loops n).read v r.cell) = true := by
  cases p with
  | acquireCas old => exact ⟨_, rfl, h.elim id fun h => absurd h Bool.false_ne_true⟩
  | releaseCas old => exact ⟨_, rfl, h.elim (fun h => absurd h Bool.false_ne_true) id⟩
  | _ => exact (h.elim Bool.false_ne_true Bool.false_ne_true).elim

lemma depth_loops {n : ℕ} {t : Fin n} {p : Pc} (h : ∃ r, (loops n).loop t p = some r) : p.depth = none := by
  obtain ⟨r, hr⟩ := h
  cases p <;> first | rfl | cases hr

end Lockref

namespace RwLock

def exclusiveLoop : Pc → Option LoopKind
  | .cas _ | .release => some .exclusive
  | _ => none

/-- The loop of `cas64_acquire` compares, the loop of `fetchadd64_release` does not. -/
def stores : Pc → Word → Bool
  | .cas old, v => v = old
  | _, _ => true

def loops (n : ℕ) : Loops (machine n) Unit Word :=
  .ofWord (machine n) exclusiveLoop stores (fun _ => false)
    (by
      intro i p v h
      cases p with
      | cas old => exact casContract_of_ne (by simpa [stores] using h)
      | _ => cases h)
    (by
      intro i p v h _
      cases p <;> first | rfl | cases h)
    (by
      intro p v h
      cases p <;> cases h)

lemma loops_update {n : ℕ} {t : Fin n} {p : Pc} {v : Word}
    (h : view.acquires p v = true ∨ view.releases p v = true) :
    ∃ r, (loops n).loop t p = some r ∧ r.stores ((loops n).read v r.cell) = true := by
  cases p with
  | cas old => exact ⟨_, rfl, h.elim id fun h => absurd h Bool.false_ne_true⟩
  | release => exact ⟨_, rfl, rfl⟩
  | _ => exact (h.elim Bool.false_ne_true Bool.false_ne_true).elim

lemma depth_loops {n : ℕ} {t : Fin n} {p : Pc} (h : ∃ r, (loops n).loop t p = some r) : p.depth = none := by
  obtain ⟨r, hr⟩ := h
  cases p <;> first | rfl | cases hr

end RwLock

namespace Refcount

def exclusiveLoop : Pc → Option LoopKind
  | .acquire | .release => some .exclusive
  | _ => none

def loops (n : ℕ) : Loops (machine n) Unit Word :=
  .ofWord (machine n) exclusiveLoop (fun _ _ => true) (fun _ => false)
    (fun _ _ _ h => by cases h)
    (by
      intro i p v h _
      cases p <;> first | rfl | cases h)
    (fun _ _ _ => rfl)

lemma loops_update {n : ℕ} {t : Fin n} {p : Pc} {v : Word}
    (h : view.acquires p v = true ∨ view.releases p v = true) :
    ∃ r, (loops n).loop t p = some r ∧ r.stores ((loops n).read v r.cell) = true := by
  cases p with
  | acquire => exact ⟨_, rfl, rfl⟩
  | release => exact ⟨_, rfl, rfl⟩
  | _ => exact (h.elim Bool.false_ne_true Bool.false_ne_true).elim

lemma depth_loops {n : ℕ} {t : Fin n} {p : Pc} (h : ∃ r, (loops n).loop t p = some r) : p.depth = none := by
  obtain ⟨r, hr⟩ := h
  cases p <;> first | rfl | cases hr

end Refcount

/-- Without LSE too, each word of at most 2^29 threads decodes to the number of holders in every
run; each acquire whose store goes through stores one more and returns the number of holders it
has found, and each release stores one less, however many exclusive stores fail. -/
theorem counterLocks_exact_withoutLse {n : ℕ} (hn : n ≤ 2 ^ 29) :
    (∀ d, (Lockref.loops n).machine.Reachable ((Lockref.loops n).start (Lockref.start n)) d →
      ExactBuild (Lockref.loops n) Lockref.view (fun w => (w >>> 32).toNat) d) ∧
    (∀ d, (RwLock.loops n).machine.Reachable ((RwLock.loops n).start (RwLock.start n)) d →
      ExactBuild (RwLock.loops n) RwLock.view (fun w => (0x20000000 - w).toNat) d) ∧
    ∀ d, (Refcount.loops n).machine.Reachable ((Refcount.loops n).start (Refcount.start n)) d →
      ExactBuild (Refcount.loops n) Refcount.view BitVec.toNat d := by
  refine ⟨fun d hd => ?_, fun d hd => ?_, fun d hd => ?_⟩
  · have hexact := Lockref.exactCount (Lockref.reachable_inv (Loops.reachable_abs hd)) (by omega)
    exact hexact.build hd (fun _ _ _ => Lockref.loops_update) fun _ _ => Lockref.depth_loops
  · have hexact := RwLock.exactCount (RwLock.reachable_inv hn (Loops.reachable_abs hd)) hn
    exact hexact.build hd (fun _ _ _ => RwLock.loops_update) fun _ _ => RwLock.depth_loops
  · have hexact := Refcount.exactCount (Refcount.reachable_inv (Loops.reachable_abs hd)) (by omega)
    exact hexact.build hd (fun _ _ _ => Refcount.loops_update) fun _ _ => Refcount.depth_loops

/-- `a` goes `k` steps, to the store of its loop; `b` acquires first, which ends the reservation of
`a`. -/
def bothLoad {n : ℕ} (k m : ℕ) (a b : Fin n) : List (Fin n × Unit × Bool) :=
  (List.replicate k a ++ List.replicate (k + 1) b ++ List.replicate m a).map fun t => (t, (), false)

theorem counterLocks_exact_withoutLse_two :
    ((Loops.abs ((Lockref.loops 2).machine.run ((Lockref.loops 2).start (Lockref.start 2))
        (bothLoad 4 6 0 1))).count (Lockref.Pc.holding · = true) = 2 ∧
      ExactBuild (Lockref.loops 2) Lockref.view (fun w => (w >>> 32).toNat)
        ((Lockref.loops 2).machine.run ((Lockref.loops 2).start (Lockref.start 2)) (bothLoad 4 6 0 1))) ∧
    ((Loops.abs ((RwLock.loops 2).machine.run ((RwLock.loops 2).start (RwLock.start 2))
        (bothLoad 5 6 0 1))).count (RwLock.Pc.holding · = true) = 2 ∧
      ExactBuild (RwLock.loops 2) RwLock.view (fun w => (0x20000000 - w).toNat)
        ((RwLock.loops 2).machine.run ((RwLock.loops 2).start (RwLock.start 2)) (bothLoad 5 6 0 1))) ∧
    (Loops.abs ((Refcount.loops 2).machine.run ((Refcount.loops 2).start (Refcount.start 2))
        (bothLoad 2 3 0 1))).count (Refcount.Pc.holding · = true) = 2 ∧
      ExactBuild (Refcount.loops 2) Refcount.view BitVec.toNat
        ((Refcount.loops 2).machine.run ((Refcount.loops 2).start (Refcount.start 2)) (bothLoad 2 3 0 1)) :=
  have h := counterLocks_exact_withoutLse (n := 2) (by decide)
  ⟨⟨by decide +kernel, h.1 _ ((Lockref.loops 2).machine.reachable_run _ _)⟩,
    ⟨by decide +kernel, h.2.1 _ ((RwLock.loops 2).machine.reachable_run _ _)⟩,
    by decide +kernel, h.2.2 _ ((Refcount.loops 2).machine.reachable_run _ _)⟩

end Lockhammer.CounterLocks
