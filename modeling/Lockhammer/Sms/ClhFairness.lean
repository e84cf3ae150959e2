import Lockhammer.Sms.ClhSpinlock

/-!
# clh_spinlock under a fair schedule

Three steps take an idle thread to the exchange that puts it in the queue, and every thread
in the queue is served: no thread starves, with or without the wait for events.
-/
namespace Lockhammer.ClhSpinlock
open Interleaving

/-- The steps of a thread to its exchange. -/
def Pc.toExchange {n : ℕ} : Pc n → ℕ
  | .setPtr _ => 4
  | .idle => 3
  | .setWait _ => 2
  | .exchange _ => 1
  | _ => 0

section Line
variable {n : ℕ} {useWfe : Bool} {q : List (Fin n)} {own : Fin n → Node n} {free : Node n} {t : Fin n}
  {s : Shared n} {p : Pc n}

/-- The threads with a published node stand in queue `q`. -/
def InLine (q : List (Fin n)) (c : Config (Fin n) (Shared n) (Pc n)) : Prop := ∃ tr own, Inv tr c q own

lemma LocalOk.mem_of_exchanged (h : LocalOk s q own free t p) (hp : p.toExchange = 0) : t ∈ q := by
  cases p with
  | setPrev node prev => exact h.1
  | check prev => exact h.1
  | poll prev => exact h.1
  | critical => exact List.mem_of_head? h.1
  | readPrev => exact List.mem_of_head? h.1
  | clearWait prev => exact List.mem_of_head? h.1
  | fault => exact h.elim
  | _ => simp [Pc.toExchange] at hp

theorem line (n : ℕ) (useWfe : Bool) : (machine n useWfe).Line InLine (·.holding = true) Pc.phase where
  head := by
    rintro q c ⟨tr, own, h⟩ t ht
    exact (h.local_ok t).head_of_holding ht
  step := by
    rintro q c ⟨tr, own, h⟩ j -
    obtain ⟨q', own', h', hmoves⟩ := step_moves h j
    exact ⟨q', ⟨_, own', h'⟩, hmoves⟩

end Line

section Fair
variable {n : ℕ} {useWfe : Bool} {schedule : ℕ → Fin n × Unit}

lemma start_inLine (n : ℕ) : InLine [] (start n) := ⟨[], Node.pool, start_inv n⟩

/-- The thread always has a node to publish, so that nothing keeps it from its exchange. -/
lemma toExchange_fire {t : Fin n} (c : Config (Fin n) (Shared n) (Pc n)) (k : Unit)
    (h : (machine n useWfe).Reachable (start n) c) (hpos : 0 < (c.loc t).toExchange) :
    (((machine n useWfe).fire t k c).loc t).toExchange < (c.loc t).toExchange := by
  obtain ⟨q, tr, own, hi⟩ := (line n useWfe).of_reachable (start_inLine n) h
  have hl := hi.local_ok t
  rw [Machine.fire_loc_self]
  change (step useWfe t c.shared (c.loc t)).2.toExchange < _
  cases hpc : c.loc t with
  | idle =>
    rw [hpc] at hl
    simp [step, hl.2, Pc.toExchange]
  | setWait node => simp [step, Pc.toExchange]
  | exchange node => simp [step, Pc.toExchange]
  | setPtr prev => simp [step, Pc.toExchange]
  | _ => simp [hpc, Pc.toExchange] at hpos

/-- In a fair run every thread holds the lock and releases it again and again. -/
theorem clh_no_starvation (useWfe : Bool) (hfair : Fair schedule) (m : ℕ) (t : Fin n) :
    (∃ k, m ≤ k ∧ (((machine n useWfe).states (start n) schedule k).loc t).holding = true) ∧
      ∃ k, m ≤ k ∧ ¬ (((machine n useWfe).states (start n) schedule k).loc t).holding = true := by
  refine (line n useWfe).forever hfair (start_inLine n) (fun m => ?_) m
  obtain ⟨k, hk, hexchanged⟩ := (machine n useWfe).eventually_zero (t := t) toExchange_fire hfair m
  obtain ⟨q, tr, own, hi⟩ :=
    (line n useWfe).of_reachable (start_inLine n) ((machine n useWfe).reachable_states _ schedule k)
  exact ⟨k, hk, q, ⟨tr, own, hi⟩, (hi.local_ok t).mem_of_exchanged hexchanged⟩

/-- Two threads in turn. -/
theorem clh_no_starvation_two :
    (∃ k, 5 ≤ k ∧
      (((machine 2 true).states (start 2) (fun m => (Fin.ofNat 2 m, ())) k).loc 1).holding = true) ∧
      ∃ k, 5 ≤ k ∧
        ¬ (((machine 2 true).states (start 2) (fun m => (Fin.ofNat 2 m, ())) k).loc 1).holding = true :=
  clh_no_starvation true (fair_roundRobin 1 ()) 5 1

end Fair
end Lockhammer.ClhSpinlock
