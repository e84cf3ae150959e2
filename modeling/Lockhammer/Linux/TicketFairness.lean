import Lockhammer.Linux.TicketSpinlock

/-!
# ticket_spinlock under a fair schedule

A drawn ticket is served after finitely many steps, and the lock is released again. The
locked additions draw at once, so that with them no thread starves; an exclusive store
can fail for ever, and then only a thread that has drawn is sure to be served.
-/
namespace Lockhammer.TicketSpinlock
open Interleaving

/-- The ticket is drawn and not served yet. -/
def Pc.waiting : Pc → Bool
  | .compare _ | .poll _ => true
  | _ => false

/-- The steps of an idle thread to its locked addition. -/
def Pc.toDraw : Pc → ℕ
  | .idle => 2
  | .add => 1
  | _ => 0

/-- Inside the loop of exclusive accesses. -/
def Pc.drawing : Pc → Bool
  | .ldaxr | .stxr _ => true
  | _ => false

section Line
variable {n : ℕ} {body : Body} {q : List (Fin n)} {served : ℕ} {t : Fin n}
  {lock : Exclusive (Fin n) (BitVec 32)} {p : Pc}

/-- The tickets that are out stand in line `q`. -/
def InLine (body : Body) (q : List (Fin n)) (c : Config (Fin n) (Exclusive (Fin n) (BitVec 32)) Pc) : Prop :=
  ∃ tr served, Inv body tr c q served

lemma LocalOk.mem_of_waiting (h : LocalOk body lock q served t p) (hp : p.waiting = true) : t ∈ q := by
  have hmem {tmp : BitVec 32} (hd : Holds body q served t tmp) : t ∈ q := by
    obtain ⟨i, hi, -⟩ := hd
    exact List.mem_of_getElem? hi
  cases p with
  | compare tmp => exact hmem h.1
  | poll tmp => exact hmem h
  | _ => simp [Pc.waiting] at hp

/-- Who is not in line is on the way to its draw. -/
lemma LocalOk.of_not_mem (h : LocalOk body lock q served t p) (ht : t ∉ q) :
    p = .idle ∨ p = .add ∨ p = .ldaxr ∨ ∃ tmp, p = .stxr tmp := by
  cases p with
  | idle => exact Or.inl rfl
  | add => exact Or.inr (Or.inl rfl)
  | ldaxr => exact Or.inr (Or.inr (Or.inl rfl))
  | stxr tmp => exact Or.inr (Or.inr (Or.inr ⟨tmp, rfl⟩))
  | compare tmp => exact absurd (h.mem_of_waiting rfl) ht
  | poll tmp => exact absurd (h.mem_of_waiting rfl) ht
  | critical d => exact absurd (List.mem_of_head? (h.critical_head rfl)) ht
  | loadServing => exact absurd (List.mem_of_head? (h.critical_head rfl)) ht
  | storeServing tmp => exact absurd (List.mem_of_head? (h.critical_head rfl)) ht
  | addServing => exact absurd (List.mem_of_head? (h.critical_head rfl)) ht

theorem line (hn : body.stride * n ≤ 2 ^ 16) :
    (machine n body).Line (InLine body) (·.inCritical = true) Pc.phase where
  head := by
    rintro q c ⟨tr, served, h⟩ t ht
    exact (h.local_ok t).critical_head ht
  step := by
    rintro q c ⟨tr, served, h⟩ j fails
    obtain ⟨q', served', h', hmoves⟩ := step_moves h hn j fails
    exact ⟨q', ⟨_, served', h'⟩, hmoves⟩

end Line

section Fair
variable {n : ℕ} {body : Body} {schedule : ℕ → Fin n × Bool}

/-- The locked additions have no loop to draw in. -/
lemma not_drawing (hbody : body ≠ .llsc) {c : Config (Fin n) (Exclusive (Fin n) (BitVec 32)) Pc}
    (h : (machine n body).Reachable (start n) c) (t : Fin n) : (c.loc t).drawing = false := by
  refine h.invariant (machine n body) (P := fun c => ∀ t, (c.loc t).drawing = false) (fun _ => rfl) ?_ t
  intro c j fails hc u
  rw [Machine.fire_loc]
  by_cases hu : u = j
  swap
  · rw [if_neg hu]
    exact hc u
  rw [if_pos hu]
  change (step body j fails c.shared (c.loc j)).2.drawing = false
  have hj := hc j
  cases hpc : c.loc j with
  | idle => simp [step, hbody, Pc.drawing]
  | ldaxr => simp [hpc, Pc.drawing] at hj
  | stxr tmp => simp [hpc, Pc.drawing] at hj
  | add => rfl
  | compare tmp =>
    simp only [step]
    split <;> rfl
  | poll tmp =>
    simp only [step]
    split <;> rfl
  | critical d =>
    simp only [step]
    split <;> rfl
  | loadServing => rfl
  | storeServing tmp => rfl
  | addServing => rfl

lemma toDraw_fire (hbody : body ≠ .llsc) {t : Fin n} (c : Config (Fin n) (Exclusive (Fin n) (BitVec 32)) Pc)
    (fails : Bool) (_ : (machine n body).Reachable (start n) c) (hpos : 0 < (c.loc t).toDraw) :
    (((machine n body).fire t fails c).loc t).toDraw < (c.loc t).toDraw := by
  rw [Machine.fire_loc_self]
  change (step body t fails c.shared (c.loc t)).2.toDraw < _
  cases hpc : c.loc t with
  | idle => simp [step, hbody, Pc.toDraw]
  | add => simp [step, Pc.toDraw]
  | _ => simp [hpc, Pc.toDraw] at hpos

/-- In a fair run of at most as many threads as there are tickets: a drawn ticket is served, a
served thread releases, and with the locked additions every thread does so for ever. -/
theorem ticketSpinlock_no_starvation (hn : n ≤ body.maxThreads) (hfair : Fair schedule) (m : ℕ) (t : Fin n) :
    ((((machine n body).states (start n) schedule m).loc t).waiting = true →
      ∃ k, m ≤ k ∧ (((machine n body).states (start n) schedule k).loc t).inCritical = true) ∧
    (∃ k, m ≤ k ∧ ¬ (((machine n body).states (start n) schedule k).loc t).inCritical = true) ∧
    (body ≠ .llsc →
      ∃ k, m ≤ k ∧ (((machine n body).states (start n) schedule k).loc t).inCritical = true) := by
  have hfit : body.stride * n ≤ 2 ^ 16 := by
    cases body <;> simp only [Body.maxThreads, Body.stride] at hn ⊢ <;> omega
  have hstart : InLine body [] (start n) := ⟨[], 0, start_inv n body⟩
  have hline (k : ℕ) : ∃ q, InLine body q ((machine n body).states (start n) schedule k) :=
    (line hfit).of_reachable hstart ((machine n body).reachable_states _ schedule k)
  obtain ⟨q, hq⟩ := hline m
  refine ⟨fun ht => ?_, (line hfit).leaves hfair hq, fun hbody => ?_⟩
  · obtain ⟨tr, served, hi⟩ := hq
    exact (line hfit).enters hfair ⟨tr, served, hi⟩ ((hi.local_ok t).mem_of_waiting ht)
  · refine ((line hfit).forever hfair hstart (fun m => ?_) m).1
    obtain ⟨k, hk, hdrawn⟩ := (machine n body).eventually_zero (t := t) (toDraw_fire hbody) hfair m
    obtain ⟨q, tr, served, hi⟩ := hline k
    refine ⟨k, hk, q, ⟨tr, served, hi⟩, not_not.mp fun ht => ?_⟩
    have hloop := not_drawing hbody ((machine n body).reachable_states (start n) schedule k) t
    rcases (hi.local_ok t).of_not_mem ht with hpc | hpc | hpc | ⟨tmp, hpc⟩
    · simp [hpc, Pc.toDraw] at hdrawn
    · simp [hpc, Pc.toDraw] at hdrawn
    · simp [hpc, Pc.drawing] at hloop
    · simp [hpc, Pc.drawing] at hloop

/-- Two threads in turn: at time 3 the first has drawn. -/
theorem ticketSpinlock_no_starvation_two :
    (∃ k, 3 ≤ k ∧ (((machine 2 .x86).states (start 2) (fun m => (Fin.ofNat 2 m, false)) k).loc 0).inCritical = true) ∧
    (∃ k, 3 ≤ k ∧
      ¬ (((machine 2 .x86).states (start 2) (fun m => (Fin.ofNat 2 m, false)) k).loc 0).inCritical = true) ∧
    ∃ k, 3 ≤ k ∧ (((machine 2 .x86).states (start 2) (fun m => (Fin.ofNat 2 m, false)) k).loc 0).inCritical = true :=
  have h := ticketSpinlock_no_starvation (by decide) (fair_roundRobin 1 false) 3 0
  ⟨h.1 rfl, h.2.1, h.2.2 (by decide)⟩

end Fair
end Lockhammer.TicketSpinlock
