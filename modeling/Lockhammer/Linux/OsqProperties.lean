import Lockhammer.Linux.OsqRefinement

/-!
# Exclusion, unqueueing and progress of the optimistic spin queue

The properties of osq_lock, read off the linked queue it refines: who owns the lock, what
an abandoned attempt leaves behind, whom an unlock serves, and that no set of threads can
wait for each other.
-/
namespace Lockhammer.OsqLock
open Interleaving Interleaving.Queue Interleaving.LinkedQueue

variable {n : ℕ} {c : Config (Fin n) (Shared n) (Pc n)} {q : List (Fin n)} {t u : Fin n}

lemma start_coupled (n : ℕ) : Coupled (start n) [] where
  inv := by constructor <;> simp [start, abs, Pc.role, Adj, Role.hasPrev]
  tail_eq := rfl
  pc_ok _ := trivial

theorem reachable_coupled (h : (machine n).Reachable (start n) c) : ∃ q, Coupled c q := by
  apply h.invariant (machine n) ⟨[], start_coupled n⟩
  rintro c t k ⟨q, hq⟩
  exact ⟨queueAfter t c q, fire_coupled hq t k⟩

section Places

lemma holding_eq_owner (pc : Pc n) : pc.holding = pc.role.owner := by
  cases pc with
  | waitTail prev | waitCmpxchg prev | waitNext prev | waitXchg prev => cases prev <;> rfl
  | _ => rfl

lemma waiting_iff (pc : Pc n) : pc.waiting = true ↔ pc.role = .waiting := by
  cases pc with
  | waitTail prev | waitCmpxchg prev | waitNext prev | waitXchg prev =>
    cases prev <;> simp [Pc.waiting, Pc.role, waitRole]
  | _ => simp [Pc.waiting, Pc.role]

lemma queued_iff (pc : Pc n) : pc.queued = true ↔ pc.role ≠ .out := by
  cases pc with
  | waitTail prev | waitCmpxchg prev | waitNext prev | waitXchg prev =>
    cases prev <;>
      simp [Pc.queued, Pc.waiting, Pc.committed, Pc.holding, Pc.inUnlock, Pc.role, waitRole]
  | _ => simp [Pc.queued, Pc.waiting, Pc.committed, Pc.holding, Pc.inUnlock, Pc.role]

end Places

section Coupled
variable (h : Coupled c q)
include h

lemma Coupled.mem_iff (t : Fin n) : t ∈ q ↔ (c.loc t).queued = true :=
  (h.inv.mem t).trans (queued_iff _).symm

lemma Coupled.first_of_holding (ht : (c.loc t).holding = true) : q.head? = some t :=
  h.inv.owner_first (by rwa [holding_eq_owner] at ht)

lemma Coupled.no_fault (t : Fin n) : c.loc t ≠ .fault := by
  intro hf
  have hok := h.pc_ok t
  rw [hf] at hok
  exact hok

/-- The thread about to be granted the lock is the one behind the owner, and waits. -/
lemma Coupled.grant_next (ht : c.loc t = .grant u) :
    Adj q t u ∧ (c.loc u).waiting = true ∧ c.shared.locked u = 0 := by
  have hrole : ((abs c).role t).taken = some u := by simp [abs, ht, Pc.role, Role.taken]
  obtain ⟨hadj, hw, -⟩ := h.inv.taken_adj hrole
  exact ⟨hadj, (waiting_iff _).mpr hw, (h.inv.behind t u hadj).1⟩

/-- A waiting thread without the lock has a queued thread in its `prev`. -/
lemma Coupled.prev_mem (hw : (c.loc t).waiting = true) (hl : c.shared.locked t = 0)
    (hp : c.shared.prev t = some u) : u ∈ q := by
  have hrole : (abs c).role t = .waiting := (waiting_iff _).mp hw
  have hmem : t ∈ q := by rw [h.inv.mem, hrole]; simp
  rcases head_or_adj hmem with hhead | ⟨x, hx⟩
  · rcases h.inv.first t hhead with ho | ⟨-, hn⟩
    · simp [hrole, Role.owner] at ho
    · exact absurd hl hn
  · have hprev : some u = some (((abs c).role x).front x) :=
      hp.symm.trans (h.inv.prev_ok x t hx (by rw [hrole]; rfl))
    obtain rfl := Option.some.inj hprev
    cases hr : (abs c).role x with
    | splicing p z b =>
      cases b with
      | false => exact hx.mem_left
      | true =>
        obtain ⟨hadj, -⟩ := h.inv.attached_adj (t := x) (p := p) (by rw [hr]; rfl)
        exact hadj.mem_left
    | _ => exact hx.mem_left

end Coupled

section Exclusion

/-- Only the last step of an unlock sets `locked`. -/
lemma fire_locked (t : Fin n) (k : Bool) (u : Fin n) (h0 : c.shared.locked u = 0)
    (h1 : ((machine n).fire t k c).shared.locked u ≠ 0) : c.loc t = .grant u := by
  rw [Machine.fire_shared] at h1
  cases hpc : c.loc t with
  | grant z =>
    by_cases hz : u = z
    · rw [hz]
    · simp [machine, step, hpc, Shared.setLocked, hz, h0] at h1
  | setLocked =>
    by_cases hz : u = t
    · simp [machine, step, hpc, Shared.setLocked, hz] at h1
    · simp [machine, step, hpc, Shared.setLocked, hz, h0] at h1
  | stepACmpxchg p =>
    by_cases hn : c.shared.next p = some t <;>
      simp [machine, step, hpc, hn, Shared.setNext, h0] at h1
  | waitCmpxchg p old =>
    by_cases hl : c.shared.tail = encodeCpu t <;> simp [machine, step, hpc, hl, h0] at h1
  | unlockCmpxchg =>
    by_cases hl : c.shared.tail = encodeCpu t <;> simp [machine, step, hpc, hl, h0] at h1
  | _ => simp [machine, step, hpc, Shared.setNext, Shared.setPrev, Shared.setCpu, h0] at h1

/-- At most one thread is between a true return of `osq_lock` and the step that gives the
lock up; `locked` is only set for a thread that is queued and waiting at that moment; and
no null or wild pointer is followed. -/
theorem osq_mutual_exclusion (h : (machine n).Reachable (start n) c) :
    (∀ t u, (c.loc t).holding = true → (c.loc u).holding = true → t = u) ∧
      (∀ t u, c.loc t = .grant u → (c.loc u).waiting = true ∧ c.shared.locked u = 0) ∧
      (∀ t k u, c.shared.locked u = 0 → ((machine n).fire t k c).shared.locked u ≠ 0 →
        c.loc t = .grant u) ∧
      ∀ t, c.loc t ≠ .fault := by
  obtain ⟨q, hq⟩ := reachable_coupled h
  refine ⟨?_, ?_, fun t k u => fire_locked t k u, hq.no_fault⟩
  · intro t u ht hu
    exact Option.some.inj ((hq.first_of_holding ht).symm.trans (hq.first_of_holding hu))
  · intro t u ht
    exact (hq.grant_next ht).2

/-- `a` takes the lock, `b` queues behind it and links itself, `a` takes `b` out of its
`next` and is about to grant. -/
def handover (a b : Fin n) : List (Fin n × Bool) :=
  [a, a, a, a, a, b, b, b, b, b, b, b, a, a, a].map fun t => (t, false)

theorem osq_mutual_exclusion_handover :
    ((machine 2).run (start 2) (handover 0 1)).loc 0 = .grant 1 ∧
      (((machine 2).run (start 2) (handover 0 1)).loc 1).waiting = true ∧
      ((machine 2).run (start 2) (handover 0 1)).shared.locked 1 = 0 := by
  have hgrant : ((machine 2).run (start 2) (handover 0 1)).loc 0 = .grant 1 := by decide +kernel
  have hr := (machine 2).reachable_run (start 2) (handover 0 1)
  generalize (machine 2).run (start 2) (handover 0 1) = c at hgrant hr
  exact ⟨hgrant, (osq_mutual_exclusion hr).2.1 0 1 hgrant⟩

end Exclusion

section Arrival
variable {tr : List (Fin n)}

/-- The last exchange of `b` on `tail` came after the last one of `a`. -/
def ArrivedBefore (tr : List (Fin n)) (a b : Fin n) : Prop :=
  ∃ l r, tr = l ++ a :: r ∧ a ∉ r ∧ b ∈ r

lemma ArrivedBefore.push {a b : Fin n} (h : ArrivedBefore tr a b) (ht : a ≠ t) :
    ArrivedBefore (tr ++ [t]) a b := by
  obtain ⟨l, r, rfl, ha, hb⟩ := h
  exact ⟨l, r ++ [t], by simp, by simp [ha, ht], by simp [hb]⟩

lemma arrivedBefore_push {a : Fin n} (ha : a ∈ tr) (ht : a ≠ t) :
    ArrivedBefore (tr ++ [t]) a t := by
  obtain ⟨r, l, hr, hmem⟩ := List.eq_append_cons_of_mem (List.mem_reverse.mpr ha)
  refine ⟨l.reverse, r.reverse ++ [t], ?_, by simp [hmem, ht], by simp⟩
  rw [← List.reverse_reverse tr, hr]
  simp

/-- The queue is in the order of the exchanges. -/
def Ordered (tr q : List (Fin n)) : Prop := q.Pairwise (ArrivedBefore tr) ∧ ∀ a ∈ q, a ∈ tr

lemma queueAfter_sublist (hpc : c.loc t ≠ .xchgTail) : (queueAfter t c q).Sublist q := by
  unfold queueAfter
  split
  · next h => exact absurd h hpc
  · split
    · exact List.erase_sublist
    · exact List.Sublist.refl q
  · split
    · exact List.erase_sublist
    · exact List.Sublist.refl q
  · exact List.erase_sublist
  · exact List.erase_sublist
  · exact List.Sublist.refl q

lemma obs_eq_none {k : Bool} (hpc : c.loc t ≠ .xchgTail) : obs t k c.shared (c.loc t) = none := by
  cases h : c.loc t with
  | xchgTail => exact absurd h hpc
  | _ => rfl

lemma Ordered.fire (hq : Coupled c q) (h : Ordered tr q) (t : Fin n) (k : Bool) :
    Ordered (tr ++ (obs t k c.shared (c.loc t)).toList) (queueAfter t c q) := by
  by_cases hpc : c.loc t = .xchgTail
  · have hout : t ∉ q := by rw [hq.mem_iff, hpc]; simp [Pc.queued, Pc.waiting, Pc.committed,
      Pc.holding, Pc.inUnlock]
    have hne (a : Fin n) (ha : a ∈ q) : a ≠ t := fun e => hout (e ▸ ha)
    simp only [hpc, obs, Option.toList_some, queueAfter]
    refine ⟨List.pairwise_append.mpr ⟨?_, List.pairwise_singleton _ _, ?_⟩, ?_⟩
    · exact h.1.imp_of_mem fun ha _ hab => hab.push (hne _ ha)
    · intro a ha b hb
      rw [List.mem_singleton.mp hb]
      exact arrivedBefore_push (h.2 a ha) (hne a ha)
    · intro a ha
      rcases List.mem_append.mp ha with ha | ha
      · exact List.mem_append_left _ (h.2 a ha)
      · exact List.mem_append_right _ ha
  · have hsub := queueAfter_sublist (q := q) hpc
    rw [obs_eq_none hpc, Option.toList_none, List.append_nil]
    exact ⟨h.1.sublist hsub, fun a ha => h.2 a (hsub.subset ha)⟩

theorem history_coupled (h : (machine n).History obs (start n) tr c) :
    ∃ q, Coupled c q ∧ Ordered tr q := by
  apply h.invariant (machine n) ⟨[], start_coupled n, List.Pairwise.nil, by simp⟩
  rintro tr c t k ⟨q, hq, ho⟩
  exact ⟨queueAfter t c q, fire_coupled hq t k, ho.fire hq t k⟩

/-- The second of the queue arrived before all others behind the first. -/
lemma Ordered.second {z : Fin n} (h : Ordered tr q) (hhead : q.head? = some t) (hadj : Adj q t z)
    (hnd : q.Nodup) (hu : u ∈ q) (hut : u ≠ t) (huz : u ≠ z) : ArrivedBefore tr z u := by
  obtain ⟨q, rfl⟩ := List.head?_eq_some_iff.mp hhead
  have htail : q.head? = some z := by
    rcases hadj with ⟨-, hz⟩ | hadj
    · exact hz
    · exact absurd hadj.mem_left (List.nodup_cons.mp hnd).1
  obtain ⟨q, rfl⟩ := List.head?_eq_some_iff.mp htail
  have hu : u ∈ q := by simpa [hut, huz] using hu
  exact (List.pairwise_cons.mp (List.pairwise_cons.mp h.1).2).1 u hu

end Arrival

section Unqueue
variable {tr : List (Fin n)}

/-- `t` hands the lock to the thread that arrived first among those queued behind it and
not committed to leaving. -/
def HandsOver (tr : List (Fin n)) (c c' : Config (Fin n) (Shared n) (Pc n)) (t : Fin n) : Prop :=
  ∃ z, z ≠ t ∧ c'.shared.locked z = 1 ∧ (c.loc z).queued = true ∧ (c.loc z).committed = false ∧
    ∀ u, u ≠ t → u ≠ z → (c.loc u).queued = true → (c.loc u).committed = false →
      ArrivedBefore tr z u

/-- `t` frees the lock, and nobody else is queued. -/
def Frees (c c' : Config (Fin n) (Shared n) (Pc n)) (t : Fin n) : Prop :=
  c'.shared.tail = osqUnlockedVal ∧ ∀ u, (c.loc u).queued = true → u = t

/-- Leaving the end of the queue with the lock leaves nobody behind. -/
lemma Coupled.alone (h : Coupled c q) (ht : (c.loc t).holding = true)
    (hl : c.shared.tail = encodeCpu t) : ∀ u, (c.loc u).queued = true → u = t := by
  intro u hu
  have hone := eq_singleton h.inv.nodup (h.first_of_holding ht) (h.last_of_tail hl)
  have hmem := (h.mem_iff u).mpr hu
  rw [hone] at hmem
  exact List.mem_singleton.mp hmem

lemma Coupled.grant_earliest (h : Coupled c q) (ho : Ordered tr q) {z : Fin n} (k : Bool)
    (ht : c.loc t = .grant z) : HandsOver tr c ((machine n).fire t k c) t := by
  obtain ⟨hadj, hw, -⟩ := h.grant_next ht
  have hfirst := h.first_of_holding (t := t) (by rw [ht]; rfl)
  refine ⟨z, (hadj.ne h.inv.nodup).symm, ?_, (h.mem_iff z).mp hadj.mem_right, ?_, ?_⟩
  · simp [machine, step, ht, Shared.setLocked]
  · cases hz : c.loc z <;> simp_all [Pc.waiting, Pc.committed]
  · intro u hut huz hu _
    exact ho.second hfirst hadj h.inv.nodup ((h.mem_iff u).mpr hu) hut huz

/-- One step of `osq_unlock`: it goes on and touches neither `tail` nor any `locked`, or
it ends by handing the lock over or by freeing it. -/
lemma Coupled.unlock_step (h : Coupled c q) (ho : Ordered tr q) (k : Bool)
    (ht : (c.loc t).inUnlock = true) :
    ((((machine n).fire t k c).loc t).inUnlock = true ∧
        ((machine n).fire t k c).shared.tail = c.shared.tail ∧
        ((machine n).fire t k c).shared.locked = c.shared.locked) ∨
      (((machine n).fire t k c).loc t = .idle ∧
        (HandsOver tr c ((machine n).fire t k c) t ∨ Frees c ((machine n).fire t k c) t)) := by
  have hold : (c.loc t).holding = true := by simp [Pc.holding, ht]
  have hok := h.pc_ok t
  rw [Machine.fire_loc_self, Machine.fire_shared]
  cases hpc : c.loc t with
  | unlockCmpxchg =>
    by_cases hl : c.shared.tail = encodeCpu t
    · refine Or.inr ⟨by simp [machine, step, hl], Or.inr ⟨?_, h.alone hold hl⟩⟩
      simp [machine, step, hpc, hl]
    · exact Or.inl (by simp [machine, step, hl, Pc.inUnlock])
  | unlockXchg =>
    refine Or.inl ?_
    cases hn : c.shared.next t <;> simp [machine, step, hn, Pc.inUnlock, Shared.setNext]
  | grant z => exact Or.inr ⟨by simp [machine, step], Or.inl (h.grant_earliest ho k hpc)⟩
  | waitTail prev old =>
    rw [hpc] at ht
    refine Or.inl ?_
    by_cases hl : c.shared.tail = encodeCpu t <;> simpa [machine, step, hl, Pc.inUnlock] using ht
  | waitCmpxchg prev old =>
    rw [hpc] at ht hok
    cases prev with
    | some p => simp [Pc.inUnlock] at ht
    | none =>
      by_cases hl : c.shared.tail = encodeCpu t
      · refine Or.inr ⟨by simp [machine, step, hl, afterWaitNext], Or.inr ⟨?_, h.alone hold hl⟩⟩
        simp [machine, step, hpc, hl, hok.2, oldOf]
      · exact Or.inl (by simp [machine, step, hl, Pc.inUnlock])
  | waitNext prev old =>
    rw [hpc] at ht
    refine Or.inl ?_
    by_cases hn : c.shared.next t = none <;> simpa [machine, step, hn, Pc.inUnlock] using ht
  | waitXchg prev old =>
    rw [hpc] at ht
    cases prev with
    | some p => simp [Pc.inUnlock] at ht
    | none =>
      refine Or.inl ?_
      cases hn : c.shared.next t <;>
        simp [machine, step, hn, Pc.inUnlock, Shared.setNext, afterWaitNext]
  | _ => simp [hpc, Pc.inUnlock] at ht

/-- After a false return neither `tail`, nor any `next`, nor the `prev` of any thread that
is linked and waits names the thread; and every unlock serves the first arrival behind it
that stays, or frees the lock when nobody is behind it. -/
theorem osq_unqueue_leaves_no_trace (h : (machine n).History obs (start n) tr c) :
    (∀ t, c.loc t = .backoff →
      c.shared.tail ≠ encodeCpu t ∧ (∀ u, c.shared.next u ≠ some t) ∧
        ∀ u, (c.loc u).waiting = true → c.shared.locked u = 0 → c.shared.prev u ≠ some t) ∧
      ∀ t k, (c.loc t).inUnlock = true →
        ((((machine n).fire t k c).loc t).inUnlock = true ∧
            ((machine n).fire t k c).shared.tail = c.shared.tail ∧
            ((machine n).fire t k c).shared.locked = c.shared.locked) ∨
          (((machine n).fire t k c).loc t = .idle ∧
            (HandsOver tr c ((machine n).fire t k c) t ∨
              Frees c ((machine n).fire t k c) t)) := by
  obtain ⟨q, hq, ho⟩ := history_coupled h
  refine ⟨?_, fun t k => hq.unlock_step ho k⟩
  intro t ht
  have hout : t ∉ q := by
    rw [hq.inv.mem]
    simp [abs, ht, Pc.role]
  refine ⟨?_, ?_, ?_⟩
  · intro hl
    exact hout (List.mem_of_getLast? (hq.last_of_tail hl))
  · intro u hu
    exact hout (hq.inv.next_adj hu).1.mem_right
  · intro u hw hl hp
    exact hout (hq.prev_mem hw hl hp)

/-- `a` holds the lock; `b` queues behind it, gives up and leaves. -/
def abandon (a b : Fin n) : List (Fin n × Bool) :=
  List.replicate 5 (a, false) ++ List.replicate 13 (b, true)

theorem osq_unqueue_leaves_no_trace_abandon :
    ((machine 2).run (start 2) (abandon 0 1)).loc 1 = .backoff ∧
      ((machine 2).run (start 2) (abandon 0 1)).shared.tail ≠ encodeCpu (1 : Fin 2) ∧
      ∀ u, ((machine 2).run (start 2) (abandon 0 1)).shared.next u ≠ some 1 := by
  have hback : ((machine 2).run (start 2) (abandon 0 1)).loc 1 = .backoff := by decide +kernel
  have hr := (machine 2).history_run obs (start 2) (abandon 0 1)
  generalize (machine 2).run (start 2) (abandon 0 1) = c at hback hr
  have hleft := (osq_unqueue_leaves_no_trace hr).1 1 hback
  exact ⟨hback, hleft.1, hleft.2.1⟩

end Unqueue

section Progress

/-- Threads that the next iteration of their loop does not let out, in this state. -/
def Blocked (s : Shared n) (t : Fin n) : Pc n → Prop
  | .spin _ => s.locked t = 0
  | .stepARead _ | .stepACmpxchg _ | .stepALocked | .stepAPrev =>
    s.locked t = 0 ∧ ∀ p, s.prev t = some p → s.next p ≠ some t
  | .waitTail _ _ | .waitCmpxchg _ _ | .waitNext _ _ | .waitXchg _ _ =>
    s.tail ≠ encodeCpu t ∧ s.next t = none
  | _ => False

structure Stuck (c : Config (Fin n) (Shared n) (Pc n)) : Prop where
  someone : ∃ t, (c.loc t).inside = true
  free : ∀ t, c.loc t ≠ .critical
  blocked : ∀ t, (c.loc t).inside = true → Blocked c.shared t (c.loc t)

lemma Blocked.cases {s : Shared n} {pc : Pc n} (h : Blocked s t pc) :
    (pc.waiting = true ∧ s.locked t = 0) ∨
      (pc.waitingNext = true ∧ s.tail ≠ encodeCpu t ∧ s.next t = none) := by
  cases pc with
  | spin => exact Or.inl ⟨rfl, h⟩
  | stepARead | stepACmpxchg | stepALocked | stepAPrev => exact Or.inl ⟨rfl, h.1⟩
  | waitTail | waitCmpxchg | waitNext | waitXchg => exact Or.inr ⟨rfl, h⟩
  | _ => exact h.elim

lemma taken_of_waitingNext {pc : Pc n} (h : pc.waitingNext = true) : pc.role.taken = none := by
  cases pc with
  | waitTail prev | waitCmpxchg prev | waitNext prev | waitXchg prev => cases prev <;> rfl
  | _ => simp [Pc.waitingNext] at h

/-- In a stuck state everybody in the queue is blocked. -/
lemma Coupled.blocked_of_mem (h : Coupled c q) (hs : Stuck c) (ht : t ∈ q) :
    Blocked c.shared t (c.loc t) := by
  apply hs.blocked
  have hq := (h.mem_iff t).mp ht
  cases hpc : c.loc t with
  | critical => exact absurd hpc (hs.free t)
  | idle | backoff => simp [hpc, Pc.queued, Pc.waiting, Pc.committed, Pc.holding, Pc.inUnlock] at hq
  | _ => rfl

/-- The first is the owner, so it waits in `osq_wait_next`. -/
lemma Coupled.waitingNext_first (h : Coupled c q) (hs : Stuck c) (hhead : q.head? = some t) :
    (c.loc t).waitingNext = true := by
  rcases (h.blocked_of_mem hs (List.mem_of_head? hhead)).cases with ⟨hw, hl⟩ | ⟨hw, -⟩
  · have hrole : (abs c).role t = .waiting := (waiting_iff _).mp hw
    rcases h.inv.first t hhead with ho | ⟨-, hn⟩
    · simp [hrole, Role.owner] at ho
    · exact absurd hl hn
  · exact hw

/-- A waiting thread would show in the `next` of the thread in front; so behind a thread
in `osq_wait_next` stands another one. -/
lemma Coupled.waitingNext_behind (h : Coupled c q) (hs : Stuck c) {x y : Fin n} (hadj : Adj q x y)
    (hx : (c.loc x).waitingNext = true) : (c.loc y).waitingNext = true := by
  have hnext : c.shared.next x = none := by
    rcases (h.blocked_of_mem hs hadj.mem_left).cases with ⟨hw, -⟩ | ⟨-, -, hn⟩
    · cases hpc : c.loc x <;> simp [hpc, Pc.waiting, Pc.waitingNext] at hw hx
    · exact hn
  rcases (h.blocked_of_mem hs hadj.mem_right).cases with ⟨hw, -⟩ | ⟨hw, -⟩
  · rcases h.inv.linked x y hadj ((waiting_iff _).mp hw) with ⟨hl, -⟩ | ⟨-, hk⟩
    · exact absurd (hnext.symm.trans hl) (by simp)
    · exact absurd ((taken_of_waitingNext hx).symm.trans hk) (by simp)
  · exact hw

/-- No reachable state has threads inside `osq_lock` or `osq_unlock`, nobody holding the
lock outside them, and all of them in loops that nothing lets them leave. -/
theorem osq_never_stuck (h : (machine n).Reachable (start n) c) : ¬ Stuck c := by
  intro hs
  obtain ⟨q, hq⟩ := reachable_coupled h
  have hall : ∀ x ∈ q, (c.loc x).waitingNext = true :=
    adj_induction (fun x hx => hq.waitingNext_first hs hx)
      (fun x y hadj hx => hq.waitingNext_behind hs hadj hx)
  obtain ⟨t, ht⟩ := hs.someone
  have hmem : t ∈ q := by
    rw [hq.mem_iff]
    rcases (hs.blocked t ht).cases with ⟨hw, -⟩ | ⟨hw, -⟩
    · rw [queued_iff, (waiting_iff _).mp hw]
      simp
    · cases hpc : c.loc t with
      | waitTail prev | waitCmpxchg prev | waitNext prev | waitXchg prev => cases prev <;> rfl
      | _ => simp [hpc, Pc.waitingNext] at hw
  obtain ⟨x, hx⟩ : ∃ x, q.getLast? = some x :=
    Option.ne_none_iff_exists'.mp (by simpa using List.ne_nil_of_mem hmem)
  have hxq := List.mem_of_getLast? hx
  have htail : c.shared.tail = encodeCpu x := hq.tail_eq.trans (tailOf_eq_iff.mpr hx)
  rcases (hq.blocked_of_mem hs hxq).cases with ⟨hw, -⟩ | ⟨-, hne, -⟩
  · have hwn := hall x hxq
    cases hpc : c.loc x <;> simp [hpc, Pc.waiting, Pc.waitingNext] at hw hwn
  · exact hne htail

/-- `b` gives up behind `a` and has gone through Step A, `a` unlocks, and `d` behind `b` has not
linked itself, so both of them wait in `osq_wait_next`. -/
def lateLink (a b d : Fin n) : List (Fin n × Bool) :=
  List.replicate 5 (a, false) ++ List.replicate 7 (b, false) ++ List.replicate 5 (d, false) ++
    List.replicate 4 (b, true) ++ List.replicate 3 (a, false)

theorem osq_never_stuck_lateLink :
    ((machine 3).run (start 3) (lateLink 0 1 2)).loc 0 = .waitTail none osqUnlockedVal ∧
      ((machine 3).run (start 3) (lateLink 0 1 2)).loc 1 = .waitTail (some 0) (encodeCpu (0 : Fin 3)) ∧
      ((machine 3).run (start 3) (lateLink 0 1 2)).loc 2 = .setPrev 1 ∧
      (∀ t < 2, ((machine 3).run (start 3) (lateLink 0 1 2)).shared.tail ≠ encodeCpu t ∧
        ((machine 3).run (start 3) (lateLink 0 1 2)).shared.next t = none) ∧
      ¬ Stuck ((machine 3).run (start 3) (lateLink 0 1 2)) := by
  have hr := (machine 3).reachable_run (start 3) (lateLink 0 1 2)
  exact ⟨by decide +kernel, by decide +kernel, by decide +kernel, by decide +kernel, osq_never_stuck hr⟩

end Progress

end Lockhammer.OsqLock
