import Lockhammer.Linux.HybridSpinlockTickets

/-!
# Progress and order of the hybrid spinlocks

A waiter waits for the queue, for the dequeue threshold and for its ticket. Somebody can
always go on: first the front of the line of tickets, and when the line is empty the head
of the queue. The order of service in hybrid_spinlock.h is that of the line followed by
the rest of the queue, as long as nobody takes the fast path past a queue.
-/
namespace Lockhammer.HybridSpinlock
open Interleaving Interleaving.Queue Interleaving.LinkedQueue

variable {n : ℕ} {h : Header} {c : Config (Fin n) (Shared n) (Pc n)} {t : Fin n}
  {q w : List (Fin n)} {p p' : Pc n} {s' : Shared n}

section Progress

/-- Inside `lock_acquire`. -/
def Pc.acquiring (p : Pc n) : Bool := p ≠ .idle && !p.inCritical

/-- At a waiting loop whose exit condition is false. -/
def Blocked (h : Header) (s : Shared n) (t : Fin n) : Pc n → Prop
  | .waitLocked idx => s.locked (t, idx) = 0
  | .waitServing v => s.lock.serving ≠ ticketByte v
  | .headWait _ _ v => s.lock.serving ≠ ticketByte v
  | .lateWait v => s.lock.serving ≠ ticketByte v
  | .headLoad _ _ => h = .fastdequeue ∧ aboveDequeueThreshold s.lock.val = true
  | .waitNext idx _ => s.next (t, idx) = none
  | .fault => True
  | _ => False

structure Stuck (h : Header) (c : Config (Fin n) (Shared n) (Pc n)) : Prop where
  acquiring : ∃ t, (c.loc t).acquiring = true
  free : ∀ t, (c.loc t).inCritical = false
  blocked : ∀ t, (c.loc t).acquiring = true → Blocked h c.shared t (c.loc t)

lemma Stuck.blocked_of_ne (hs : Stuck h c) (hne : c.loc t ≠ .idle) :
    Blocked h c.shared t (c.loc t) := by
  apply hs.blocked
  simp [Pc.acquiring, hne, hs.free t]

/-- Nobody is about to link itself in a stuck state. -/
lemma Stuck.linked (hs : Stuck h c) (u : Fin n) : (c.loc u).role.attached = none := by
  cases hpc : c.loc u with
  | link idx prev =>
    have hb := hs.blocked_of_ne (t := u) (by simp [hpc])
    rw [hpc] at hb
    exact hb.elim
  | headLoad _ next => cases next <;> rfl
  | headStore _ next _ => cases next <;> rfl
  | headWait _ next _ => cases next <;> rfl
  | readVal _ next _ => cases next <;> rfl
  | clearTail _ next _ _ => cases next <;> rfl
  | _ => rfl

/-- The head is not kept waiting for a `next` pointer. -/
lemma Stuck.not_waitNext (hs : Stuck h c) (hq : QueueOk c q) {idx : Fin maxNodes} {v : BitVec 32} :
    c.loc t ≠ .waitNext idx v := by
  intro hpc
  obtain rfl : idx = 0 := hq.nodes t idx (by rw [hpc]; rfl)
  have hb := hs.blocked_of_ne (t := t) (by simp [hpc])
  have hplace := hq.places t
  rw [hpc] at hb hplace
  have hnone : c.shared.next (t, 0) = none := hb
  obtain ⟨y, hy⟩ := hq.ok.unlinked_behind (t := t) (by rw [hpc]; rfl) (by simp [hnone]) hplace
  exact hy (hs.linked y)

/-- The front of the line is served, so there is no line. -/
lemma Stuck.line_empty (hs : Stuck h c) (hq : QueueOk c q) (hw : TicketOk h c q w) : w = [] := by
  cases hhead : w.head? with
  | none => exact List.head?_eq_none_iff.mp hhead
  | some t =>
    exfalso
    have hdrawn : (c.loc t).drawn = true := (hw.mem t).mp (List.mem_of_head? hhead)
    obtain ⟨v, hv⟩ : ∃ v, (c.loc t).ticket = some v := by
      rw [Pc.drawn, hs.free t, Bool.or_false] at hdrawn
      exact Option.isSome_iff_exists.mp hdrawn
    have hserving : c.shared.lock.serving = ticketByte v := by
      obtain ⟨i, hi, hb⟩ := hw.place t v hv
      have hlt : i < w.length := (List.getElem?_eq_some_iff.mp hi).1
      have h0 : i = 0 := by
        rw [List.head?_eq_getElem?] at hhead
        exact (List.getElem?_inj hlt hw.nodup).mp (hi.trans hhead.symm)
      simp [hb, h0]
    have hb := hs.blocked_of_ne (t := t) fun he => by simp [he, Pc.ticket] at hv
    cases hpc : c.loc t with
    | waitServing v' =>
      rw [hpc] at hb hv
      exact hb (Option.some.inj hv ▸ hserving)
    | headWait idx next v' =>
      rw [hpc] at hb hv
      exact hb (Option.some.inj hv ▸ hserving)
    | lateWait v' =>
      rw [hpc] at hb hv
      exact hb (Option.some.inj hv ▸ hserving)
    | waitNext idx v' => exact hs.not_waitNext hq hpc
    | _ => simp [hpc, Blocked, Pc.ticket] at hb hv

/-- With no ticket out the dequeue threshold holds nobody back. -/
lemma not_above_of_empty (he : c.shared.lock.next = c.shared.lock.serving) :
    aboveDequeueThreshold c.shared.lock.val = false := by
  have hb := c.shared.lock.borrow_le
  have hs := c.shared.lock.serving.isLt
  rw [← Bool.not_eq_true, aboveDequeueThreshold_val, he]
  omega

/-- In a stuck state without tickets the only waits left are for the queue. -/
lemma Stuck.waitLocked (hs : Stuck h c) (hq : QueueOk c q) (hw : TicketOk h c q [])
    (hne : c.loc t ≠ .idle) : c.loc t = .waitLocked 0 ∧ c.shared.locked (t, 0) = 0 := by
  have hb := hs.blocked_of_ne hne
  have hdrawn : (c.loc t).drawn = false := by
    rw [← Bool.not_eq_true, ← hw.mem]
    exact List.not_mem_nil
  cases hpc : c.loc t with
  | waitLocked idx =>
    obtain rfl : idx = 0 := hq.nodes t idx (by rw [hpc]; rfl)
    rw [hpc] at hb
    exact ⟨rfl, hb⟩
  | headLoad idx next =>
    rw [hpc] at hb
    have ha : aboveDequeueThreshold c.shared.lock.val = true := hb.2
    rw [not_above_of_empty (hw.empty_iff.mpr rfl)] at ha
    exact absurd ha (by decide)
  | fault =>
    have hplace := hq.places t
    rw [hpc] at hplace
    exact hplace.elim
  | _ => simp [hpc, Blocked, Pc.drawn, Pc.ticket] at hb hdrawn

/-- In both headers no interleaving of at most 513 threads comes to a state where somebody
is inside `lock_acquire`, nobody holds the lock and everybody inside waits in vain. -/
theorem hybrid_never_stuck (h : Header) (n : ℕ) (hn : n ≤ 513)
    (c : Config (Fin n) (Shared n) (Pc n)) (hr : (machine h n).Reachable (start n) c) :
    ¬ Stuck h c := by
  intro hs
  obtain ⟨q, w, -, hq, hw⟩ := reachable_inv hn hr
  obtain rfl : w = [] := hs.line_empty hq hw
  obtain ⟨t, ht⟩ := hs.acquiring
  have hne : c.loc t ≠ .idle := by
    intro he
    simp [he, Pc.acquiring] at ht
  have hmem : t ∈ q := by
    rw [hq.mem, (hs.waitLocked hq hw hne).1]
    rfl
  obtain ⟨x, hx⟩ : ∃ x, q.head? = some x := by
    cases q with
    | nil => simp at hmem
    | cons a q => exact ⟨a, rfl⟩
  have hxne : c.loc x ≠ .idle := by
    intro he
    have hx' := (hq.mem x).mp (List.mem_of_head? hx)
    simp [he, Pc.queued, Pc.role] at hx'
  obtain ⟨hpc, hlocked⟩ := hs.waitLocked hq hw hxne
  rcases hq.ok.first hx with howner | ⟨-, hset⟩
  · rw [hpc] at howner
    exact absurd howner (by simp [Pc.role, Role.owner])
  · exact hset hlocked

/-- Four threads have tickets, the fifth heads the queue and draws one too, the sixth queues behind
it. Then the first four have the lock one after the other. -/
def servedHead : List (Fin 6 × Bool) :=
  [(0, 3), (1, 4), (2, 4), (3, 4), (4, 8), (5, 7), (0, 3), (1, 4), (2, 4), (3, 4)].flatMap fun p =>
    List.replicate p.2 (p.1, false)

/-- Nobody has the lock, the head is still before its test of `serving`, and the sixth waits. -/
theorem hybrid_never_stuck_servedHead :
    (∀ t, (((machine .hybridSpinlock 6).run (start 6) servedHead).loc t).inCritical = false) ∧
      (((machine .hybridSpinlock 6).run (start 6) servedHead).loc 4).ticket.isSome = true ∧
      ((machine .hybridSpinlock 6).run (start 6) servedHead).loc 5 = .waitLocked 0 ∧
      ((machine .hybridSpinlock 6).run (start 6) servedHead).shared.locked (5, 0) = 0 ∧
      ¬ Stuck .hybridSpinlock ((machine .hybridSpinlock 6).run (start 6) servedHead) := by
  have hr := (machine .hybridSpinlock 6).reachable_run (start 6) servedHead
  exact ⟨by decide +kernel, by decide +kernel, by decide +kernel, by decide +kernel,
    hybrid_never_stuck .hybridSpinlock 6 (by decide) _ hr⟩

end Progress

section Order

/-- What a thread does to the order of service: it begins `lock_acquire`, it publishes itself
as the tail, it enters the critical section. -/
inductive Event (n : ℕ)
  | start (t : Fin n)
  | publish (t : Fin n)
  | enter (t : Fin n)
  deriving DecidableEq

def event (h : Header) (t : Fin n) (fails : Bool) (s : Shared n) (p : Pc n) : Option (Event n) :=
  match p with
  | .idle => some (.start t)
  | .xchgTail _ => some (.publish t)
  | p => if !p.inCritical && (step h t fails s p).2.inCritical then some (.enter t) else none

/-- The fast path meets a queue and does not see it: no ticket is out, and the two bytes of
the nonzero tail are equal. -/
def PastQueue (s : Shared n) (p : Pc n) : Prop :=
  p = .fastLoad ∧ s.lock.next = s.lock.serving ∧ s.lock.tail ≠ 0 ∧
    s.lock.tail.toNat / 2 ^ 8 = s.lock.tail.toNat % 2 ^ 8

/-- The line of tickets, and behind it who is queued without one. -/
def order (q w : List (Fin n)) : List (Fin n) := w ++ q.filter (· ∉ w)

lemma event_enter {fails : Bool} {s : Shared n} (hp : p.inCritical = false)
    (hp' : (step h t fails s p).2.inCritical = true) : event h t fails s p = some (.enter t) := by
  cases p with
  | idle => simp [step, Pc.inCritical] at hp'
  | xchgTail idx =>
    simp only [step] at hp'
    split at hp'
    · split at hp' <;> simp [Pc.inCritical] at hp'
    · simp [Pc.inCritical] at hp'
  | _ => simp_all [event]

lemma of_event_enter {fails : Bool} {s : Shared n} {y : Fin n}
    (he : event h t fails s p = some (.enter y)) :
    t = y ∧ (step h t fails s p).2.inCritical = true := by
  unfold event at he
  split at he
  · simp at he
  · simp at he
  · split at he
    · next hc =>
      rw [Bool.and_eq_true] at hc
      exact ⟨by simpa using he, hc.2⟩
    · simp at he

section
variable (hi : Inv h c q w)
include hi

lemma Inv.mem_order (u : Fin n) :
    u ∈ order q w ↔ (c.loc u).drawn = true ∨ (c.loc u).queued = true := by
  obtain ⟨-, hq, hw⟩ := hi
  rw [order, List.mem_append, List.mem_filter, ← hw.mem, ← hq.mem]
  by_cases hu : u ∈ w <;> simp [hu]

lemma Inv.order_nodup : (order q w).Nodup := by
  obtain ⟨-, hq, hw⟩ := hi
  refine List.nodup_append.mpr ⟨hw.nodup, hq.ok.nodup.filter _, ?_⟩
  rintro u hu v hv rfl
  simp [hu] at hv

/-- Who is in the critical section is first. -/
lemma Inv.order_head (ht : (c.loc t).inCritical = true) : (order q w).head? = some t := by
  have hhead : w.head? = some t := by
    apply hi.2.2.served
    cases hpc : c.loc t <;> simp_all [Pc.inCritical, Pc.served]
  rw [order, List.head?_append, hhead]
  rfl

end

lemma order_push (ht : t ∉ w) : order (q ++ [t]) w = order q w ++ [t] := by
  simp [order, ht]

lemma order_leave (hq : q.Nodup) (ht : t ∈ w) : order (q.erase t) w = order q w := by
  have hkeep : (q.erase t).filter (· ∉ w) = q.filter (· ∉ w) := by
    rw [hq.erase_eq_filter, List.filter_filter]
    apply List.filter_congr
    intro u _
    by_cases hu : u = t
    · simp [hu, ht]
    · simp [hu]
  rw [order, hkeep, order]

/-- The head moves from the queue to the end of the line. -/
lemma order_headDraw {rest : List (Fin n)} (hq : (t :: rest).Nodup) (hw : ∀ u ∈ t :: rest, u ∉ w) :
    order (t :: rest) (w ++ [t]) = order (t :: rest) w := by
  have hnot : t ∉ rest := (List.nodup_cons.mp hq).1
  have hrest : ∀ u ∈ rest, u ∉ w ∧ u ≠ t := fun u hu =>
    ⟨hw u (List.mem_cons_of_mem t hu), fun e => hnot (e ▸ hu)⟩
  have h1 : rest.filter (· ∉ w ++ [t]) = rest :=
    List.filter_eq_self.mpr fun u hu => by simp [hrest u hu]
  have h2 : rest.filter (· ∉ w) = rest := List.filter_eq_self.mpr fun u hu => by simp [hrest u hu]
  have ht : t ∉ w := hw t List.mem_cons_self
  rw [order, order, List.filter_cons_of_neg (by simp), List.filter_cons_of_pos (by simp [ht]), h1, h2]
  simp

lemma order_release {rest : List (Fin n)} (ht : t ∉ q) : order q (t :: rest) = t :: order q rest := by
  have hkeep : q.filter (· ∉ t :: rest) = q.filter (· ∉ rest) := by
    apply List.filter_congr
    intro u hu
    have hut : u ≠ t := fun e => ht (e ▸ hu)
    simp [hut]
  rw [order, hkeep, List.cons_append, order]

/-- On the fast path with a word in hand that has no tail. -/
def FastOk (c : Config (Fin n) (Shared n) (Pc n)) : Prop :=
  ∀ t v, c.loc t = .fastStore v → v &&& qTailMask = 0

/-- The draw of the head does not change the order: nobody else in the queue has a ticket. -/
lemma TicketOk.order_headStore (hw : TicketOk h c q w) (hq : QueueOk c q) {idx : Fin maxNodes}
    {next : Option (NodeId n)} {v : BitVec 32} (hp : c.loc t = .headStore idx next v)
    (hqueued : p'.queued = (Pc.headStore idx next v).queued) (hdrawn : p'.drawn = true) :
    order (follow t (Pc.headStore idx next v).queued p'.queued q)
      (follow t (Pc.headStore idx next v).drawn p'.drawn w) = order q w := by
  have hundrawn : (c.loc t).drawn = false := by
    rw [hp]
    rfl
  have hhead : q.head? = some t := by
    apply hq.ok.owner_first
    rw [hp]
    cases next <;> rfl
  have hnone : ∀ u ∈ q, u ∉ w := by
    intro u hu huw
    have hud := (hw.mem u).mp huw
    have hfirst := hq.ok.owner_first (Pc.owner_of_drawn ((hq.mem u).mp hu) hud)
    obtain rfl : u = t := Option.some.inj (hfirst.symm.trans hhead)
    rw [hundrawn] at hud
    exact absurd hud (by decide)
  rw [hqueued, follow_same, hdrawn]
  obtain ⟨rest, rfl⟩ := List.head?_eq_some_iff.mp hhead
  exact order_headDraw hq.ok.nodup hnone

/-- A step leaves the order alone, puts its thread last, or takes the holder off the front. -/
lemma Inv.order_step (hn : n ≤ 513) (hi : Inv h c q w) (hf : FastOk c) (hp : c.loc t = p)
    (hs : Step h t c.shared p s' p') :
    order (follow t p.queued p'.queued q) (follow t p.drawn p'.drawn w) = order q w ∨
      (t ∉ order q w ∧
        order (follow t p.queued p'.queued q) (follow t p.drawn p'.drawn w) = order q w ++ [t]) ∨
      (p.inCritical = true ∧
        order q w = t :: order (follow t p.queued p'.queued q) (follow t p.drawn p'.drawn w)) := by
  have hmem := hi.mem_order t
  rw [hp] at hmem
  obtain ⟨-, hq, hw⟩ := hi
  have hsame (h1 : p'.queued = p.queued) (h2 : p'.drawn = p.drawn) :
      order (follow t p.queued p'.queued q) (follow t p.drawn p'.drawn w) = order q w := by
    rw [h1, h2, follow_same, follow_same]
  have hloaded := hw.loaded t
  have hwmem := hw.mem t
  rw [hp] at hloaded hwmem
  cases hs with
  | fastDraw =>
    obtain rfl : q = [] := by
      apply (tailOf_eq_zero hn).mp
      rw [← hq.tail]
      exact (LockWord.val_and_qTailMask_eq_zero _).mp (hf t _ hp)
    refine Or.inr (Or.inl ⟨?_, ?_⟩)
    · simp [hmem, Pc.drawn, Pc.queued, Pc.role, Pc.ticket, Pc.inCritical]
    · simp [follow, order, Pc.drawn, Pc.queued, Pc.role, Pc.ticket, Pc.inCritical]
  | draw =>
    obtain ⟨rfl, -⟩ := hw.below_threshold hn hq hloaded
    refine Or.inr (Or.inl ⟨?_, ?_⟩)
    · simp [hmem, Pc.drawn, Pc.queued, Pc.role, Pc.ticket, Pc.inCritical]
    · simp [follow, order, Pc.drawn, Pc.queued, Pc.role, Pc.ticket, Pc.inCritical]
  | headDraw hh => exact Or.inl (hw.order_headStore hq hp rfl rfl)
  | headDrawFast hh => exact Or.inl (hw.order_headStore hq hp rfl rfl)
  | @xchgFirst idx hz =>
    have hnot : t ∉ w := hwmem.not.mpr (by simp [Pc.drawn, Pc.ticket, Pc.inCritical])
    refine Or.inr (Or.inl ⟨?_, order_push hnot⟩)
    simp [hmem, Pc.drawn, Pc.queued, Pc.role, Pc.ticket, Pc.inCritical]
  | xchgBehind hz hd =>
    have hnot : t ∉ w := hwmem.not.mpr (by simp [Pc.drawn, Pc.ticket, Pc.inCritical])
    refine Or.inr (Or.inl ⟨?_, order_push hnot⟩)
    simp [hmem, Pc.drawn, Pc.queued, Pc.role, Pc.ticket, Pc.inCritical]
  | @clearTail idx next v =>
    have hqueued : (Pc.clearTail idx next v c.shared.lock.val).queued = true := by
      cases next <;> rfl
    rw [hqueued]
    exact Or.inl (order_leave hq.ok.nodup (hwmem.mpr rfl))
  | handoff => exact Or.inl (order_leave hq.ok.nodup (hwmem.mpr rfl))
  | storeServing =>
    have hhead : w.head? = some t := hw.served t (by rw [hp]; rfl)
    have hout : t ∉ q := by
      rw [hq.mem, hp]
      simp [Pc.queued, Pc.role]
    obtain ⟨rest, rfl⟩ := List.head?_eq_some_iff.mp hhead
    refine Or.inr (Or.inr ⟨rfl, ?_⟩)
    have herase : follow t true false (t :: rest) = rest := List.erase_cons_head t rest
    exact (order_release hout).trans (congrArg (fun r => t :: order q r) herase.symm)
  | poll => exact Or.inl (hsame rfl rfl)
  | queueUp hor => rcases hor with rfl | rfl <;> exact Or.inl rfl
  | tailMine hor hm => rcases hor with rfl | ⟨val, rfl⟩ <;> exact Or.inl (hsame rfl rfl)
  | @tailOther _ idx next v hor hm =>
    cases next <;> rcases hor with rfl | ⟨val, rfl⟩ <;> exact Or.inl (hsame rfl rfl)
  | @readNext idx =>
    refine Or.inl (hsame ?_ rfl)
    cases c.shared.next (t, idx) <;> rfl
  | _ => exact Or.inl (hsame rfl rfl)

lemma FastOk.step (hf : FastOk c) (hg : ¬ PastQueue c.shared p) (hp : c.loc t = p)
    (hs : Step h t c.shared p s' p') : FastOk ⟨s', Function.update c.loc t p'⟩ := by
  intro u v hv
  by_cases hu : u = t
  · subst hu
    have hv' : p' = .fastStore v := by simpa using hv
    cases hs with
    | fastLoaded hpal =>
      obtain rfl : c.shared.lock.val = v := by simpa using hv'
      obtain ⟨hnext, hbytes⟩ := palindromic_val.mp hpal
      have htail : c.shared.lock.tail = 0 := by
        by_contra hne
        exact hg ⟨rfl, hnext, hne, hbytes⟩
      exact (LockWord.val_and_qTailMask_eq_zero _).mpr htail
    | poll => exact hf u v (hp.trans hv')
    | @tailOther _ idx next => cases next <;> simp at hv'
    | _ => simp at hv'
  · exact hf u v (by simpa [hu] using hv)

/-- `x` is in the order of service and has not entered. -/
structure Pending (h : Header) (x : Fin n) (c : Config (Fin n) (Shared n) (Pc n))
    (q w : List (Fin n)) : Prop where
  inv : Inv h c q w
  fast : FastOk c
  mem : x ∈ order q w
  outside : (c.loc x).inCritical = false

/-- `y` is behind `x`, or not in the order yet. -/
structure Behind (h : Header) (x y : Fin n) (c : Config (Fin n) (Shared n) (Pc n))
    (q w : List (Fin n)) : Prop extends Pending h x c q w where
  ne : x ≠ y
  before : y ∈ order q w → [x, y].Sublist (order q w)

section Fire
variable {x y : Fin n} {k : Bool} (hn : n ≤ 513) (hg : ¬ PastQueue c.shared (c.loc t))
include hn hg

lemma Pending.fire (hx : Pending h x c q w)
    (he : event h t k c.shared (c.loc t) ≠ some (.enter x)) :
    Pending h x ((machine h n).fire t k c)
      (follow t (c.loc t).queued (step h t k c.shared (c.loc t)).2.queued q)
      (follow t (c.loc t).drawn (step h t k c.shared (c.loc t)).2.drawn w) := by
  have hs := step_step (h := h) hx.inv.1 t k
  refine ⟨hx.inv.step hn rfl hs, hx.fast.step hg rfl hs, ?_, ?_⟩
  · rcases hx.inv.order_step hn hx.fast rfl hs with ho | ⟨-, ho⟩ | ⟨hin, ho⟩
    · rw [ho]
      exact hx.mem
    · rw [ho]
      exact List.mem_append_left _ hx.mem
    · have hmem := hx.mem
      rw [ho, List.mem_cons] at hmem
      rcases hmem with rfl | hmem
      · rw [hx.outside] at hin
        exact absurd hin (by decide)
      · exact hmem
  · rw [Machine.fire_loc]
    split
    · next hxt =>
      subst hxt
      apply Bool.eq_false_iff.mpr
      intro hin
      exact he (event_enter hx.outside hin)
    · exact hx.outside

lemma Behind.fire (hxy : Behind h x y c q w)
    (he : event h t k c.shared (c.loc t) ≠ some (.enter x)) :
    Behind h x y ((machine h n).fire t k c)
      (follow t (c.loc t).queued (step h t k c.shared (c.loc t)).2.queued q)
      (follow t (c.loc t).drawn (step h t k c.shared (c.loc t)).2.drawn w) := by
  refine ⟨hxy.toPending.fire hn hg he, hxy.ne, fun hy => ?_⟩
  rcases hxy.inv.order_step hn hxy.fast rfl (step_step hxy.inv.1 t k) with ho | ⟨-, ho⟩ | ⟨hin, ho⟩
  · rw [ho] at hy ⊢
    exact hxy.before hy
  · rw [ho] at hy ⊢
    rcases List.mem_append.mp hy with hy | hy
    · exact (hxy.before hy).trans (List.sublist_append_left _ _)
    · have hx1 : [x].Sublist (order q w) := List.singleton_sublist.mpr hxy.mem
      rw [List.mem_singleton] at hy
      rw [hy]
      exact hx1.append (List.Sublist.refl [t])
  · have hyo : y ∈ order q w := ho ▸ List.mem_cons_of_mem t hy
    have hsub := hxy.before hyo
    rw [ho] at hsub
    rcases List.sublist_cons_iff.mp hsub with hsub | ⟨r, hr, -⟩
    · exact hsub
    · obtain ⟨rfl, -⟩ := List.cons.inj hr
      rw [hxy.outside] at hin
      exact absurd hin (by decide)

/-- Who is behind does not enter. -/
lemma Behind.not_enter (hxy : Behind h x y c q w) :
    event h t k c.shared (c.loc t) ≠ some (.enter y) := by
  intro he
  obtain ⟨rfl, hin⟩ := of_event_enter he
  have hne : event h t k c.shared (c.loc t) ≠ some (.enter x) := by
    rw [he]
    intro h'
    exact hxy.ne (by simpa using h'.symm)
  have hnext := hxy.fire hn hg hne
  have hin' : (((machine h n).fire t k c).loc t).inCritical = true := by
    rw [Machine.fire_loc_self]
    exact hin
  have hhead := hnext.inv.order_head hin'
  have hnodup := hnext.inv.order_nodup
  have hsub := hnext.before (List.mem_of_head? hhead)
  obtain ⟨rest, hrest⟩ := List.head?_eq_some_iff.mp hhead
  rw [hrest] at hsub hnodup
  have hnot : t ∉ rest := (List.nodup_cons.mp hnodup).1
  rcases List.sublist_cons_iff.mp hsub with hsub | ⟨r, hr, -⟩
  · exact hnot (hsub.subset (by simp))
  · exact hxy.ne (List.cons.inj hr).1

/-- The exchange of the tail puts its thread into the order. -/
lemma publish_pending (hi : Inv h c q w) (hf : FastOk c)
    (he : event h t k c.shared (c.loc t) = some (.publish x)) :
    Pending h x ((machine h n).fire t k c)
      (follow t (c.loc t).queued (step h t k c.shared (c.loc t)).2.queued q)
      (follow t (c.loc t).drawn (step h t k c.shared (c.loc t)).2.drawn w) := by
  have hs := step_step (h := h) hi.1 t k
  have hinv := hi.step hn rfl hs
  obtain ⟨rfl, idx, hpc⟩ : t = x ∧ ∃ idx, c.loc t = .xchgTail idx := by
    unfold event at he
    split at he
    · simp at he
    · next idx hpc => exact ⟨by simpa using he, idx, hpc⟩
    · split at he <;> simp at he
  have hnext : (step h t k c.shared (c.loc t)).2.inCritical = false ∧
      ((step h t k c.shared (c.loc t)).2 = .fault ∨
        (step h t k c.shared (c.loc t)).2.queued = true) := by
    rw [hpc]
    simp only [step]
    split
    · split
      · exact ⟨rfl, Or.inr rfl⟩
      · exact ⟨rfl, Or.inl rfl⟩
    · exact ⟨rfl, Or.inr rfl⟩
  refine ⟨hinv, hf.step hg rfl hs, ?_, ?_⟩
  · refine (hinv.mem_order t).mpr (Or.inr ?_)
    have hplace := hinv.2.1.places t
    simp only [Function.update_self] at hplace ⊢
    rcases hnext.2 with hfault | hqueued
    · rw [hfault] at hplace
      exact hplace.elim
    · exact hqueued
  · rw [Machine.fire_loc_self]
    exact hnext.1

/-- Who begins now is behind everybody in the order. -/
lemma Pending.behind (hx : Pending h x c q w)
    (he : event h t k c.shared (c.loc t) = some (.start y)) :
    Behind h x y ((machine h n).fire t k c)
      (follow t (c.loc t).queued (step h t k c.shared (c.loc t)).2.queued q)
      (follow t (c.loc t).drawn (step h t k c.shared (c.loc t)).2.drawn w) := by
  have hnext := hx.fire hn hg (k := k) (by simp [he])
  obtain ⟨rfl, hpc⟩ : t = y ∧ c.loc t = .idle := by
    unfold event at he
    split at he
    · next hpc => exact ⟨by simpa using he, hpc⟩
    · simp at he
    · split at he <;> simp at he
  refine ⟨hnext, ?_, fun hy => ?_⟩
  · rintro rfl
    have hmem := (hx.inv.mem_order x).mp hx.mem
    simp [hpc, Pc.drawn, Pc.ticket, Pc.inCritical, Pc.queued, Pc.role] at hmem
  · have hmem := (hnext.inv.mem_order t).mp hy
    rw [Machine.fire_loc_self, hpc] at hmem
    simp [machine, step, Pc.drawn, Pc.ticket, Pc.inCritical, Pc.queued, Pc.role] at hmem

end Fire

/-- No step of the run takes the fast path past a queue. -/
def FastGuard (t : Fin n) (_ : Bool) (c : Config (Fin n) (Shared n) (Pc n)) : Prop :=
  ¬ PastQueue c.shared (c.loc t)

/-- Among at most 513 threads only the tail of thread 256 passes for no tail. -/
lemma PastQueue.last (hn : n ≤ 513) (hq : QueueOk c q) (hg : PastQueue c.shared p) :
    ∃ t, q.getLast? = some t ∧ t.val = 256 := by
  obtain ⟨-, -, hne, hbytes⟩ := hg
  rw [hq.tail] at hne hbytes
  cases hl : q.getLast? with
  | none =>
    obtain rfl := List.getLast?_eq_none_iff.mp hl
    exact absurd rfl hne
  | some t =>
    rw [(tailOf_eq_tailCode hn).mpr hl, tailCode_toNat hn] at hbytes
    have ht := t.isLt
    exact ⟨t, rfl, by omega⟩

lemma fastGuard_of_le (hn : n ≤ 256) (hr : (machine h n).Reachable (start n) c) (k : Bool) :
    FastGuard t k c := by
  intro hg
  obtain ⟨q, w, -, hq, -⟩ := reachable_inv (hn.trans (by decide)) hr
  obtain ⟨u, -, hu⟩ := hg.last (hn.trans (by decide)) hq
  have hlt := u.isLt
  omega

/-- In a run of hybrid_spinlock.h in which the fast path never meets a queue that it does not
see: once `x` has published itself as the tail, no thread that begins `lock_acquire` later
enters before `x`; and the fast path is taken only when there is no tail and no ticket out. -/
theorem hybridSpinlock_no_overtaking (n : ℕ) (hn : n ≤ 513) (tr : List (Event n))
    (c : Config (Fin n) (Shared n) (Pc n))
    (hr : (machine .hybridSpinlock n).HistoryUnder FastGuard (event .hybridSpinlock) (start n) tr c) :
    (∀ x y l m r r', tr = l ++ .publish x :: (m ++ .start y :: (r ++ .enter y :: r')) →
      .enter x ∈ m ++ r) ∧
    ∀ t k v, c.loc t = .fastStore v →
      (((machine .hybridSpinlock n).fire t k c).loc t).inCritical = true →
        c.shared.lock.tail = 0 ∧ c.shared.lock.next = c.shared.lock.serving := by
  have hstart : ∃ q w, Inv .hybridSpinlock (start n) q w ∧ FastOk (start n) :=
    ⟨[], [], start_inv, fun t v hv => by simp [start] at hv⟩
  have hstep : ∀ (c : Config (Fin n) (Shared n) (Pc n)) (t : Fin n) (k : Bool),
      (∃ q w, Inv .hybridSpinlock c q w ∧ FastOk c) → FastGuard t k c →
      ∃ q w, Inv .hybridSpinlock ((machine .hybridSpinlock n).fire t k c) q w ∧
        FastOk ((machine .hybridSpinlock n).fire t k c) := by
    rintro d t k ⟨q, w, hi, hf⟩ hg
    have hs := step_step (h := .hybridSpinlock) hi.1 t k
    exact ⟨_, _, hi.step hn rfl hs, hf.step hg rfl hs⟩
  refine ⟨?_, ?_⟩
  · intro x y l m r r' htr
    refine hr.precedence _ (P := fun c => ∃ q w, Pending .hybridSpinlock x c q w)
      (B := fun c => ∃ q w, Behind .hybridSpinlock x y c q w) hstart hstep ?_ ?_ ?_ ?_ htr
    · rintro d t k ⟨q, w, hi, hf⟩ hg he
      exact ⟨_, _, publish_pending hn hg hi hf he⟩
    · rintro d t k ⟨q, w, hx⟩ hg he
      exact ⟨_, _, hx.fire hn hg he⟩
    · rintro d t k ⟨q, w, hx⟩ hg he
      exact ⟨_, _, hx.behind hn hg he⟩
    · rintro d t k ⟨q, w, hxy⟩ hg
      exact ⟨hxy.not_enter hn hg, fun he => ⟨_, _, hxy.fire hn hg he⟩⟩
  · intro t k v hv hin
    obtain ⟨q, w, hi, hf⟩ := (hr.reachable _).invariant _ hstart hstep
    have hloaded := hi.2.2.loaded t
    rw [hv] at hloaded
    rw [Machine.fire_loc_self, hv] at hin
    rcases stxr_cases k (hi.1 t v (by rw [hv]; rfl)) with hs | ⟨rfl, -⟩
    · simp [machine, step, hs, Pc.inCritical] at hin
    · exact ⟨(LockWord.val_and_qTailMask_eq_zero _).mp (hf t _ hv), (palindromic_val.mp hloaded).1⟩

/-- `k` steps of thread `t`. -/
def steps (t : Fin n) (k : ℕ) : List (Fin n × Bool) := List.replicate k (t, false)

/-- `a` takes the lock, `b`, `c` and `d` draw the tickets up to the threshold, and `x`
publishes itself as the tail of an empty queue. -/
def fillTickets (a b c d x : Fin n) : List (Fin n × Bool) :=
  steps a 3 ++ steps b 4 ++ steps c 4 ++ steps d 4 ++ steps x 6

/-- `a` to `d` leave the critical section one after the other. -/
def drainTickets (a b c d : Fin n) : List (Fin n × Bool) :=
  steps a 3 ++ steps b 4 ++ steps c 4 ++ steps d 4

/-- `y` queues behind `x`, and both are served after the tickets before them. -/
def inOrder (a b c d x y : Fin n) : List (Fin n × Bool) :=
  fillTickets a b c d x ++ steps y 7 ++ steps x 2 ++ drainTickets a b c d ++ steps x 8 ++ steps y 8

theorem hybridSpinlock_no_overtaking_six :
    (machine .hybridSpinlock 6).trace (event .hybridSpinlock) (start 6) (inOrder 0 1 2 3 4 5) =
        [.start 0, .enter 0, .start 1, .start 2, .start 3, .start 4, .publish 4, .start 5, .publish 5,
          .enter 1, .enter 2, .enter 3, .enter 4, .enter 5] ∧
      Event.enter (n := 6) 4 ∈ [.publish 5, .enter 1, .enter 2, .enter 3, .enter 4] := by
  have htr : (machine .hybridSpinlock 6).trace (event .hybridSpinlock) (start 6) (inOrder 0 1 2 3 4 5) =
      [Event.start 0, Event.enter 0, Event.start 1, Event.start 2, Event.start 3, Event.start 4] ++
        Event.publish 4 :: ([] ++ Event.start 5 :: ([Event.publish 5, Event.enter 1, Event.enter 2,
          Event.enter 3, Event.enter 4] ++ Event.enter 5 :: [])) := by
    decide +kernel
  refine ⟨htr, ?_⟩
  have hh := ((machine .hybridSpinlock 6).history_run (event .hybridSpinlock) (start 6)
    (inOrder 0 1 2 3 4 5)).under _ fun c t k hc => fastGuard_of_le (t := t) (by decide) hc k
  exact (hybridSpinlock_no_overtaking 6 (by decide) _ _ hh).1 4 5 _ _ _ _ htr

/-- Then `a` comes back and takes the fast path. -/
def overtake (a b c d x : Fin n) : List (Fin n × Bool) :=
  fillTickets a b c d x ++ drainTickets a b c d ++ steps a 3

/-- Thread 256 is the tail; its code 0x0404 is a palindrome, and a thread that begins
`lock_acquire` later enters before it. -/
theorem hybridSpinlock_overtaking_256 :
    ∃ tr c, (machine .hybridSpinlock 257).History (event .hybridSpinlock) (start 257) tr c ∧
      ∃ l m r r', tr = l ++ .publish 256 :: (m ++ .start 0 :: (r ++ .enter 0 :: r')) ∧
        .enter 256 ∉ m ++ r := by
  refine ⟨_, _, (machine .hybridSpinlock 257).history_run (event .hybridSpinlock) (start 257)
    (overtake 0 1 2 3 256), ?_⟩
  refine ⟨[Event.start 0, Event.enter 0, Event.start 1, Event.start 2, Event.start 3, Event.start 256],
    [Event.enter 1, Event.enter 2, Event.enter 3], [], [], ?_, ?_⟩
  · decide +kernel
  · decide

end Order

end Lockhammer.HybridSpinlock
