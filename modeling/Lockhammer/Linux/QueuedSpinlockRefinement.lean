import Lockhammer.Interleaving.LinkedQueue
import Lockhammer.Linux.QueuedSpinlock

/-!
# The queue of the queued spinlock refines the linked queue

The MCS queue is the linked queue without anybody leaving early. The head of the queue is
the owner of the linked queue; it does not clear its `next` when it reads it, so a link
counts only until its owner has it in a register. The linked queue also keeps a `prev`,
which this lock does not have: it is a ghost here.
-/
namespace Lockhammer.QueuedSpinlock
open Interleaving Interleaving.Queue Interleaving.LinkedQueue

section Roles
variable {n : ℕ}

local instance maxNodes_neZero : NeZero maxNodes := ⟨Nat.succ_ne_zero 3⟩

/-- The head, with what it has read of its own `next`. -/
def headRole (next : Option (NodeId n)) : Role (Fin n) := next.elim .holding (.granting ·.1)

def Pc.role : Pc n → Role (Fin n)
  | .link _ prev => .arriving prev.1 true
  | .waitLocked _ => .waiting
  | .readNext _ | .waitNext _ => .holding
  | .headWait _ next | .claim _ _ next | .setLocked _ next => headRole next
  | .handoff _ next => .granting next.1
  | _ => .out

/-- The part of a `next` field that still matters to its owner. -/
def linkOf (r : Role (Fin n)) (next : Option (NodeId n)) : Option (Fin n) :=
  match r with
  | .out | .granting _ => none
  | _ => next.map Prod.fst

def abs (c : Config (Fin n) (Shared n) (Pc n)) (prev : Fin n → Option (Fin n)) : State (Fin n) where
  next t := linkOf (c.loc t).role (c.shared.next (t, 0))
  prev := prev
  locked t := c.shared.locked (t, 0)
  role t := (c.loc t).role

/-- The tail half-word that a queue stands for. -/
def tailOf (q : List (Fin n)) : BitVec 16 := q.getLast?.elim 0 fun t => tailCode t

/-- What a thread knows of its own entry and registers at each place. -/
def PcOk (s : Shared n) (t : Fin n) : Pc n → Prop
  | .decCount => s.count t = 1
  | .initLocked idx | .waitLocked idx | .readNext idx | .waitNext idx => s.count t = 1 ∧ idx = 0
  | .initNext idx => s.count t = 1 ∧ idx = 0 ∧ s.locked (t, 0) = 0
  | .tryRead idx | .tryCmpxchg idx | .xchgTail idx =>
    s.count t = 1 ∧ idx = 0 ∧ s.locked (t, 0) = 0 ∧ s.next (t, 0) = none
  | .link idx prev => s.count t = 1 ∧ idx = 0 ∧ prev.2 = 0
  | .headWait idx next | .setLocked idx next => s.count t = 1 ∧ idx = 0 ∧ ∀ z ∈ next, z.2 = 0
  | .claim idx val next =>
    s.count t = 1 ∧ idx = 0 ∧ (∀ z ∈ next, z.2 = 0) ∧ val = encodeTail t 0
  | .handoff idx next => s.count t = 1 ∧ idx = 0 ∧ next.2 = 0
  | .fallbackRead | .fallbackCmpxchg | .fault => False
  | _ => s.count t = 0

structure QueueOk (c : Config (Fin n) (Shared n) (Pc n)) (q : List (Fin n))
    (prev : Fin n → Option (Fin n)) : Prop where
  inv : LinkedQueue.Inv q (abs c prev)
  tail_eq : c.shared.lock.tail = tailOf q
  nodes : ∀ x z, c.shared.next x = some z → z.2 = 0
  pc_ok : ∀ t, PcOk c.shared t (c.loc t)

/-- The ghost queue after the next step of thread `t`. -/
def queueAfter (t : Fin n) (c : Config (Fin n) (Shared n) (Pc n)) (q : List (Fin n)) :
    List (Fin n) :=
  match c.loc t with
  | .xchgTail _ => q ++ [t]
  | .claim _ val _ => if c.shared.lock.val = val then q.erase t else q
  | .handoff _ _ => q.erase t
  | _ => q

end Roles

variable {n : ℕ} {c : Config (Fin n) (Shared n) (Pc n)} {q : List (Fin n)} {t : Fin n}
  {prev : Fin n → Option (Fin n)}

section Tail

lemma tailOf_push (q : List (Fin n)) (t : Fin n) : tailOf (q ++ [t]) = tailCode t := by
  simp [tailOf]

lemma tailOf_eq_iff (hn : n ≤ 2 ^ 14 - 1) : tailOf q = tailCode t ↔ q.getLast? = some t := by
  cases h : q.getLast? with
  | none => simpa [tailOf, h] using (tailCode_ne_zero hn t).symm
  | some x => simpa [tailOf, h] using (tailCode_injective hn).eq_iff

lemma tailOf_eq_zero_iff (hn : n ≤ 2 ^ 14 - 1) : tailOf q = 0 ↔ q = [] := by
  cases h : q.getLast? with
  | none => simpa [tailOf, h] using List.getLast?_eq_none_iff.mp h
  | some x =>
    have hne : q ≠ [] := List.ne_nil_of_mem (List.mem_of_getLast? h)
    simpa [tailOf, h, hne] using tailCode_ne_zero hn x

end Tail

/-- To know the linked queue after a step, compare its links, `locked` and roles. -/
lemma inv_abs {s : Shared n} {p : Pc n} {prev' : Fin n → Option (Fin n)} {σ : State (Fin n)}
    (hσ : LinkedQueue.Inv q σ)
    (hrole : ∀ u, σ.role u = if u = t then p.role else (c.loc u).role)
    (hnext : ∀ u, σ.next u = linkOf (σ.role u) (s.next (u, 0)))
    (hlocked : ∀ u, σ.locked u = s.locked (u, 0)) (hprev : σ.prev = prev') :
    LinkedQueue.Inv q (abs ⟨s, Function.update c.loc t p⟩ prev') := by
  have hr (u : Fin n) : (Function.update c.loc t p u).role = σ.role u := by
    rw [hrole, Function.update_apply]
    split <;> rfl
  have habs : abs ⟨s, Function.update c.loc t p⟩ prev' = σ := by
    ext1
    · funext u
      simp only [abs, hr, hnext]
    · exact hprev.symm
    · exact funext fun u => (hlocked u).symm
    · exact funext hr
  rw [habs]
  exact hσ

lemma PcOk.frame {s s' : Shared n} {p : Pc n} (h : PcOk s t p) (hc : s'.count t = s.count t)
    (hl : p.role = .out → s'.locked (t, 0) = s.locked (t, 0))
    (hn : p.role = .out → s'.next (t, 0) = s.next (t, 0)) : PcOk s' t p := by
  cases p with
  | decCount => exact hc.trans h
  | initLocked | waitLocked | readNext | waitNext => exact ⟨hc.trans h.1, h.2⟩
  | initNext => exact ⟨hc.trans h.1, h.2.1, (hl rfl).trans h.2.2⟩
  | tryRead | tryCmpxchg | xchgTail =>
    exact ⟨hc.trans h.1, h.2.1, (hl rfl).trans h.2.2.1, (hn rfl).trans h.2.2.2⟩
  | link | headWait | setLocked | claim | handoff => exact ⟨hc.trans h.1, h.2⟩
  | fallbackRead | fallbackCmpxchg | fault => exact h
  | _ => exact hc.trans h

/-- A step of the linked queue that keeps the tail half-word in line with the queue. -/
lemma QueueOk.next (h : QueueOk c q prev) {s : Shared n} {p : Pc n} {q' : List (Fin n)}
    {prev' : Fin n → Option (Fin n)}
    (hinv : LinkedQueue.Inv q' (abs ⟨s, Function.update c.loc t p⟩ prev'))
    (htail : s.lock.tail = tailOf q') (hnodes : ∀ x z, s.next x = some z → z.2 = 0)
    (hcount : ∀ u, u ≠ t → s.count u = c.shared.count u)
    (hframe : ∀ u, u ≠ t → (c.loc u).role = .out →
      s.locked (u, 0) = c.shared.locked (u, 0) ∧ s.next (u, 0) = c.shared.next (u, 0))
    (hp : PcOk s t p) : QueueOk ⟨s, Function.update c.loc t p⟩ q' prev' := by
  refine ⟨hinv, htail, hnodes, ?_⟩
  intro u
  by_cases hu : u = t
  · subst hu
    simpa using hp
  · have := (h.pc_ok u).frame (hcount u hu) (fun hr => (hframe u hu hr).1)
      (fun hr => (hframe u hu hr).2)
    simpa [hu] using this

/-- A step that changes the queue neither in the nodes nor in the tail half-word. -/
lemma QueueOk.silent (h : QueueOk c q prev) {l : Qspinlock} {p : Pc n}
    (hl : l.tail = c.shared.lock.tail) (hr : p.role = (c.loc t).role) (hp : PcOk c.shared t p) :
    QueueOk ⟨{ c.shared with lock := l }, Function.update c.loc t p⟩ q prev := by
  refine h.next ?_ (hl.trans h.tail_eq) h.nodes (fun _ _ => rfl) (fun _ _ _ => ⟨rfl, rfl⟩)
    (hp.frame rfl (fun _ => rfl) (fun _ => rfl))
  refine inv_abs h.inv ?_ (fun _ => rfl) (fun _ => rfl) rfl
  intro u
  by_cases hu : u = t <;> simp [abs, hu, hr]

section Cases
variable (h : QueueOk c q prev)
include h

lemma QueueOk.stay {p : Pc n} (hr : p.role = (c.loc t).role) (hp : PcOk c.shared t p) :
    QueueOk ⟨c.shared, Function.update c.loc t p⟩ q prev := h.silent rfl hr hp

lemma QueueOk.xchgTail {idx : Fin maxNodes} (hn : n ≤ 2 ^ 14 - 1) (hpc : c.loc t = .xchgTail idx) :
    ∃ prev', QueueOk ((machine n).fire t () c) (q ++ [t]) prev' := by
  have hok := h.pc_ok t
  rw [hpc] at hok
  obtain ⟨hcount, rfl, hlocked, hnext⟩ := hok
  have hrole : (abs c prev).role t = .out := by simp [abs, hpc, Pc.role]
  have hx : QueuedSpinlock.xchgTail c.shared.lock (encodeTail t (0 : Fin maxNodes)) =
      (Qspinlock.val ⟨0, 0, c.shared.lock.tail⟩, { c.shared.lock with tail := tailCode t }) :=
    xchgTail_eq c.shared.lock t
  cases hlast : q.getLast? with
  | none =>
    obtain rfl := List.getLast?_eq_none_iff.mp hlast
    have hzero : c.shared.lock.tail = 0 := h.tail_eq
    have hmask : (Qspinlock.val ⟨0, 0, c.shared.lock.tail⟩) &&& qTailMask = 0 := by
      rw [val_and_qTailMask, hzero]
      rfl
    refine ⟨prev, ?_⟩
    rw [Machine.fire_eq _ (s := { c.shared with lock := { c.shared.lock with tail := tailCode t } })
      (p := .headWait 0 none) (by simp only [machine, hpc, step, hx, hmask, ne_eq, not_true_eq_false, if_false])]
    refine h.next ?_ (tailOf_push [] t).symm h.nodes (fun _ _ => rfl) (fun _ _ _ => ⟨rfl, rfl⟩)
      ⟨hcount, rfl, by simp⟩
    refine inv_abs (Step.inv (.enqueueFirst hrole) h.inv) ?_ ?_ (fun _ => rfl) rfl
    · intro u
      by_cases hu : u = t <;> simp [abs, hu, Pc.role, headRole]
    · intro u
      by_cases hu : u = t
      · simp [abs, hu, hpc, Pc.role, linkOf, hnext]
      · simp [abs, hu]
  | some x =>
    have htx : c.shared.lock.tail = tailCode x := h.tail_eq.trans ((tailOf_eq_iff hn).mpr hlast)
    have hmask : (Qspinlock.val ⟨0, 0, c.shared.lock.tail⟩) &&& qTailMask ≠ 0 := by
      rw [val_and_qTailMask, ne_eq, Qspinlock.val_eq_zero_iff, htx]
      exact fun h0 => tailCode_ne_zero hn x h0.2.2
    have hdec : decodeTail (Qspinlock.val ⟨0, 0, c.shared.lock.tail⟩) = some (x, 0) := by
      rw [htx]
      exact decodeTail_tailCode hn x
    refine ⟨Function.update prev t (some x), ?_⟩
    rw [Machine.fire_eq _ (s := { c.shared with lock := { c.shared.lock with tail := tailCode t } })
      (p := .link 0 (x, 0)) (by simp only [machine, hpc, step, hx, hmask, hdec, ne_eq, not_false_eq_true, if_true])]
    refine h.next ?_ (tailOf_push q t).symm h.nodes (fun _ _ => rfl) (fun _ _ _ => ⟨rfl, rfl⟩)
      ⟨hcount, rfl, rfl⟩
    have henq := Step.inv (.enqueue x hrole hlocked hlast) h.inv
    have hsto := Step.inv (.storePrev (t := t) x (by simp)) henq
    refine inv_abs hsto ?_ ?_ (fun _ => rfl) rfl
    · intro u
      by_cases hu : u = t <;> simp [abs, hu, Pc.role]
    · intro u
      by_cases hu : u = t
      · simp [abs, hu, hpc, Pc.role, linkOf, hnext]
      · simp [abs, hu]

/-- Reading the own `next` takes the link, if there is one. -/
lemma QueueOk.take {z : NodeId n} {p : Pc n} (hr : (c.loc t).role = .holding)
    (hz : c.shared.next (t, 0) = some z) (hp : p.role = .granting z.1) (hok : PcOk c.shared t p) :
    QueueOk ⟨c.shared, Function.update c.loc t p⟩ q prev := by
  have hnext : (abs c prev).next t = some z.1 := by simp [abs, hr, linkOf, hz]
  refine h.next ?_ h.tail_eq h.nodes (fun _ _ => rfl) (fun _ _ _ => ⟨rfl, rfl⟩) hok
  refine inv_abs (Step.inv (.takeHolding z.1 hr hnext) h.inv) ?_ ?_ (fun _ => rfl) rfl
  · intro u
    by_cases hu : u = t <;> simp [abs, hu, hp]
  · intro u
    by_cases hu : u = t
    · simp [hu, linkOf]
    · simp [abs, hu]

lemma QueueOk.last_of_tail (hn : n ≤ 2 ^ 14 - 1) (ht : c.shared.lock.tail = tailCode t) :
    q.getLast? = some t := (tailOf_eq_iff hn).mp (h.tail_eq.symm.trans ht)

/-- The only thread in the queue clears the tail with the same exchange that takes the lock. -/
lemma QueueOk.claim (hn : n ≤ 2 ^ 14 - 1) {idx : Fin maxNodes} {val : BitVec 32}
    {next : Option (NodeId n)} (hpc : c.loc t = .claim idx val next)
    (hval : c.shared.lock.val = val) :
    next = none ∧ QueueOk ⟨{ c.shared with lock := ⟨1, 0, 0⟩ }, Function.update c.loc t .decCount⟩
      (q.erase t) prev := by
  have hok := h.pc_ok t
  rw [hpc] at hok
  obtain ⟨hcount, rfl, -, rfl⟩ := hok
  rw [encodeTail_zero, Qspinlock.val_inj] at hval
  have hlast := h.last_of_tail hn (t := t) (by rw [hval])
  have hrole : (abs c prev).role t = headRole next := by simp [abs, hpc, Pc.role]
  cases next with
  | some z =>
    have htaken := (h.inv.last t hlast).2
    rw [hrole] at htaken
    simp [headRole, Role.taken] at htaken
  | none =>
    have hfirst := h.inv.owner_first (t := t) (by rw [hrole]; rfl)
    have hone := eq_singleton h.inv.nodup hfirst hlast
    refine ⟨rfl, h.next ?_ ?_ h.nodes (fun _ _ => rfl) (fun _ _ _ => ⟨rfl, rfl⟩) hcount⟩
    · refine inv_abs (Step.inv (.releaseLast hrole hlast) h.inv) ?_ ?_ (fun _ => rfl) rfl
      · intro u
        by_cases hu : u = t <;> simp [abs, hu, Pc.role]
      · intro u
        by_cases hu : u = t
        · simpa [hu, linkOf] using (h.inv.last t hlast).1
        · simp [abs, hu]
    · exact ((tailOf_eq_zero_iff hn).mpr (by simp [hone])).symm

/-- A thread outside the queue works on its own entry. -/
lemma QueueOk.entry {s : Shared n} {p : Pc n} (hout : (c.loc t).role = .out) (hp : p.role = .out)
    (hlock : s.lock = c.shared.lock) (hnext : ∀ x, x ≠ (t, 0) → s.next x = c.shared.next x)
    (hself : s.next (t, 0) = none ∨ s.next (t, 0) = c.shared.next (t, 0))
    (hlocked : s.locked = c.shared.locked) (hcount : ∀ u, u ≠ t → s.count u = c.shared.count u)
    (hok : PcOk s t p) : QueueOk ⟨s, Function.update c.loc t p⟩ q prev := by
  have hne {u : Fin n} (hu : u ≠ t) : s.next (u, 0) = c.shared.next (u, 0) :=
    hnext (u, 0) fun e => hu (congrArg Prod.fst e)
  refine h.next ?_ (by rw [hlock]; exact h.tail_eq) ?_ hcount
    (fun u hu _ => ⟨by rw [hlocked], hne hu⟩) hok
  · refine inv_abs h.inv ?_ ?_ (fun u => by simp only [abs, hlocked]) rfl
    · intro u
      by_cases hu : u = t
      · simp [abs, hu, hout, hp]
      · simp [abs, hu]
    · intro u
      by_cases hu : u = t
      · simp [abs, hu, hout, linkOf]
      · simp [abs, hne hu]
  · intro x z hz
    by_cases hx : x = (t, 0)
    · rw [hx] at hz
      rcases hself with he | he
      · simp [he] at hz
      · exact h.nodes _ z (he.symm.trans hz)
    · exact h.nodes x z ((hnext x hx).symm.trans hz)

lemma QueueOk.initLocked (hpc : c.loc t = .initLocked 0) :
    QueueOk ⟨c.shared.setNodeLocked (t, 0) 0, Function.update c.loc t (.initNext 0)⟩ q prev := by
  have hok := h.pc_ok t
  rw [hpc] at hok
  have hrole : (abs c prev).role t = .out := by simp [abs, hpc, Pc.role]
  refine h.next ?_ h.tail_eq h.nodes (fun _ _ => rfl) ?_
    ⟨hok.1, rfl, by simp [Shared.setNodeLocked]⟩
  · refine inv_abs (Step.inv (.reset hrole) h.inv) ?_ (fun _ => rfl) ?_ rfl
    · intro u
      by_cases hu : u = t <;> simp [abs, hu, hpc, Pc.role]
    · intro u
      by_cases hu : u = t <;> simp [abs, hu, Shared.setNodeLocked]
  · intro u hu _
    simp [Shared.setNodeLocked, hu]

lemma QueueOk.link {p : NodeId n} (hpc : c.loc t = .link 0 p) :
    QueueOk ⟨c.shared.setNext p (some (t, 0)), Function.update c.loc t (.waitLocked 0)⟩ q prev := by
  have hok := h.pc_ok t
  rw [hpc] at hok
  obtain ⟨p, idx⟩ := p
  obtain ⟨hcount, -, rfl⟩ := hok
  have hrole : (abs c prev).role t = .arriving p true := by simp [abs, hpc, Pc.role]
  obtain ⟨hadj, -, htaken⟩ := h.inv.attached_adj (t := t) (p := p) (by rw [hrole]; rfl)
  have hpt : p ≠ t := hadj.ne h.inv.nodup
  have hpout : (c.loc p).role ≠ .out := (h.inv.mem p).mp hadj.mem_left
  have hlink (v : Option (NodeId n)) : linkOf (c.loc p).role v = v.map Prod.fst := by
    cases hr : (c.loc p).role with
    | out => exact absurd hr hpout
    | granting z =>
      have : ((c.loc p).role).taken = none := htaken
      simp [hr, Role.taken] at this
    | _ => rfl
  refine h.next ?_ h.tail_eq ?_ (fun _ _ => rfl) ?_ ⟨hcount, rfl⟩
  · refine inv_abs (Step.inv (.link p hrole) h.inv) ?_ ?_ (fun _ => rfl) rfl
    · intro u
      by_cases hu : u = t <;> simp [abs, hu, Pc.role]
    · intro u
      by_cases hup : u = p
      · subst hup
        simp [abs, hpt, hlink, Shared.setNext]
      · by_cases hu : u = t
        · subst hu
          simp [abs, hup, hpc, Pc.role, linkOf, Shared.setNext]
        · simp [abs, hu, hup, Shared.setNext]
  · intro x z hz
    by_cases hx : x = (p, 0)
    · simp only [Shared.setNext, hx, Function.update_self, Option.some.injEq] at hz
      rw [← hz]
    · exact h.nodes x z (by simpa [Shared.setNext, hx] using hz)
  · intro u _ hout
    have hne : u ≠ p := fun e => hpout (e ▸ hout)
    simp [Shared.setNext, hne]

lemma QueueOk.waitLocked (hpc : c.loc t = .waitLocked 0) (hl : c.shared.locked (t, 0) ≠ 0) :
    QueueOk ⟨c.shared, Function.update c.loc t (.readNext 0)⟩ q prev := by
  have hok := h.pc_ok t
  rw [hpc] at hok
  have hrole : (abs c prev).role t = .waiting := by simp [abs, hpc, Pc.role]
  refine h.next ?_ h.tail_eq h.nodes (fun _ _ => rfl) (fun _ _ _ => ⟨rfl, rfl⟩) hok
  refine inv_abs (Step.inv (.acquire hrole hl) h.inv) ?_ ?_ (fun _ => rfl) rfl
  · intro u
    by_cases hu : u = t <;> simp [abs, hu, Pc.role]
  · intro u
    by_cases hu : u = t
    · simp [abs, hu, hpc, Pc.role, linkOf]
    · simp [abs, hu]

lemma QueueOk.handoff {z : NodeId n} (hpc : c.loc t = .handoff 0 z) :
    QueueOk ⟨c.shared.setNodeLocked z 1, Function.update c.loc t .decCount⟩ (q.erase t) prev := by
  have hok := h.pc_ok t
  rw [hpc] at hok
  obtain ⟨z, idx⟩ := z
  obtain ⟨hcount, -, rfl⟩ := hok
  have hrole : (abs c prev).role t = .granting z := by simp [abs, hpc, Pc.role]
  obtain ⟨hadj, hwait, -⟩ := h.inv.taken_adj (x := t) (z := z) (by rw [hrole]; rfl)
  refine h.next ?_ ?_ h.nodes (fun _ _ => rfl) ?_ hcount
  · refine inv_abs (Step.inv (.grant z hrole) h.inv) ?_ ?_ ?_ rfl
    · intro u
      by_cases hu : u = t <;> simp [abs, hu, Pc.role]
    · intro u
      by_cases hu : u = t
      · simp [abs, hu, hpc, Pc.role, linkOf]
      · simp [abs, hu, Shared.setNodeLocked]
    · intro u
      by_cases hu : u = z <;> simp [abs, hu, Shared.setNodeLocked]
  · rw [tailOf, getLast?_erase_of_adj h.inv.nodup hadj]
    exact h.tail_eq
  · intro u _ hout
    have hne : u ≠ z := by
      rintro rfl
      exact absurd (hwait.symm.trans hout) (by simp)
    simp [Shared.setNodeLocked, hne]

end Cases

section Branches

lemma afterPendSpin_ok (s : Shared n) (t : Fin n) (v : BitVec 32) :
    (afterPendSpin v : Pc n).role = .out ∧ (s.count t = 0 → PcOk s t (afterPendSpin v)) := by
  rw [afterPendSpin]
  split <;> exact ⟨rfl, id⟩

lemma slowpath_ok (s : Shared n) (t : Fin n) (v : BitVec 32) :
    (slowpath v : Pc n).role = .out ∧ (s.count t = 0 → PcOk s t (slowpath v)) := by
  rw [slowpath]
  split
  · exact ⟨rfl, id⟩
  · exact afterPendSpin_ok s t v

lemma afterFetchOr_ok (s : Shared n) (t : Fin n) (v : BitVec 32) :
    (afterFetchOr v : Pc n).role = .out ∧ (s.count t = 0 → PcOk s t (afterFetchOr v)) := by
  rw [afterFetchOr]
  split
  · split <;> exact ⟨rfl, id⟩
  · split <;> exact ⟨rfl, id⟩

/-- Places whose step touches neither a node nor the tail half-word. -/
def Pc.quiet : Pc n → Bool
  | .idle | .fast | .pendSpin _ | .fetchOr | .undo | .pendWait | .pendTake | .tryRead _
  | .tryCmpxchg _ | .headWait _ _ | .setLocked _ _ | .critical | .unlock => true
  | _ => false

/-- A compare-exchange from the zero word changes no tail. -/
lemma tryCmpxchg_zero_tail (l : Qspinlock) :
    (tryCmpxchg l 0 qLockedVal).2.tail = l.tail := by
  by_cases hz : l.val = 0
  · rw [tryCmpxchg, if_pos hz, ofVal_qLockedVal]
    exact (Qspinlock.val_eq_zero_iff.mp hz).2.2.symm
  · rw [tryCmpxchg, if_neg hz]

/-- Such a step keeps the tail, the role and what the thread knows. -/
lemma step_quiet {s : Shared n} {p : Pc n} (hq : p.quiet = true) (hok : PcOk s t p) :
    ∃ l p', step t s p = ({ s with lock := l }, p') ∧ l.tail = s.lock.tail ∧ p'.role = p.role ∧
      PcOk s t p' := by
  cases p with
  | idle => exact ⟨s.lock, .fast, rfl, rfl, rfl, hok⟩
  | fast =>
    have hs := slowpath_ok s t s.lock.val
    refine ⟨_, _, rfl, tryCmpxchg_zero_tail s.lock, ?_, ?_⟩
    · split
      · rfl
      · exact hs.1
    · split
      · exact hok
      · exact hs.2 hok
  | pendSpin cnt =>
    have hs := afterPendSpin_ok s t s.lock.val
    refine ⟨s.lock, _, rfl, rfl, ?_, ?_⟩
    · split
      · exact hs.1
      · rfl
    · split
      · exact hs.2 hok
      · exact hok
  | fetchOr =>
    have hs := afterFetchOr_ok s t s.lock.val
    refine ⟨_, _, rfl, ?_, hs.1, hs.2 hok⟩
    rw [queuedFetchSetPendingAcquire_eq]
  | undo => exact ⟨_, .incCount, rfl, rfl, rfl, hok⟩
  | pendWait => exact ⟨s.lock, _, rfl, rfl, by split <;> rfl, by split <;> exact hok⟩
  | pendTake => exact ⟨_, .critical, rfl, rfl, rfl, hok⟩
  | tryRead idx => exact ⟨s.lock, _, rfl, rfl, by split <;> rfl, by split <;> exact hok⟩
  | tryCmpxchg idx =>
    refine ⟨_, _, rfl, tryCmpxchg_zero_tail s.lock, by split <;> rfl, ?_⟩
    split
    · exact hok.1
    · exact hok
  | headWait idx next =>
    obtain ⟨hcount, rfl, hz⟩ := hok
    refine ⟨s.lock, _, rfl, rfl, by split <;> [rfl; (split <;> rfl)], ?_⟩
    split
    · exact ⟨hcount, rfl, hz⟩
    · next hfree =>
      split
      · next htail =>
        rw [val_and_qTailMask_of_free (not_not.mp hfree)] at htail
        exact ⟨hcount, rfl, hz, htail⟩
      · exact ⟨hcount, rfl, hz⟩
  | setLocked idx next =>
    obtain ⟨hcount, rfl, hz⟩ := hok
    cases next with
    | none => exact ⟨_, .waitNext 0, rfl, rfl, rfl, hcount, rfl⟩
    | some z => exact ⟨_, .handoff 0 z, rfl, rfl, rfl, hcount, rfl, hz z rfl⟩
  | critical => exact ⟨s.lock, .unlock, rfl, rfl, rfl, hok⟩
  | unlock => exact ⟨_, .idle, rfl, rfl, rfl, hok⟩
  | _ => simp [Pc.quiet] at hq

lemma QueueOk.quiet (h : QueueOk c q prev) (hquiet : (c.loc t).quiet = true) :
    QueueOk ((machine n).fire t () c) q prev := by
  obtain ⟨l, p, hs, hl, hr, hp⟩ := step_quiet hquiet (h.pc_ok t)
  rw [Machine.fire_eq (machine n) hs]
  exact h.silent hl hr hp

end Branches

/-- Every step of a thread keeps the queue part, with the ghosts updated. -/
theorem fire_queueOk (hn : n ≤ 2 ^ 14 - 1) (h : QueueOk c q prev) (t : Fin n) :
    ∃ prev', QueueOk ((machine n).fire t () c) (queueAfter t c q) prev' := by
  have hok := h.pc_ok t
  unfold queueAfter
  cases hpc : c.loc t with
  | xchgTail idx => exact h.xchgTail hn hpc
  | claim idx val next =>
    refine ⟨prev, ?_⟩
    by_cases hv : c.shared.lock.val = val
    · simp only [if_pos hv]
      rw [Machine.fire_eq _ (s := { c.shared with lock := ⟨1, 0, 0⟩ }) (p := .decCount)
        (by simp [machine, hpc, step, tryCmpxchg, hv, ofVal_qLockedVal])]
      exact (h.claim hn hpc hv).2
    · rw [hpc] at hok
      simp only [if_neg hv]
      rw [Machine.fire_eq _ (s := c.shared) (p := .setLocked idx next)
        (by simp [machine, hpc, step, tryCmpxchg, hv])]
      exact h.stay (by rw [hpc]; rfl) ⟨hok.1, hok.2.1, hok.2.2.1⟩
  | handoff idx next =>
    rw [hpc] at hok
    obtain ⟨-, rfl, -⟩ := hok
    refine ⟨prev, ?_⟩
    rw [Machine.fire_eq _ (s := c.shared.setNodeLocked next 1) (p := .decCount)
      (by simp [machine, hpc, step])]
    exact h.handoff hpc
  | incCount =>
    rw [hpc] at hok
    have hzero : c.shared.count t = 0 := hok
    refine ⟨prev, ?_⟩
    rw [Machine.fire_eq _ (s := c.shared.setCount t 1) (p := .initLocked 0)
      (by simp [machine, hpc, step, hzero])]
    refine h.entry (by rw [hpc]; rfl) rfl rfl (fun _ _ => rfl) (Or.inr rfl) rfl ?_
      ⟨by simp [Shared.setCount], rfl⟩
    intro u hu
    simp [Shared.setCount, hu]
  | initLocked idx =>
    rw [hpc] at hok
    obtain ⟨-, rfl⟩ := hok
    refine ⟨prev, ?_⟩
    rw [Machine.fire_eq _ (s := c.shared.setNodeLocked (t, 0) 0) (p := .initNext 0)
      (by simp [machine, hpc, step])]
    exact h.initLocked hpc
  | initNext idx =>
    rw [hpc] at hok
    obtain ⟨hcount, rfl, hlocked⟩ := hok
    refine ⟨prev, ?_⟩
    rw [Machine.fire_eq _ (s := c.shared.setNext (t, 0) none) (p := .tryRead 0)
      (by simp [machine, hpc, step])]
    have hself : (c.shared.setNext (t, 0) none).next (t, 0) = none := by simp [Shared.setNext]
    refine h.entry (by rw [hpc]; rfl) rfl rfl ?_ (Or.inl hself) rfl (fun _ _ => rfl)
      ⟨hcount, rfl, hlocked, hself⟩
    intro x hx
    simp [Shared.setNext, hx]
  | link idx p =>
    rw [hpc] at hok
    obtain ⟨-, rfl, -⟩ := hok
    refine ⟨prev, ?_⟩
    rw [Machine.fire_eq _ (s := c.shared.setNext p (some (t, 0))) (p := .waitLocked 0)
      (by simp [machine, hpc, step])]
    exact h.link hpc
  | waitLocked idx =>
    rw [hpc] at hok
    obtain ⟨-, rfl⟩ := hok
    refine ⟨prev, ?_⟩
    by_cases hl : c.shared.locked (t, 0) = 0
    · rw [Machine.fire_eq _ (s := c.shared) (p := .waitLocked 0)
        (by simp [machine, hpc, step, hl])]
      exact h.stay (by rw [hpc]) (by simpa [hpc] using h.pc_ok t)
    · rw [Machine.fire_eq _ (s := c.shared) (p := .readNext 0) (by simp [machine, hpc, step, hl])]
      exact h.waitLocked hpc hl
  | readNext idx =>
    rw [hpc] at hok
    obtain ⟨hcount, rfl⟩ := hok
    refine ⟨prev, ?_⟩
    rw [Machine.fire_eq _ (s := c.shared) (p := .headWait 0 (c.shared.next (t, 0)))
      (by simp [machine, hpc, step])]
    cases hz : c.shared.next (t, 0) with
    | none => exact h.stay (by rw [hpc]; rfl) ⟨hcount, rfl, by simp⟩
    | some z =>
      exact h.take (by rw [hpc]; rfl) hz rfl ⟨hcount, rfl, by simpa using h.nodes _ z hz⟩
  | waitNext idx =>
    rw [hpc] at hok
    obtain ⟨hcount, rfl⟩ := hok
    refine ⟨prev, ?_⟩
    cases hz : c.shared.next (t, 0) with
    | none =>
      rw [Machine.fire_eq _ (s := c.shared) (p := .waitNext 0) (by simp [machine, hpc, step, hz])]
      exact h.stay (by rw [hpc]) ⟨hcount, rfl⟩
    | some z =>
      rw [Machine.fire_eq _ (s := c.shared) (p := .handoff 0 z) (by simp [machine, hpc, step, hz])]
      exact h.take (by rw [hpc]; rfl) hz rfl ⟨hcount, rfl, h.nodes _ z hz⟩
  | decCount =>
    rw [hpc] at hok
    have hone : c.shared.count t = 1 := hok
    refine ⟨prev, ?_⟩
    rw [Machine.fire_eq _ (s := c.shared.setCount t 0) (p := .critical)
      (by simp [machine, hpc, step, hone])]
    refine h.entry (by rw [hpc]; rfl) rfl rfl (fun _ _ => rfl) (Or.inr rfl) rfl ?_
      (by simp [PcOk, Shared.setCount])
    intro u hu
    simp [Shared.setCount, hu]
  | fallbackRead | fallbackCmpxchg | fault =>
    rw [hpc] at hok
    exact hok.elim
  | _ => exact ⟨prev, h.quiet (by rw [hpc]; rfl)⟩

end Lockhammer.QueuedSpinlock
