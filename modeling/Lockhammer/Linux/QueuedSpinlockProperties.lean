import Lockhammer.Linux.QueuedSpinlockWord

/-!
# Mutual exclusion and progress of the queued spinlock

The queue and the two bytes of the lock word are kept together along every run. For
progress one more fact is needed: a head that could not clear the tail waits for a
successor, and then some thread is on its way to the queue.
-/
namespace Lockhammer.QueuedSpinlock
open Interleaving Interleaving.Queue Interleaving.LinkedQueue

variable {n : ℕ} {c : Config (Fin n) (Shared n) (Pc n)} {q : List (Fin n)} {t : Fin n}
  {prev : Fin n → Option (Fin n)}

section Successor

/-- Owner of the lock or about to be, that has to hand the queue to a successor it has not
seen. -/
def Pc.needsNext : Pc n → Bool
  | .setLocked _ none | .waitNext _ => true
  | _ => false

/-- On the way to `xchg_tail`. -/
def Pc.comes : Pc n → Bool
  | .undo | .incCount | .initLocked _ | .initNext _ | .tryRead _ | .tryCmpxchg _ | .xchgTail _ =>
    true
  | _ => false

/-- Who waits for a successor at the end of the queue will get one. -/
def SuccOk (c : Config (Fin n) (Shared n) (Pc n)) : Prop :=
  ∀ t, (c.loc t).needsNext = true → c.shared.lock.tail = tailCode t →
    ∃ u, (c.loc u).comes = true

lemma afterPendSpin_needsNext (v : BitVec 32) : (afterPendSpin v : Pc n).needsNext = false := by
  rw [afterPendSpin]
  split <;> rfl

lemma slowpath_needsNext (v : BitVec 32) : (slowpath v : Pc n).needsNext = false := by
  rw [slowpath]
  split
  · rfl
  · exact afterPendSpin_needsNext v

lemma afterFetchOr_needsNext (v : BitVec 32) : (afterFetchOr v : Pc n).needsNext = false := by
  rw [afterFetchOr]
  split
  · split <;> rfl
  · split <;> rfl

/-- A thread comes to need a successor by one of two steps: as head it has seen a tail that
is not its own, or its exchange of the tail has failed. -/
lemma needsNext_cases (h : (((machine n).fire t () c).loc t).needsNext = true) :
    ((c.loc t).needsNext = true ∧ ((machine n).fire t () c).shared.lock.tail = c.shared.lock.tail) ∨
      (∃ idx, c.loc t = .headWait idx none ∧
        c.shared.lock.val &&& qTailMask ≠ encodeTail t idx ∧
        ((machine n).fire t () c).shared.lock.tail = c.shared.lock.tail) ∨
      ∃ idx val, c.loc t = .claim idx val none ∧ c.shared.lock.val ≠ val ∧
        ((machine n).fire t () c).shared.lock.tail = c.shared.lock.tail := by
  rw [Machine.fire_loc_self] at h
  rw [Machine.fire_shared]
  cases hpc : c.loc t with
  | fast =>
    simp only [hpc, machine, step] at h
    split at h
    · simp [Pc.needsNext] at h
    · simp [slowpath_needsNext] at h
  | pendSpin =>
    simp only [hpc, machine, step] at h
    split at h
    · simp [afterPendSpin_needsNext] at h
    · simp [Pc.needsNext] at h
  | fetchOr => simp [hpc, machine, step, afterFetchOr_needsNext] at h
  | xchgTail =>
    simp only [hpc, machine, step] at h
    split at h
    · split at h <;> simp [Pc.needsNext] at h
    · simp [Pc.needsNext] at h
  | headWait idx next =>
    simp only [hpc, machine, step] at h
    split at h
    · simp [Pc.needsNext] at h
    · split at h
      · simp [Pc.needsNext] at h
      · next htail =>
        cases next with
        | none => exact Or.inr (Or.inl ⟨idx, rfl, htail, rfl⟩)
        | some z => simp [Pc.needsNext] at h
  | claim idx val next =>
    by_cases hv : c.shared.lock.val = val
    · simp [hpc, machine, step, tryCmpxchg, hv, Pc.needsNext] at h
    · cases next with
      | none => exact Or.inr (Or.inr ⟨idx, val, rfl, hv, by simp [machine, step, tryCmpxchg, hv]⟩)
      | some z => simp [hpc, machine, step, tryCmpxchg, hv, Pc.needsNext] at h
  | setLocked idx next =>
    cases next with
    | none => exact Or.inl ⟨rfl, rfl⟩
    | some z => simp [hpc, machine, step, Pc.needsNext] at h
  | waitNext idx => exact Or.inl ⟨rfl, rfl⟩
  | pendWait | incCount | fallbackRead | fallbackCmpxchg | tryRead | tryCmpxchg | waitLocked =>
    simp only [hpc, machine, step] at h
    split at h <;> simp [Pc.needsNext] at h
  | _ => simp [hpc, machine, step, Pc.needsNext] at h

/-- Nobody on the way turns back while the tail is not zero. -/
lemma comes_fire (hq : QueueOk c q prev) (h : (c.loc t).comes = true)
    (htail : c.shared.lock.tail ≠ 0) :
    (∃ idx, c.loc t = .xchgTail idx) ∨ (((machine n).fire t () c).loc t).comes = true := by
  have hok := hq.pc_ok t
  have hval : c.shared.lock.val ≠ 0 := fun h0 => htail (Qspinlock.val_eq_zero_iff.mp h0).2.2
  rw [Machine.fire_loc_self]
  cases hpc : c.loc t with
  | xchgTail idx => exact Or.inl ⟨idx, rfl⟩
  | incCount =>
    rw [hpc] at hok
    have hzero : c.shared.count t = 0 := hok
    exact Or.inr (by simp [machine, step, hzero, Pc.comes])
  | tryRead idx =>
    refine Or.inr ?_
    simp only [machine, step]
    rw [if_pos hval]
    rfl
  | tryCmpxchg idx =>
    have hfail : QueuedSpinlock.tryCmpxchg c.shared.lock 0 qLockedVal = (false, c.shared.lock) :=
      if_neg hval
    refine Or.inr ?_
    simp only [machine, step, hfail]
    rfl
  | undo | initLocked | initNext => exact Or.inr rfl
  | _ => simp [hpc, Pc.comes] at h

lemma fire_tail_xchgTail (hq : QueueOk c q prev) {idx : Fin maxNodes}
    (hpc : c.loc t = .xchgTail idx) :
    ((machine n).fire t () c).shared.lock.tail = tailCode t := by
  have hok := hq.pc_ok t
  rw [hpc] at hok
  obtain ⟨-, rfl, -⟩ := hok
  rw [Machine.fire_shared, hpc]
  exact congrArg (·.2.tail) (xchgTail_eq c.shared.lock t)

/-- The tail half-word after a step: unchanged, or cleared by the head, or the code of the
thread that queues. -/
lemma fire_tail (hq : QueueOk c q prev) (t : Fin n) :
    ((machine n).fire t () c).shared.lock.tail = c.shared.lock.tail ∨
      ((machine n).fire t () c).shared.lock.tail = 0 ∨
      ((machine n).fire t () c).shared.lock.tail = tailCode t := by
  have hok := hq.pc_ok t
  cases hpc : c.loc t with
  | fast | tryCmpxchg =>
    refine Or.inl ?_
    rw [Machine.fire_shared, hpc]
    exact tryCmpxchg_zero_tail c.shared.lock
  | claim idx val next =>
    by_cases hv : c.shared.lock.val = val
    · exact Or.inr (Or.inl (by simp [machine, hpc, step, tryCmpxchg, hv, ofVal_qLockedVal]))
    · exact Or.inl (by simp [machine, hpc, step, tryCmpxchg, hv])
  | fetchOr =>
    refine Or.inl ?_
    simp only [Machine.fire_shared, hpc, machine, step, queuedFetchSetPendingAcquire_eq]
  | xchgTail idx => exact Or.inr (Or.inr (fire_tail_xchgTail hq hpc))
  | fallbackRead | fallbackCmpxchg | fault =>
    rw [hpc] at hok
    exact hok.elim
  | _ =>
    refine Or.inl ?_
    rw [Machine.fire_shared, hpc]
    rfl

/-- The exchange that was to clear the tail failed though the tail was the thread's own, so
the pending byte was set; by a thread that will undo it and queue. -/
lemma comes_of_claim_failed (hq : QueueOk c q prev) (hw : WordInv c) {idx : Fin maxNodes}
    {val : BitVec 32} {next : Option (NodeId n)} (hpc : c.loc t = .claim idx val next)
    (hv : c.shared.lock.val ≠ val) (htail : c.shared.lock.tail = tailCode t) :
    ∃ u, c.loc u = .undo := by
  have hok := hq.pc_ok t
  rw [hpc] at hok
  obtain ⟨-, -, -, rfl⟩ := hok
  have hk : kinds c t = .claimer := by simp [kinds, hpc, Pc.kind]
  have hpend : c.shared.lock.pending ≠ 0 := by
    intro h0
    apply hv
    rw [encodeTail_zero, Qspinlock.val_inj]
    exact Qspinlock.ext (hw.claim_free t hk) h0 htail
  obtain ⟨u, hu⟩ := hw.pended hpend
  have halone := hw.claim_alone t u hk
  refine ⟨u, ?_⟩
  cases hpu : c.loc u with
  | undo => rfl
  | pendWait => simp [kinds, hpu, Pc.kind] at halone
  | pendTake => simp [kinds, hpu, Pc.kind] at halone
  | _ => simp [kinds, hpu, Pc.kind, Kind.pends] at hu

/-- Every step keeps it. -/
theorem SuccOk.fire (hn : n ≤ 2 ^ 14 - 1) (hq : QueueOk c q prev) (hw : WordInv c) (h : SuccOk c)
    (t : Fin n) : SuccOk ((machine n).fire t () c) := by
  intro x hx htail
  by_cases hxt : x = t
  · subst hxt
    have hstay {u : Fin n} (hu : (c.loc u).comes = true) (hne : u ≠ x) :
        ∃ u, (((machine n).fire x () c).loc u).comes = true :=
      ⟨u, by rwa [Machine.fire_loc_of_ne _ hne]⟩
    rcases needsNext_cases hx with ⟨hneed, hsame⟩ | ⟨idx, hpc, hne, hsame⟩ | ⟨idx, val, hpc, hv, hsame⟩
    · obtain ⟨u, hu⟩ := h x hneed (hsame.symm.trans htail)
      refine hstay hu ?_
      rintro rfl
      cases hpc : c.loc u <;> simp [hpc, Pc.comes, Pc.needsNext] at hu hneed
    · have hok := hq.pc_ok x
      rw [hpc] at hok
      obtain ⟨-, rfl, -⟩ := hok
      refine absurd ?_ hne
      rw [val_and_qTailMask, ← hsame, htail]
      exact (encodeTail_zero x).symm
    · obtain ⟨u, hu⟩ := comes_of_claim_failed hq hw hpc hv (hsame.symm.trans htail)
      refine hstay (u := u) (by rw [hu]; rfl) ?_
      rintro rfl
      simp [hpc] at hu
  · have hinj : tailCode t ≠ tailCode x := fun e => hxt (tailCode_injective hn e.symm)
    have hsame : c.shared.lock.tail = tailCode x := by
      rcases fire_tail hq t with hs | hz | hs
      · exact hs.symm.trans htail
      · exact absurd (htail.symm.trans hz) (tailCode_ne_zero hn x)
      · exact absurd (hs.symm.trans htail) hinj
    rw [Machine.fire_loc_of_ne _ hxt] at hx
    obtain ⟨u, hu⟩ := h x hx hsame
    refine ⟨u, ?_⟩
    by_cases hut : u = t
    · subst hut
      rcases comes_fire hq hu (by rw [hsame]; exact tailCode_ne_zero hn x) with ⟨idx, hpc⟩ | hc
      · exact absurd ((fire_tail_xchgTail hq hpc).symm.trans htail) hinj
      · exact hc
    · rwa [Machine.fire_loc_of_ne _ hut]

end Successor

section Reachable

lemma start_queueOk (n : ℕ) : QueueOk (start n) [] fun _ => none where
  inv := by
    constructor <;> simp [abs, start, Pc.role, linkOf, Role.hasPrev, Role.owner, Role.attached]
  tail_eq := rfl
  nodes := by simp [start]
  pc_ok := fun _ => rfl

lemma start_wordInv (n : ℕ) : WordInv (start n) := by
  have hk : kinds (start n) = fun _ => .free := rfl
  rw [WordInv, hk]
  constructor <;> simp [start, Kind.pends]

lemma start_succOk (n : ℕ) : SuccOk (start n) := by
  intro t ht
  simp [start, Pc.needsNext] at ht

/-- The invariants of a reachable state. -/
theorem reachable_inv (hn : n ≤ 2 ^ 14 - 1) (h : (machine n).Reachable (start n) c) :
    ∃ q prev, QueueOk c q prev ∧ WordInv c ∧ SuccOk c := by
  apply h.invariant (machine n) ⟨[], fun _ => none, start_queueOk n, start_wordInv n,
    start_succOk n⟩
  rintro c t - ⟨q, prev, hq, hw, hs⟩
  obtain ⟨prev', hq'⟩ := fire_queueOk hn hq t
  exact ⟨queueAfter t c q, prev', hq', fire_wordInv hn hq hw t, hs.fire hn hq hw t⟩

end Reachable

section Exclusion

/-- From the return of `lock_acquire` until the store of `lock_release`. -/
def Pc.inCritical : Pc n → Bool
  | .critical | .unlock => true
  | _ => false

/-- The index of the thread's node, where it has one. -/
def Pc.idx : Pc n → Option (Fin maxNodes)
  | .initLocked idx | .initNext idx | .tryRead idx | .tryCmpxchg idx | .xchgTail idx
  | .link idx _ | .waitLocked idx | .readNext idx | .headWait idx _ | .claim idx _ _
  | .setLocked idx _ | .waitNext idx | .handoff idx _ => some idx
  | _ => none

lemma kind_of_inCritical {p : Pc n} (h : p.inCritical = true) : p.kind = .holder := by
  cases p with
  | critical | unlock => rfl
  | _ => simp [Pc.inCritical] at h

/-- The count of a thread never exceeds one, and the fallback is never taken. -/
lemma PcOk.entry {s : Shared n} {p : Pc n} (h : PcOk s t p) :
    (s.count t = 0 ∨ s.count t = 1) ∧ (∀ idx, p.idx = some idx → idx = 0) ∧
      p ≠ .fallbackRead ∧ p ≠ .fallbackCmpxchg ∧ p ≠ .fault := by
  cases p with
  | decCount => exact ⟨Or.inr h, by simp [Pc.idx]⟩
  | initLocked | waitLocked | readNext | waitNext => exact ⟨Or.inr h.1, by simp [Pc.idx, h.2]⟩
  | initNext | tryRead | tryCmpxchg | xchgTail | link | headWait | setLocked | claim | handoff =>
    exact ⟨Or.inr h.1, by simp [Pc.idx, h.2.1]⟩
  | fallbackRead | fallbackCmpxchg | fault => exact h.elim
  | _ => exact ⟨Or.inl h, by simp [Pc.idx]⟩

/-- In every reachable state at most one thread is in the critical section, the locked byte
is 1 while one is, every count is 0 or 1, only node 0 is used, and neither the fallback nor
a wild pointer is reached. -/
theorem queuedSpinlock_mutual_exclusion (hn : n ≤ 2 ^ 14 - 1)
    (h : (machine n).Reachable (start n) c) :
    (∀ t u, (c.loc t).inCritical = true → (c.loc u).inCritical = true → t = u) ∧
      (∀ t, (c.loc t).inCritical = true → c.shared.lock.locked = 1) ∧
      (∀ t, c.shared.count t = 0 ∨ c.shared.count t = 1) ∧
      (∀ t idx, (c.loc t).idx = some idx → idx = 0) ∧
      ∀ t, c.loc t ≠ .fallbackRead ∧ c.loc t ≠ .fallbackCmpxchg ∧ c.loc t ≠ .fault := by
  obtain ⟨q, prev, hq, hw, -⟩ := reachable_inv hn h
  refine ⟨?_, ?_, fun t => (hq.pc_ok t).entry.1, fun t => (hq.pc_ok t).entry.2.1,
    fun t => (hq.pc_ok t).entry.2.2⟩
  · intro t u ht hu
    exact hw.holder_unique t u (kind_of_inCritical ht) (kind_of_inCritical hu)
  · intro t ht
    exact hw.locked_of t (kind_of_inCritical ht)

/-- `a` takes the lock, `b` becomes pending, `d` queues and waits as head. -/
def crowd (a b d : Fin n) : List (Fin n × Unit) :=
  [a, a, b, b, b, d, d, d, d, d, d, d].map fun t => (t, ())

theorem queuedSpinlock_mutual_exclusion_crowd :
    ((machine 3).run (start 3) (crowd 0 1 2)).loc 0 = .critical ∧
      ((machine 3).run (start 3) (crowd 0 1 2)).loc 1 = .pendWait ∧
      ((machine 3).run (start 3) (crowd 0 1 2)).loc 2 = .headWait 0 none ∧
      ((machine 3).run (start 3) (crowd 0 1 2)).shared.lock.locked = 1 ∧
      (((machine 3).run (start 3) (crowd 0 1 2)).shared.count 2 = 0 ∨
        ((machine 3).run (start 3) (crowd 0 1 2)).shared.count 2 = 1) := by
  have h0 : ((machine 3).run (start 3) (crowd 0 1 2)).loc 0 = .critical := by decide +kernel
  have h1 : ((machine 3).run (start 3) (crowd 0 1 2)).loc 1 = .pendWait := by decide +kernel
  have h2 : ((machine 3).run (start 3) (crowd 0 1 2)).loc 2 = .headWait 0 none := by decide +kernel
  have hr := (machine 3).reachable_run (start 3) (crowd 0 1 2)
  generalize (machine 3).run (start 3) (crowd 0 1 2) = c at h0 h1 h2 hr
  have hmain := queuedSpinlock_mutual_exclusion (by decide) hr
  exact ⟨h0, h1, h2, hmain.2.1 0 (by rw [h0]; rfl), hmain.2.2.1 2⟩

end Exclusion

section Progress

/-- Inside `lock_acquire`. -/
def Pc.inside : Pc n → Bool
  | .idle | .critical | .unlock => false
  | _ => true

/-- At a waiting loop whose exit condition is false in this state. -/
def Blocked (s : Shared n) (t : Fin n) : Pc n → Prop
  | .pendWait => s.lock.locked ≠ 0
  | .waitLocked idx => s.locked (t, idx) = 0
  | .headWait _ _ => s.lock.val &&& qLockedPendingMask ≠ 0
  | .waitNext idx => s.next (t, idx) = none
  | _ => False

structure Stuck (c : Config (Fin n) (Shared n) (Pc n)) : Prop where
  someone : ∃ t, (c.loc t).inside = true
  free : ∀ t, (c.loc t).inCritical = false
  blocked : ∀ t, (c.loc t).inside = true → Blocked c.shared t (c.loc t)

/-- Where a thread can be in a stuck state. -/
lemma Stuck.cases (hs : Stuck c) (t : Fin n) :
    c.loc t = .idle ∨ (c.loc t = .pendWait ∧ c.shared.lock.locked ≠ 0) ∨
      (∃ idx, c.loc t = .waitLocked idx ∧ c.shared.locked (t, idx) = 0) ∨
      (∃ idx next, c.loc t = .headWait idx next ∧
        c.shared.lock.val &&& qLockedPendingMask ≠ 0) ∨
      ∃ idx, c.loc t = .waitNext idx ∧ c.shared.next (t, idx) = none := by
  have hfree := hs.free t
  have hblocked := hs.blocked t
  cases hpc : c.loc t with
  | idle => exact Or.inl rfl
  | critical | unlock => simp [hpc, Pc.inCritical] at hfree
  | pendWait =>
    rw [hpc] at hblocked
    exact Or.inr (Or.inl ⟨rfl, hblocked rfl⟩)
  | waitLocked idx =>
    rw [hpc] at hblocked
    exact Or.inr (Or.inr (Or.inl ⟨idx, rfl, hblocked rfl⟩))
  | headWait idx next =>
    rw [hpc] at hblocked
    exact Or.inr (Or.inr (Or.inr (Or.inl ⟨idx, next, rfl, hblocked rfl⟩)))
  | waitNext idx =>
    rw [hpc] at hblocked
    exact Or.inr (Or.inr (Or.inr (Or.inr ⟨idx, rfl, hblocked rfl⟩)))
  | _ =>
    rw [hpc] at hblocked
    exact (hblocked rfl).elim

/-- A holder waits for its successor, which is linked or still coming. -/
lemma Stuck.no_holder (hs : Stuck c) (hn : n ≤ 2 ^ 14 - 1) (hq : QueueOk c q prev)
    (hsucc : SuccOk c) (x : Fin n) : kinds c x ≠ .holder := by
  intro hx
  obtain ⟨idx, hpc, hnext⟩ : ∃ idx, c.loc x = .waitNext idx ∧ c.shared.next (x, idx) = none := by
    rcases hs.cases x with hpc | ⟨hpc, -⟩ | ⟨idx, hpc, -⟩ | ⟨idx, next, hpc, -⟩ | hpc
    · simp [kinds, hpc, Pc.kind] at hx
    · simp [kinds, hpc, Pc.kind] at hx
    · simp [kinds, hpc, Pc.kind] at hx
    · simp [kinds, hpc, Pc.kind] at hx
    · exact hpc
  have hok := hq.pc_ok x
  rw [hpc] at hok
  obtain ⟨-, rfl⟩ := hok
  have hrole : (abs c prev).role x = .holding := by simp [abs, hpc, Pc.role]
  have hhead := hq.inv.owner_first (t := x) (by rw [hrole]; rfl)
  rcases last_or_adj (List.mem_of_head? hhead) with hlast | ⟨y, hadj⟩
  · have htail : c.shared.lock.tail = tailCode x := hq.tail_eq.trans ((tailOf_eq_iff hn).mpr hlast)
    obtain ⟨u, hu⟩ := hsucc x (by rw [hpc]; rfl) htail
    rcases hs.cases u with hpu | ⟨hpu, -⟩ | ⟨idx, hpu, -⟩ | ⟨idx, next, hpu, -⟩ | ⟨idx, hpu, -⟩ <;>
      simp [hpu, Pc.comes] at hu
  · have hbehind := (hq.inv.behind x y hadj).2
    have hmem := (hq.inv.mem y).mp hadj.mem_right
    have hwait : (abs c prev).role y = .waiting := by
      rcases hs.cases y with hpy | ⟨hpy, -⟩ | ⟨idx, hpy, -⟩ | ⟨idx, next, hpy, -⟩ | ⟨idx, hpy, -⟩
      · simp [abs, hpy, Pc.role] at hmem
      · simp [abs, hpy, Pc.role] at hmem
      · simp [abs, hpy, Pc.role]
      · cases next <;> simp [abs, hpy, Pc.role, headRole, Role.owner] at hbehind
      · simp [abs, hpy, Pc.role, Role.owner] at hbehind
    rcases hq.inv.linked x y hadj hwait with ⟨hl, -⟩ | ⟨-, hk⟩
    · simp [abs, hpc, Pc.role, linkOf, hnext] at hl
    · simp [hrole, Role.taken] at hk

/-- With nobody holding and everybody blocked, both bytes are clear. -/
lemma Stuck.clear (hs : Stuck c) (hw : WordInv c) (hhold : ∀ x, kinds c x ≠ .holder) :
    c.shared.lock.locked = 0 ∧ c.shared.lock.pending = 0 := by
  have hl : c.shared.lock.locked = 0 := by
    by_contra h0
    obtain ⟨x, hx⟩ := hw.held h0
    exact hhold x hx
  refine ⟨hl, ?_⟩
  by_contra h0
  obtain ⟨u, hu⟩ := hw.pended h0
  rcases hs.cases u with hpu | ⟨-, hne⟩ | ⟨idx, hpu, -⟩ | ⟨idx, next, hpu, -⟩ | ⟨idx, hpu, -⟩
  · simp [kinds, hpu, Pc.kind, Kind.pends] at hu
  · exact hne hl
  · simp [kinds, hpu, Pc.kind, Kind.pends] at hu
  · simp [kinds, hpu, Pc.kind, Kind.pends] at hu
  · simp [kinds, hpu, Pc.kind, Kind.pends] at hu

/-- So everybody inside waits for its own node, also the first of the queue. -/
lemma Stuck.waits (hs : Stuck c) (hw : WordInv c) (hhold : ∀ x, kinds c x ≠ .holder)
    (ht : c.loc t ≠ .idle) : ∃ idx, c.loc t = .waitLocked idx ∧ c.shared.locked (t, idx) = 0 := by
  obtain ⟨hl, hp⟩ := hs.clear hw hhold
  rcases hs.cases t with hpc | ⟨-, hne⟩ | hpc | ⟨idx, next, -, hne⟩ | ⟨idx, hpc, -⟩
  · exact absurd hpc ht
  · exact absurd hl hne
  · exact hpc
  · exact absurd (val_and_qLockedPendingMask.mpr ⟨hl, hp⟩) hne
  · exact absurd (by simp [kinds, hpc, Pc.kind]) (hhold t)

/-- No reachable state has threads inside `lock_acquire`, nobody with the lock, and all of
them in waiting loops that nothing lets them leave. -/
theorem queuedSpinlock_never_stuck (hn : n ≤ 2 ^ 14 - 1)
    (h : (machine n).Reachable (start n) c) : ¬ Stuck c := by
  intro hs
  obtain ⟨q, prev, hq, hw, hsucc⟩ := reachable_inv hn h
  have hhold := hs.no_holder hn hq hsucc
  obtain ⟨t, ht⟩ := hs.someone
  obtain ⟨idx, hpc, -⟩ := hs.waits (t := t) hw hhold (by rintro h0; simp [h0, Pc.inside] at ht)
  have hmem : t ∈ q := by
    rw [hq.inv.mem]
    simp [abs, hpc, Pc.role]
  obtain ⟨x, hx⟩ : ∃ x, q.head? = some x :=
    Option.ne_none_iff_exists'.mp (by simpa using List.ne_nil_of_mem hmem)
  have hxq := (hq.inv.mem x).mp (List.mem_of_head? hx)
  obtain ⟨idx, hpx, hlx⟩ := hs.waits (t := x) hw hhold (by
    intro h0
    simp [abs, h0, Pc.role] at hxq)
  have hok := hq.pc_ok x
  rw [hpx] at hok
  obtain ⟨-, rfl⟩ := hok
  rcases hq.inv.first x hx with ho | ⟨-, hne⟩
  · simp [abs, hpx, Pc.role, Role.owner] at ho
  · exact hne hlx

/-- `a`, alone in the queue, is about to clear the tail when `d` sets the pending byte; `a`
then has the lock and waits for a successor. -/
def lateSuccessor (a b d : Fin n) : List (Fin n × Unit) :=
  [d, d, b, b, b, a, a, a, a, a, a, d, d, b, b, d, d, a, b, b, a, d, a, a].map fun t => (t, ())

theorem queuedSpinlock_never_stuck_lateSuccessor :
    ((machine 3).run (start 3) (lateSuccessor 0 1 2)).loc 0 = .waitNext 0 ∧
      ((machine 3).run (start 3) (lateSuccessor 0 1 2)).shared.next (0, 0) = none ∧
      ((machine 3).run (start 3) (lateSuccessor 0 1 2)).loc 1 = .idle ∧
      ((machine 3).run (start 3) (lateSuccessor 0 1 2)).loc 2 = .undo ∧
      ¬ Stuck ((machine 3).run (start 3) (lateSuccessor 0 1 2)) := by
  have hr := (machine 3).reachable_run (start 3) (lateSuccessor 0 1 2)
  refine ⟨by decide +kernel, by decide +kernel, by decide +kernel, by decide +kernel, ?_⟩
  exact queuedSpinlock_never_stuck (by decide) hr

end Progress

end Lockhammer.QueuedSpinlock
