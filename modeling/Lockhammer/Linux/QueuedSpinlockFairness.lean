import Lockhammer.Interleaving.Fairness
import Lockhammer.Linux.QueuedSpinlockOrder

/-!
# The queued spinlock lets nobody starve

While a thread is in the queue the tail is not zero, and while one is pending the pending byte is
set. Either way a thread that comes from outside can only go into the queue. So every step of every
thread is progress, except one in a waiting loop, which changes nothing.
-/
namespace Lockhammer.QueuedSpinlock
open Interleaving Interleaving.Queue Interleaving.LinkedQueue

variable {n : ℕ} {c : Config (Fin n) (Shared n) (Pc n)} {q : List (Fin n)} {t u x : Fin n}
  {prev : Fin n → Option (Fin n)} {pends : Bool}

section Work

/-- The steps a thread still has to do on its way to the queue. -/
def Pc.toEnter : Pc n → ℕ
  | .idle => 20
  | .fast => 19
  | .pendSpin cnt => 15 + cnt
  | .fetchOr => 14
  | .undo => 13
  | .incCount => 12
  | .initLocked _ => 11
  | .initNext _ => 10
  | .tryRead _ => 9
  | .tryCmpxchg _ => 8
  | .xchgTail _ => 7
  | _ => 0

/-- The steps a thread still has to do. It is done when it waits for the lock with nothing to do
but to wait: at its node, before it is granted, and while somebody is pending also at the head. -/
def work (pends : Bool) (s : Shared n) (t : Fin n) : Pc n → ℕ
  | .pendWait => 40
  | .pendTake => 39
  | .waitLocked idx => if s.locked (t, idx) = 0 then 0 else 30
  | .readNext _ => 29
  | .headWait _ _ => if pends then 5 else 28
  | .claim _ _ _ => 27
  | .setLocked _ _ => 26
  | .waitNext _ => 25
  | .handoff _ _ => 24
  | .decCount => 23
  | .critical => 22
  | .unlock => 21
  | .link _ _ => 6
  | p => p.toEnter

/-- Nobody can take the lock from outside: somebody is pending, or in the queue. -/
def Contended (pends : Bool) (l : Qspinlock) : Prop :=
  if pends then l.pending ≠ 0 else l.tail ≠ 0

lemma Contended.val_contended {l : Qspinlock} (h : Contended pends l) : l.val &&& ~~~qLockedMask ≠ 0 := by
  intro hz
  obtain ⟨hp, ht⟩ := val_and_contended.mp hz
  cases pends with
  | false => exact h ht
  | true => exact h hp

lemma Contended.val_ne_zero {l : Qspinlock} (h : Contended pends l) : l.val ≠ 0 := by
  intro hz
  apply h.val_contended
  rw [hz]
  exact BitVec.zero_and

/-- So the fast path fails, and the slow path ends in the queue. -/
lemma Contended.slowpath_cases {l : Qspinlock} (h : Contended pends l) :
    (slowpath l.val : Pc n) = .pendSpin 1 ∨ (slowpath l.val : Pc n) = .incCount := by
  rw [slowpath]
  split
  · exact Or.inl rfl
  · exact Or.inr (if_pos h.val_contended)

lemma Contended.afterFetchOr_cases {l : Qspinlock} (h : Contended pends l) :
    (afterFetchOr l.val : Pc n) = .undo ∨ (afterFetchOr l.val : Pc n) = .incCount := by
  rw [afterFetchOr, if_pos h.val_contended]
  split
  · exact Or.inl rfl
  · exact Or.inr rfl

/-- Every step does some of the work, but for the loops. -/
lemma step_work {s : Shared n} {p : Pc n} (hc : Contended pends s.lock) (hok : PcOk s t p)
    (hlink : ∀ idx prev, p = .link idx prev → s.locked (t, idx) = 0) :
    Blocked s t p ∨ work pends (step t s p).1 t (step t s p).2 < work pends s t p := by
  cases p with
  | fast =>
    refine Or.inr ?_
    simp only [step, tryCmpxchg, if_neg hc.val_ne_zero, Bool.false_eq_true, if_false]
    obtain hs | hs := hc.slowpath_cases (n := n) <;> rw [hs] <;> simp [work, Pc.toEnter]
  | pendSpin cnt =>
    refine Or.inr ?_
    simp only [step]
    split
    · rw [afterPendSpin, if_pos hc.val_contended]
      simp only [work, Pc.toEnter]
      omega
    · next hspin =>
      simp only [work, Pc.toEnter]
      omega
  | fetchOr =>
    refine Or.inr ?_
    simp only [step, queuedFetchSetPendingAcquire]
    obtain hs | hs := hc.afterFetchOr_cases (n := n) <;> rw [hs] <;> simp [work, Pc.toEnter]
  | pendWait =>
    by_cases hl : s.lock.locked = 0
    · exact Or.inr (by simp [step, work, hl])
    · exact Or.inl hl
  | incCount =>
    refine Or.inr ?_
    simp only [step]
    split <;> simp [work, Pc.toEnter]
  | tryRead idx =>
    refine Or.inr ?_
    simp only [step, if_pos hc.val_ne_zero]
    simp [work, Pc.toEnter]
  | tryCmpxchg idx =>
    refine Or.inr ?_
    simp only [step, QueuedSpinlock.tryCmpxchg, if_neg hc.val_ne_zero, Bool.false_eq_true, if_false]
    simp [work, Pc.toEnter]
  | xchgTail idx =>
    obtain ⟨-, rfl, -⟩ := hok
    have hx : QueuedSpinlock.xchgTail s.lock (encodeTail t (0 : Fin maxNodes)) =
        (Qspinlock.val ⟨0, 0, s.lock.tail⟩, { s.lock with tail := tailCode t }) := xchgTail_eq s.lock t
    refine Or.inr ?_
    simp only [step, hx]
    split
    · split <;> simp [work, Pc.toEnter]
    · next htail =>
      cases pends with
      | true => simp [work, Pc.toEnter]
      | false =>
        -- the tail was not zero, so there is somebody in front
        refine absurd ?_ htail
        rw [val_and_qTailMask, ne_eq, Qspinlock.val_eq_zero_iff]
        exact fun hz => hc hz.2.2
  | link idx prev =>
    refine Or.inr ?_
    have hl := hlink idx prev rfl
    simp [step, work, Shared.setNext, hl]
  | waitLocked idx =>
    by_cases hl : s.locked (t, idx) = 0
    · exact Or.inl hl
    · exact Or.inr (by simp [step, work, hl])
  | headWait idx next =>
    by_cases hz : s.lock.val &&& qLockedPendingMask = 0
    · refine Or.inr ?_
      cases pends with
      | true => exact absurd (val_and_qLockedPendingMask.mp hz).2 hc
      | false =>
        simp only [step, ne_eq, hz, not_true_eq_false, if_false]
        split <;> simp [work]
    · exact Or.inl hz
  | claim idx val next =>
    refine Or.inr ?_
    simp only [step]
    split <;> simp [work]
  | setLocked idx next => exact Or.inr (by cases next <;> simp [step, work])
  | waitNext idx =>
    cases hnext : s.next (t, idx) with
    | none => exact Or.inl hnext
    | some z => exact Or.inr (by simp [step, work, hnext])
  | readNext idx => exact Or.inr (by cases pends <;> simp [step, work])
  | fallbackRead | fallbackCmpxchg | fault => exact hok.elim
  | _ => exact Or.inr (by simp [step, work, Pc.toEnter])

/-- Only a handoff grants another thread its node. -/
lemma step_locked {s : Shared n} {p : Pc n} (hp : ∀ idx next, p ≠ .handoff idx next) (hu : u ≠ t)
    (i : Fin maxNodes) : (step t s p).1.locked (u, i) = s.locked (u, i) := by
  cases p with
  | handoff idx next => exact absurd rfl (hp idx next)
  | initLocked idx =>
    have hne : (u, i) ≠ (t, idx) := fun h => hu (congrArg Prod.fst h)
    simp [step, Shared.setNodeLocked, hne]
  | _ => rfl

def totalWork (pends : Bool) (c : Config (Fin n) (Shared n) (Pc n)) : ℕ := ∑ u, work pends c.shared u (c.loc u)

lemma totalWork_fire_lt (hp : ∀ idx next, c.loc t ≠ .handoff idx next)
    (h : work pends (step t c.shared (c.loc t)).1 t (step t c.shared (c.loc t)).2 < work pends c.shared t (c.loc t)) :
    totalWork pends ((machine n).fire t () c) < totalWork pends c := by
  refine Finset.sum_lt_sum (fun u _ => ?_) ⟨t, Finset.mem_univ t, ?_⟩
  · by_cases hu : u = t
    · subst hu
      rw [Machine.fire_loc_self]
      exact h.le
    · rw [Machine.fire_loc_of_ne _ hu]
      have hlocked := step_locked (s := c.shared) hp hu
      refine le_of_eq ?_
      cases c.loc u with
      | waitLocked i =>
        change (if (step t c.shared (c.loc t)).1.locked (u, i) = 0 then 0 else 30) = _
        rw [hlocked]
        rfl
      | _ => rfl
  · rw [Machine.fire_loc_self]
    exact h

/-- The thread that links itself has not been granted its node yet. -/
lemma QueueOk.link_locked (h : QueueOk c q prev) {idx : Fin maxNodes} {p : NodeId n}
    (hpc : c.loc t = .link idx p) : c.shared.locked (t, idx) = 0 := by
  have hok := h.pc_ok t
  rw [hpc] at hok
  obtain ⟨-, rfl, -⟩ := hok
  have hrole : (abs c prev).role t = .arriving p.1 true := by simp [abs, hpc, Pc.role]
  have hmem : t ∈ q := (h.inv.mem t).mpr (by simp [hrole])
  obtain hhead | ⟨y, hadj⟩ := head_or_adj hmem
  · obtain howner | ⟨hwait, -⟩ := h.inv.first t hhead
    · simp [hrole, Role.owner] at howner
    · simp [hrole] at hwait
  · exact (h.inv.behind y t hadj).1

lemma fire_of_blocked (h : Blocked c.shared t (c.loc t)) : (machine n).fire t () c = c := by
  have hstep : step t c.shared (c.loc t) = (c.shared, c.loc t) := by
    cases hpc : c.loc t with
    | pendWait =>
      rw [hpc] at h
      exact Prod.ext rfl (if_neg h)
    | waitLocked idx =>
      rw [hpc] at h
      exact Prod.ext rfl (if_neg (not_not.mpr h))
    | headWait idx next =>
      rw [hpc] at h
      exact Prod.ext rfl (if_pos h)
    | waitNext idx =>
      rw [hpc] at h
      have hnext : c.shared.next (t, idx) = none := h
      simp only [step, hnext]
    | _ =>
      rw [hpc] at h
      exact h.elim
  rw [Machine.fire_eq _ hstep, Function.update_eq_self]

/-- With contention, a step does nothing, or a handoff, or some of the work. -/
lemma QueueOk.fire_work (h : QueueOk c q prev) (hc : Contended pends c.shared.lock) (t : Fin n) :
    (machine n).fire t () c = c ∨ (∃ idx next, c.loc t = .handoff idx next) ∨
      totalWork pends ((machine n).fire t () c) < totalWork pends c := by
  by_cases hhand : ∃ idx next, c.loc t = .handoff idx next
  · exact Or.inr (Or.inl hhand)
  · obtain hblocked | hless := step_work hc (h.pc_ok t) fun idx p hpc => h.link_locked hpc
    · exact Or.inl (fire_of_blocked hblocked)
    · exact Or.inr (Or.inr (totalWork_fire_lt (fun idx next hpc => hhand ⟨idx, next, hpc⟩) hless))

end Work

section Moves
variable (hn : n ≤ 2 ^ 14 - 1) (hq : QueueOk c q prev)
include hq

lemma QueueOk.blocked_of_fire (hc : Contended pends c.shared.lock) (hsame : (machine n).fire t () c = c) :
    Blocked c.shared t (c.loc t) := by
  refine (step_work hc (hq.pc_ok t) fun idx p hpc => hq.link_locked hpc).resolve_right fun hless => ?_
  have hstep : step t c.shared (c.loc t) = (c.shared, c.loc t) := by
    refine Prod.ext ?_ ?_
    · change ((machine n).fire t () c).shared = c.shared
      rw [hsame]
    · have hloc := (machine n).fire_loc_self t () c
      rw [hsame] at hloc
      exact hloc.symm
  rw [hstep] at hless
  exact lt_irrefl _ hless

include hn

/-- While there is contention some thread goes on. -/
lemma QueueOk.exists_moves (hw : WordInv c) (hsucc : SuccOk c) (hc : Contended pends c.shared.lock) :
    ∃ t, (machine n).fire t () c ≠ c := by
  by_contra hall
  push Not at hall
  have hblocked (t : Fin n) := hq.blocked_of_fire hc (hall t)
  have hinside (t : Fin n) : (c.loc t).inside = true ∧ (c.loc t).inCritical = false := by
    have hb := hblocked t
    cases hpc : c.loc t with
    | idle | critical | unlock =>
      rw [hpc] at hb
      exact hb.elim
    | _ => exact ⟨rfl, rfl⟩
  have hstuck (t : Fin n) : Stuck c := ⟨⟨t, (hinside t).1⟩, fun u => (hinside u).2, fun u _ => hblocked u⟩
  cases pends with
  | true =>
    obtain ⟨t, -⟩ := hw.pended hc
    exact hc ((hstuck t).clear hw ((hstuck t).no_holder hn hq hsucc)).2
  | false =>
    -- the first of the queue has the lock, or has been granted it
    have hne : q ≠ [] := fun hnil => hc (hq.tail_eq.trans ((tailOf_eq_zero_iff hn).mpr hnil))
    obtain ⟨x, hx⟩ : ∃ x, q.head? = some x := Option.ne_none_iff_exists'.mp (by simpa using hne)
    have hidle : c.loc x ≠ .idle := by
      intro hpc
      have hin := (hinside x).1
      rw [hpc] at hin
      cases hin
    obtain ⟨idx, hpc, hlocked⟩ := (hstuck x).waits hw ((hstuck x).no_holder hn hq hsucc) hidle
    have hok := hq.pc_ok x
    rw [hpc] at hok
    obtain ⟨-, rfl⟩ := hok
    obtain howner | ⟨-, hgranted⟩ := hq.inv.first x hx
    · simp [abs, hpc, Pc.role, Role.owner] at howner
    · exact hgranted hlocked

end Moves

section Place

lemma idxOf_erase_le {l : List (Fin n)} (hxt : x ≠ t) : (l.erase t).idxOf x ≤ l.idxOf x := by
  induction l with
  | nil => exact le_rfl
  | cons a l ih =>
    by_cases hat : a = t
    · subst hat
      rw [List.erase_cons_head, List.idxOf_cons_ne l hxt.symm]
      exact Nat.le_succ _
    · rw [List.erase_cons_tail (by simpa using hat)]
      by_cases hax : a = x
      · rw [List.idxOf_cons_eq _ hax]
        exact Nat.zero_le _
      · rw [List.idxOf_cons_ne _ hax, List.idxOf_cons_ne _ hax]
        exact Nat.succ_le_succ ih

lemma Pending.contended (hn : n ≤ 2 ^ 14 - 1) (hx : Pending x c q prev) : Contended false c.shared.lock :=
  hx.tail_ne_zero hn

/-- Nobody gets in front of `x`. -/
lemma Pending.idxOf_le (hx : Pending x c q prev)
    (hne : event t () c.shared (c.loc t) ≠ some (.take x)) : (queueAfter t c q).idxOf x ≤ q.idxOf x := by
  obtain hsame | ⟨happ, -⟩ | ⟨herase, hkind⟩ := queueAfter_cases t c q
  · rw [hsame]
  · rw [happ, List.idxOf_append_of_mem hx.mem]
  · rw [herase]
    refine idxOf_erase_le ?_
    rintro rfl
    exact hne (event_take.mpr ⟨rfl, hx.waits, hkind⟩)

/-- A handoff takes the first out of the queue. -/
lemma Pending.idxOf_lt (hx : Pending x c q prev) {idx : Fin maxNodes} {next : NodeId n}
    (hpc : c.loc t = .handoff idx next) : (queueAfter t c q).idxOf x < q.idxOf x := by
  have hxt : x ≠ t := by
    rintro rfl
    exact hx.waits (by rw [hpc]; rfl)
  have hhead : q.head? = some t := hx.queue.inv.owner_first (by simp [abs, hpc, Pc.role, Role.owner])
  obtain ⟨rest, rfl⟩ := List.head?_eq_some_iff.mp hhead
  simp only [queueAfter, hpc, List.erase_cons_head]
  rw [List.idxOf_cons_ne rest hxt.symm]
  exact Nat.lt_succ_self _

end Place

section Handing

/-- Has the lock, and has to hand the queue on. -/
def Pc.handing : Pc n → ℕ
  | .waitNext _ | .handoff _ _ => 1
  | _ => 0

lemma handing_le (p : Pc n) : p.handing ≤ 1 := by
  cases p <;> simp [Pc.handing]

lemma slowpath_handing (v : BitVec 32) : (slowpath v : Pc n).handing = 0 := by
  rw [slowpath, afterPendSpin]
  split
  · rfl
  · split <;> rfl

lemma afterFetchOr_handing (v : BitVec 32) : (afterFetchOr v : Pc n).handing = 0 := by
  rw [afterFetchOr]
  split
  · split <;> rfl
  · split <;> rfl

/-- Only a claimer comes to that. -/
lemma step_handing {s : Shared n} {p : Pc n} (hp : p.kind ≠ .claimer) : (step t s p).2.handing ≤ p.handing := by
  cases p with
  | claim idx val next => exact absurd rfl hp
  | setLocked idx next => exact absurd rfl hp
  | waitNext idx => exact handing_le _
  | fast =>
    simp only [step]
    split
    · exact le_rfl
    · exact (slowpath_handing _).le
  | pendSpin cnt =>
    simp only [step, afterPendSpin]
    split
    · split <;> exact le_rfl
    · exact le_rfl
  | fetchOr => exact (afterFetchOr_handing _).le
  | xchgTail idx =>
    simp only [step]
    split
    · split <;> exact le_rfl
    · exact le_rfl
  | headWait idx next =>
    simp only [step]
    split
    · exact le_rfl
    · split <;> exact le_rfl
  | pendWait | incCount | fallbackRead | fallbackCmpxchg | tryRead | tryCmpxchg | waitLocked =>
    simp only [step]
    split <;> exact le_rfl
  | _ => exact Nat.zero_le _

lemma total_handing_le (hclaim : (c.loc t).kind ≠ .claimer) :
    ((machine n).fire t () c).total Pc.handing ≤ c.total Pc.handing := by
  refine Finset.sum_le_sum fun u _ => ?_
  by_cases hu : u = t
  · subst hu
    rw [Machine.fire_loc_self]
    exact step_handing hclaim
  · rw [Machine.fire_loc_of_ne _ hu]

end Handing

section Places

/-- Every step of its own brings a thread nearer to the lock, to the pending byte or into the queue. -/
lemma step_toEnter {s : Shared n} {p : Pc n} (h : 0 < p.toEnter) : (step t s p).2.toEnter < p.toEnter := by
  cases p with
  | fast =>
    simp only [step, slowpath, afterPendSpin]
    split
    · simp [Pc.toEnter]
    · split
      · simp [Pc.toEnter, qPendingLoops]
      · split <;> simp [Pc.toEnter]
  | pendSpin cnt =>
    simp only [step, afterPendSpin]
    split
    · split <;> simp only [Pc.toEnter] <;> omega
    · next hspin =>
      simp only [Pc.toEnter]
      omega
  | fetchOr =>
    simp only [step, afterFetchOr]
    split
    · split <;> simp [Pc.toEnter]
    · split <;> simp [Pc.toEnter]
  | xchgTail idx =>
    simp only [step]
    split
    · split <;> simp [Pc.toEnter]
    · simp [Pc.toEnter]
  | incCount | tryRead | tryCmpxchg =>
    simp only [step]
    split <;> simp [Pc.toEnter]
  | idle | undo | initLocked | initNext => simp [step, Pc.toEnter]
  | _ => cases h

lemma place_of_toEnter {s : Shared n} {p : Pc n} (hok : PcOk s t p) (hzero : p.toEnter = 0)
    (hholds : p.kind ≠ .holder) : (p = .pendWait ∨ p = .pendTake) ∨ p.role ≠ .out := by
  cases p with
  | pendWait => exact Or.inl (Or.inl rfl)
  | pendTake => exact Or.inl (Or.inr rfl)
  | link | waitLocked | readNext => exact Or.inr (by simp [Pc.role])
  | headWait idx next => exact Or.inr (by cases next <;> simp [Pc.role, headRole])
  | claim idx val next => exact Or.inr (by cases next <;> simp [Pc.role, headRole])
  | setLocked idx next => exact Or.inr (by cases next <;> simp [Pc.role, headRole])
  | waitNext | handoff | decCount | critical | unlock => exact absurd rfl hholds
  | fallbackRead | fallbackCmpxchg | fault => exact hok.elim
  | _ => simp [Pc.toEnter] at hzero

/-- The steps to the end of `lock_release`. -/
def Pc.toRelease : Pc n → ℕ
  | .critical => 2
  | .unlock => 1
  | _ => 0

lemma step_toRelease {s : Shared n} {p : Pc n} (h : 0 < p.toRelease) : (step t s p).2.toRelease < p.toRelease := by
  cases p with
  | critical | unlock => exact Nat.lt_succ_self _
  | _ => cases h

end Places

section Served

lemma contended_of_pends (hw : WordInv c) (ht : c.loc t = .pendWait ∨ c.loc t = .pendTake) :
    Contended true c.shared.lock :=
  hw.pending_of t (by obtain hpc | hpc := ht <;> simp [kinds, hpc, Pc.kind, Kind.pends])

lemma kind_of_handing {p : Pc n} (h : p.handing = 1) : p.kind = .holder := by
  cases p with
  | waitNext | handoff => rfl
  | _ => cases h

/-- Who has to hand the queue on is the first of it. -/
lemma contended_of_handing (hn : n ≤ 2 ^ 14 - 1) (hq : QueueOk c q prev) (ht : (c.loc t).handing = 1) :
    Contended false c.shared.lock := by
  have hrole : (abs c prev).role t ≠ .out := by
    revert ht
    simp only [abs]
    cases c.loc t <;> simp [Pc.handing, Pc.role]
  change c.shared.lock.tail ≠ 0
  rw [hq.tail_eq, ne_eq, tailOf_eq_zero_iff hn]
  exact List.ne_nil_of_mem ((hq.inv.mem t).mpr hrole)

lemma handing_fire (ht : (c.loc t).handing = 1) (u : Fin n) :
    ((machine n).fire u () c).loc t = .decCount ∨ (((machine n).fire u () c).loc t).handing = 1 := by
  by_cases hu : t = u
  · subst hu
    rw [Machine.fire_loc_self]
    cases hpc : c.loc t with
    | waitNext idx =>
      simp only [machine, step]
      split <;> exact Or.inr rfl
    | handoff idx next => exact Or.inl rfl
    | _ =>
      rw [hpc] at ht
      cases ht
  · rw [Machine.fire_loc_of_ne _ hu]
    exact Or.inr ht

/-- A pending thread stays pending until it has the lock. -/
lemma pends_fire (ht : c.loc t = .pendWait ∨ c.loc t = .pendTake) (u : Fin n) :
    (((machine n).fire u () c).loc t).kind = .holder ∨
      (((machine n).fire u () c).loc t = .pendWait ∨ ((machine n).fire u () c).loc t = .pendTake) := by
  by_cases hu : t = u
  · subst hu
    rw [Machine.fire_loc_self]
    obtain hpc | hpc := ht
    · rw [hpc]
      simp only [machine, step]
      split
      · exact Or.inr (Or.inr rfl)
      · exact Or.inr (Or.inl rfl)
    · rw [hpc]
      exact Or.inl rfl
  · rw [Machine.fire_loc_of_ne _ hu]
    exact Or.inr ht

variable (hn : n ≤ 2 ^ 14 - 1) {schedule : ℕ → Fin n × Unit} (hfair : Fair schedule) {m : ℕ}
include hn hfair

/-- A thread in the queue gets the lock. -/
lemma holds_of_mem (hx : Pending x ((machine n).states (start n) schedule m) q prev)
    (hw : WordInv ((machine n).states (start n) schedule m)) (hs : SuccOk ((machine n).states (start n) schedule m)) :
    ∃ k, m ≤ k ∧ (((machine n).states (start n) schedule k).loc x).kind = .holder := by
  refine Machine.eventually_of_ghost (G := fun c => (c.loc x).kind = .holder)
    (J := fun g c => Pending x c g.1 g.2 ∧ WordInv c ∧ SuccOk c)
    (r := fun g c => toLex (g.1.idxOf x, totalWork false c)) ?_ ?_ hfair (g := (q, prev)) ⟨hx, hw, hs⟩
  · rintro ⟨q, prev⟩ c t ⟨⟩ ⟨hx, hw, hs⟩
    by_cases hholds : (((machine n).fire t () c).loc x).kind = .holder
    · exact Or.inl hholds
    refine Or.inr ?_
    have hne : event t () c.shared (c.loc t) ≠ some (.take x) := by
      intro he
      obtain ⟨rfl, -, htake⟩ := event_take.mp he
      rw [Machine.fire_loc_self] at hholds
      exact hholds htake
    obtain ⟨prev', hx'⟩ := hx.fire hn hne
    have hinv := And.intro (fire_wordInv hn hx.queue hw t) (hs.fire hn hx.queue hw t)
    obtain hsame | ⟨idx, next, hpc⟩ | hless := hx.queue.fire_work (hx.contended hn) t
    · exact Or.inr hsame
    · refine Or.inl ⟨(queueAfter t c q, prev'), ⟨hx', hinv⟩, ?_⟩
      exact Prod.Lex.toLex_lt_toLex.mpr (Or.inl (hx.idxOf_lt hpc))
    · refine Or.inl ⟨(queueAfter t c q, prev'), ⟨hx', hinv⟩, ?_⟩
      obtain hlt | heq := (hx.idxOf_le hne).lt_or_eq
      · exact Prod.Lex.toLex_lt_toLex.mpr (Or.inl hlt)
      · exact Prod.Lex.toLex_lt_toLex.mpr (Or.inr ⟨heq, hless⟩)
  · rintro ⟨q, prev⟩ c ⟨hx, hw, hs⟩
    obtain ⟨t, ht⟩ := hx.queue.exists_moves hn hw hs (hx.contended hn)
    exact ⟨t, fun _ => Or.inr ht⟩

/-- A pending thread gets the lock. -/
lemma holds_of_pends (hq : QueueOk ((machine n).states (start n) schedule m) q prev)
    (hw : WordInv ((machine n).states (start n) schedule m)) (hs : SuccOk ((machine n).states (start n) schedule m))
    (ht : ((machine n).states (start n) schedule m).loc t = .pendWait ∨
      ((machine n).states (start n) schedule m).loc t = .pendTake) :
    ∃ k, m ≤ k ∧ (((machine n).states (start n) schedule k).loc t).kind = .holder := by
  refine Machine.eventually_of_ghost (G := fun c => (c.loc t).kind = .holder)
    (J := fun g c => (c.loc t = .pendWait ∨ c.loc t = .pendTake) ∧ QueueOk c g.1 g.2 ∧ WordInv c ∧ SuccOk c)
    (r := fun _ c => toLex (c.total Pc.handing, totalWork true c)) ?_ ?_ hfair (g := (q, prev)) ⟨ht, hq, hw, hs⟩
  · rintro ⟨q, prev⟩ c u ⟨⟩ ⟨ht, hq, hw, hs⟩
    obtain hholds | ht' := pends_fire ht u
    · exact Or.inl hholds
    refine Or.inr ?_
    obtain ⟨prev', hq'⟩ := fire_queueOk hn hq u
    have hinv := And.intro hq' (And.intro (fire_wordInv hn hq hw u) (hs.fire hn hq hw u))
    obtain hsame | ⟨idx, next, hpc⟩ | hless := hq.fire_work (contended_of_pends hw ht) u
    · exact Or.inr hsame
    · refine Or.inl ⟨(queueAfter u c q, prev'), ⟨ht', hinv⟩, ?_⟩
      have hhand : (((machine n).fire u () c).loc u).handing < (c.loc u).handing := by
        rw [Machine.fire_loc_self, hpc]
        exact Nat.one_pos
      exact Prod.Lex.toLex_lt_toLex.mpr (Or.inl (Machine.total_fire_lt hhand))
    · refine Or.inl ⟨(queueAfter u c q, prev'), ⟨ht', hinv⟩, ?_⟩
      have hclaim : (c.loc u).kind ≠ .claimer := by
        intro hu
        obtain ⟨hwait, htake⟩ := hw.claim_alone u t hu
        obtain hpc | hpc := ht
        · exact hwait (by rw [kinds, hpc]; rfl)
        · exact htake (by rw [kinds, hpc]; rfl)
      obtain hlt | heq := (total_handing_le hclaim).lt_or_eq
      · exact Prod.Lex.toLex_lt_toLex.mpr (Or.inl hlt)
      · exact Prod.Lex.toLex_lt_toLex.mpr (Or.inr ⟨heq, hless⟩)
  · rintro ⟨q, prev⟩ c ⟨ht, hq, hw, hs⟩
    have hpending := contended_of_pends hw ht
    obtain ⟨u, hu⟩ := hq.exists_moves hn hw hs hpending
    exact ⟨u, fun _ => Or.inr hu⟩

/-- A holder that has to hand the queue on is done with it. -/
lemma decCount_of_handing (hq : QueueOk ((machine n).states (start n) schedule m) q prev)
    (hw : WordInv ((machine n).states (start n) schedule m)) (hs : SuccOk ((machine n).states (start n) schedule m))
    (ht : (((machine n).states (start n) schedule m).loc t).handing = 1) :
    ∃ k, m ≤ k ∧ ((machine n).states (start n) schedule k).loc t = .decCount := by
  refine Machine.eventually_of_ghost (G := fun c => c.loc t = .decCount)
    (J := fun g c => (c.loc t).handing = 1 ∧ QueueOk c g.1 g.2 ∧ WordInv c ∧ SuccOk c)
    (r := fun _ c => totalWork false c) ?_ ?_ hfair (g := (q, prev)) ⟨ht, hq, hw, hs⟩
  · rintro ⟨q, prev⟩ c u ⟨⟩ ⟨ht, hq, hw, hs⟩
    obtain hdone | ht' := handing_fire ht u
    · exact Or.inl hdone
    obtain ⟨prev', hq'⟩ := fire_queueOk hn hq u
    obtain hsame | ⟨idx, next, hpc⟩ | hless := hq.fire_work (contended_of_handing hn hq ht) u
    · exact Or.inr (Or.inr hsame)
    · -- nobody else has the lock
      obtain rfl : u = t := hw.holder_unique u t (by rw [kinds, hpc]; rfl) (kind_of_handing ht)
      rw [Machine.fire_loc_self, hpc] at ht'
      cases ht'
    · exact Or.inr (Or.inl ⟨(queueAfter u c q, prev'), ⟨ht', hq', fire_wordInv hn hq hw u, hs.fire hn hq hw u⟩, hless⟩)
  · rintro ⟨q, prev⟩ c ⟨ht, hq, hw, hs⟩
    obtain ⟨u, hu⟩ := hq.exists_moves hn hw hs (contended_of_handing hn hq ht)
    exact ⟨u, fun _ => Or.inr hu⟩

/-- Every thread gets the lock again and again. -/
lemma holds_eventually (m : ℕ) (t : Fin n) :
    ∃ k, m ≤ k ∧ (((machine n).states (start n) schedule k).loc t).kind = .holder := by
  have hown : ∀ c k, (machine n).Reachable (start n) c → 0 < (c.loc t).toEnter →
      (((machine n).fire t k c).loc t).toEnter < (c.loc t).toEnter := by
    intro c k _ hpos
    rw [Machine.fire_loc_self]
    exact step_toEnter hpos
  obtain ⟨k, hk, hzero⟩ := (machine n).eventually_zero (w := Pc.toEnter) hown hfair m
  obtain ⟨q, prev, hq, hw, hs⟩ := reachable_inv hn ((machine n).reachable_states (start n) schedule k)
  suffices hlater : ∃ l, k ≤ l ∧ (((machine n).states (start n) schedule l).loc t).kind = .holder by
    obtain ⟨l, hl, hholds⟩ := hlater
    exact ⟨l, hk.trans hl, hholds⟩
  by_cases hholds : (((machine n).states (start n) schedule k).loc t).kind = .holder
  · exact ⟨k, le_rfl, hholds⟩
  obtain hpends | hrole := place_of_toEnter (hq.pc_ok t) hzero hholds
  · exact holds_of_pends hn hfair hq hw hs hpends
  · exact holds_of_mem hn hfair ⟨hq, (hq.inv.mem t).mpr hrole, hholds⟩ hw hs

/-- And then it returns from `lock_acquire`. -/
lemma inCritical_of_holds (ht : (((machine n).states (start n) schedule m).loc t).kind = .holder) :
    ∃ k, m ≤ k ∧ (((machine n).states (start n) schedule k).loc t).inCritical = true := by
  suffices hdec : ∀ l, m ≤ l → ((machine n).states (start n) schedule l).loc t = .decCount →
      ∃ k, m ≤ k ∧ (((machine n).states (start n) schedule k).loc t).inCritical = true by
    by_cases hhand : (((machine n).states (start n) schedule m).loc t).handing = 1
    · obtain ⟨q, prev, hq, hw, hs⟩ := reachable_inv hn ((machine n).reachable_states (start n) schedule m)
      obtain ⟨l, hl, hpc⟩ := decCount_of_handing hn hfair hq hw hs hhand
      exact hdec l hl hpc
    · cases hpc : ((machine n).states (start n) schedule m).loc t with
      | decCount => exact hdec m le_rfl hpc
      | critical | unlock => exact ⟨m, le_rfl, by rw [hpc]; rfl⟩
      | waitNext | handoff => exact absurd (by rw [hpc]; rfl) hhand
      | _ =>
        rw [hpc] at ht
        cases ht
  intro l hl hpc
  obtain ⟨k, hk, hcrit⟩ := (machine n).eventually_of_own (G := fun c => (c.loc t).inCritical = true)
    (fun c _ hc => by rw [Machine.fire_loc_self, hc]; rfl) hfair hpc
  exact ⟨k, hl.trans hk, hcrit⟩

end Served

section Fairness
variable {schedule : ℕ → Fin n × Unit}

/-- Under a fair schedule every thread returns from `lock_acquire` and releases the lock again and
again, where each operation on the lock word is one instruction. -/
theorem queuedSpinlock_no_starvation (hn : n ≤ 2 ^ 14 - 1) (hfair : Fair schedule) (m : ℕ) (t : Fin n) :
    (∃ k, m ≤ k ∧ (((machine n).states (start n) schedule k).loc t).inCritical = true) ∧
      ∃ k, m ≤ k ∧ (((machine n).states (start n) schedule k).loc t).inCritical = false := by
  constructor
  · obtain ⟨k, hk, hholds⟩ := holds_eventually hn hfair m t
    obtain ⟨l, hl, hcrit⟩ := inCritical_of_holds hn hfair hholds
    exact ⟨l, hk.trans hl, hcrit⟩
  · have hown : ∀ c k, (machine n).Reachable (start n) c → 0 < (c.loc t).toRelease →
        (((machine n).fire t k c).loc t).toRelease < (c.loc t).toRelease := by
      intro c k _ hpos
      rw [Machine.fire_loc_self]
      exact step_toRelease hpos
    obtain ⟨k, hk, hzero⟩ := (machine n).eventually_zero (w := Pc.toRelease) hown hfair m
    refine ⟨k, hk, ?_⟩
    revert hzero
    cases ((machine n).states (start n) schedule k).loc t <;> simp [Pc.toRelease, Pc.inCritical]

/-- Three threads in turn. -/
theorem queuedSpinlock_no_starvation_three : ∃ k, 100 ≤ k ∧
    (((machine 3).states (start 3) (fun m => (Fin.ofNat 3 m, ())) k).loc 2).inCritical = true :=
  (queuedSpinlock_no_starvation (by decide) (fair_roundRobin 2 ()) 100 2).1

end Fairness

end Lockhammer.QueuedSpinlock
