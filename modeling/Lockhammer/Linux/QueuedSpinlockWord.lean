import Lockhammer.Linux.QueuedSpinlockRefinement

/-!
# The lock word of the queued spinlock

The locked byte belongs to one holder and the pending byte to one thread that has set it
and not yet cleared it. The head of the queue that has seen both bytes clear may rely on
the locked byte until it takes the lock, because nobody else can become pending while the
tail is not zero.
-/
namespace Lockhammer.QueuedSpinlock
open Interleaving Interleaving.Queue Interleaving.LinkedQueue

/-- What a thread has to do with the two bytes. `claimer` is the head of the queue that
has seen them clear. -/
inductive Kind
  | free
  | holder
  | pendWait
  | pendTake
  | undo
  | claimer
  deriving DecidableEq

/-- Set the pending byte and has not cleared it. -/
def Kind.pends : Kind → Bool
  | .pendWait | .pendTake | .undo => true
  | _ => false

structure WordOk {ι : Type*} (locked pending : BitVec 8) (kind : ι → Kind) : Prop where
  holder_unique : ∀ t u, kind t = .holder → kind u = .holder → t = u
  locked_of : ∀ t, kind t = .holder → locked = 1
  held : locked ≠ 0 → ∃ t, kind t = .holder
  pender_unique : ∀ t u, (kind t).pends = true → (kind u).pends = true → t = u
  pending_of : ∀ t, (kind t).pends = true → pending ≠ 0
  pended : pending ≠ 0 → ∃ t, (kind t).pends = true
  take_free : ∀ t, kind t = .pendTake → locked = 0
  claimer_unique : ∀ t u, kind t = .claimer → kind u = .claimer → t = u
  claim_free : ∀ t, kind t = .claimer → locked = 0
  claim_alone : ∀ t u, kind t = .claimer → kind u ≠ .pendWait ∧ kind u ≠ .pendTake

/-- Whoever had a property keeps it when a thread without it moves. -/
lemma exists_update {ι : Type*} [DecidableEq ι] {kind : ι → Kind} {t : ι} (P : Kind → Prop)
    (h : ∃ u, P (kind u)) (ht : ¬ P (kind t)) (k : Kind) : ∃ u, P (Function.update kind t k u) := by
  obtain ⟨u, hu⟩ := h
  have hne : u ≠ t := fun e => ht (e ▸ hu)
  exact ⟨u, by rwa [Function.update_of_ne hne]⟩

section Moves
variable {ι : Type*} {locked pending pending' : BitVec 8} {kind : ι → Kind} {t : ι}
  (h : WordOk locked pending kind)
include h

lemma WordOk.no_holder (hl : locked = 0) (u : ι) : kind u ≠ .holder := by
  intro hu
  simp [h.locked_of u hu] at hl

lemma WordOk.no_pender (hp : pending = 0) (u : ι) : (kind u).pends = false := by
  by_contra hu
  exact h.pending_of u (by simpa using hu) hp

/-- Somebody else has set the pending byte. -/
lemma WordOk.lost (hp : pending ≠ 0) (hp' : pending' ≠ 0) : WordOk locked pending' kind :=
  { h with
    pending_of := fun _ _ => hp'
    pended := fun _ => h.pended hp }

variable [DecidableEq ι]

/-- The whole word was zero, so nobody holds, pends or claims. -/
lemma WordOk.takeFree (hl : locked = 0) (hp : pending = 0) (hc : ∀ u, kind u ≠ .claimer) :
    WordOk 1 0 (Function.update kind t .holder) := by
  have hhold := h.no_holder hl
  have hpend := h.no_pender hp
  constructor
  case held => exact fun _ => ⟨t, by simp⟩
  case pended => exact fun h0 => absurd rfl h0
  all_goals
    simp only [Function.update_apply]
    grind -ring -linarith -order [Kind.pends]

/-- Setting the pending byte first, but with a queue behind it. -/
lemma WordOk.contend (hk : kind t = .free) (hp : pending = 0) (hp' : pending' ≠ 0) :
    WordOk locked pending' (Function.update kind t .undo) := by
  have hpend := h.no_pender hp
  constructor
  case held => exact fun hl => exists_update (· = .holder) (h.held hl) (by simp [hk]) _
  case pended => exact fun _ => ⟨t, by simp [Kind.pends]⟩
  all_goals
    simp only [Function.update_apply]
    grind -ring -linarith -order [Kind.pends, WordOk]

/-- Setting the pending byte first and without a queue: the next in line. -/
lemma WordOk.pend (hk : kind t = .free) (hp : pending = 0) (hp' : pending' ≠ 0)
    (hc : ∀ u, kind u ≠ .claimer) :
    WordOk locked pending' (Function.update kind t (if locked ≠ 0 then .pendWait else .pendTake)) := by
  have hpend := h.no_pender hp
  constructor
  case held => exact fun hl => exists_update (· = .holder) (h.held hl) (by simp [hk]) _
  case pended => exact fun _ => ⟨t, by rw [Function.update_self]; split <;> rfl⟩
  all_goals
    simp only [Function.update_apply]
    grind -ring -linarith -order [Kind.pends, WordOk]

lemma WordOk.undo (hk : kind t = .undo) : WordOk locked 0 (Function.update kind t .free) := by
  have hpend (u : ι) (hu : (kind u).pends = true) : u = t :=
    h.pender_unique u t hu (by rw [hk]; rfl)
  constructor
  case held => exact fun hl => exists_update (· = .holder) (h.held hl) (by simp [hk]) _
  case pended => exact fun h0 => absurd rfl h0
  all_goals
    simp only [Function.update_apply]
    grind -ring -linarith -order [Kind.pends, WordOk]

lemma WordOk.waitOver (hk : kind t = .pendWait) (hl : locked = 0) :
    WordOk locked pending (Function.update kind t .pendTake) := by
  have hpend (u : ι) (hu : (kind u).pends = true) : u = t :=
    h.pender_unique u t hu (by rw [hk]; rfl)
  have hne := h.pending_of t (by rw [hk]; rfl)
  constructor
  case held => exact fun h0 => absurd hl h0
  case pended => exact fun _ => ⟨t, by simp [Kind.pends]⟩
  all_goals
    simp only [Function.update_apply]
    grind -ring -linarith -order [Kind.pends, WordOk]

/-- The pending thread takes the free lock and clears the pending byte in one store. -/
lemma WordOk.takePending (hk : kind t = .pendTake) :
    WordOk 1 0 (Function.update kind t .holder) := by
  have hpend (u : ι) (hu : (kind u).pends = true) : u = t :=
    h.pender_unique u t hu (by rw [hk]; rfl)
  have hhold := h.no_holder (h.take_free t hk)
  have hc (u : ι) : kind u ≠ .claimer := fun hu => (h.claim_alone u t hu).2 hk
  constructor
  case held => exact fun _ => ⟨t, by simp⟩
  case pended => exact fun h0 => absurd rfl h0
  all_goals
    simp only [Function.update_apply]
    grind -ring -linarith -order [Kind.pends]

/-- The head of the queue sees both bytes clear. -/
lemma WordOk.claim (hl : locked = 0) (hp : pending = 0) (hc : ∀ u, kind u = .claimer → u = t) :
    WordOk locked pending (Function.update kind t .claimer) := by
  have hhold := h.no_holder hl
  have hpend := h.no_pender hp
  constructor
  case held => exact fun h0 => absurd hl h0
  case pended => exact fun h0 => absurd hp h0
  all_goals
    simp only [Function.update_apply]
    grind -ring -linarith -order [Kind.pends]

/-- The head of the queue takes the lock; a pending byte set meanwhile is being undone. -/
lemma WordOk.settle (hk : kind t = .claimer) :
    WordOk 1 pending (Function.update kind t .holder) := by
  have hhold := h.no_holder (h.claim_free t hk)
  have halone (u : ι) := h.claim_alone t u hk
  have hc (u : ι) (hu : kind u = .claimer) : u = t := h.claimer_unique u t hu hk
  constructor
  case held => exact fun _ => ⟨t, by simp⟩
  case pended => exact fun hp => exists_update (·.pends = true) (h.pended hp) (by simp [hk, Kind.pends]) _
  all_goals
    simp only [Function.update_apply]
    grind -ring -linarith -order [Kind.pends, WordOk]

lemma WordOk.unlock (hk : kind t = .holder) : WordOk 0 pending (Function.update kind t .free) := by
  have hhold (u : ι) (hu : kind u = .holder) : u = t := h.holder_unique u t hu hk
  have hl := h.locked_of t hk
  have hc (u : ι) : kind u ≠ .claimer := fun hu => by simp [h.claim_free u hu] at hl
  constructor
  case held => exact fun h0 => absurd rfl h0
  case pended => exact fun hp => exists_update (·.pends = true) (h.pended hp) (by simp [hk, Kind.pends]) _
  all_goals
    simp only [Function.update_apply]
    grind -ring -linarith -order [Kind.pends, WordOk]

end Moves

section Threads
variable {n : ℕ} {c : Config (Fin n) (Shared n) (Pc n)} {q : List (Fin n)} {t : Fin n}
  {prev : Fin n → Option (Fin n)}

def Pc.kind : Pc n → Kind
  | .critical | .unlock | .decCount | .waitNext _ | .handoff _ _ => .holder
  | .pendWait => .pendWait
  | .pendTake => .pendTake
  | .undo => .undo
  | .claim _ _ _ | .setLocked _ _ => .claimer
  | _ => .free

def kinds (c : Config (Fin n) (Shared n) (Pc n)) (t : Fin n) : Kind := (c.loc t).kind

def WordInv (c : Config (Fin n) (Shared n) (Pc n)) : Prop :=
  WordOk c.shared.lock.locked c.shared.lock.pending (kinds c)

lemma WordInv.of_kinds {s : Shared n} {p : Pc n}
    (h : WordOk s.lock.locked s.lock.pending (Function.update (kinds c) t p.kind)) :
    WordInv ⟨s, Function.update c.loc t p⟩ := by
  have hk : kinds ⟨s, Function.update c.loc t p⟩ = Function.update (kinds c) t p.kind :=
    Function.comp_update Pc.kind c.loc t p
  rw [WordInv, hk]
  exact h

/-- Steps that touch neither byte. -/
lemma WordInv.silent (h : WordInv c) {s : Shared n} {p : Pc n}
    (hl : s.lock.locked = c.shared.lock.locked) (hp : s.lock.pending = c.shared.lock.pending)
    (hk : p.kind = (c.loc t).kind) : WordInv ⟨s, Function.update c.loc t p⟩ := by
  have hsame : Function.update (kinds c) t p.kind = kinds c := by
    rw [hk]
    exact Function.update_eq_self t (kinds c)
  apply WordInv.of_kinds
  rw [hl, hp, hsame]
  exact h

section Head
variable (h : QueueOk c q prev)
include h

lemma QueueOk.head_of_claimer (ht : (c.loc t).kind = .claimer) : q.head? = some t := by
  apply h.inv.owner_first
  cases hpc : c.loc t with
  | claim idx val next => cases next <;> simp [abs, hpc, Pc.role, headRole, Role.owner]
  | setLocked idx next => cases next <;> simp [abs, hpc, Pc.role, headRole, Role.owner]
  | _ => simp [hpc, Pc.kind] at ht

/-- A claimer is in the queue, so the tail is not zero. -/
lemma QueueOk.no_claimer (hn : n ≤ 2 ^ 14 - 1) (ht : c.shared.lock.tail = 0) (u : Fin n) :
    kinds c u ≠ .claimer := by
  intro hu
  have hnil : q = [] := (tailOf_eq_zero_iff hn).mp (h.tail_eq.symm.trans ht)
  have hhead := h.head_of_claimer hu
  simp [hnil] at hhead

end Head

/-- A compare-exchange of the zero word, on the fast path or as a trylock. -/
lemma WordInv.cmpxchg_zero (hn : n ≤ 2 ^ 14 - 1) (hq : QueueOk c q prev) (h : WordInv c)
    {p p' : Pc n} (hfree : (c.loc t).kind = .free) (hp : p.kind = .holder)
    (hp' : p'.kind = .free) :
    WordInv ⟨{ c.shared with lock := (tryCmpxchg c.shared.lock 0 qLockedVal).2 },
      Function.update c.loc t (if (tryCmpxchg c.shared.lock 0 qLockedVal).1 then p else p')⟩ := by
  by_cases hz : c.shared.lock.val = 0
  · obtain ⟨hl, hpend, htail⟩ := Qspinlock.val_eq_zero_iff.mp hz
    simp only [tryCmpxchg, hz, if_true, ofVal_qLockedVal]
    apply WordInv.of_kinds
    rw [hp]
    exact WordOk.takeFree h hl hpend (hq.no_claimer hn htail)
  · simp only [tryCmpxchg, hz, if_false, Bool.false_eq_true]
    exact h.silent rfl rfl (hp'.trans hfree.symm)

/-- The fetch-or on the pending byte: only who sets it first, with no queue, may wait on it. -/
lemma WordInv.fetchOr (hn : n ≤ 2 ^ 14 - 1) (hq : QueueOk c q prev) (h : WordInv c)
    (hpc : c.loc t = .fetchOr) :
    WordInv ⟨{ c.shared with lock := (queuedFetchSetPendingAcquire c.shared.lock).2 },
      Function.update c.loc t (afterFetchOr c.shared.lock.val)⟩ := by
  have hk : kinds c t = .free := by simp [kinds, hpc, Pc.kind]
  have hor (b : BitVec 8) : b ||| 1 ≠ 0 := by
    intro h0
    have := congrArg (·.getLsbD 0) h0
    simp at this
  rw [queuedFetchSetPendingAcquire_eq, afterFetchOr_val]
  apply WordInv.of_kinds
  by_cases hp : c.shared.lock.pending = 0
  · by_cases htail : c.shared.lock.tail = 0
    · rw [if_pos ⟨hp, htail⟩]
      have hpend := WordOk.pend h hk hp (hor c.shared.lock.pending) (hq.no_claimer hn htail)
      by_cases hl : c.shared.lock.locked = 0
      · rw [if_pos hl]
        rw [if_neg (not_not.mpr hl)] at hpend
        exact hpend
      · rw [if_neg hl]
        rw [if_pos hl] at hpend
        exact hpend
    · rw [if_neg fun h0 => htail h0.2, if_pos hp]
      exact WordOk.contend h hk hp (hor _)
  · rw [if_neg fun h0 => hp h0.1, if_neg hp, show Pc.kind .incCount = kinds c t from hk.symm,
      Function.update_eq_self]
    exact WordOk.lost h hp (hor _)

lemma afterPendSpin_kind (v : BitVec 32) : (afterPendSpin v : Pc n).kind = .free := by
  rw [afterPendSpin]
  split <;> rfl

lemma slowpath_kind (v : BitVec 32) : (slowpath v : Pc n).kind = .free := by
  rw [slowpath]
  split
  · rfl
  · exact afterPendSpin_kind v

/-- The head leaves its loop only when it has seen both bytes clear. -/
lemma WordInv.headWait (hq : QueueOk c q prev) (h : WordInv c) {idx : Fin maxNodes}
    {next : Option (NodeId n)} {p : Pc n} (hpc : c.loc t = .headWait idx next)
    (hz : c.shared.lock.val &&& qLockedPendingMask = 0) (hp : p.kind = .claimer) :
    WordInv ⟨c.shared, Function.update c.loc t p⟩ := by
  obtain ⟨hl, hpend⟩ := val_and_qLockedPendingMask.mp hz
  have hhead : q.head? = some t := by
    apply hq.inv.owner_first
    cases next <;> simp [abs, hpc, Pc.role, headRole, Role.owner]
  apply WordInv.of_kinds
  rw [hp]
  refine WordOk.claim h hl hpend ?_
  intro u hu
  exact Option.some.inj ((hq.head_of_claimer hu).symm.trans hhead)

/-- Every step keeps the invariant of the lock word. -/
theorem fire_wordInv (hn : n ≤ 2 ^ 14 - 1) (hq : QueueOk c q prev) (h : WordInv c) (t : Fin n) :
    WordInv ((machine n).fire t () c) := by
  have hok := hq.pc_ok t
  cases hpc : c.loc t with
  | fast =>
    rw [Machine.fire_eq _
      (s := { c.shared with lock := (tryCmpxchg c.shared.lock 0 qLockedVal).2 })
      (p := if (tryCmpxchg c.shared.lock 0 qLockedVal).1 then .critical
        else slowpath c.shared.lock.val) (by rw [hpc]; rfl)]
    exact h.cmpxchg_zero hn hq (by rw [hpc]; rfl) rfl (slowpath_kind _)
  | tryCmpxchg idx =>
    rw [Machine.fire_eq _
      (s := { c.shared with lock := (QueuedSpinlock.tryCmpxchg c.shared.lock 0 qLockedVal).2 })
      (p := if (QueuedSpinlock.tryCmpxchg c.shared.lock 0 qLockedVal).1 then .decCount
        else .xchgTail idx) (by rw [hpc]; rfl)]
    exact h.cmpxchg_zero hn hq (by rw [hpc]; rfl) rfl rfl
  | fetchOr =>
    rw [Machine.fire_eq _
      (s := { c.shared with lock := (queuedFetchSetPendingAcquire c.shared.lock).2 })
      (p := afterFetchOr c.shared.lock.val) (by rw [hpc]; rfl)]
    exact h.fetchOr hn hq hpc
  | undo =>
    rw [Machine.fire_eq _ (s := { c.shared with lock := clearPending c.shared.lock })
      (p := .incCount) (by rw [hpc]; rfl)]
    exact WordInv.of_kinds (WordOk.undo h (by simp [kinds, hpc, Pc.kind]))
  | pendWait =>
    by_cases hl : c.shared.lock.locked = 0
    · rw [Machine.fire_eq _ (s := c.shared) (p := .pendTake) (by simp [machine, hpc, step, hl])]
      exact WordInv.of_kinds (WordOk.waitOver h (by simp [kinds, hpc, Pc.kind]) hl)
    · rw [Machine.fire_eq _ (s := c.shared) (p := .pendWait) (by
        rw [hpc]
        simp only [machine, step, if_neg hl])]
      exact h.silent rfl rfl (by rw [hpc])
  | pendTake =>
    rw [Machine.fire_eq _ (s := { c.shared with lock := clearPendingSetLocked c.shared.lock })
      (p := .critical) (by rw [hpc]; rfl)]
    exact WordInv.of_kinds (WordOk.takePending h (by simp [kinds, hpc, Pc.kind]))
  | headWait idx next =>
    by_cases hz : c.shared.lock.val &&& qLockedPendingMask = 0
    · by_cases htail : c.shared.lock.val &&& qTailMask = encodeTail t idx
      · rw [Machine.fire_eq _ (s := c.shared) (p := .claim idx c.shared.lock.val next) (by
          rw [hpc]
          simp only [machine, step, if_neg (not_not.mpr hz), if_pos htail])]
        exact h.headWait hq hpc hz rfl
      · rw [Machine.fire_eq _ (s := c.shared) (p := .setLocked idx next) (by
          rw [hpc]
          simp only [machine, step, if_neg (not_not.mpr hz), if_neg htail])]
        exact h.headWait hq hpc hz rfl
    · rw [Machine.fire_eq _ (s := c.shared) (p := .headWait idx next) (by
        rw [hpc]
        simp only [machine, step, if_pos hz])]
      exact h.silent rfl rfl (by rw [hpc])
  | claim idx val next =>
    by_cases hv : c.shared.lock.val = val
    · rw [Machine.fire_eq _ (s := { c.shared with lock := ⟨1, 0, 0⟩ }) (p := .decCount)
        (by simp [machine, hpc, step, tryCmpxchg, hv, ofVal_qLockedVal])]
      rw [hpc] at hok
      obtain ⟨-, -, -, rfl⟩ := hok
      rw [encodeTail_zero, Qspinlock.val_inj] at hv
      have hset := WordOk.settle h (t := t) (by simp [kinds, hpc, Pc.kind])
      rw [hv] at hset
      exact WordInv.of_kinds hset
    · rw [Machine.fire_eq _ (s := c.shared) (p := .setLocked idx next)
        (by simp [machine, hpc, step, tryCmpxchg, hv])]
      exact h.silent rfl rfl (by rw [hpc]; rfl)
  | setLocked idx next =>
    have hset := WordOk.settle h (t := t) (by simp [kinds, hpc, Pc.kind])
    cases next with
    | none =>
      rw [Machine.fire_eq _ (s := { c.shared with lock := QueuedSpinlock.setLocked c.shared.lock })
        (p := .waitNext idx) (by rw [hpc]; rfl)]
      exact WordInv.of_kinds hset
    | some z =>
      rw [Machine.fire_eq _ (s := { c.shared with lock := QueuedSpinlock.setLocked c.shared.lock })
        (p := .handoff idx z) (by rw [hpc]; rfl)]
      exact WordInv.of_kinds hset
  | unlock =>
    rw [Machine.fire_eq _ (s := { c.shared with lock := { c.shared.lock with locked := 0 } })
      (p := .idle) (by rw [hpc]; rfl)]
    exact WordInv.of_kinds (WordOk.unlock h (by simp [kinds, hpc, Pc.kind]))
  | pendSpin cnt =>
    rw [Machine.fire_eq _ (s := c.shared) (p := if c.shared.lock.val ≠ qPendingVal ∨ cnt = 0
      then afterPendSpin c.shared.lock.val else .pendSpin (cnt - 1)) (by rw [hpc]; rfl)]
    refine h.silent rfl rfl ?_
    rw [hpc]
    split
    · exact afterPendSpin_kind _
    · rfl
  | xchgTail idx =>
    rw [Machine.fire_eq _ rfl]
    refine h.silent (by rw [hpc]; rfl) (by rw [hpc]; rfl) ?_
    rw [hpc]
    simp only [machine, step]
    split
    · split <;> rfl
    · rfl
  | incCount =>
    rw [Machine.fire_eq _ rfl]
    refine h.silent (by rw [hpc]; rfl) (by rw [hpc]; rfl) ?_
    rw [hpc]
    simp only [machine, step]
    split <;> rfl
  | tryRead idx =>
    rw [Machine.fire_eq _ rfl]
    refine h.silent (by rw [hpc]; rfl) (by rw [hpc]; rfl) ?_
    rw [hpc]
    simp only [machine, step]
    split <;> rfl
  | waitLocked idx =>
    rw [Machine.fire_eq _ rfl]
    refine h.silent (by rw [hpc]; rfl) (by rw [hpc]; rfl) ?_
    rw [hpc]
    simp only [machine, step]
    split <;> rfl
  | waitNext idx =>
    rw [Machine.fire_eq _ rfl]
    refine h.silent (by rw [hpc]; rfl) (by rw [hpc]; rfl) ?_
    rw [hpc]
    simp only [machine, step]
    split <;> rfl
  | fallbackRead | fallbackCmpxchg | fault =>
    rw [hpc] at hok
    exact hok.elim
  | _ =>
    rw [Machine.fire_eq _ rfl]
    exact h.silent (by rw [hpc]; rfl) (by rw [hpc]; rfl) (by rw [hpc]; rfl)

end Threads

end Lockhammer.QueuedSpinlock
