import Lockhammer.Linux.QueuedSpinlockProperties

/-!
# The order of the queued spinlock

Threads take the lock in the order of their exchanges of the tail. While one of them waits the tail
is not zero, so that a thread that comes later neither takes the fast path nor becomes pending: it
goes into the queue too.
-/
namespace Lockhammer.QueuedSpinlock
open Interleaving Interleaving.Queue Interleaving.LinkedQueue

/-- A thread enters `lock_acquire`, exchanges the tail, or gets the lock. -/
inductive Event (n : ℕ)
  | start (t : Fin n)
  | publish (t : Fin n)
  | take (t : Fin n)
  deriving DecidableEq

def Event.thread {n : ℕ} : Event n → Fin n
  | .start t | .publish t | .take t => t

def event {n : ℕ} (t : Fin n) (_ : Unit) (s : Shared n) (p : Pc n) : Option (Event n) :=
  match p with
  | .idle => some (.start t)
  | .xchgTail _ => some (.publish t)
  | p => if p.kind ≠ .holder ∧ (step t s p).2.kind = .holder then some (.take t) else none

variable {n : ℕ} {c : Config (Fin n) (Shared n) (Pc n)} {q : List (Fin n)} {t x y : Fin n}
  {prev : Fin n → Option (Fin n)}

section Events
variable {s : Shared n} {p : Pc n} {k : Unit}

lemma xchgTail_kind (idx : Fin maxNodes) : (step t s (.xchgTail idx)).2.kind = .free := by
  simp only [step]
  split
  · split <;> rfl
  · rfl

lemma event_take : event t k s p = some (.take x) ↔
    t = x ∧ p.kind ≠ .holder ∧ (step t s p).2.kind = .holder := by
  unfold event
  split
  · simp [step, Pc.kind]
  · simp [xchgTail_kind]
  · split
    · next h => simp [h]
    · next h => simpa using fun _ => not_and.mp h

lemma event_publish : event t k s p = some (.publish x) ↔ t = x ∧ ∃ idx, p = .xchgTail idx := by
  unfold event
  split
  · simp
  · simp
  · next hidle hxchg =>
    split <;> simpa using fun _ => hxchg

lemma event_start : event t k s p = some (.start x) ↔ t = x ∧ p = .idle := by
  unfold event
  split
  · simp
  · simp
  · next hidle hxchg =>
    split <;> simpa using fun _ => hidle

end Events

section Moves

/-- On the way to the queue, or in it without the lock. -/
def Pc.queues : Pc n → Bool
  | .fast | .incCount | .initLocked _ | .initNext _ | .tryRead _ | .tryCmpxchg _ | .xchgTail _
  | .link _ _ | .waitLocked _ | .readNext _ | .headWait _ _ | .claim _ _ _ | .setLocked _ _ => true
  | _ => false

lemma Pc.queues_kind {p : Pc n} (h : p.queues = true) : p.kind ≠ .holder := by
  cases p <;> simp [Pc.queues, Pc.kind] at h ⊢

/-- The ghost queue gets longer by an exchange, and shorter when its first has the lock. -/
lemma queueAfter_cases (t : Fin n) (c : Config (Fin n) (Shared n) (Pc n)) (q : List (Fin n)) :
    queueAfter t c q = q ∨
      (queueAfter t c q = q ++ [t] ∧ ∃ idx, c.loc t = .xchgTail idx) ∨
      (queueAfter t c q = q.erase t ∧ (step t c.shared (c.loc t)).2.kind = .holder) := by
  unfold queueAfter
  cases hpc : c.loc t with
  | xchgTail idx => exact Or.inr (Or.inl ⟨rfl, idx, rfl⟩)
  | claim idx val next =>
    by_cases hv : c.shared.lock.val = val
    · exact Or.inr (Or.inr (by simp [hv, step, tryCmpxchg, Pc.kind]))
    · exact Or.inl (if_neg hv)
  | handoff idx next => exact Or.inr (Or.inr ⟨rfl, rfl⟩)
  | _ => exact Or.inl rfl

/-- The word of a lock with a queue lets nobody past. -/
lemma slowpath_of_tail {l : Qspinlock} (ht : l.tail ≠ 0) : (slowpath l.val : Pc n) = .incCount := by
  have hpend : l.val ≠ qPendingVal := by
    intro hv
    have hl := congrArg Qspinlock.ofVal hv
    rw [Qspinlock.ofVal_val] at hl
    rw [hl] at ht
    exact ht (by decide)
  have hcontended : l.val &&& ~~~qLockedMask ≠ 0 := fun hz => ht (val_and_contended.mp hz).2
  rw [slowpath, if_neg hpend, afterPendSpin, if_pos hcontended]

lemma val_ne_zero_of_tail {l : Qspinlock} (ht : l.tail ≠ 0) : l.val ≠ 0 :=
  fun hz => ht (Qspinlock.val_eq_zero_iff.mp hz).2.2

/-- While there is a queue, only its first leaves these places. -/
lemma step_queues {s s' : Shared n} {p : Pc n} (hp : p.queues = true) (ht : s.lock.tail ≠ 0)
    (hok : PcOk s' t (step t s p).2) : (step t s p).2.queues = true ∨ p.kind = .claimer := by
  have hval := val_ne_zero_of_tail ht
  cases p with
  | fast =>
    refine Or.inl ?_
    simp only [step, tryCmpxchg, if_neg hval, Bool.false_eq_true, if_false, slowpath_of_tail ht]
    rfl
  | incCount =>
    refine Or.inl ?_
    simp only [step] at hok ⊢
    split
    · rfl
    · next hfull =>
      rw [dif_neg hfull] at hok
      exact hok.elim
  | tryRead idx =>
    refine Or.inl ?_
    simp only [step, if_pos hval]
    rfl
  | tryCmpxchg idx =>
    refine Or.inl ?_
    simp only [step, QueuedSpinlock.tryCmpxchg, if_neg hval, Bool.false_eq_true, if_false]
    rfl
  | xchgTail idx =>
    refine Or.inl ?_
    revert hok
    simp only [step]
    split
    · split
      · exact fun _ => rfl
      · exact fun hfault => hfault.elim
    · exact fun _ => rfl
  | waitLocked idx =>
    refine Or.inl ?_
    simp only [step]
    split <;> rfl
  | headWait idx next =>
    refine Or.inl ?_
    simp only [step]
    split
    · rfl
    · split <;> rfl
  | initLocked idx => exact Or.inl rfl
  | initNext idx => exact Or.inl rfl
  | link idx prev => exact Or.inl rfl
  | readNext idx => exact Or.inl rfl
  | claim idx val next => exact Or.inr rfl
  | setLocked idx next => exact Or.inr rfl
  | _ => cases hp

end Moves

section Order

/-- `x` is in the queue and has not got the lock yet. -/
structure Pending (x : Fin n) (c : Config (Fin n) (Shared n) (Pc n)) (q : List (Fin n))
    (prev : Fin n → Option (Fin n)) : Prop where
  queue : QueueOk c q prev
  mem : x ∈ q
  waits : (c.loc x).kind ≠ .holder

/-- `y` is behind `x` in the queue, or has no other way than into it. -/
structure Behind (x y : Fin n) (c : Config (Fin n) (Shared n) (Pc n)) (q : List (Fin n))
    (prev : Fin n → Option (Fin n)) : Prop extends Pending x c q prev where
  ne : x ≠ y
  queues : (c.loc y).queues = true
  before : y ∈ q → [x, y].Sublist q

lemma Pending.role_ne_out (hx : Pending x c q prev) : (c.loc x).role ≠ .out :=
  (hx.queue.inv.mem x).mp hx.mem

lemma Pending.tail_ne_zero (hn : n ≤ 2 ^ 14 - 1) (hx : Pending x c q prev) : c.shared.lock.tail ≠ 0 := by
  rw [hx.queue.tail_eq, ne_eq, tailOf_eq_zero_iff hn]
  exact List.ne_nil_of_mem hx.mem

/-- The first of the queue has nobody in front. -/
lemma Behind.not_claimer (h : Behind x y c q prev) : (c.loc y).kind ≠ .claimer := by
  intro hy
  have hhead := h.queue.head_of_claimer hy
  obtain ⟨rest, rfl⟩ := List.head?_eq_some_iff.mp hhead
  have hnot : y ∉ rest := (List.nodup_cons.mp h.queue.inv.nodup).1
  rcases List.sublist_cons_iff.mp (h.before List.mem_cons_self) with hsub | ⟨r, hr, -⟩
  · exact hnot (hsub.subset (by simp))
  · exact h.ne (List.cons.inj hr).1

section Fire
variable (hn : n ≤ 2 ^ 14 - 1) {k : Unit}
include hn

lemma Pending.fire (hx : Pending x c q prev) (he : event t k c.shared (c.loc t) ≠ some (.take x)) :
    ∃ prev', Pending x ((machine n).fire t k c) (queueAfter t c q) prev' := by
  obtain ⟨prev', hq⟩ := fire_queueOk hn hx.queue t
  have hfree : t = x → (step t c.shared (c.loc t)).2.kind ≠ .holder := by
    rintro rfl htake
    exact he (event_take.mpr ⟨rfl, hx.waits, htake⟩)
  refine ⟨prev', hq, ?_, ?_⟩
  · rcases queueAfter_cases t c q with hsame | ⟨happ, -⟩ | ⟨herase, hkind⟩
    · rw [hsame]
      exact hx.mem
    · rw [happ]
      exact List.mem_append_left _ hx.mem
    · rw [herase, List.mem_erase_of_ne fun hxt => hfree hxt.symm hkind]
      exact hx.mem
  · rw [Machine.fire_loc]
    split
    · next hxt =>
      subst hxt
      exact hfree rfl
    · exact hx.waits

/-- Who is behind goes on into the queue, and does not get the lock. -/
lemma Behind.step_queues (h : Behind x t c q prev) : (step t c.shared (c.loc t)).2.queues = true := by
  obtain ⟨prev', hq⟩ := fire_queueOk hn h.queue t
  have hok := hq.pc_ok t
  rw [Machine.fire_loc_self] at hok
  obtain hqueues | hclaimer := QueuedSpinlock.step_queues h.queues (h.tail_ne_zero hn) hok
  · exact hqueues
  · exact absurd hclaimer h.not_claimer

lemma Behind.not_take (h : Behind x y c q prev) : event t k c.shared (c.loc t) ≠ some (.take y) := by
  intro he
  obtain ⟨rfl, -, htake⟩ := event_take.mp he
  exact Pc.queues_kind (h.step_queues hn) htake

lemma Behind.fire (h : Behind x y c q prev) (he : event t k c.shared (c.loc t) ≠ some (.take x)) :
    ∃ prev', Behind x y ((machine n).fire t k c) (queueAfter t c q) prev' := by
  obtain ⟨prev', hx⟩ := h.toPending.fire hn he
  refine ⟨prev', hx, h.ne, ?_, fun hy => ?_⟩
  · rw [Machine.fire_loc]
    split
    · next hyt =>
      subst hyt
      exact h.step_queues hn
    · exact h.queues
  · rcases queueAfter_cases t c q with hsame | ⟨happ, -⟩ | ⟨herase, hkind⟩
    · rw [hsame] at hy ⊢
      exact h.before hy
    · rw [happ] at hy ⊢
      rcases List.mem_append.mp hy with hy | hy
      · exact (h.before hy).trans (List.sublist_append_left _ _)
      · obtain rfl := List.mem_singleton.mp hy
        exact (List.singleton_sublist.mpr h.mem).append (List.Sublist.refl [y])
    · -- the thread that leaves has the lock, so it is neither of the two
      have hyt : y ≠ t := by
        rintro rfl
        exact Pc.queues_kind (h.step_queues hn) hkind
      have hxt : x ≠ t := by
        rintro rfl
        exact he (event_take.mpr ⟨rfl, h.waits, hkind⟩)
      rw [herase] at hy ⊢
      have hsub := (h.before (List.mem_of_mem_erase hy)).erase t
      rwa [List.erase_of_not_mem (by simp [hxt.symm, hyt.symm])] at hsub

/-- The exchange puts its thread into the queue. -/
lemma publish_pending (hq : QueueOk c q prev) (he : event t k c.shared (c.loc t) = some (.publish x)) :
    ∃ prev', Pending x ((machine n).fire t k c) (queueAfter t c q) prev' := by
  obtain ⟨rfl, idx, hpc⟩ := event_publish.mp he
  obtain ⟨prev', hq'⟩ := fire_queueOk hn hq t
  refine ⟨prev', hq', ?_, ?_⟩
  · simp [queueAfter, hpc]
  · rw [Machine.fire_loc_self, hpc]
    change (step t c.shared (.xchgTail idx)).2.kind ≠ .holder
    rw [xchgTail_kind]
    decide

/-- Who begins its call, or exchanges the tail, while `x` waits is behind `x`. -/
lemma Pending.behind (hx : Pending x c q prev)
    (he : event t k c.shared (c.loc t) = some (.start y) ∨ event t k c.shared (c.loc t) = some (.publish y)) :
    ∃ prev', Behind x y ((machine n).fire t k c) (queueAfter t c q) prev' := by
  obtain ⟨prev', hnext⟩ := hx.fire (t := t) (k := k) hn (by rcases he with he | he <;> simp [he])
  have hout := hx.role_ne_out
  rcases he with he | he
  · obtain ⟨rfl, hpc⟩ := event_start.mp he
    refine ⟨prev', hnext, ?_, ?_, fun hy => ?_⟩
    · rintro rfl
      exact hout (by rw [hpc]; rfl)
    · rw [Machine.fire_loc_self, hpc]
      rfl
    · have hrole := (hnext.queue.inv.mem t).mp hy
      exact absurd (by simp [abs, hpc, machine, step, Pc.role]) hrole
  · obtain ⟨rfl, idx, hpc⟩ := event_publish.mp he
    refine ⟨prev', hnext, ?_, ?_, fun _ => ?_⟩
    · rintro rfl
      exact hout (by rw [hpc]; rfl)
    · have hok := hnext.queue.pc_ok t
      rw [Machine.fire_loc_self] at hok ⊢
      obtain hqueues | hclaimer := QueuedSpinlock.step_queues (by rw [hpc]; rfl) (hx.tail_ne_zero hn) hok
      · exact hqueues
      · rw [hpc] at hclaimer
        cases hclaimer
    · simp only [queueAfter, hpc]
      exact (List.singleton_sublist.mpr hx.mem).append (List.Sublist.refl [t])

/-- `y` has had the lock since `x` began to wait, and has not come again. -/
structure Passed (x y : Fin n) (c : Config (Fin n) (Shared n) (Pc n)) (q : List (Fin n))
    (prev : Fin n → Option (Fin n)) : Prop extends Pending x c q prev where
  ne : x ≠ y
  served : (c.loc y).kind = .holder ∨ c.loc y = .idle

omit hn in
lemma step_holder {s : Shared n} {p : Pc n} (hp : p.kind = .holder) :
    (step t s p).2.kind = .holder ∨ (step t s p).2 = .idle := by
  cases p with
  | waitNext idx =>
    refine Or.inl ?_
    simp only [step]
    split <;> rfl
  | handoff idx next => exact Or.inl rfl
  | decCount => exact Or.inl rfl
  | critical => exact Or.inl rfl
  | unlock => exact Or.inr rfl
  | _ => cases hp

omit hn in
lemma Passed.not_take (h : Passed x y c q prev) : event t k c.shared (c.loc t) ≠ some (.take y) := by
  intro he
  obtain ⟨rfl, hkind, htake⟩ := event_take.mp he
  obtain hholder | hidle := h.served
  · exact hkind hholder
  · rw [hidle] at htake
    cases htake

lemma Passed.fire (h : Passed x y c q prev) (he : event t k c.shared (c.loc t) ≠ some (.take x)) :
    ∃ prev', Passed x y ((machine n).fire t k c) (queueAfter t c q) prev' ∨
      Behind x y ((machine n).fire t k c) (queueAfter t c q) prev' := by
  by_cases hyt : y = t
  · subst hyt
    obtain hholder | hidle := h.served
    · obtain ⟨prev', hx⟩ := h.toPending.fire hn he
      refine ⟨prev', Or.inl ⟨hx, h.ne, ?_⟩⟩
      rw [Machine.fire_loc_self]
      exact step_holder hholder
    · obtain ⟨prev', hbehind⟩ := h.toPending.behind hn (y := y) (k := k)
        (Or.inl (event_start.mpr ⟨rfl, hidle⟩))
      exact ⟨prev', Or.inr hbehind⟩
  · obtain ⟨prev', hx⟩ := h.toPending.fire hn he
    refine ⟨prev', Or.inl ⟨hx, h.ne, ?_⟩⟩
    rw [Machine.fire_loc_of_ne _ hyt]
    exact h.served

lemma Pending.passed (hx : Pending x c q prev) (hne : x ≠ y)
    (he : event t k c.shared (c.loc t) = some (.take y)) :
    ∃ prev', Passed x y ((machine n).fire t k c) (queueAfter t c q) prev' := by
  obtain ⟨prev', hnext⟩ := hx.fire (t := t) (k := k) hn (by rw [he]; simpa using hne.symm)
  obtain ⟨rfl, -, htake⟩ := event_take.mp he
  refine ⟨prev', hnext, hne, Or.inl ?_⟩
  rw [Machine.fire_loc_self]
  exact htake

end Fire

/-- While `x` waits, what another thread shows is followed by its lock only after `x` has got it. -/
lemma take_before (hn : n ≤ 2 ^ 14 - 1) {tr : List (Event n)} (h : (machine n).History event (start n) tr c)
    (hxy : x ≠ y) {b : Event n} (hb : b.thread = y) {l m r r' : List (Event n)}
    (htr : tr = l ++ .publish x :: (m ++ b :: (r ++ .take y :: r'))) : .take x ∈ m ++ r := by
  have hunder := h.under (machine n) (G := fun _ _ _ => True) fun _ _ _ _ => trivial
  refine hunder.precedence (machine n) (I := fun c => ∃ q prev, QueueOk c q prev)
    (P := fun c => ∃ q prev, Pending x c q prev)
    (B := fun c => ∃ q prev, Passed x y c q prev ∨ Behind x y c q prev)
    ⟨[], _, start_queueOk n⟩ ?_ ?_ ?_ ?_ ?_ htr
  · rintro c t k ⟨q, prev, hq⟩ -
    exact ⟨_, fire_queueOk hn hq t⟩
  · rintro c t k ⟨q, prev, hq⟩ - he
    exact ⟨_, publish_pending hn hq he⟩
  · rintro c t k ⟨q, prev, hx⟩ - he
    exact ⟨_, hx.fire hn he⟩
  · rintro c t k ⟨q, prev, hx⟩ - he
    cases b with
    | start z =>
      obtain rfl : z = y := hb
      obtain ⟨prev', hbehind⟩ := hx.behind hn (Or.inl he)
      exact ⟨_, prev', Or.inr hbehind⟩
    | publish z =>
      obtain rfl : z = y := hb
      obtain ⟨prev', hbehind⟩ := hx.behind hn (Or.inr he)
      exact ⟨_, prev', Or.inr hbehind⟩
    | take z =>
      obtain rfl : z = y := hb
      obtain ⟨prev', hpassed⟩ := hx.passed hn hxy he
      exact ⟨_, prev', Or.inl hpassed⟩
  · rintro c t k ⟨q, prev, hpassed | hbehind⟩ -
    · exact ⟨hpassed.not_take, fun he => ⟨_, hpassed.fire hn he⟩⟩
    · refine ⟨hbehind.not_take hn, fun he => ?_⟩
      obtain ⟨prev', hnext⟩ := hbehind.fire hn he
      exact ⟨_, prev', Or.inr hnext⟩

/-- The threads that got the lock, in order. -/
def takers (tr : List (Event n)) : List (Fin n) :=
  tr.filterMap fun
    | .take t => some t
    | _ => none

lemma mem_takers {tr : List (Event n)} : t ∈ takers tr ↔ .take t ∈ tr := by
  rw [takers, List.mem_filterMap]
  constructor
  · rintro ⟨e, he, ht⟩
    cases e with
    | take u =>
      obtain rfl : u = t := by simpa using ht
      exact he
    | _ => cases ht
  · exact fun h => ⟨_, h, rfl⟩

/-- So nobody gets it twice. -/
lemma takers_nodup (hn : n ≤ 2 ^ 14 - 1) {tr l m : List (Event n)}
    (h : (machine n).History event (start n) tr c) (htr : tr = l ++ .publish x :: m)
    (hx : .take x ∉ m) : (takers m).Nodup := by
  rw [List.nodup_iff_sublist]
  intro y hsub
  obtain ⟨r₁, r₂, hr, hr₁, hr₂⟩ := List.cons_sublist_iff.mp hsub
  obtain ⟨m₁, m₂, rfl, rfl, rfl⟩ := List.filterMap_eq_append_iff.mp hr
  obtain ⟨a, b, rfl⟩ := List.append_of_mem (mem_takers.mp hr₁)
  obtain ⟨a', b', rfl⟩ := List.append_of_mem (mem_takers.mp (List.singleton_sublist.mp hr₂))
  have hxy : x ≠ y := by
    rintro rfl
    exact hx (by simp)
  have htr' : tr = l ++ .publish x :: (a ++ .take y :: ((b ++ a') ++ .take y :: b')) := by simpa using htr
  have hmem : .take x ∈ a ++ (b ++ a') := take_before hn h hxy rfl htr'
  refine hx ?_
  rcases List.mem_append.mp hmem with hmem | hmem
  · simp [hmem]
  · rcases List.mem_append.mp hmem with hmem | hmem <;> simp [hmem]

/-- Once `x` has exchanged the tail, another thread that enters `lock_acquire`, exchanges the
tail or gets the lock gets it after that only when `x` has got it. So fewer than `n` threads get
the lock while `x` waits. -/
theorem queuedSpinlock_no_overtaking (hn : n ≤ 2 ^ 14 - 1) {tr : List (Event n)}
    (h : (machine n).History event (start n) tr c) :
    (∀ x y b l m r r', x ≠ y → b.thread = y →
      tr = l ++ .publish x :: (m ++ b :: (r ++ .take y :: r')) → .take x ∈ m ++ r) ∧
    ∀ x l m, tr = l ++ .publish x :: m → .take x ∉ m → (takers m).length < n := by
  refine ⟨fun x y b l m r r' hxy hb htr => take_before hn h hxy hb htr, fun x l m htr hx => ?_⟩
  have hnodup : (x :: takers m).Nodup :=
    List.nodup_cons.mpr ⟨fun hmem => hx (mem_takers.mp hmem), takers_nodup hn h htr hx⟩
  have hle := hnodup.length_le_card
  rw [List.length_cons, Fintype.card_fin] at hle
  exact hle

/-- `d` waits while `b`, who was pending, and nobody else gets the lock; `a` comes again and goes
behind `d`. -/
def inOrder (a b d : Fin n) : List (Fin n × Unit) :=
  crowd a b d ++ [a, a, b, b, a, a, a, a, a, a, a, b, b, d, d, a, d, d, d, d, d, a, a, a, a].map fun t => (t, ())

theorem queuedSpinlock_no_overtaking_three :
    (machine 3).trace event (start 3) (inOrder 0 1 2) =
        [.start 0, .take 0, .start 1, .start 2, .publish 2, .take 1, .start 0, .publish 0, .take 2, .take 0] ∧
      Event.take (n := 3) 2 ∈ [.take 1, .publish 0, .take 2] := by
  have htr : (machine 3).trace event (start 3) (inOrder 0 1 2) =
      [Event.start 0, Event.take 0, Event.start 1, Event.start 2] ++ Event.publish 2 ::
        ([Event.take 1] ++ Event.start 0 :: ([Event.publish 0, Event.take 2] ++ Event.take 0 :: [])) := by
    decide +kernel
  exact ⟨htr, (queuedSpinlock_no_overtaking (by decide) ((machine 3).history_run event (start 3)
    (inOrder 0 1 2))).1 2 0 (.start 0) _ _ _ _ (by decide) rfl htr⟩

end Order

end Lockhammer.QueuedSpinlock
