import Lockhammer.Interleaving.Fairness
import Lockhammer.Linux.OsqProperties
import Mathlib

/-!
# Who is served by the optimistic spin queue

A thread that goes on spinning gets the lock under every fair schedule, however often the others
give up and come back: nobody gets in front of it, and those in front of it are not held up from
behind. When nobody gives up any more, every thread gets the lock and releases it again and again.
Both rest on the same facts about one step. Outside of the polling loops it brings its thread nearer
to the end of its turn, and inside of them it stores nothing.
-/
namespace Lockhammer.OsqLock
open Interleaving Interleaving.Queue Interleaving.LinkedQueue

variable {n : ℕ} {c : Config (Fin n) (Shared n) (Pc n)} {q l r : List (Fin n)} {t u x : Fin n}

section Steps

/-- The steps that are left of a turn, where each loop counts as one. -/
def Pc.phase : Pc n → ℕ
  | .idle | .backoff => 15
  | .setLocked => 14
  | .setNext => 13
  | .setCpu => 12
  | .xchgTail => 11
  | .setPrev _ => 10
  | .link _ => 9
  | .spin _ => 8
  | .stepARead _ | .stepACmpxchg _ | .stepALocked | .stepAPrev => 7
  | .critical => 6
  | .unlockCmpxchg => 5
  | .unlockXchg | .stepB _ => 4
  | .waitTail _ _ | .waitCmpxchg _ _ | .waitNext _ _ | .waitXchg _ _ => 3
  | .stepCPrev _ _ | .grant _ => 2
  | .stepCNext _ _ => 1
  | .fault => 0

/-- The steps to the exit of its loop, for a thread that is not blocked there. -/
def toExit (s : Shared n) (t : Fin n) : Pc n → ℕ
  | .stepARead p => if s.locked t = 0 ∧ s.prev t = some p then 2 else 5
  | .stepACmpxchg p => if s.locked t = 0 ∧ s.prev t = some p then 1 else 5
  | .stepALocked => 4
  | .stepAPrev => if s.locked t = 0 then 3 else 6
  | .waitTail _ _ => if s.tail = encodeCpu t then 2 else 3
  | .waitCmpxchg _ _ => if s.tail = encodeCpu t then 1 else 3
  | .waitNext _ _ => if s.next t = none then 3 else 2
  | .waitXchg _ _ => if s.next t = none then 3 else 1
  | _ => 0

/-- The next step takes the thread out of the queue. -/
def Leaves (s : Shared n) (t : Fin n) : Pc n → Prop
  | .waitCmpxchg _ _ | .unlockCmpxchg => s.tail = encodeCpu t
  | .stepCNext _ _ | .grant _ => True
  | _ => False

/-- A step inside a loop goes towards the exit, unless the thread is blocked. -/
structure Polls (s : Shared n) (t : Fin n) (p p' : Pc n) : Prop where
  phase : p'.phase = p.phase
  blocked : Blocked s t p' ↔ Blocked s t p
  exit : Blocked s t p ∨ toExit s t p' < toExit s t p

/-- Who is linked reads its `prev` right and has not been granted the lock. -/
lemma Coupled.linked (h : Coupled c q) (hnext : c.shared.next u = some t) :
    c.shared.locked t = 0 ∧ c.shared.prev t = some u := by
  obtain ⟨hadj, hwait, htaken⟩ := h.inv.next_adj hnext
  have hprev := h.inv.prev_ok u t hadj (by rw [hwait]; rfl)
  rw [Role.front_eq htaken] at hprev
  exact ⟨(h.inv.behind u t hadj).1, hprev⟩

/-- What a step of a thread can be: the last one in the queue, one that takes it further, or one of
a loop, which stores nothing. -/
lemma Coupled.step_cases (h : Coupled c q) (t : Fin n) (k : Bool) :
    Leaves c.shared t (c.loc t) ∨ (step t k c.shared (c.loc t)).2.phase < (c.loc t).phase ∨
      (step t k c.shared (c.loc t)).1 = c.shared ∧
        Polls c.shared t (c.loc t) (step t k c.shared (c.loc t)).2 := by
  have hok := h.pc_ok t
  cases hpc : c.loc t with
  | xchgTail =>
    rw [hpc] at hok
    refine Or.inr (Or.inl ?_)
    simp only [step]
    split
    · simp [Pc.phase]
    · split <;> simp [Pc.phase]
  | spin p =>
    by_cases hl : c.shared.locked t = 0
    · cases k with
      | true => exact Or.inr (Or.inl (by simp [step, hl, Pc.phase]))
      | false =>
        refine Or.inr (Or.inr ⟨rfl, ?_⟩)
        simp only [step, hl, ne_eq, not_true_eq_false, if_false, Bool.false_eq_true]
        exact ⟨rfl, Iff.rfl, Or.inl hl⟩
    · exact Or.inr (Or.inl (by simp [step, hl, Pc.phase]))
  | stepARead p =>
    refine Or.inr (Or.inr ⟨rfl, ?_⟩)
    by_cases hn : c.shared.next p = some t
    · simp only [step, if_pos hn]
      refine ⟨rfl, Iff.rfl, Or.inr ?_⟩
      simp [toExit, h.linked hn]
    · simp only [step, if_neg hn]
      refine ⟨rfl, Iff.rfl, ?_⟩
      by_cases hp : c.shared.locked t = 0 ∧ c.shared.prev t = some p
      · refine Or.inl ⟨hp.1, fun p' hp' => ?_⟩
        obtain rfl := Option.some.inj (hp.2.symm.trans hp')
        exact hn
      · exact Or.inr (by simp [toExit, hp])
  | stepACmpxchg p =>
    by_cases hn : c.shared.next p = some t
    · exact Or.inr (Or.inl (by simp [step, hn, Pc.phase]))
    · refine Or.inr (Or.inr ?_)
      simp only [step, if_neg hn, true_and]
      refine ⟨rfl, Iff.rfl, ?_⟩
      by_cases hp : c.shared.locked t = 0 ∧ c.shared.prev t = some p
      · refine Or.inl ⟨hp.1, fun p' hp' => ?_⟩
        obtain rfl := Option.some.inj (hp.2.symm.trans hp')
        exact hn
      · exact Or.inr (by simp [toExit, hp])
  | stepALocked =>
    by_cases hl : c.shared.locked t = 0
    · refine Or.inr (Or.inr ⟨rfl, ?_⟩)
      simp only [step, hl, ne_eq, not_true_eq_false, if_false]
      exact ⟨rfl, Iff.rfl, Or.inr (by simp [toExit, hl])⟩
    · exact Or.inr (Or.inl (by simp [step, hl, Pc.phase]))
  | stepAPrev =>
    obtain ⟨p, hp⟩ : ∃ p, c.shared.prev t = some p :=
      Option.ne_none_iff_exists'.mp (h.inv.prev_some t (by simp [abs, hpc, Pc.role, Role.hasPrev]))
    refine Or.inr (Or.inr ⟨rfl, ?_⟩)
    simp only [step, hp]
    refine ⟨rfl, Iff.rfl, Or.inr ?_⟩
    by_cases hl : c.shared.locked t = 0 <;> simp [toExit, hl, hp]
  | waitTail p old =>
    refine Or.inr (Or.inr ⟨rfl, ?_⟩)
    by_cases hl : c.shared.tail = encodeCpu t
    · simp only [step, if_pos hl]
      exact ⟨rfl, Iff.rfl, Or.inr (by simp [toExit, hl])⟩
    · simp only [step, if_neg hl]
      refine ⟨rfl, Iff.rfl, ?_⟩
      by_cases hn : c.shared.next t = none
      · exact Or.inl ⟨hl, hn⟩
      · exact Or.inr (by simp [toExit, hl, hn])
  | waitCmpxchg p old =>
    by_cases hl : c.shared.tail = encodeCpu t
    · exact Or.inl hl
    · refine Or.inr (Or.inr ?_)
      simp only [step, if_neg hl, true_and]
      refine ⟨rfl, Iff.rfl, ?_⟩
      by_cases hn : c.shared.next t = none
      · exact Or.inl ⟨hl, hn⟩
      · exact Or.inr (by simp [toExit, hl, hn])
  | waitNext p old =>
    refine Or.inr (Or.inr ⟨rfl, ?_⟩)
    by_cases hn : c.shared.next t = none
    · simp only [step, hn, ne_eq, not_true_eq_false, if_false]
      refine ⟨rfl, Iff.rfl, ?_⟩
      by_cases hl : c.shared.tail = encodeCpu t
      · exact Or.inr (by simp [toExit, hl, hn])
      · exact Or.inl ⟨hl, hn⟩
    · simp only [step, ne_eq, hn, not_false_eq_true, if_true]
      exact ⟨rfl, Iff.rfl, Or.inr (by simp [toExit, hn])⟩
  | waitXchg p old =>
    cases hn : c.shared.next t with
    | none =>
      refine Or.inr (Or.inr ?_)
      have hsame : c.shared.setNext t none = c.shared := by
        rw [Shared.setNext, ← hn, Function.update_eq_self]
      simp only [step, hn, hsame, true_and]
      refine ⟨rfl, Iff.rfl, ?_⟩
      by_cases hl : c.shared.tail = encodeCpu t
      · exact Or.inr (by simp [toExit, hl, hn])
      · exact Or.inl ⟨hl, hn⟩
    | some z => exact Or.inr (Or.inl (by cases p <;> simp [step, hn, afterWaitNext, Pc.phase]))
  | unlockCmpxchg =>
    by_cases hl : c.shared.tail = encodeCpu t
    · exact Or.inl hl
    · exact Or.inr (Or.inl (by simp [step, hl, Pc.phase]))
  | unlockXchg => exact Or.inr (Or.inl (by cases hn : c.shared.next t <;> simp [step, hn, Pc.phase]))
  | stepCNext p z => exact Or.inl trivial
  | grant z => exact Or.inl trivial
  | fault =>
    rw [hpc] at hok
    exact hok.elim
  | _ => exact Or.inr (Or.inl (by simp [step, Pc.phase]))

end Steps

section Advance

/-- When the first threads of the queue are all blocked, they all wait for the one behind to link
itself. -/
lemma Coupled.waitingNext_of_blocked (h : Coupled c (l ++ r))
    (hblocked : ∀ u ∈ l, Blocked c.shared u (c.loc u)) : ∀ u ∈ l, (c.loc u).waitingNext = true := by
  refine adj_induction ?_ ?_
  · intro u hu
    obtain ⟨hwait, hlocked⟩ | ⟨hnext, -⟩ := (hblocked u (List.mem_of_head? hu)).cases
    · have hrole : (abs c).role u = .waiting := (waiting_iff _).mp hwait
      obtain howner | ⟨-, hgranted⟩ := h.inv.first u (by rw [List.head?_append, hu]; rfl)
      · simp [hrole, Role.owner] at howner
      · exact absurd hlocked hgranted
    · exact hnext
  · intro x y hadj hx
    obtain ⟨hwait, -⟩ | ⟨hnext, -⟩ := (hblocked y hadj.mem_right).cases
    · -- a waiting thread is linked, so the one in front would not be blocked
      obtain ⟨hlinked, -⟩ | ⟨-, htaken⟩ :=
        h.inv.linked x y ((adj_append _ _ _ _).mpr (Or.inl hadj)) ((waiting_iff _).mp hwait)
      · obtain ⟨hwait', -⟩ | ⟨-, -, hnone⟩ := (hblocked x hadj.mem_left).cases
        · cases hpc : c.loc x <;> simp [hpc, Pc.waiting, Pc.waitingNext] at hwait' hx
        · exact absurd (hnone.symm.trans hlinked) (by simp)
      · exact absurd ((taken_of_waitingNext hx).symm.trans htaken) (by simp)
    · exact hnext

/-- The last of the queue cannot be blocked in `osq_wait_next`, so there is one that can go on. -/
lemma Coupled.exists_goes_on (h : Coupled c q) (hne : q ≠ []) : ∃ i, ¬ Blocked c.shared i (c.loc i) := by
  by_contra hall
  push Not at hall
  obtain ⟨x, hx⟩ : ∃ x, q.getLast? = some x := Option.ne_none_iff_exists'.mp (by simpa using hne)
  have hcoupled : Coupled c (q ++ []) := by simpa using h
  have hnext := hcoupled.waitingNext_of_blocked (fun u _ => hall u) x (List.mem_of_getLast? hx)
  obtain ⟨hwait, -⟩ | ⟨-, htail, -⟩ := (hall x).cases
  · cases hpc : c.loc x <;> simp [hpc, Pc.waiting, Pc.waitingNext] at hwait hnext
  · exact htail (h.tail_eq.trans (tailOf_eq_iff.mpr hx))

/-- A sum over some of the threads. -/
def sumOn (f : Pc n → ℕ) (l : List (Fin n)) (c : Config (Fin n) (Shared n) (Pc n)) : ℕ :=
  (l.map fun u => f (c.loc u)).sum

lemma sumOn_fire_le {f : Pc n → ℕ} {k : Bool} (h : t ∈ l → f (step t k c.shared (c.loc t)).2 ≤ f (c.loc t)) :
    sumOn f l ((machine n).fire t k c) ≤ sumOn f l c := by
  refine List.sum_le_sum fun u hu => ?_
  by_cases hut : u = t
  · subst hut
    rw [Machine.fire_loc_self]
    exact h hu
  · rw [Machine.fire_loc_of_ne _ hut]

lemma sumOn_fire_lt {f : Pc n → ℕ} {k : Bool} (ht : t ∈ l)
    (h : f (step t k c.shared (c.loc t)).2 < f (c.loc t)) :
    sumOn f l ((machine n).fire t k c) < sumOn f l c := by
  refine List.sum_lt_sum _ _ (fun u _ => ?_) ⟨t, ht, ?_⟩
  · by_cases hut : u = t
    · subst hut
      rw [Machine.fire_loc_self]
      exact h.le
    · rw [Machine.fire_loc_of_ne _ hut]
  · rw [Machine.fire_loc_self]
    exact h

lemma sumOn_fire_eq {f : Pc n → ℕ} {k : Bool} (h : t ∈ l → f (step t k c.shared (c.loc t)).2 = f (c.loc t)) :
    sumOn f l ((machine n).fire t k c) = sumOn f l c := by
  refine congrArg List.sum (List.map_congr_left fun u hu => ?_)
  by_cases hut : u = t
  · subst hut
    rw [Machine.fire_loc_self]
    exact h hu
  · rw [Machine.fire_loc_of_ne _ hut]

/-- The threads of `l` get further by a step of `j`: one of them leaves a phase behind, or the
helpful thread `i` comes nearer to the exit of its loop, or it keeps waiting for its turn. -/
def Advances (l : List (Fin n)) (i j : Fin n) (c c' : Config (Fin n) (Shared n) (Pc n)) : Prop :=
  sumOn Pc.phase l c' < sumOn Pc.phase l c ∨
    sumOn Pc.phase l c' = sumOn Pc.phase l c ∧ ¬ Blocked c'.shared i (c'.loc i) ∧
      (toExit c'.shared i (c'.loc i) < toExit c.shared i (c.loc i) ∨
        toExit c'.shared i (c'.loc i) = toExit c.shared i (c.loc i) ∧ j ≠ i)

/-- Their own steps are such steps, up to the one that takes them out of the queue. -/
lemma Coupled.advances (h : Coupled c q) {i j : Fin n} {k : Bool} (hj : j ∈ l)
    (hleaves : ¬ Leaves c.shared j (c.loc j)) (hgo : ¬ Blocked c.shared i (c.loc i)) :
    Advances l i j c ((machine n).fire j k c) := by
  obtain hphase | ⟨hsame, hpoll⟩ := (h.step_cases j k).resolve_left hleaves
  · exact Or.inl (sumOn_fire_lt hj hphase)
  refine Or.inr ⟨sumOn_fire_eq fun _ => hpoll.phase, ?_⟩
  have hshared : ((machine n).fire j k c).shared = c.shared := hsame
  rw [hshared]
  by_cases hij : i = j
  · subst hij
    rw [Machine.fire_loc_self]
    exact ⟨fun hb => hgo (hpoll.blocked.mp hb), Or.inl (hpoll.exit.resolve_left hgo)⟩
  · rw [Machine.fire_loc_of_ne _ hij]
    exact ⟨hgo, Or.inr ⟨rfl, Ne.symm hij⟩⟩

/-- The rank: something that such steps do not raise, the phases, the way to the exit. -/
def rank (a : ℕ) (l : List (Fin n)) (i : Fin n) (c : Config (Fin n) (Shared n) (Pc n)) : ℕ ×ₗ (ℕ ×ₗ ℕ) :=
  toLex (a, toLex (sumOn Pc.phase l c, toExit c.shared i (c.loc i)))

lemma rank_lt_of_lt {a b : ℕ} {i j : Fin n} {l l' : List (Fin n)} {c c' : Config (Fin n) (Shared n) (Pc n)}
    (h : b < a) : rank b l' j c' < rank a l i c := Prod.Lex.toLex_lt_toLex.mpr (Or.inl h)

lemma Advances.lowers {i j : Fin n} {c' : Config (Fin n) (Shared n) (Pc n)} {a b : ℕ} (h : Advances l i j c c')
    (hi : i ∈ l) (hab : b ≤ a) (hgo : ∃ i' ∈ l, ¬ Blocked c'.shared i' (c'.loc i')) :
    ∃ i' ∈ l, ¬ Blocked c'.shared i' (c'.loc i') ∧
      (rank b l i' c' < rank a l i c ∨ rank b l i' c' = rank a l i c ∧ i' = i ∧ j ≠ i) := by
  obtain hlt | rfl := hab.lt_or_eq
  · obtain ⟨i', hi', hgo'⟩ := hgo
    exact ⟨i', hi', hgo', Or.inl (rank_lt_of_lt hlt)⟩
  obtain hphase | ⟨hphase, hgo', hexit⟩ := h
  · obtain ⟨i', hi', hgo'⟩ := hgo
    refine ⟨i', hi', hgo', Or.inl (Prod.Lex.toLex_lt_toLex.mpr (Or.inr ⟨rfl, ?_⟩))⟩
    exact Prod.Lex.toLex_lt_toLex.mpr (Or.inl hphase)
  · refine ⟨i, hi, hgo', ?_⟩
    obtain hexit | ⟨hexit, hji⟩ := hexit
    · refine Or.inl (Prod.Lex.toLex_lt_toLex.mpr (Or.inr ⟨rfl, ?_⟩))
      exact Prod.Lex.toLex_lt_toLex.mpr (Or.inr ⟨hphase, hexit⟩)
    · exact Or.inr ⟨by rw [rank, rank, hphase, hexit], rfl, hji⟩

end Advance

section Queue

lemma queueAfter_of_leaves (h : Leaves c.shared t (c.loc t)) : queueAfter t c q = q.erase t := by
  cases hpc : c.loc t with
  | waitCmpxchg | unlockCmpxchg =>
    rw [hpc] at h
    simp only [queueAfter, hpc]
    exact if_pos h
  | stepCNext | grant => simp only [queueAfter, hpc]
  | _ =>
    rw [hpc] at h
    exact h.elim

/-- A member of the queue that does not leave it changes nothing about it. -/
lemma Coupled.queueAfter_of_mem (h : Coupled c q) (ht : t ∈ q) (hleaves : ¬ Leaves c.shared t (c.loc t)) :
    queueAfter t c q = q := by
  have hqueued := (h.mem_iff t).mp ht
  cases hpc : c.loc t with
  | xchgTail =>
    rw [hpc] at hqueued
    cases hqueued
  | waitCmpxchg | unlockCmpxchg =>
    rw [hpc] at hleaves
    simp only [queueAfter, hpc]
    exact if_neg hleaves
  | stepCNext | grant =>
    rw [hpc] at hleaves
    exact absurd trivial hleaves
  | _ => simp only [queueAfter, hpc]

/-- Who is not in front of `x` does not get there. -/
lemma queueAfter_behind (ht : t ∉ l) (htx : t ≠ x) : ∃ r', queueAfter t c (l ++ x :: r) = l ++ x :: r' := by
  have herase : (l ++ x :: r).erase t = l ++ x :: r.erase t := by
    rw [List.erase_append_right _ ht, List.erase_cons_tail (by simpa using htx.symm)]
  unfold queueAfter
  split
  · exact ⟨r ++ [t], by simp⟩
  · split
    · exact ⟨_, herase⟩
    · exact ⟨r, rfl⟩
  · split
    · exact ⟨_, herase⟩
    · exact ⟨r, rfl⟩
  · exact ⟨_, herase⟩
  · exact ⟨_, herase⟩
  · exact ⟨r, rfl⟩

end Queue

section Front

/-- In the queue, and not given up. -/
def Pc.staying : Pc n → Bool
  | .setPrev _ | .link _ | .spin _ => true
  | _ => false

/-- The owner is the first of the queue. -/
lemma Coupled.not_holding_behind (h : Coupled c (l ++ x :: r)) (ht : t ∉ l) (htx : t ≠ x) :
    (c.loc t).holding = false := by
  by_contra howner
  have hhead := h.first_of_holding (Bool.not_eq_false _ ▸ howner)
  cases l with
  | nil => exact htx (Option.some.inj hhead).symm
  | cons a l => exact ht (Option.some.inj hhead ▸ List.mem_cons_self)

/-- The fields of a thread in front of `x` and the `locked` of `x` are none of the business of a
thread behind `x` or outside. -/
lemma Coupled.front_kept (h : Coupled c (l ++ x :: r)) (ht : t ∉ l) (htx : t ≠ x) (k : Bool) :
    (∀ v ∈ l, (step t k c.shared (c.loc t)).1.next v = c.shared.next v ∧
      (step t k c.shared (c.loc t)).1.prev v = c.shared.prev v ∧
      (step t k c.shared (c.loc t)).1.locked v = c.shared.locked v) ∧
    (step t k c.shared (c.loc t)).1.locked x = c.shared.locked x := by
  have hne {v : Fin n} (hv : v ∈ l) : v ≠ t := fun e => ht (e ▸ hv)
  -- the members next to `t` are not in front of `x`
  have hfront {p : Fin n} (hadj : Adj (l ++ x :: r) p t) {v : Fin n} (hv : v ∈ l) : v ≠ p := by
    rintro rfl
    obtain hmem | rfl := hadj.behind_front h.inv.nodup hv
    · exact ht hmem
    · exact htx rfl
  have hbehind {z : Fin n} (hadj : Adj (l ++ x :: r) t z) {v : Fin n} (hv : v ∈ l) : v ≠ z := by
    rintro rfl
    exact ht (hadj.front_front h.inv.nodup hv)
  cases hpc : c.loc t with
  | setLocked =>
    refine ⟨fun v hv => ⟨rfl, rfl, ?_⟩, ?_⟩
    · simp [step, Shared.setLocked, hne hv]
    · simp [step, Shared.setLocked, htx.symm]
  | setNext | waitXchg | unlockXchg =>
    refine ⟨fun v hv => ⟨?_, rfl, rfl⟩, rfl⟩
    simp [step, Shared.setNext, hne hv]
  | setPrev p =>
    refine ⟨fun v hv => ⟨rfl, ?_, rfl⟩, rfl⟩
    simp [step, Shared.setPrev, hne hv]
  | link p =>
    obtain ⟨hadj, -⟩ := h.inv.attached_adj (t := t) (p := p) (by simp [abs, hpc, Pc.role, Role.attached])
    refine ⟨fun v hv => ⟨?_, rfl, rfl⟩, rfl⟩
    simp [step, Shared.setNext, hfront hadj hv]
  | stepACmpxchg p =>
    by_cases hn : c.shared.next p = some t
    · have hadj := (h.inv.next_adj hn).1
      simp only [step, if_pos hn]
      refine ⟨fun v hv => ⟨?_, rfl, rfl⟩, rfl⟩
      simp [Shared.setNext, hfront hadj hv]
    · simp [step, hn]
  | stepCPrev p z =>
    obtain ⟨hadj, -⟩ := h.inv.taken_adj (x := t) (z := z) (by simp [abs, hpc, Pc.role, Role.taken])
    refine ⟨fun v hv => ⟨rfl, ?_, rfl⟩, rfl⟩
    simp [step, Shared.setPrev, hbehind hadj hv]
  | stepCNext p z =>
    obtain ⟨hadj, -⟩ := h.inv.attached_adj (t := t) (p := p) (by simp [abs, hpc, Pc.role, Role.attached])
    refine ⟨fun v hv => ⟨?_, rfl, rfl⟩, rfl⟩
    simp [step, Shared.setNext, hfront hadj hv]
  | grant z =>
    have howner := h.not_holding_behind ht htx
    rw [hpc] at howner
    cases howner
  | waitCmpxchg | unlockCmpxchg =>
    simp only [step]
    split <;> exact ⟨fun v hv => ⟨rfl, rfl, rfl⟩, rfl⟩
  | _ => exact ⟨fun v hv => ⟨rfl, rfl, rfl⟩, rfl⟩

/-- And so it cannot block them. -/
lemma Coupled.front_goes_on (h : Coupled c (l ++ x :: r)) (hx : (c.loc x).staying = true) (ht : t ∉ l)
    (htx : t ≠ x) (k : Bool) (hu : u ∈ l ++ [x]) (hgo : ¬ Blocked c.shared u (c.loc u)) :
    ¬ Blocked (step t k c.shared (c.loc t)).1 u (c.loc u) ∧
      toExit (step t k c.shared (c.loc t)).1 u (c.loc u) ≤ toExit c.shared u (c.loc u) := by
  obtain ⟨hkept, hlocked⟩ := h.front_kept ht htx k
  generalize (step t k c.shared (c.loc t)).1 = s at hkept hlocked
  obtain hul | hux := List.mem_append.mp hu
  · obtain ⟨hn, hp, hl⟩ := hkept u hul
    have hlast : c.shared.tail ≠ encodeCpu u := by
      intro htail
      have hlast := h.last_of_tail htail
      rw [List.getLast?_append_cons] at hlast
      exact (List.nodup_append.mp h.inv.nodup).2.2 u hul u (List.mem_of_getLast? hlast) rfl
    have hlink (p : Fin n) (hnext : c.shared.next p = some u) : s.next p = some u :=
      (hkept p ((h.inv.next_adj hnext).1.front_front h.inv.nodup hul)).1.trans hnext
    -- whatever blocks `u` now did so before
    have hcut : (s.locked u = 0 ∧ ∀ p, s.prev u = some p → s.next p ≠ some u) →
        c.shared.locked u = 0 ∧ ∀ p, c.shared.prev u = some p → c.shared.next p ≠ some u := by
      rw [hl, hp]
      exact fun hb => ⟨hb.1, fun p hprev hnext => hb.2 p hprev (hlink p hnext)⟩
    have hopen : (s.tail ≠ encodeCpu u ∧ s.next u = none) →
        c.shared.tail ≠ encodeCpu u ∧ c.shared.next u = none := fun hb => ⟨hlast, hn.symm.trans hb.2⟩
    cases hpc : c.loc u with
    | spin p =>
      rw [hpc] at hgo
      exact ⟨fun hb => hgo (hl.symm.trans hb), le_rfl⟩
    | stepARead | stepACmpxchg | stepALocked | stepAPrev =>
      rw [hpc] at hgo
      refine ⟨fun hb => hgo (hcut hb), ?_⟩
      simp only [toExit, hl, hp, le_refl]
    | waitTail | waitCmpxchg | waitNext | waitXchg =>
      rw [hpc] at hgo
      refine ⟨fun hb => hgo (hopen hb), ?_⟩
      simp only [toExit, hn, if_neg hlast]
      split <;> omega
    | _ => exact ⟨id, le_rfl⟩
  · obtain rfl := List.mem_singleton.mp hux
    cases hpc : c.loc u with
    | setPrev | link => exact ⟨id, le_rfl⟩
    | spin p =>
      rw [hpc] at hgo
      exact ⟨fun hb => hgo (hlocked.symm.trans hb), le_rfl⟩
    | _ =>
      rw [hpc] at hx
      cases hx

end Front

section Patient

/-- `x` stays in the queue with the threads of `l` in front. -/
structure Stays (x : Fin n) (l r : List (Fin n)) (c : Config (Fin n) (Shared n) (Pc n)) : Prop where
  coupled : Coupled c (l ++ x :: r)
  staying : (c.loc x).staying = true

lemma Coupled.mem_of_staying (h : Coupled c q) (hx : (c.loc x).staying = true) : x ∈ q := by
  rw [h.mem_iff]
  cases hpc : c.loc x with
  | setPrev | link | spin => rfl
  | _ =>
    rw [hpc] at hx
    cases hx

lemma staying_fire (hx : (c.loc x).staying = true) {k : Bool} (hk : t = x → k = false) :
    ((machine n).fire t k c).loc x = .critical ∨ (((machine n).fire t k c).loc x).staying = true := by
  by_cases hxt : x = t
  · subst hxt
    rw [Machine.fire_loc_self, hk rfl]
    cases hpc : c.loc x with
    | setPrev | link => exact Or.inr rfl
    | spin p => by_cases hl : c.shared.locked x = 0 <;> simp [machine, step, hl, Pc.staying]
    | _ =>
      rw [hpc] at hx
      cases hx
  · rw [Machine.fire_loc_of_ne _ hxt]
    exact Or.inr hx

/-- One of them can go on. -/
lemma Stays.exists_goes_on (h : Stays x l r c) : ∃ i ∈ l ++ [x], ¬ Blocked c.shared i (c.loc i) := by
  by_contra hall
  push Not at hall
  have hcoupled : Coupled c ((l ++ [x]) ++ r) := by simpa using h.coupled
  have hnext := hcoupled.waitingNext_of_blocked hall x (by simp)
  have hstaying := h.staying
  cases hpc : c.loc x <;> simp [hpc, Pc.staying, Pc.waitingNext] at hstaying hnext

/-- A step gives `x` the lock, or takes somebody out of the queue in front of `x`, or those up to `x`
get further. -/
lemma Stays.fire (h : Stays x l r c) {k : Bool} (hk : t = x → k = false) {i : Fin n} (hi : i ∈ l ++ [x])
    (hgo : ¬ Blocked c.shared i (c.loc i)) :
    ((machine n).fire t k c).loc x = .critical ∨
      ∃ l' r', Stays x l' r' ((machine n).fire t k c) ∧
        (l'.length < l.length ∨ l' = l ∧ Advances (l ++ [x]) i t c ((machine n).fire t k c)) := by
  obtain hcrit | hstaying := staying_fire h.staying hk
  · exact Or.inl hcrit
  refine Or.inr ?_
  have hfire := fire_coupled h.coupled t k
  by_cases ht : t ∈ l ++ [x]
  · -- a member up to `x` moves
    by_cases hleaves : Leaves c.shared t (c.loc t)
    · have htl : t ∈ l := by
        refine (List.mem_append.mp ht).resolve_right fun htx => ?_
        obtain rfl := List.mem_singleton.mp htx
        have hx := h.staying
        cases hpc : c.loc t <;> simp [hpc, Pc.staying, Leaves] at hx hleaves
      rw [queueAfter_of_leaves hleaves, List.erase_append_left _ htl] at hfire
      have hpos := List.length_pos_of_mem htl
      have hlength := List.length_erase_of_mem htl
      exact ⟨l.erase t, r, ⟨hfire, hstaying⟩, Or.inl (by omega)⟩
    · have hmem : t ∈ l ++ x :: r := by
        rw [List.append_cons]
        exact List.mem_append_left _ ht
      rw [h.coupled.queueAfter_of_mem hmem hleaves] at hfire
      exact ⟨l, r, ⟨hfire, hstaying⟩, Or.inr ⟨rfl, h.coupled.advances ht hleaves hgo⟩⟩
  · -- somebody behind `x` or outside moves
    obtain ⟨htl, htx⟩ : t ∉ l ∧ t ≠ x := by simpa using ht
    obtain ⟨r', hqueue⟩ := queueAfter_behind (c := c) (r := r) htl htx
    rw [hqueue] at hfire
    refine ⟨l, r', ⟨hfire, hstaying⟩, Or.inr ⟨rfl, Or.inr ⟨sumOn_fire_eq fun hmem => absurd hmem ht, ?_⟩⟩⟩
    have hne : i ≠ t := fun e => ht (e ▸ hi)
    obtain ⟨hgo', hexit⟩ := h.coupled.front_goes_on h.staying htl htx k hi hgo
    rw [Machine.fire_loc_of_ne _ hne]
    exact ⟨hgo', hexit.lt_or_eq.imp id fun heq => ⟨heq, hne.symm⟩⟩

/-- The steps to the exchange on `tail`. -/
def Pc.toEnqueue : Pc n → ℕ
  | .idle | .backoff => 5
  | .setLocked => 4
  | .setNext => 3
  | .setCpu => 2
  | .xchgTail => 1
  | _ => 0

/-- Every step of its own brings a thread nearer to it, and behind it the thread has the lock or is in
the queue. -/
lemma step_toEnqueue {s : Shared n} {p : Pc n} {k : Bool} (h : 0 < p.toEnqueue) :
    (0 < (step t k s p).2.toEnqueue ∧ (step t k s p).2.toEnqueue < p.toEnqueue) ∨
      (step t k s p).2 = .critical ∨ (step t k s p).2.staying = true ∨ (step t k s p).2 = .fault := by
  cases p with
  | xchgTail =>
    refine Or.inr ?_
    simp only [step]
    split
    · exact Or.inl rfl
    · split
      · exact Or.inr (Or.inl rfl)
      · exact Or.inr (Or.inr rfl)
  | idle | backoff | setLocked | setNext | setCpu => exact Or.inl ⟨Nat.succ_pos _, Nat.lt_succ_self _⟩
  | _ => cases h

variable {schedule : ℕ → Fin n × Bool} (hfair : Fair schedule) {m : ℕ}
include hfair

/-- Who calls `osq_lock` gets the lock at once or enters the queue. -/
lemma stays_of_toEnqueue (h : 0 < (((machine n).states (start n) schedule m).loc x).toEnqueue) :
    ∃ k, m ≤ k ∧ (((machine n).states (start n) schedule k).loc x = .critical ∨
      (((machine n).states (start n) schedule k).loc x).staying = true) := by
  refine (machine n).eventually_of_rank (G := fun c => c.loc x = .critical ∨ (c.loc x).staying = true)
    (P := fun a i c => i = x ∧ (machine n).Reachable (start n) c ∧ a = (c.loc x).toEnqueue ∧ 0 < a) ?_ hfair
    ⟨rfl, (machine n).reachable_states (start n) schedule m, rfl, h⟩
  rintro a i c j k ⟨rfl, hc, rfl, hpos⟩
  have hc' := hc.fire (machine n) j k
  by_cases hji : j = i
  · subst hji
    obtain ⟨q, hq⟩ := reachable_coupled hc'
    have hfault := hq.no_fault j
    rw [Machine.fire_loc_self] at hfault
    obtain ⟨hpos', hless⟩ | hcrit | hstaying | hf := step_toEnqueue (t := j) (s := c.shared) (k := k) hpos
    · refine Or.inr ⟨_, j, ⟨rfl, hc', rfl, ?_⟩, Or.inl ?_⟩
      · rw [Machine.fire_loc_self]
        exact hpos'
      · rw [Machine.fire_loc_self]
        exact hless
    · exact Or.inl (Or.inl (by rw [Machine.fire_loc_self]; exact hcrit))
    · exact Or.inl (Or.inr (by rw [Machine.fire_loc_self]; exact hstaying))
    · exact absurd hf hfault
  · refine Or.inr ⟨_, i, ⟨rfl, hc', rfl, ?_⟩, Or.inr ⟨?_, rfl, hji⟩⟩
    · rw [Machine.fire_loc_of_ne _ (Ne.symm hji)]
      exact hpos
    · rw [Machine.fire_loc_of_ne _ (Ne.symm hji)]

/-- Who stays in the queue gets the lock. -/
lemma critical_of_staying (hpatient : ∀ k, m ≤ k → (schedule k).1 = x → (schedule k).2 = false)
    (hx : (((machine n).states (start n) schedule m).loc x).staying = true) :
    ∃ k, m ≤ k ∧ ((machine n).states (start n) schedule k).loc x = .critical := by
  obtain ⟨q, hq⟩ := reachable_coupled ((machine n).reachable_states (start n) schedule m)
  obtain ⟨l, r, rfl⟩ := List.append_of_mem (hq.mem_of_staying hx)
  have h : Stays x l r ((machine n).states (start n) schedule m) := ⟨hq, hx⟩
  obtain ⟨i, hi, hgo⟩ := h.exists_goes_on
  refine (machine n).eventually_of_rank_under (G := fun c => c.loc x = .critical)
    (A := fun j k => j = x → k = false)
    (P := fun a i c => ∃ l r, Stays x l r c ∧ i ∈ l ++ [x] ∧ ¬ Blocked c.shared i (c.loc i) ∧
      a = rank l.length (l ++ [x]) i c) ?_ hfair hpatient ⟨l, r, h, hi, hgo, rfl⟩
  rintro a i c j k hk ⟨l, r, h, hi, hgo, rfl⟩
  obtain hcrit | ⟨l', r', h', hless | ⟨rfl, hadvances⟩⟩ := h.fire hk hi hgo
  · exact Or.inl hcrit
  · obtain ⟨i', hi', hgo'⟩ := h'.exists_goes_on
    exact Or.inr ⟨_, i', ⟨l', r', h', hi', hgo', rfl⟩, Or.inl (rank_lt_of_lt hless)⟩
  · obtain ⟨i', hi', hgo', hrank⟩ := hadvances.lowers hi le_rfl h'.exists_goes_on
    exact Or.inr ⟨_, i', ⟨l', r', h', hi', hgo', rfl⟩, hrank⟩

/-- Who calls `osq_lock` and does not give up gets the lock. -/
lemma critical_of_toEnqueue (hpatient : ∀ k, m ≤ k → (schedule k).1 = x → (schedule k).2 = false)
    (h : 0 < (((machine n).states (start n) schedule m).loc x).toEnqueue) :
    ∃ k, m ≤ k ∧ ((machine n).states (start n) schedule k).loc x = .critical := by
  obtain ⟨k, hk, hcrit | hstaying⟩ := stays_of_toEnqueue hfair h
  · exact ⟨k, hk, hcrit⟩
  obtain ⟨k', hk', hcrit⟩ := critical_of_staying hfair (fun k' hk' => hpatient k' (hk.trans hk')) hstaying
  exact ⟨k', hk.trans hk', hcrit⟩

/-- Under a fair schedule a thread in `osq_lock` that does not give up gets the lock, however often
the others give up, return false and come back. -/
theorem osqLock_serves_patient (hpatient : ∀ k, m ≤ k → (schedule k).1 = x → (schedule k).2 = false)
    (h : 0 < (((machine n).states (start n) schedule m).loc x).toEnqueue ∨
      (((machine n).states (start n) schedule m).loc x).staying = true) :
    ∃ k, m ≤ k ∧ ((machine n).states (start n) schedule k).loc x = .critical := by
  obtain henters | hstaying := h
  · exact critical_of_toEnqueue hfair hpatient henters
  · exact critical_of_staying hfair hpatient hstaying

omit hfair in
/-- Two threads in turn, of which the second gives up whenever it can. -/
theorem osqLock_serves_patient_two : ∃ k, 0 ≤ k ∧
    ((machine 2).states (start 2) (fun m => (Fin.ofNat 2 m, Fin.ofNat 2 m = 1)) k).loc 0 = .critical := by
  refine osqLock_serves_patient (x := 0) (fun i m => fair_roundRobin 1 () i m) ?_ (Or.inl (by decide))
  intro k _ hk
  have hzero : Fin.ofNat 2 k = 0 := hk
  change decide (Fin.ofNat 2 k = 1) = false
  rw [hzero]
  rfl

end Patient

section Calm

/-- Has given up, and is not out of the queue yet. -/
def Pc.givesUp : Pc n → Bool
  | .stepARead _ | .stepACmpxchg _ | .stepALocked | .stepAPrev => true
  | p => p.committed

/-- Only a thread that spins gives up. -/
lemma step_givesUp (s : Shared n) (p : Pc n) : (step t false s p).2.givesUp.toNat ≤ p.givesUp.toNat := by
  cases p with
  | stepARead | stepACmpxchg | stepALocked | stepAPrev | stepB | stepCPrev | stepCNext => exact Bool.toNat_le _
  | waitTail prev old | waitCmpxchg prev old | waitNext prev old | waitXchg prev old =>
    cases prev with
    | some p => exact Bool.toNat_le _
    | none =>
      simp only [step]
      split <;> exact le_rfl
  | xchgTail =>
    simp only [step]
    split
    · exact le_rfl
    · split <;> exact le_rfl
  | spin p =>
    simp only [step, Bool.false_eq_true, if_false]
    split <;> exact le_rfl
  | unlockCmpxchg | unlockXchg =>
    simp only [step]
    split <;> exact le_rfl
  | _ => exact le_rfl

/-- Who leaves had the lock, or is done with giving up. -/
lemma Leaves.cases {s : Shared n} {p : Pc n} (h : Leaves s t p) (k : Bool) :
    p.holding = true ∨ (step t k s p).2.givesUp.toNat < p.givesUp.toNat := by
  cases p with
  | waitCmpxchg prev old =>
    cases prev with
    | none => exact Or.inl rfl
    | some p =>
      have htail : s.tail = encodeCpu t := h
      refine Or.inr ?_
      simp [step, htail, afterWaitNext, Pc.givesUp, Pc.committed]
  | stepCNext p z => exact Or.inr (by simp [step, Pc.givesUp, Pc.committed])
  | unlockCmpxchg | grant => exact Or.inl rfl
  | _ => exact h.elim

/-- The threads that are giving up, and those in front of `x`: what only gets less. -/
def inFront (l : List (Fin n)) (c : Config (Fin n) (Shared n) (Pc n)) : ℕ :=
  sumOn (fun p => p.givesUp.toNat) (List.finRange n) c + l.length

/-- While nobody gives up, a step takes `x` out of the queue, or somebody in front of it or somebody
who had given up, or the threads get further. -/
lemma Coupled.fire_calm (h : Coupled c (l ++ x :: r)) {i : Fin n} (hgo : ¬ Blocked c.shared i (c.loc i))
    (t : Fin n) :
    (((machine n).fire t false c).loc x).queued = false ∨
      ∃ l' r', Coupled ((machine n).fire t false c) (l' ++ x :: r') ∧
        (inFront l' ((machine n).fire t false c) < inFront l c ∨
          inFront l' ((machine n).fire t false c) ≤ inFront l c ∧
            Advances (List.finRange n) i t c ((machine n).fire t false c)) := by
  have hfire := fire_coupled h t false
  have hless : sumOn (fun p => p.givesUp.toNat) (List.finRange n) ((machine n).fire t false c) ≤
      sumOn (fun p => p.givesUp.toNat) (List.finRange n) c := sumOn_fire_le fun _ => step_givesUp _ _
  by_cases hleaves : Leaves c.shared t (c.loc t)
  · by_cases hxt : x = t
    · subst hxt
      rw [queueAfter_of_leaves hleaves] at hfire
      have hout : x ∉ (l ++ x :: r).erase x := fun hmem => (h.inv.nodup.mem_erase_iff.mp hmem).1 rfl
      rw [hfire.mem_iff] at hout
      exact Or.inl (by simpa using hout)
    refine Or.inr ?_
    by_cases htl : t ∈ l
    · rw [queueAfter_of_leaves hleaves, List.erase_append_left _ htl] at hfire
      have hpos := List.length_pos_of_mem htl
      have hlength := List.length_erase_of_mem htl
      exact ⟨l.erase t, r, hfire, Or.inl (Nat.add_lt_add_of_le_of_lt hless (by omega))⟩
    · -- who leaves from behind has given up
      obtain ⟨r', hqueue⟩ := queueAfter_behind (c := c) (r := r) htl (Ne.symm hxt)
      rw [hqueue] at hfire
      have howner := h.not_holding_behind htl (Ne.symm hxt)
      have hdone := (hleaves.cases false).resolve_left (by simp [howner])
      exact ⟨l, r', hfire, Or.inl (Nat.add_lt_add_right (sumOn_fire_lt (List.mem_finRange t) hdone) _)⟩
  · obtain ⟨r', hqueue⟩ : ∃ r', queueAfter t c (l ++ x :: r) = l ++ x :: r' := by
      by_cases hmem : t ∈ l ++ x :: r
      · exact ⟨r, h.queueAfter_of_mem hmem hleaves⟩
      · simp only [List.mem_append, List.mem_cons, not_or] at hmem
        exact queueAfter_behind hmem.1 hmem.2.1
    rw [hqueue] at hfire
    exact Or.inr ⟨l, r', hfire, Or.inr ⟨Nat.add_le_add_right hless _,
      h.advances (List.mem_finRange t) hleaves hgo⟩⟩

lemma toEnqueue_pos {p : Pc n} (h : p.queued = false) (hfault : p ≠ .fault) : 0 < p.toEnqueue := by
  cases p with
  | idle | backoff | setLocked | setNext | setCpu | xchgTail => exact Nat.succ_pos _
  | fault => exact absurd rfl hfault
  | waitTail prev | waitCmpxchg prev | waitNext prev | waitXchg prev => cases prev <;> cases h
  | _ => cases h

variable {schedule : ℕ → Fin n × Bool} (hfair : Fair schedule) {m₀ m : ℕ}
  (hcalm : ∀ k, m₀ ≤ k → (schedule k).2 = false)
include hfair hcalm

/-- Then every thread is out of the queue again and again. -/
lemma out_of_calm (hm : m₀ ≤ m) (x : Fin n) :
    ∃ k, m ≤ k ∧ (((machine n).states (start n) schedule k).loc x).queued = false := by
  obtain ⟨q, hq⟩ := reachable_coupled ((machine n).reachable_states (start n) schedule m)
  by_cases hx : x ∈ q
  swap
  · rw [hq.mem_iff] at hx
    exact ⟨m, le_rfl, by simpa using hx⟩
  obtain ⟨l, r, rfl⟩ := List.append_of_mem hx
  obtain ⟨i, hgo⟩ := hq.exists_goes_on (by simp)
  refine (machine n).eventually_of_rank_under (G := fun c => (c.loc x).queued = false)
    (A := fun _ k => k = false)
    (P := fun a i c => ∃ l r, Coupled c (l ++ x :: r) ∧ ¬ Blocked c.shared i (c.loc i) ∧
      a = rank (inFront l c) (List.finRange n) i c) ?_ hfair (fun k hk => hcalm k (hm.trans hk))
    ⟨l, r, hq, hgo, rfl⟩
  rintro a i c j k rfl ⟨l, r, h, hgo, rfl⟩
  obtain hout | ⟨l', r', h', hless⟩ := h.fire_calm hgo j
  · exact Or.inl hout
  obtain ⟨i', hgo'⟩ := h'.exists_goes_on (by simp)
  obtain hless | ⟨hle, hadvances⟩ := hless
  · exact Or.inr ⟨_, i', ⟨l', r', h', hgo', rfl⟩, Or.inl (rank_lt_of_lt hless)⟩
  · obtain ⟨i', -, hgo', hrank⟩ :=
      hadvances.lowers (List.mem_finRange i) hle ⟨i', List.mem_finRange i', hgo'⟩
    exact Or.inr ⟨_, i', ⟨l', r', h', hgo', rfl⟩, hrank⟩

/-- Under a fair schedule in which from some time on nobody gives up, every thread gets the lock and
releases it again and again. -/
theorem osqLock_no_starvation (hm : m₀ ≤ m) (t : Fin n) :
    (∃ k, m ≤ k ∧ ((machine n).states (start n) schedule k).loc t = .critical) ∧
      ∃ k, m ≤ k ∧ (((machine n).states (start n) schedule k).loc t).holding = false := by
  obtain ⟨k, hk, hout⟩ := out_of_calm hfair hcalm hm t
  obtain ⟨q, hq⟩ := reachable_coupled ((machine n).reachable_states (start n) schedule k)
  constructor
  · obtain ⟨k', hk', hcrit⟩ := critical_of_toEnqueue hfair
      (fun k' hk' _ => hcalm k' (hm.trans (hk.trans hk'))) (toEnqueue_pos hout (hq.no_fault t))
    exact ⟨k', hk.trans hk', hcrit⟩
  · refine ⟨k, hk, ?_⟩
    by_contra hholding
    have hmem := List.mem_of_head? (hq.first_of_holding (Bool.not_eq_false _ ▸ hholding))
    rw [hq.mem_iff, hout] at hmem
    cases hmem

omit hfair hcalm in
/-- Three threads in turn, none of which gives up. -/
theorem osqLock_no_starvation_three : ∃ k, 100 ≤ k ∧
    ((machine 3).states (start 3) (fun m => (Fin.ofNat 3 m, false)) k).loc 2 = .critical :=
  (osqLock_no_starvation (fair_roundRobin 2 false) (fun _ _ => rfl) (Nat.zero_le 100) 2).1

end Calm

end Lockhammer.OsqLock
