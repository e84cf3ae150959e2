import Lockhammer.Interleaving.Machine
import Mathlib.Order.WellFounded
import Mathlib.Data.Prod.Lex
import Mathlib.Algebra.BigOperators.Group.Finset.Basic
import Mathlib.Algebra.Order.BigOperators.Group.Finset

/-!
# Fair schedules

A schedule without end says which thread moves at each time, and under which outcome. It is
fair when every thread moves again and again. A rank that no step raises and that the helpful
thread of the moment lowers is then lowered to the goal: this is how a thread that waits is
shown to wait no longer than finitely many steps.
-/
namespace Interleaving

/-- Every thread moves again and again. -/
def Fair {ι κ : Type*} (schedule : ℕ → ι × κ) : Prop := ∀ i m, ∃ k, m ≤ k ∧ (schedule k).1 = i

section Moves
variable {ι ρ : Type*} {inside : ρ → Prop} {phase : ρ → ℕ} {t : ι} {q : List ι} {p p' : ρ}

/-- What a step of `t` from `p` to `p'` does to a line: it grows at its end, and the first of the
line gets nearer to leaving it, or the first of the line leaves it from inside. -/
def Moves (inside : ρ → Prop) (phase : ρ → ℕ) (t : ι) (q q' : List ι) (p p' : ρ) : Prop :=
  (∃ l, q' = q ++ l) ∧ (q.head? = some t → phase p' < phase p) ∨ inside p ∧ ¬ inside p' ∧ q = t :: q'

/-- A thread outside of the line only makes it longer. -/
lemma Moves.of_not_mem (ht : t ∉ q) (l : List ι) : Moves inside phase t q (q ++ l) p p' :=
  Or.inl ⟨⟨l, rfl⟩, fun hhead => absurd (List.mem_of_head? hhead) ht⟩

/-- A step that lets the line be. -/
lemma Moves.same (hphase : q.head? = some t → phase p' < phase p) : Moves inside phase t q q p p' :=
  Or.inl ⟨⟨[], (List.append_nil q).symm⟩, hphase⟩

end Moves

/-- Each in turn. -/
lemma fair_roundRobin {κ : Type*} (n : ℕ) (k : κ) : Fair fun m => (Fin.ofNat (n + 1) m, k) := by
  intro i m
  refine ⟨m * (n + 1) + i, ?_, ?_⟩
  · have hle : m * 1 ≤ m * (n + 1) := Nat.mul_le_mul_left m (by omega)
    omega
  · apply Fin.ext
    simp [Fin.ofNat, Nat.mod_eq_of_lt i.isLt]

/-- A measure of the threads, over all of them. -/
def Config.total {ι σ ρ : Type*} [Fintype ι] (f : ρ → ℕ) (c : Config ι σ ρ) : ℕ := ∑ i, f (c.loc i)

namespace Machine
variable {ι κ σ ρ : Type*} [DecidableEq ι] (M : Machine ι κ σ ρ) {c₀ : Config ι σ ρ}
  {schedule : ℕ → ι × κ}

/-- The configuration at each time of a schedule without end. -/
def states (c₀ : Config ι σ ρ) (schedule : ℕ → ι × κ) : ℕ → Config ι σ ρ
  | 0 => c₀
  | m + 1 => M.fire (schedule m).1 (schedule m).2 (states c₀ schedule m)

theorem reachable_states (c₀ : Config ι σ ρ) (schedule : ℕ → ι × κ) (m : ℕ) : M.Reachable c₀ (M.states c₀ schedule m) := by
  induction m with
  | zero => exact .start
  | succ m ih => exact ih.fire M _ _

section Rank
variable {α : Type*} [LT α] [WellFoundedLT α] {P : α → ι → Config ι σ ρ → Prop} {G : Config ι σ ρ → Prop}

/-- The ranking rule. `P a i c` says that `c` has rank `a` and that thread `i` is helpful: its
step lowers the rank or reaches the goal `G`, and the steps of the others at least keep both. Only
the moves that the schedule still makes, those of `A`, have to do so. -/
theorem eventually_of_rank_under {A : ι → κ → Prop}
    (hstep : ∀ a i c j k, A j k → P a i c → G (M.fire j k c) ∨
      ∃ b i', P b i' (M.fire j k c) ∧ (b < a ∨ b = a ∧ i' = i ∧ j ≠ i))
    (hfair : Fair schedule) {a : α} {i : ι} {m : ℕ}
    (hmoves : ∀ k, m ≤ k → A (schedule k).1 (schedule k).2) (h : P a i (M.states c₀ schedule m)) :
    ∃ k, m ≤ k ∧ G (M.states c₀ schedule k) := by
  induction a using WellFoundedLT.induction generalizing i m with
  | ind a ih =>
  obtain ⟨k, hk, hmove⟩ := hfair i m
  obtain ⟨d, rfl⟩ := Nat.exists_eq_add_of_le hk
  clear hk
  -- on the time until the helpful thread moves
  induction d generalizing m with
  | zero =>
    obtain hgoal | ⟨b, i', hb, hlt | ⟨-, -, hne⟩⟩ := hstep a i _ _ _ (hmoves m le_rfl) h
    · exact ⟨m + 1, m.le_succ, hgoal⟩
    · obtain ⟨k, hk, hgoal⟩ := ih b hlt (m := m + 1) (fun k hk => hmoves k (by omega)) hb
      exact ⟨k, by omega, hgoal⟩
    · exact absurd hmove hne
  | succ d ihd =>
    obtain hgoal | ⟨b, i', hb, hlt | ⟨rfl, rfl, -⟩⟩ := hstep a i _ _ _ (hmoves m le_rfl) h
    · exact ⟨m + 1, m.le_succ, hgoal⟩
    · obtain ⟨k, hk, hgoal⟩ := ih b hlt (m := m + 1) (fun k hk => hmoves k (by omega)) hb
      exact ⟨k, by omega, hgoal⟩
    · have hlater : m + (d + 1) = m + 1 + d := by omega
      obtain ⟨k, hk, hgoal⟩ := ihd (m := m + 1) (fun k hk => hmoves k (by omega)) hb (hlater ▸ hmove)
      exact ⟨k, by omega, hgoal⟩

/-- The same for all moves. -/
theorem eventually_of_rank
    (hstep : ∀ a i c j k, P a i c → G (M.fire j k c) ∨
      ∃ b i', P b i' (M.fire j k c) ∧ (b < a ∨ b = a ∧ i' = i ∧ j ≠ i))
    (hfair : Fair schedule) {a : α} {i : ι} {m : ℕ} (h : P a i (M.states c₀ schedule m)) :
    ∃ k, m ≤ k ∧ G (M.states c₀ schedule k) :=
  M.eventually_of_rank_under (A := fun _ _ => True) (fun a i c j k _ => hstep a i c j k) hfair
    (fun _ _ => trivial) h

end Rank

/-- A thread whose own steps count down to zero, whatever the others do, gets there. -/
theorem eventually_zero {w : ρ → ℕ} {t : ι}
    (hown : ∀ c k, M.Reachable c₀ c → 0 < w (c.loc t) → w ((M.fire t k c).loc t) < w (c.loc t))
    (hfair : Fair schedule) (m : ℕ) : ∃ k, m ≤ k ∧ w ((M.states c₀ schedule k).loc t) = 0 := by
  by_cases hzero : w ((M.states c₀ schedule m).loc t) = 0
  · exact ⟨m, le_rfl, hzero⟩
  refine M.eventually_of_rank (G := fun c => w (c.loc t) = 0)
    (P := fun a i c => i = t ∧ M.Reachable c₀ c ∧ a = w (c.loc t) ∧ 0 < a) ?_ hfair
    ⟨rfl, M.reachable_states c₀ schedule m, rfl, Nat.pos_of_ne_zero hzero⟩
  rintro a i c j k ⟨rfl, hc, rfl, hpos⟩
  by_cases hdone : w ((M.fire j k c).loc i) = 0
  · exact Or.inl hdone
  refine Or.inr ⟨_, i, ⟨rfl, hc.fire M j k, rfl, Nat.pos_of_ne_zero hdone⟩, ?_⟩
  by_cases hji : j = i
  · subst hji
    exact Or.inl (hown c k hc hpos)
  · rw [M.fire_loc_of_ne (Ne.symm hji)]
    exact Or.inr ⟨rfl, rfl, hji⟩

/-- A thread at a place from which its own step reaches the goal. -/
theorem eventually_of_own {G : Config ι σ ρ → Prop} {p : ρ} {t : ι}
    (hown : ∀ c k, c.loc t = p → G (M.fire t k c)) (hfair : Fair schedule) {m : ℕ}
    (h : (M.states c₀ schedule m).loc t = p) : ∃ k, m ≤ k ∧ G (M.states c₀ schedule k) := by
  refine M.eventually_of_rank (P := fun (_ : ℕ) i c => i = t ∧ c.loc t = p) ?_ hfair (a := 0) ⟨rfl, h⟩
  rintro a i c j k ⟨rfl, hp⟩
  by_cases hji : j = i
  · subst hji
    exact Or.inl (hown c k hp)
  · refine Or.inr ⟨a, i, ⟨rfl, ?_⟩, Or.inr ⟨rfl, rfl, hji⟩⟩
    rw [M.fire_loc_of_ne (Ne.symm hji), hp]

section Progress
variable {M} {I G : Config ι σ ρ → Prop}

/-- A rank that every step lowers unless it changes nothing (a failing poll) is lowered to the goal
under a fair schedule, when there is always a thread whose step changes something. The rank and the
invariant may depend on a ghost `g`, which the steps that lower the rank may set anew. -/
theorem eventually_of_ghost {γ α : Type*} [Preorder α] [WellFoundedLT α] {J : γ → Config ι σ ρ → Prop}
    {r : γ → Config ι σ ρ → α}
    (hstep : ∀ g c j k, J g c → G (M.fire j k c) ∨
      (∃ g', J g' (M.fire j k c) ∧ r g' (M.fire j k c) < r g c) ∨ M.fire j k c = c)
    (hgo : ∀ g c, J g c → ∃ i, ∀ k, G (M.fire i k c) ∨ M.fire i k c ≠ c)
    (hfair : Fair schedule) {g : γ} {m : ℕ} (h : J g (M.states c₀ schedule m)) :
    ∃ k, m ≤ k ∧ G (M.states c₀ schedule k) := by
  obtain ⟨i, hi⟩ := hgo g _ h
  refine M.eventually_of_rank (G := G) (P := fun a i c => ∃ g, J g c ∧ a = r g c ∧
    ∀ k, G (M.fire i k c) ∨ M.fire i k c ≠ c) ?_ hfair ⟨g, h, rfl, hi⟩
  rintro a i c j k ⟨g, hJ, rfl, hi⟩
  obtain hgoal | ⟨g', hJ', hless⟩ | hsame := hstep g c j k hJ
  · exact Or.inl hgoal
  · obtain ⟨i', hi'⟩ := hgo g' _ hJ'
    exact Or.inr ⟨_, i', ⟨g', hJ', rfl, hi'⟩, Or.inl hless⟩
  · by_cases hji : j = i
    · subst hji
      exact Or.inl ((hi k).resolve_right fun hne => hne hsame)
    · rw [hsame]
      exact Or.inr ⟨_, i, ⟨g, hJ, rfl, hi⟩, Or.inr ⟨rfl, rfl, hji⟩⟩

/-- The same without a ghost. -/
theorem eventually_of_progress {α : Type*} [Preorder α] [WellFoundedLT α] {r : Config ι σ ρ → α}
    (hstep : ∀ c j k, I c → G (M.fire j k c) ∨ I (M.fire j k c) ∧
      (r (M.fire j k c) < r c ∨ M.fire j k c = c))
    (hgo : ∀ c, I c → ∃ i, ∀ k, G (M.fire i k c) ∨ r (M.fire i k c) < r c)
    (hfair : Fair schedule) {m : ℕ} (h : I (M.states c₀ schedule m)) :
    ∃ k, m ≤ k ∧ G (M.states c₀ schedule k) := by
  refine eventually_of_ghost (J := fun _ : Unit => I) (r := fun _ => r) ?_ ?_ hfair (g := ()) h
  · rintro ⟨⟩ c j k hI
    obtain hgoal | ⟨hI', hless | hsame⟩ := hstep c j k hI
    · exact Or.inl hgoal
    · exact Or.inr (Or.inl ⟨(), hI', hless⟩)
    · exact Or.inr (Or.inr hsame)
  · rintro ⟨⟩ c hI
    obtain ⟨i, hi⟩ := hgo c hI
    refine ⟨i, fun k => (hi k).imp id fun hless hsame => ?_⟩
    rw [hsame] at hless
    exact lt_irrefl _ hless

variable [Fintype ι] {w : ρ → ℕ}

lemma total_fire_lt {i : ι} {k : κ} {c : Config ι σ ρ}
    (h : w ((M.fire i k c).loc i) < w (c.loc i)) : (M.fire i k c).total w < c.total w := by
  refine Finset.sum_lt_sum (fun j _ => ?_) ⟨i, Finset.mem_univ i, h⟩
  by_cases hj : j = i
  · subst hj
    exact h.le
  · rw [M.fire_loc_of_ne hj]

/-- The same where the rank is the work left to all threads, and each does its own. -/
theorem eventually_of_work
    (hstep : ∀ c j k, I c → G (M.fire j k c) ∨ I (M.fire j k c) ∧
      (w ((M.fire j k c).loc j) < w (c.loc j) ∨ M.fire j k c = c))
    (hwork : ∀ c, I c → ∃ i, ∀ k, G (M.fire i k c) ∨ w ((M.fire i k c).loc i) < w (c.loc i))
    (hfair : Fair schedule) {m : ℕ} (h : I (M.states c₀ schedule m)) :
    ∃ k, m ≤ k ∧ G (M.states c₀ schedule k) := by
  refine eventually_of_progress (r := Config.total w) (fun c j k hI => ?_) (fun c hI => ?_) hfair h
  · exact (hstep c j k hI).imp id (And.imp id (Or.imp total_fire_lt id))
  · obtain ⟨i, hi⟩ := hwork c hI
    exact ⟨i, fun k => (hi k).imp id total_fire_lt⟩

end Progress

section Line

/-- The threads of a line are served in order: only its first thread can be inside, and every
step moves the line. -/
structure Line (I : List ι → Config ι σ ρ → Prop) (inside : ρ → Prop) (phase : ρ → ℕ) : Prop where
  head {q : List ι} {c : Config ι σ ρ} (h : I q c) {t : ι} (ht : inside (c.loc t)) : q.head? = some t
  step {q : List ι} {c : Config ι σ ρ} (h : I q c) (j : ι) (k : κ) : ∃ q', I q' (M.fire j k c) ∧
    Moves inside phase j q q' (c.loc j) ((M.fire j k c).loc j)

variable {M} {I : List ι → Config ι σ ρ → Prop} {inside : ρ → Prop} {phase : ρ → ℕ}

lemma Line.of_reachable (h : M.Line I inside phase) {q₀ : List ι} (h₀ : I q₀ c₀) {c : Config ι σ ρ}
    (hc : M.Reachable c₀ c) : ∃ q, I q c := by
  refine hc.invariant M (P := fun c => ∃ q, I q c) ⟨q₀, h₀⟩ ?_
  rintro c j k ⟨q, hq⟩
  obtain ⟨q', hq', -⟩ := h.step hq j k
  exact ⟨q', hq'⟩

/-- The rank of a thread in line: who is before it, and the phase of the first. -/
def Line.Waits (_ : M.Line I inside phase) (t : ι) (a : ℕ ×ₗ ℕ) (i : ι) (c : Config ι σ ρ) : Prop :=
  ¬ inside (c.loc t) ∧ ∃ pre post, I (pre ++ t :: post) c ∧ (pre ++ t :: post).head? = some i ∧
    a = toLex (pre.length, phase (c.loc i))

lemma Line.waits_step (h : M.Line I inside phase) {t i : ι} {a : ℕ ×ₗ ℕ} {c : Config ι σ ρ}
    (hw : h.Waits t a i c) (j : ι) (k : κ) :
    inside ((M.fire j k c).loc t) ∨
      ∃ b i', h.Waits t b i' (M.fire j k c) ∧ (b < a ∨ b = a ∧ i' = i ∧ j ≠ i) := by
  by_cases hin : inside ((M.fire j k c).loc t)
  · exact Or.inl hin
  obtain ⟨hout, pre, post, hI, hhead, rfl⟩ := hw
  obtain ⟨q', hI', ⟨⟨l, rfl⟩, hphase⟩ | ⟨hj, -, hq⟩⟩ := h.step hI j k
  · -- the first thread stays the first
    have hhead' : (pre ++ t :: (post ++ l)).head? = some i := by
      rw [← List.cons_append, ← List.append_assoc, List.head?_append, hhead]
      rfl
    rw [List.append_assoc, List.cons_append] at hI'
    refine Or.inr ⟨_, i, ⟨hin, pre, post ++ l, hI', hhead', rfl⟩, ?_⟩
    by_cases hji : j = i
    · subst hji
      exact Or.inl (Prod.Lex.toLex_lt_toLex.mpr (Or.inr ⟨rfl, hphase hhead⟩))
    · rw [M.fire_loc_of_ne (Ne.symm hji)]
      exact Or.inr ⟨rfl, rfl, hji⟩
  · -- the first thread leaves: it is not `t`, which is not inside
    cases pre with
    | nil =>
      obtain ⟨rfl, -⟩ := List.cons.inj hq
      exact absurd hj hout
    | cons u pre =>
      obtain ⟨rfl, rfl⟩ := List.cons.inj hq
      obtain ⟨i', hi'⟩ : ∃ i', (pre ++ t :: post).head? = some i' := by
        cases pre <;> exact ⟨_, rfl⟩
      refine Or.inr ⟨_, i', ⟨hin, pre, post, hI', hi', rfl⟩, Or.inl ?_⟩
      exact Prod.Lex.toLex_lt_toLex.mpr (Or.inl (Nat.lt_succ_self _))

/-- Under a fair schedule every thread in line gets inside. -/
theorem Line.enters (h : M.Line I inside phase) (hfair : Fair schedule) {t : ι} {q : List ι} {m : ℕ}
    (hI : I q (M.states c₀ schedule m)) (ht : t ∈ q) :
    ∃ k, m ≤ k ∧ inside ((M.states c₀ schedule k).loc t) := by
  by_cases hin : inside ((M.states c₀ schedule m).loc t)
  · exact ⟨m, le_rfl, hin⟩
  obtain ⟨pre, post, rfl⟩ := List.append_of_mem ht
  obtain ⟨i, hi⟩ : ∃ i, (pre ++ t :: post).head? = some i := by
    cases pre <;> exact ⟨_, rfl⟩
  exact M.eventually_of_rank (P := h.Waits t) (G := fun c => inside (c.loc t))
    (fun a i c j k hw => h.waits_step hw j k) hfair ⟨hin, pre, post, hI, hi, rfl⟩

/-- And every thread inside leaves again. -/
theorem Line.leaves (h : M.Line I inside phase) (hfair : Fair schedule) {t : ι} {q : List ι} {m : ℕ}
    (hI : I q (M.states c₀ schedule m)) :
    ∃ k, m ≤ k ∧ ¬ inside ((M.states c₀ schedule k).loc t) := by
  by_cases hin : inside ((M.states c₀ schedule m).loc t)
  swap
  · exact ⟨m, le_rfl, hin⟩
  refine M.eventually_of_rank (G := fun c => ¬ inside (c.loc t))
    (P := fun a i c => i = t ∧ inside (c.loc t) ∧ (∃ q, I q c) ∧ a = phase (c.loc t)) ?_ hfair
    ⟨rfl, hin, ⟨q, hI⟩, rfl⟩
  rintro a i c j k ⟨rfl, hin, ⟨q, hI⟩, rfl⟩
  obtain ⟨q', hI', ⟨-, hphase⟩ | ⟨-, hout, hq⟩⟩ := h.step hI j k
  · by_cases hin' : inside ((M.fire j k c).loc i)
    swap
    · exact Or.inl hin'
    refine Or.inr ⟨_, i, ⟨rfl, hin', ⟨q', hI'⟩, rfl⟩, ?_⟩
    by_cases hji : j = i
    · subst hji
      exact Or.inl (hphase (h.head hI hin))
    · rw [M.fire_loc_of_ne (Ne.symm hji)]
      exact Or.inr ⟨rfl, rfl, hji⟩
  · -- only the thread inside is the first of the line
    have hhead := h.head hI hin
    rw [hq] at hhead
    obtain rfl := Option.some.inj hhead
    exact Or.inl hout

/-- When every thread joins the line sooner or later, each is inside and outside again and again. -/
theorem Line.forever (h : M.Line I inside phase) (hfair : Fair schedule) {t : ι}
    {q₀ : List ι} (h₀ : I q₀ c₀)
    (hjoin : ∀ m, ∃ k, m ≤ k ∧ ∃ q, I q (M.states c₀ schedule k) ∧ t ∈ q) (m : ℕ) :
    (∃ k, m ≤ k ∧ inside ((M.states c₀ schedule k).loc t)) ∧
      ∃ k, m ≤ k ∧ ¬ inside ((M.states c₀ schedule k).loc t) := by
  obtain ⟨q, hq⟩ := h.of_reachable h₀ (M.reachable_states c₀ schedule m)
  refine ⟨?_, h.leaves hfair hq⟩
  obtain ⟨k, hk, q', hq', ht⟩ := hjoin m
  obtain ⟨l, hl, hin⟩ := h.enters hfair hq' ht
  exact ⟨l, hk.trans hl, hin⟩

end Line

end Machine
end Interleaving
