import Mathlib.Logic.Function.Basic
import Mathlib.Data.List.Basic

/-!
# Interleaved machines

Every thread runs the same step function over one shared store. A step is one
atomic action: it may read and write the shared store and the thread's own state.
Whatever the program does not decide (a spurious failure, the moment a thread gives
up) is an argument of the step. A run fires the threads in an arbitrary order, so a
fact about all reachable configurations is a fact about all interleavings.
-/
namespace Interleaving

/-- One atomic step of thread `i` under the outcome `k` chosen by the environment. -/
structure Machine (ι κ σ ρ : Type*) where
  step : ι → κ → σ → ρ → σ × ρ

structure Config (ι σ ρ : Type*) where
  shared : σ
  loc : ι → ρ

namespace Machine
variable {ι κ σ ρ ε : Type*} [DecidableEq ι] (M : Machine ι κ σ ρ)

def fire (i : ι) (k : κ) (c : Config ι σ ρ) : Config ι σ ρ :=
  ⟨(M.step i k c.shared (c.loc i)).1, Function.update c.loc i (M.step i k c.shared (c.loc i)).2⟩

@[simp] lemma fire_shared (i : ι) (k : κ) (c : Config ι σ ρ) :
    (M.fire i k c).shared = (M.step i k c.shared (c.loc i)).1 := rfl

@[simp] lemma fire_loc_self (i : ι) (k : κ) (c : Config ι σ ρ) :
    (M.fire i k c).loc i = (M.step i k c.shared (c.loc i)).2 := by simp [fire]

lemma fire_loc_of_ne {i j : ι} (h : j ≠ i) (k : κ) (c : Config ι σ ρ) :
    (M.fire i k c).loc j = c.loc j := by simp [fire, h]

lemma fire_loc (i j : ι) (k : κ) (c : Config ι σ ρ) :
    (M.fire i k c).loc j =
      if j = i then (M.step i k c.shared (c.loc i)).2 else c.loc j := by
  simp [fire, Function.update_apply]

lemma fire_eq {i : ι} {k : κ} {c : Config ι σ ρ} {s : σ} {p : ρ}
    (h : M.step i k c.shared (c.loc i) = (s, p)) :
    M.fire i k c = ⟨s, Function.update c.loc i p⟩ := by
  rw [fire, h]

lemma fire_shared_eq {i : ι} {k : κ} {c : Config ι σ ρ} {s : σ} {p : ρ}
    (h : M.step i k c.shared (c.loc i) = (s, p)) : (M.fire i k c).shared = s := by
  rw [fire_shared, h]

lemma fire_loc_eq {i : ι} {k : κ} {c : Config ι σ ρ} {s : σ} {p : ρ}
    (h : M.step i k c.shared (c.loc i) = (s, p)) (j : ι) :
    (M.fire i k c).loc j = if j = i then p else c.loc j := by
  rw [fire_loc, h]

/-- Configurations reached by runs in which every step meets the guard `G`. -/
inductive ReachableUnder (G : ι → κ → Config ι σ ρ → Prop) (c₀ : Config ι σ ρ) :
    Config ι σ ρ → Prop
  | start : ReachableUnder G c₀ c₀
  | fire {c} (h : ReachableUnder G c₀ c) (i : ι) (k : κ) (hg : G i k c) :
      ReachableUnder G c₀ (M.fire i k c)

/-- Configurations reached by any interleaving. -/
def Reachable (c₀ c : Config ι σ ρ) : Prop := M.ReachableUnder (fun _ _ _ => True) c₀ c

/-- The configurations of a run together with the events it has shown, in order. -/
inductive History (obs : ι → κ → σ → ρ → Option ε) (c₀ : Config ι σ ρ) :
    List ε → Config ι σ ρ → Prop
  | start : History obs c₀ [] c₀
  | fire {tr c} (h : History obs c₀ tr c) (i : ι) (k : κ) :
      History obs c₀ (tr ++ (obs i k c.shared (c.loc i)).toList) (M.fire i k c)

/-- The same for runs in which every step meets the guard `G`. -/
inductive HistoryUnder (G : ι → κ → Config ι σ ρ → Prop) (obs : ι → κ → σ → ρ → Option ε)
    (c₀ : Config ι σ ρ) : List ε → Config ι σ ρ → Prop
  | start : HistoryUnder G obs c₀ [] c₀
  | fire {tr c} (h : HistoryUnder G obs c₀ tr c) (i : ι) (k : κ) (hg : G i k c) :
      HistoryUnder G obs c₀ (tr ++ (obs i k c.shared (c.loc i)).toList) (M.fire i k c)

/-- An invariant of the guarded steps holds along every guarded run. -/
theorem ReachableUnder.invariant {G : ι → κ → Config ι σ ρ → Prop} {c₀ c : Config ι σ ρ}
    {P : Config ι σ ρ → Prop} (h : M.ReachableUnder G c₀ c) (h₀ : P c₀)
    (hstep : ∀ c i k, P c → G i k c → P (M.fire i k c)) : P c := by
  induction h with
  | start => exact h₀
  | fire _ i k hg ih => exact hstep _ i k ih hg

theorem Reachable.invariant {c₀ c : Config ι σ ρ} {P : Config ι σ ρ → Prop}
    (h : M.Reachable c₀ c) (h₀ : P c₀) (hstep : ∀ c i k, P c → P (M.fire i k c)) : P c :=
  ReachableUnder.invariant M h h₀ (fun c i k hp _ => hstep c i k hp)

theorem Reachable.fire {c₀ c : Config ι σ ρ} (h : M.Reachable c₀ c) (i : ι) (k : κ) :
    M.Reachable c₀ (M.fire i k c) := ReachableUnder.fire h i k trivial

/-- A guarded run is a run. -/
theorem ReachableUnder.reachable {G : ι → κ → Config ι σ ρ → Prop} {c₀ c : Config ι σ ρ}
    (h : M.ReachableUnder G c₀ c) : M.Reachable c₀ c := by
  induction h with
  | start => exact .start
  | fire _ i k _ ih => exact ih.fire M i k

/-- When every reachable step meets the guard, every run is a guarded one. -/
theorem Reachable.under {G : ι → κ → Config ι σ ρ → Prop} {c₀ c : Config ι σ ρ}
    (h : M.Reachable c₀ c) (hG : ∀ c i k, M.Reachable c₀ c → G i k c) : M.ReachableUnder G c₀ c := by
  induction h with
  | start => exact .start
  | fire hc i k _ ih => exact ih.fire i k (hG _ i k hc)

/-- The invariant rule for facts that relate a configuration to the events before it. -/
theorem History.invariant {obs : ι → κ → σ → ρ → Option ε} {c₀ c : Config ι σ ρ} {tr : List ε}
    {P : List ε → Config ι σ ρ → Prop} (h : M.History obs c₀ tr c) (h₀ : P [] c₀)
    (hstep : ∀ tr c i k, P tr c →
      P (tr ++ (obs i k c.shared (c.loc i)).toList) (M.fire i k c)) : P tr c := by
  induction h with
  | start => exact h₀
  | fire _ i k ih => exact hstep _ _ i k ih

/-- Forgetting the events of a run leaves a run. -/
theorem History.reachable {obs : ι → κ → σ → ρ → Option ε} {c₀ c : Config ι σ ρ} {tr : List ε}
    (h : M.History obs c₀ tr c) : M.Reachable c₀ c := by
  induction h with
  | start => exact .start
  | fire _ i k ih => exact ih.fire M i k

theorem HistoryUnder.reachable {G : ι → κ → Config ι σ ρ → Prop} {obs : ι → κ → σ → ρ → Option ε}
    {c₀ c : Config ι σ ρ} {tr : List ε} (h : M.HistoryUnder G obs c₀ tr c) :
    M.ReachableUnder G c₀ c := by
  induction h with
  | start => exact .start
  | fire _ i k hg ih => exact ih.fire i k hg

/-- When every reachable step meets the guard, every history is a guarded one. -/
theorem History.under {G : ι → κ → Config ι σ ρ → Prop} {obs : ι → κ → σ → ρ → Option ε}
    {c₀ c : Config ι σ ρ} {tr : List ε} (h : M.History obs c₀ tr c)
    (hG : ∀ c i k, M.Reachable c₀ c → G i k c) : M.HistoryUnder G obs c₀ tr c := by
  induction h with
  | start => exact .start
  | fire hc i k ih => exact ih.fire i k (hG _ i k (hc.reachable M))

section Precedence
variable {G : ι → κ → Config ι σ ρ → Prop} {obs : ι → κ → σ → ρ → Option ε} {c₀ c : Config ι σ ρ}
  {tr : List ε}

lemma append_toList_eq {o : Option ε} {a r : List ε} {b : ε} (h : tr ++ o.toList = a ++ b :: r) :
    (tr = a ∧ o = some b ∧ r = []) ∨ ∃ r₀, tr = a ++ b :: r₀ ∧ r = r₀ ++ o.toList := by
  cases o with
  | none => exact Or.inr ⟨r, by simpa using h, by simp⟩
  | some e =>
    rcases List.eq_nil_or_concat r with rfl | ⟨r₀, e', rfl⟩
    · obtain ⟨rfl, he⟩ := List.append_inj' h rfl
      obtain rfl : e = b := by simpa using he
      exact Or.inl ⟨rfl, rfl, rfl⟩
    · have h' : tr ++ [e] = (a ++ b :: r₀) ++ [e'] := by simpa using h
      obtain ⟨rfl, he⟩ := List.append_inj' h' rfl
      obtain rfl : e = e' := by simpa using he
      exact Or.inr ⟨r₀, rfl, by simp⟩

/-- The rule for orders of events. After `a`, and until `x`, the state is `P`; when `b` is
shown there it becomes `B`, which lasts until `x` and in which `y` is never shown.
Then `x` is always shown between `a` and a `y` that follows a later `b`. -/
theorem HistoryUnder.precedence {a b x y : ε} {I P B : Config ι σ ρ → Prop}
    (h : M.HistoryUnder G obs c₀ tr c) (h₀ : I c₀)
    (hI : ∀ c i k, I c → G i k c → I (M.fire i k c))
    (ha : ∀ c i k, I c → G i k c → obs i k c.shared (c.loc i) = some a → P (M.fire i k c))
    (hP : ∀ c i k, P c → G i k c → obs i k c.shared (c.loc i) ≠ some x → P (M.fire i k c))
    (hb : ∀ c i k, P c → G i k c → obs i k c.shared (c.loc i) = some b → B (M.fire i k c))
    (hB : ∀ c i k, B c → G i k c → obs i k c.shared (c.loc i) ≠ some y ∧
      (obs i k c.shared (c.loc i) ≠ some x → B (M.fire i k c)))
    {l m r r' : List ε} (htr : tr = l ++ a :: (m ++ b :: (r ++ y :: r'))) : x ∈ m ++ r := by
  suffices hall : I c ∧ (∀ l m, tr = l ++ a :: m → x ∈ m ∨ P c) ∧
      (∀ l m r, tr = l ++ a :: (m ++ b :: r) → x ∈ m ++ r ∨ B c) ∧
      ∀ l m r r', tr = l ++ a :: (m ++ b :: (r ++ y :: r')) → x ∈ m ++ r from
    hall.2.2.2 l m r r' htr
  clear htr
  induction h with
  | start => refine ⟨h₀, ?_, ?_, ?_⟩ <;> simp
  | @fire tr c hc i k hg ih =>
    obtain ⟨hIc, h1, h2, h3⟩ := ih
    refine ⟨hI c i k hIc hg, ?_, ?_, ?_⟩
    · intro l m htr
      rcases append_toList_eq htr with ⟨-, ho, rfl⟩ | ⟨m₀, htr₀, rfl⟩
      · exact Or.inr (ha c i k hIc hg ho)
      · rcases h1 l m₀ htr₀ with hx | hp
        · exact Or.inl (List.mem_append_left _ hx)
        · by_cases ho : obs i k c.shared (c.loc i) = some x
          · exact Or.inl (by simp [ho])
          · exact Or.inr (hP c i k hp hg ho)
    · intro l m r htr
      rw [← List.cons_append, ← List.append_assoc] at htr
      rcases append_toList_eq htr with ⟨htr₀, ho, rfl⟩ | ⟨r₀, htr₀, rfl⟩
      · rcases h1 l m htr₀ with hx | hp
        · exact Or.inl (by simpa using hx)
        · exact Or.inr (hb c i k hp hg ho)
      · rcases h2 l m r₀ (by simpa using htr₀) with hx | hbeh
        · rw [← List.append_assoc]
          exact Or.inl (List.mem_append_left _ hx)
        · by_cases ho : obs i k c.shared (c.loc i) = some x
          · exact Or.inl (by simp [ho])
          · exact Or.inr ((hB c i k hbeh hg).2 ho)
    · intro l m r r' htr
      have htr' : tr ++ (obs i k c.shared (c.loc i)).toList = (l ++ a :: (m ++ b :: r)) ++ y :: r' := by
        simpa using htr
      rcases append_toList_eq htr' with ⟨htr₀, ho, -⟩ | ⟨r₀, htr₀, -⟩
      · rcases h2 l m r htr₀ with hx | hbeh
        · exact hx
        · exact absurd ho (hB c i k hbeh hg).1
      · exact h3 l m r r₀ (by simpa using htr₀)

end Precedence

/-- The configuration after a given schedule. -/
def run (c : Config ι σ ρ) (schedule : List (ι × κ)) : Config ι σ ρ :=
  schedule.foldl (fun c s => M.fire s.1 s.2 c) c

/-- The events shown by a given schedule. -/
def trace (obs : ι → κ → σ → ρ → Option ε) : Config ι σ ρ → List (ι × κ) → List ε
  | _, [] => []
  | c, s :: rest =>
    (obs s.1 s.2 c.shared (c.loc s.1)).toList ++ trace obs (M.fire s.1 s.2 c) rest

theorem reachable_run_of {c₀ c : Config ι σ ρ} (h : M.Reachable c₀ c) (schedule : List (ι × κ)) :
    M.Reachable c₀ (M.run c schedule) := by
  induction schedule generalizing c with
  | nil => exact h
  | cons a s ih => exact ih (h.fire M a.1 a.2)

theorem reachable_run (c₀ : Config ι σ ρ) (schedule : List (ι × κ)) :
    M.Reachable c₀ (M.run c₀ schedule) := M.reachable_run_of .start schedule

/-- Events that forget something of others. -/
lemma trace_map {δ : Type*} (obs : ι → κ → σ → ρ → Option ε) (f : ε → δ) (c : Config ι σ ρ)
    (schedule : List (ι × κ)) :
    M.trace (fun i k s x => (obs i k s x).map f) c schedule = (M.trace obs c schedule).map f := by
  induction schedule generalizing c with
  | nil => rfl
  | cons s rest ih =>
    rw [trace, trace, ih, List.map_append]
    cases obs s.1 s.2 c.shared (c.loc s.1) <;> rfl

/-- Every step of the schedule meets the guard `G`. -/
def Guarded (G : ι → κ → Config ι σ ρ → Prop) : Config ι σ ρ → List (ι × κ) → Prop
  | _, [] => True
  | c, s :: rest => G s.1 s.2 c ∧ Guarded G (M.fire s.1 s.2 c) rest

instance decidableGuarded (G : ι → κ → Config ι σ ρ → Prop) [∀ i k c, Decidable (G i k c)] :
    ∀ c schedule, Decidable (M.Guarded G c schedule)
  | _, [] => isTrue trivial
  | c, s :: rest =>
    @instDecidableAnd _ _ _ (decidableGuarded G (M.fire s.1 s.2 c) rest)

/-- A schedule whose steps meet the guard extends a guarded run. -/
theorem ReachableUnder.run {G : ι → κ → Config ι σ ρ → Prop} {c₀ c : Config ι σ ρ}
    (h : M.ReachableUnder G c₀ c) (schedule : List (ι × κ)) (hg : M.Guarded G c schedule) :
    M.ReachableUnder G c₀ (M.run c schedule) := by
  induction schedule generalizing c with
  | nil => exact h
  | cons s rest ih => exact ih (h.fire s.1 s.2 hg.1) hg.2

theorem history_run (obs : ι → κ → σ → ρ → Option ε) (c₀ : Config ι σ ρ)
    (schedule : List (ι × κ)) :
    M.History obs c₀ (M.trace obs c₀ schedule) (M.run c₀ schedule) := by
  have h : ∀ s tr c, M.History obs c₀ tr c →
      M.History obs c₀ (tr ++ M.trace obs c s) (M.run c s) := by
    intro s
    induction s with
    | nil => intro tr c hc; simpa [trace, run] using hc
    | cons a s ih =>
      intro tr c hc
      have := ih _ _ (hc.fire a.1 a.2)
      simpa [trace, run, List.append_assoc] using this
  simpa using h schedule [] c₀ .start

end Machine
end Interleaving
