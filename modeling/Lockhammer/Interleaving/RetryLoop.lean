import Lockhammer.Interleaving.Machine

/-!
# Retry loops in the place of single instructions

A build that has no instruction for a read-modify-write makes it a loop. One kind of loop is an
exclusive load and an exclusive store, which fails when the word has been stored to in between and
may fail when it has not. The other is a load and a compare-and-swap, which expects the value it
found the last time. A build with such loops shows exactly the histories of the machine in which
every read-modify-write is one step.
-/
namespace Interleaving

inductive LoopKind
  | exclusive
  | compareAndSwap
  deriving DecidableEq

/-- A read-modify-write of one word: on which values it stores, what, and how it goes on. -/
structure Rmw (ℓ α κ ρ : Type*) where
  kind : LoopKind
  cell : ℓ
  stores : α → Bool
  value : α → α
  next : κ → α → ρ

/-- A loop does with the loaded value what the step does with the word; another step stores to
the words `touched` at most. -/
def Obeys {σ ρ ℓ α κ : Type*} (read : σ → ℓ → α) (write : σ → ℓ → α → σ) (touched : ℓ → Bool) (k : κ)
    (s : σ) (result : σ × ρ) : Option (Rmw ℓ α κ ρ) → Prop
  | none => ∀ l, touched l = false → read result.1 l = read s l
  | some r => result =
      (if r.stores (read s r.cell) = true then write s r.cell (r.value (read s r.cell)) else s,
        r.next k (read s r.cell)) ∧ (r.kind = .compareAndSwap → ∀ v, r.stores v = true)

/-- The steps of `M` that the build makes loops. -/
structure Loops {ι κ σ ρ : Type*} (M : Machine ι κ σ ρ) (ℓ α : Type*) where
  read : σ → ℓ → α
  write : σ → ℓ → α → σ
  loop : ι → ρ → Option (Rmw ℓ α κ ρ)
  touched : ι → ρ → ℓ → Bool
  read_write_of_ne {l l' : ℓ} (h : l' ≠ l) (s : σ) (v : α) : read (write s l v) l' = read s l'
  obeys (i : ι) (p : ρ) (k : κ) (s : σ) : Obeys read write (touched i p) k s (M.step i k s p) (loop i p)

namespace Loops
variable {ι κ σ ρ ℓ α : Type*} {M : Machine ι κ σ ρ} (L : Loops M ℓ α) {i : ι} {p : ρ}

lemma loop_step {r : Rmw ℓ α κ ρ} (h : L.loop i p = some r) (k : κ) (s : σ) : M.step i k s p =
    (if r.stores (L.read s r.cell) = true then L.write s r.cell (r.value (L.read s r.cell)) else s,
      r.next k (L.read s r.cell)) := by
  have hobeys := L.obeys i p k s
  rw [h] at hobeys
  exact hobeys.1

lemma plain_step (h : L.loop i p = none) {l : ℓ} (hl : L.touched i p l = false) (k : κ) (s : σ) :
    L.read (M.step i k s p).1 l = L.read s l := by
  have hobeys := L.obeys i p k s
  rw [h] at hobeys
  exact hobeys l hl

lemma swap_stores {r : Rmw ℓ α κ ρ} (h : L.loop i p = some r) (hkind : r.kind = .compareAndSwap)
    (k : κ) (s : σ) (v : α) : r.stores v = true := by
  have hobeys := L.obeys i p k s
  rw [h] at hobeys
  exact hobeys.2 hkind v

end Loops

section OneWord
variable {ι ρ α : Type*} (M : Machine ι Unit α ρ)

/-- A loop of the only word of the machine: it does with the loaded value what the step does. -/
def oneWordLoop (stores : ρ → α → Bool) (i : ι) (p : ρ) (kind : LoopKind) : Rmw Unit α Unit ρ :=
  ⟨kind, (), stores p, fun v => (M.step i () v p).1, fun k v => (M.step i k v p).2⟩

/-- The loops of a machine with one word. The steps that are no loops and do not store to it read
it at most. -/
def Loops.ofWord (loop : ρ → Option LoopKind) (stores : ρ → α → Bool) (touched : ρ → Bool)
    (hskip : ∀ i p v, stores p v = false → (M.step i () v p).1 = v)
    (hplain : ∀ i p v, loop p = none → touched p = false → (M.step i () v p).1 = v)
    (hswap : ∀ p v, loop p = some .compareAndSwap → stores p v = true) : Loops M Unit α where
  read s _ := s
  write _ _ v := v
  loop i p := (loop p).map (oneWordLoop M stores i p)
  touched _ p _ := touched p
  read_write_of_ne h := absurd rfl h
  obeys := by
    rintro i p ⟨⟩ s
    cases hp : loop p with
    | none => exact fun _ ht => hplain i p s hp ht
    | some kind =>
      refine ⟨?_, ?_⟩
      · change _ = (if stores p s = true then (M.step i () s p).1 else s, (M.step i () s p).2)
        by_cases hstores : stores p s = true
        · rw [if_pos hstores]
        · rw [if_neg hstores]
          exact Prod.ext (hskip i p s (by simpa using hstores)) rfl
      · rintro rfl v
        exact hswap p v hp

end OneWord

/-- The memory, and the word each thread has reserved. -/
structure Monitored (ι ℓ σ : Type*) where
  mem : σ
  reserved : ι → Option ℓ

/-- A thread at a place of the machine, or in the loop of that place with the value it has loaded. -/
inductive Place (ℓ α κ ρ : Type*)
  | at (p : ρ)
  | loaded (p : ρ) (r : Rmw ℓ α κ ρ) (old : α)

def Place.place {ℓ α κ ρ : Type*} : Place ℓ α κ ρ → ρ
  | .at p => p
  | .loaded p _ _ => p

namespace Monitored
variable {ι ℓ σ : Type*} [DecidableEq ι] [DecidableEq ℓ] (m : Monitored ι ℓ σ)

/-- A store ends the reservations of the words it touches. -/
def store (touched : ℓ → Bool) (s : σ) : Monitored ι ℓ σ :=
  ⟨s, fun i => (m.reserved i).filter fun l => !touched l⟩

def reserve (i : ι) (o : Option ℓ) : Monitored ι ℓ σ := { m with reserved := Function.update m.reserved i o }

end Monitored

namespace Loops
variable {ι κ σ ρ ℓ α ε : Type*} [DecidableEq ι] [DecidableEq ℓ] [DecidableEq α] {M : Machine ι κ σ ρ}
  (L : Loops M ℓ α) (obs : ι → κ → σ → ρ → Option ε)

/-- The second half of a loop goes through. -/
def Succeeds (i : ι) (fails : Bool) (m : Monitored ι ℓ σ) (r : Rmw ℓ α κ ρ) (old : α) : Prop :=
  match r.kind with
  | .exclusive => m.reserved i = some r.cell ∧ fails = false
  | .compareAndSwap => L.read m.mem r.cell = old

instance (i : ι) (fails : Bool) (m : Monitored ι ℓ σ) (r : Rmw ℓ α κ ρ) (old : α) :
    Decidable (L.Succeeds i fails m r old) := by
  unfold Succeeds
  cases r.kind <;> infer_instance

/-- The first half of a loop. -/
def load (i : ι) (m : Monitored ι ℓ σ) (r : Rmw ℓ α κ ρ) : Monitored ι ℓ σ :=
  match r.kind with
  | .exclusive => m.reserve i (some r.cell)
  | .compareAndSwap => m

/-- A store that does not go through. -/
def lose (i : ι) (m : Monitored ι ℓ σ) (p : ρ) (r : Rmw ℓ α κ ρ) : Monitored ι ℓ σ × Place ℓ α κ ρ :=
  match r.kind with
  | .exclusive => (m.reserve i none, .at p)
  | .compareAndSwap => (m, .loaded p r (L.read m.mem r.cell))

def step (i : ι) (k : κ × Bool) (m : Monitored ι ℓ σ) : Place ℓ α κ ρ → Monitored ι ℓ σ × Place ℓ α κ ρ
  | .at p =>
    match L.loop i p with
    | none => (m.store (L.touched i p) (M.step i k.1 m.mem p).1, .at (M.step i k.1 m.mem p).2)
    | some r =>
      let old := L.read m.mem r.cell
      (load i m r, if r.stores old = true then .loaded p r old else .at (r.next k.1 old))
  | .loaded p r old =>
    if L.Succeeds i k.2 m r old then
      (m.store (· = r.cell) (L.write m.mem r.cell (r.value old)), .at (r.next k.1 old))
    else L.lose i m p r

/-- The build with loops. The second part of an outcome makes an exclusive store fail. -/
def machine : Machine ι (κ × Bool) (Monitored ι ℓ σ) (Place ℓ α κ ρ) where
  step := L.step

def start (_ : Loops M ℓ α) (c₀ : Config ι σ ρ) : Config ι (Monitored ι ℓ σ) (Place ℓ α κ ρ) :=
  ⟨⟨c₀.shared, fun _ => none⟩, fun i => .at (c₀.loc i)⟩

/-- What the build shows: a loop shows its step when it is done. -/
def observe (i : ι) (k : κ × Bool) (m : Monitored ι ℓ σ) : Place ℓ α κ ρ → Option ε
  | .at p =>
    match L.loop i p with
    | none => obs i k.1 m.mem p
    | some r => if r.stores (L.read m.mem r.cell) = true then none else obs i k.1 m.mem p
  | .loaded p r old => if L.Succeeds i k.2 m r old then obs i k.1 m.mem p else none

/-- The configuration of the machine without loops. -/
def abs (d : Config ι (Monitored ι ℓ σ) (Place ℓ α κ ρ)) : Config ι σ ρ :=
  ⟨d.shared.mem, fun i => (d.loc i).place⟩

/-- While a reservation lasts the word has the value that was loaded. -/
def Held (i : ι) (m : Monitored ι ℓ σ) : Place ℓ α κ ρ → Prop
  | .at _ => True
  | .loaded p r old => L.loop i p = some r ∧ r.stores old = true ∧
    (r.kind = .exclusive → m.reserved i = some r.cell → L.read m.mem r.cell = old)

variable {L obs} {i : ι} {k : κ × Bool} {m m' : Monitored ι ℓ σ} {x : Place ℓ α κ ρ}
  {d : Config ι (Monitored ι ℓ σ) (Place ℓ α κ ρ)} {c₀ c : Config ι σ ρ} {tr : List ε}

/-- The reservations that a thread keeps are of words that have not changed. -/
def Kept (L : Loops M ℓ α) (i : ι) (m m' : Monitored ι ℓ σ) : Prop :=
  ∀ l, m'.reserved i = some l → m.reserved i = some l ∧ L.read m'.mem l = L.read m.mem l

omit [DecidableEq ι] [DecidableEq ℓ] [DecidableEq α] in
lemma Held.of_kept (h : L.Held i m x) (hk : L.Kept i m m') : L.Held i m' x := by
  cases x with
  | «at» p => trivial
  | loaded p r old =>
    obtain ⟨hloop, hstores, hheld⟩ := h
    refine ⟨hloop, hstores, fun hkind hres => ?_⟩
    obtain ⟨hres', hread⟩ := hk _ hres
    rw [hread]
    exact hheld hkind hres'

omit [DecidableEq ι] [DecidableEq ℓ] [DecidableEq α] in
lemma kept_store {touched : ℓ → Bool} {s : σ}
    (h : ∀ l, touched l = false → L.read s l = L.read m.mem l) (j : ι) : L.Kept j m (m.store touched s) := by
  intro l hl
  obtain ⟨hl', ht⟩ := Option.filter_eq_some_iff.mp hl
  exact ⟨hl', h l (by simpa using ht)⟩

omit [DecidableEq ℓ] [DecidableEq α] in
lemma kept_reserve (o : Option ℓ) {j : ι} (hj : j ≠ i) : L.Kept j m (m.reserve i o) := by
  intro l hl
  simp only [Monitored.reserve, Function.update_of_ne hj] at hl
  exact ⟨hl, rfl⟩

omit [DecidableEq ι] [DecidableEq α] in
lemma kept_write (l : ℓ) (v : α) (j : ι) : L.Kept j m (m.store (· = l) (L.write m.mem l v)) := by
  refine kept_store (fun l' hl' => L.read_write_of_ne ?_ _ _) j
  simpa using hl'

omit [DecidableEq ℓ] [DecidableEq α] in
lemma kept_load (r : Rmw ℓ α κ ρ) {j : ι} (hj : j ≠ i) : L.Kept j m (load i m r) := by
  unfold load
  cases r.kind with
  | exclusive => exact kept_reserve _ hj
  | compareAndSwap => exact fun l hl => ⟨hl, rfl⟩

omit [DecidableEq ℓ] [DecidableEq α] in
lemma load_mem (r : Rmw ℓ α κ ρ) : (load i m r).mem = m.mem := by
  unfold load
  cases r.kind <;> rfl

/-- What one step of the build may be: a step of the machine, or no step. -/
structure Matches (L : Loops M ℓ α) (obs : ι → κ → σ → ρ → Option ε) (i : ι) (k : κ × Bool)
    (m : Monitored ι ℓ σ) (x : Place ℓ α κ ρ) : Prop where
  kept : ∀ j, j ≠ i → L.Kept j m (L.step i k m x).1
  held : L.Held i (L.step i k m x).1 (L.step i k m x).2
  effect : ((L.step i k m x).1.mem, (L.step i k m x).2.place) = M.step i k.1 m.mem x.place ∧
      L.observe obs i k m x = obs i k.1 m.mem x.place ∨
    ((L.step i k m x).1.mem, (L.step i k m x).2.place) = (m.mem, x.place) ∧
      L.observe obs i k m x = none ∧ ∃ r, L.loop i x.place = some r

lemma matches_plain {p : ρ} (hp : L.loop i p = none) : Matches L obs i k m (.at p) := by
  have hs : L.step i k m (.at p) =
      (m.store (L.touched i p) (M.step i k.1 m.mem p).1, .at (M.step i k.1 m.mem p).2) := by
    simp only [step, hp]
  refine ⟨fun j _ => ?_, ?_, Or.inl ⟨?_, ?_⟩⟩
  · rw [hs]
    exact kept_store (fun l hl => L.plain_step hp hl _ _) j
  · rw [hs]
    trivial
  · rw [hs]
    rfl
  · simp only [observe, hp, Place.place]

lemma matches_load {p : ρ} {r : Rmw ℓ α κ ρ} (hp : L.loop i p = some r) : Matches L obs i k m (.at p) := by
  by_cases hstores : r.stores (L.read m.mem r.cell) = true
  · have hs : L.step i k m (.at p) = (load i m r, .loaded p r (L.read m.mem r.cell)) := by
      simp only [step, hp, if_pos hstores]
    refine ⟨fun j hj => ?_, ?_, Or.inr ⟨?_, ?_, r, hp⟩⟩
    · rw [hs]
      exact kept_load r hj
    · rw [hs]
      refine ⟨hp, hstores, fun _ _ => ?_⟩
      rw [load_mem]
    · rw [hs, load_mem]
      rfl
    · simp only [observe, hp, if_pos hstores]
  · -- the comparison fails, and the loop is left without a store
    have hs : L.step i k m (.at p) = (load i m r, .at (r.next k.1 (L.read m.mem r.cell))) := by
      simp only [step, hp, if_neg hstores]
    refine ⟨fun j hj => ?_, ?_, Or.inl ⟨?_, ?_⟩⟩
    · rw [hs]
      exact kept_load r hj
    · rw [hs]
      trivial
    · rw [hs, load_mem]
      change _ = M.step i k.1 m.mem p
      rw [L.loop_step hp, if_neg hstores]
      rfl
    · simp only [observe, hp, if_neg hstores, Place.place]

/-- The second half of a loop does what the step does. -/
lemma step_of_succeeds {p : ρ} {r : Rmw ℓ α κ ρ} {old : α} (h : L.Held i m (.loaded p r old))
    (hgo : L.Succeeds i k.2 m r old) :
    ((L.step i k m (.loaded p r old)).1.mem, (L.step i k m (.loaded p r old)).2.place) =
      M.step i k.1 m.mem p := by
  obtain ⟨hp, hstores, hheld⟩ := h
  have hread : L.read m.mem r.cell = old := by
    unfold Succeeds at hgo
    cases hkind : r.kind with
    | exclusive =>
      simp only [hkind] at hgo
      exact hheld hkind hgo.1
    | compareAndSwap =>
      simp only [hkind] at hgo
      exact hgo
  simp only [step, if_pos hgo]
  rw [L.loop_step hp, hread, if_pos hstores]
  rfl

/-- Or it does nothing. -/
lemma step_of_lost {p : ρ} {r : Rmw ℓ α κ ρ} {old : α} (h : ¬ L.Succeeds i k.2 m r old) :
    ((L.step i k m (.loaded p r old)).1.mem, (L.step i k m (.loaded p r old)).2.place) = (m.mem, p) := by
  simp only [step, if_neg h]
  unfold lose
  cases r.kind <;> rfl

lemma matches_loaded {p : ρ} {r : Rmw ℓ α κ ρ} {old : α} (h : L.Held i m (.loaded p r old)) :
    Matches L obs i k m (.loaded p r old) := by
  obtain ⟨hp, hstores, hheld⟩ := h
  by_cases hgo : L.Succeeds i k.2 m r old
  · have hs : L.step i k m (.loaded p r old) =
        (m.store (· = r.cell) (L.write m.mem r.cell (r.value old)), .at (r.next k.1 old)) := by
      simp only [step, if_pos hgo]
    refine ⟨fun j _ => ?_, ?_, Or.inl ⟨step_of_succeeds ⟨hp, hstores, hheld⟩ hgo, ?_⟩⟩
    · rw [hs]
      exact kept_write _ _ j
    · rw [hs]
      trivial
    · simp only [observe, if_pos hgo, Place.place]
  · have hs : L.step i k m (.loaded p r old) = L.lose i m p r := by
      simp only [step, if_neg hgo]
    have hnone : L.observe obs i k m (.loaded p r old) = none := by
      simp only [observe, if_neg hgo]
    unfold lose at hs
    cases hkind : r.kind with
    | exclusive =>
      simp only [hkind] at hs
      refine ⟨fun j hj => ?_, ?_, Or.inr ⟨step_of_lost hgo, hnone, r, hp⟩⟩
      · rw [hs]
        exact kept_reserve _ hj
      · rw [hs]
        trivial
    | compareAndSwap =>
      simp only [hkind] at hs
      refine ⟨fun j hj => ?_, ?_, Or.inr ⟨step_of_lost hgo, hnone, r, hp⟩⟩
      · rw [hs]
        exact fun l hl => ⟨hl, rfl⟩
      · rw [hs]
        exact ⟨hp, L.swap_stores hp hkind k.1 m.mem _, fun _ _ => rfl⟩

lemma matches_step (h : L.Held i m x) : Matches L obs i k m x := by
  cases x with
  | «at» p =>
    cases hp : L.loop i p with
    | none => exact matches_plain hp
    | some r => exact matches_load hp
  | loaded p r old => exact matches_loaded h

/-- What a step of the build does to the configuration without loops. -/
lemma abs_fire_eq {q : σ × ρ}
    (h : ((L.step i k d.shared (d.loc i)).1.mem, (L.step i k d.shared (d.loc i)).2.place) = q) :
    abs (L.machine.fire i k d) = ⟨q.1, Function.update (abs d).loc i q.2⟩ := by
  subst h
  simp only [abs, Machine.fire, machine, Config.mk.injEq, true_and]
  funext j
  by_cases hj : j = i
  · subst hj
    simp
  · simp [hj]

variable (obs) in
/-- One step of the build is a step of the machine, showing the same, or is not seen. -/
lemma fire_matches (h : ∀ j, L.Held j d.shared (d.loc j)) (i : ι) (k : κ × Bool) :
    (∀ j, L.Held j (L.machine.fire i k d).shared ((L.machine.fire i k d).loc j)) ∧
    (abs (L.machine.fire i k d) = M.fire i k.1 (abs d) ∧
        L.observe obs i k d.shared (d.loc i) = obs i k.1 (abs d).shared ((abs d).loc i) ∨
      abs (L.machine.fire i k d) = abs d ∧ L.observe obs i k d.shared (d.loc i) = none ∧
        ∃ r, L.loop i (d.loc i).place = some r) := by
  have hm : Matches L obs i k d.shared (d.loc i) := matches_step (h i)
  refine ⟨fun j => ?_, ?_⟩
  · by_cases hj : j = i
    · subst hj
      rw [Machine.fire_loc_self]
      exact hm.held
    · rw [L.machine.fire_loc_of_ne hj]
      exact (h j).of_kept (hm.kept j hj)
  · obtain ⟨heff, hobs⟩ | ⟨heff, hobs, hloop⟩ := hm.effect
    · exact Or.inl ⟨abs_fire_eq heff, hobs⟩
    · refine Or.inr ⟨?_, hobs, hloop⟩
      rw [abs_fire_eq heff]
      exact congrArg _ (Function.update_eq_self i (abs d).loc)

/-- Every history of the build is one of the machine. -/
theorem history_abs (h : L.machine.History (L.observe obs) (L.start c₀) tr d) : M.History obs c₀ tr (abs d) := by
  suffices hall : M.History obs c₀ tr (abs d) ∧ ∀ j, L.Held j d.shared (d.loc j) from hall.1
  refine h.invariant L.machine (P := fun tr d => M.History obs c₀ tr (abs d) ∧ ∀ j, L.Held j d.shared (d.loc j))
    ⟨.start, fun _ => trivial⟩ ?_
  rintro tr d i k ⟨hrun, hheld⟩
  obtain ⟨hheld', ⟨habs, hobs⟩ | ⟨habs, hobs, -⟩⟩ := fire_matches obs hheld i k
  · rw [habs, hobs]
    exact ⟨hrun.fire i k.1, hheld'⟩
  · rw [habs, hobs]
    exact ⟨by simpa using hrun, hheld'⟩

lemma held_of_reachable (h : L.machine.Reachable (L.start c₀) d) (j : ι) : L.Held j d.shared (d.loc j) :=
  h.invariant L.machine (P := fun d => ∀ j, L.Held j d.shared (d.loc j)) (fun _ => trivial)
    (fun _ i k hheld => (fire_matches (fun _ _ _ _ => (none : Option Unit)) hheld i k).1) j

/-- Every step of a run of the build is a step of the machine, or one within a loop. -/
lemma fire_abs (h : L.machine.Reachable (L.start c₀) d) (i : ι) (k : κ × Bool) :
    abs (L.machine.fire i k d) = M.fire i k.1 (abs d) ∨
      abs (L.machine.fire i k d) = abs d ∧ ∃ r, L.loop i (d.loc i).place = some r := by
  obtain ⟨-, ⟨habs, -⟩ | ⟨habs, -, hloop⟩⟩ :=
    fire_matches (fun _ _ _ _ => (none : Option Unit)) (held_of_reachable h) i k
  · exact Or.inl habs
  · exact Or.inr ⟨habs, hloop⟩

/-- The second half of the loop of thread `i` goes through. -/
def GoesThrough (L : Loops M ℓ α) (i : ι) (k : κ × Bool)
    (d : Config ι (Monitored ι ℓ σ) (Place ℓ α κ ρ)) : Prop :=
  ∃ p r old, d.loc i = .loaded p r old ∧ L.Succeeds i k.2 d.shared r old

/-- A loop that goes through is a step of the machine. -/
lemma fire_abs_of_goesThrough (h : L.machine.Reachable (L.start c₀) d) (hgo : L.GoesThrough i k d) :
    abs (L.machine.fire i k d) = M.fire i k.1 (abs d) := by
  obtain ⟨p, r, old, hx, hgo⟩ := hgo
  have hheld := held_of_reachable h i
  rw [hx] at hheld
  refine abs_fire_eq (q := M.step i k.1 (abs d).shared ((abs d).loc i)) ?_
  change _ = M.step i k.1 d.shared.mem (d.loc i).place
  rw [hx]
  exact step_of_succeeds hheld hgo

/-- A loop that stores on the present value and does not go through is not seen. -/
lemma fire_abs_of_waits {r : Rmw ℓ α κ ρ} (hp : L.loop i (d.loc i).place = some r)
    (hstores : r.stores (L.read d.shared.mem r.cell) = true) (hwait : ¬ L.GoesThrough i k d) :
    abs (L.machine.fire i k d) = abs d := by
  have hstay : ((L.step i k d.shared (d.loc i)).1.mem, (L.step i k d.shared (d.loc i)).2.place) =
      ((abs d).shared, (abs d).loc i) := by
    change _ = (d.shared.mem, (d.loc i).place)
    cases hx : d.loc i with
    | «at» p =>
      rw [hx] at hp
      have hp' : L.loop i p = some r := hp
      simp only [step, hp', if_pos hstores, load_mem, Place.place]
    | loaded p r' old => exact step_of_lost fun hgo => hwait ⟨p, r', old, hx, hgo⟩
  rw [abs_fire_eq hstay, Function.update_eq_self]

theorem reachable_abs (h : L.machine.Reachable (L.start c₀) d) : M.Reachable c₀ (abs d) := by
  suffices hall : M.Reachable c₀ (abs d) ∧ L.machine.Reachable (L.start c₀) d from hall.1
  refine h.invariant L.machine (P := fun d => M.Reachable c₀ (abs d) ∧ L.machine.Reachable (L.start c₀) d)
    ⟨.start, .start⟩ ?_
  rintro d i k ⟨hrun, hd⟩
  refine ⟨?_, hd.fire L.machine i k⟩
  obtain habs | ⟨habs, -⟩ := fire_abs hd i k
  · rw [habs]
    exact hrun.fire M i k.1
  · rw [habs]
    exact hrun

/-- A step of the machine is one or two steps of the build, when no store fails. -/
lemma history_fire (h : L.machine.History (L.observe obs) (L.start c₀) tr ⟨m, fun i => .at (c.loc i)⟩)
    (hm : m.mem = c.shared) (i : ι) (k : κ) :
    ∃ m', m'.mem = (M.fire i k c).shared ∧ L.machine.History (L.observe obs) (L.start c₀)
      (tr ++ (obs i k c.shared (c.loc i)).toList) ⟨m', fun j => .at ((M.fire i k c).loc j)⟩ := by
  have hloc (p : ρ) : (fun j => Place.at (Function.update c.loc i p j)) =
      Function.update (fun j => (Place.at (c.loc j) : Place ℓ α κ ρ)) i (.at p) := by
    funext j
    by_cases hj : j = i
    · subst hj
      simp
    · simp [hj]
  rw [← hm, Machine.fire, ← hm, hloc]
  have hfirst := h.fire i (k, false)
  cases hp : L.loop i (c.loc i) with
  | none =>
    simp only [observe, hp, Machine.fire, machine, step] at hfirst
    exact ⟨_, rfl, hfirst⟩
  | some r =>
    rw [L.loop_step hp]
    by_cases hstores : r.stores (L.read m.mem r.cell) = true
    · simp only [observe, hp, if_pos hstores, Machine.fire, machine, step, Option.toList_none,
        List.append_nil] at hfirst
      have hsecond := hfirst.fire i (k, false)
      have hgo : L.Succeeds i false (load i m r) r (L.read m.mem r.cell) := by
        unfold Succeeds load
        cases r.kind <;> simp [Monitored.reserve]
      simp only [observe, if_pos hgo, Machine.fire, step, Function.update_self,
        Function.update_idem, load_mem] at hsecond
      rw [if_pos hstores]
      exact ⟨_, rfl, hsecond⟩
    · simp only [observe, hp, if_neg hstores, Machine.fire, machine, step] at hfirst
      rw [if_neg hstores]
      exact ⟨_, load_mem r, hfirst⟩

/-- The histories of the build are those of the machine. -/
theorem history_iff : (∃ d, L.machine.History (L.observe obs) (L.start c₀) tr d ∧ abs d = c) ↔
    M.History obs c₀ tr c := by
  constructor
  · rintro ⟨d, hd, rfl⟩
    exact history_abs hd
  · intro h
    suffices hall : ∃ m : Monitored ι ℓ σ, m.mem = c.shared ∧
        L.machine.History (L.observe obs) (L.start c₀) tr ⟨m, fun i => .at (c.loc i)⟩ by
      obtain ⟨m, hm, hd⟩ := hall
      refine ⟨_, hd, ?_⟩
      rw [abs, hm]
      rfl
    induction h with
    | start => exact ⟨_, rfl, .start⟩
    | fire _ i k ih =>
      obtain ⟨m, hm, hd⟩ := ih
      exact history_fire hd hm i k

end Loops
end Interleaving
