import Lockhammer.Interleaving.LinkedQueue

/-!
# An MCS queue as a linked queue

The queue of an MCS lock is the linked queue that nobody leaves early. Its members have a
`next` and a `locked` field and no `prev`, which is a ghost here. The head does not clear
its `next` when it reads it, so a link counts only until its owner has it in a register.
-/
namespace Interleaving.McsQueue
open Queue LinkedQueue

section
variable {ι : Type*}

/-- The part of a `next` field that still matters to its owner. -/
def linkOf (r : Role ι) (next : Option ι) : Option ι :=
  match r with
  | .out | .granting _ => none
  | _ => next

def view (next : ι → Option ι) (locked : ι → ℕ) (role : ι → Role ι) (prev : ι → Option ι) :
    State ι where
  next t := linkOf (role t) (next t)
  prev := prev
  locked := locked
  role := role

/-- The fields and roles of the members fit the queue `q`. -/
def Ok (q : List ι) (next : ι → Option ι) (locked : ι → ℕ) (role : ι → Role ι) : Prop :=
  ∃ prev, LinkedQueue.Inv q (view next locked role prev)

end

section Facts
variable {ι : Type*} {q : List ι} {next : ι → Option ι} {locked : ι → ℕ} {role : ι → Role ι} {t : ι}

/-- To know a view, compare the links that count, `locked` and the roles. -/
lemma ok_of_state {σ : State ι} (hσ : LinkedQueue.Inv q σ) (hrole : ∀ u, σ.role u = role u)
    (hnext : ∀ u, σ.next u = linkOf (role u) (next u)) (hlocked : ∀ u, σ.locked u = locked u) :
    Ok q next locked role := by
  refine ⟨σ.prev, ?_⟩
  have he : view next locked role σ.prev = σ := by
    ext1
    · exact funext fun u => (hnext u).symm
    · rfl
    · exact funext fun u => (hlocked u).symm
    · exact funext fun u => (hrole u).symm
  rw [he]
  exact hσ

lemma start_ok (next : ι → Option ι) (locked : ι → ℕ) : Ok [] next locked fun _ => .out := by
  refine ⟨fun _ => none, ?_⟩
  constructor <;> simp [view, linkOf, Adj, Role.hasPrev]

section
variable (h : Ok q next locked role)
include h

lemma Ok.nodup : q.Nodup := h.choose_spec.nodup

lemma Ok.mem (u : ι) : u ∈ q ↔ role u ≠ .out := h.choose_spec.mem u

lemma Ok.owner_first (ht : (role t).owner = true) : q.head? = some t := h.choose_spec.owner_first ht

/-- The first owns the lock, or has been granted it. -/
lemma Ok.first (ht : q.head? = some t) :
    (role t).owner = true ∨ (role t = .waiting ∧ locked t ≠ 0) := h.choose_spec.first t ht

/-- The member to be granted waits directly behind. -/
lemma Ok.granting_adj {z : ι} (ht : role t = .granting z) : Adj q t z ∧ role z = .waiting := by
  obtain ⟨prev, hi⟩ := h
  obtain ⟨hadj, hwait, -⟩ := hi.taken_adj (x := t) (z := z) (by simp [view, ht, Role.taken])
  exact ⟨hadj, hwait⟩

/-- Who is not linked yet stands directly behind the member it links to. -/
lemma Ok.arriving_adj {p : ι} {b : Bool} (ht : role t = .arriving p b) : Adj q p t := by
  obtain ⟨prev, hi⟩ := h
  exact (hi.attached_adj (t := t) (p := p) (by simp [view, ht, Role.attached])).1

/-- The last has no link to read and none read. -/
lemma Ok.last (hl : q.getLast? = some t) : ∀ z, role t ≠ .granting z := by
  obtain ⟨prev, hi⟩ := h
  intro z hz
  simpa [view, hz, Role.taken] using (hi.last t hl).2

/-- A head whose `next` is still empty has somebody behind it who is not linked yet. -/
lemma Ok.unlinked_behind (ht : role t = .holding) (hn : next t = none) (hl : q.getLast? ≠ some t) :
    ∃ y, (role y).attached ≠ none := by
  obtain ⟨prev, hi⟩ := h
  have hmem : t ∈ q := (hi.mem t).mpr (by simp [view, ht])
  rcases last_or_adj hmem with hlast | ⟨y, hy⟩
  · exact absurd hlast hl
  · refine ⟨y, ?_⟩
    have hout : role y ≠ .out := (hi.mem y).mp hy.mem_right
    have howner : (role y).owner = false := (hi.behind t y hy).2
    have hwait : role y ≠ .waiting := by
      intro hw
      rcases hi.linked t y hy hw with ⟨hnext, -⟩ | ⟨-, htaken⟩
      · simp [view, linkOf, ht, hn] at hnext
      · simp [view, ht, Role.taken] at htaken
    cases hr : role y <;> simp_all [Role.attached, Role.owner]

end
end Facts

section Steps
variable {ι : Type*} [DecidableEq ι] {q : List ι} {next : ι → Option ι} {locked : ι → ℕ}
  {role : ι → Role ι} {t : ι}

section
variable (h : Ok q next locked role)
include h

/-- A fresh `locked` field of somebody outside. -/
lemma Ok.reset (ht : role t = .out) : Ok q next (Function.update locked t 0) role := by
  obtain ⟨prev, hi⟩ := h
  refine ok_of_state (Step.inv (.reset (t := t) ht) hi) (fun _ => rfl) (fun _ => rfl) ?_
  intro u
  simp [view, Function.update_apply]

/-- The `next` field of somebody outside does not count. -/
lemma Ok.setNext (ht : role t = .out) (v : Option ι) : Ok q (Function.update next t v) locked role := by
  obtain ⟨prev, hi⟩ := h
  refine ok_of_state hi (fun _ => rfl) ?_ (fun _ => rfl)
  intro u
  by_cases hu : u = t
  · subst hu
    simp [view, linkOf, ht]
  · simp [view, hu]

/-- Taking the tail of a nonempty queue. -/
lemma Ok.enqueue {p : ι} (ht : role t = .out) (hl : locked t = 0) (hn : next t = none)
    (hp : q.getLast? = some p) :
    Ok (q ++ [t]) next locked (Function.update role t (.arriving p true)) := by
  obtain ⟨prev, hi⟩ := h
  have henq := Step.inv (.enqueue (t := t) p ht hl hp) hi
  have hsto := Step.inv (.storePrev (t := t) p (by simp)) henq
  refine ok_of_state hsto ?_ ?_ (fun _ => rfl)
  · intro u
    by_cases hu : u = t <;> simp [view, hu]
  · intro u
    by_cases hu : u = t
    · subst hu
      simp [view, linkOf, ht, hn]
    · simp [view, hu]

/-- The store of the link to the member in front. -/
lemma Ok.link {p : ι} (ht : role t = .arriving p true) :
    Ok q (Function.update next p (some t)) locked (Function.update role t .waiting) := by
  obtain ⟨prev, hi⟩ := h
  obtain ⟨hadj, -, htaken⟩ := hi.attached_adj (t := t) (p := p) (by simp [view, ht, Role.attached])
  have hpt : p ≠ t := hadj.ne hi.nodup
  have hlink (v : Option ι) : linkOf (role p) v = v := by
    have hout : role p ≠ .out := (hi.mem p).mp hadj.mem_left
    have htk : (role p).taken = none := htaken
    cases hr : role p <;> simp_all [linkOf, Role.taken]
  refine ok_of_state (Step.inv (.link p ht) hi) ?_ ?_ (fun _ => rfl)
  · intro u
    by_cases hu : u = t <;> simp [view, hu]
  · intro u
    by_cases hup : u = p
    · subst hup
      simp [view, hpt, hlink]
    · by_cases hu : u = t
      · subst hu
        simp [view, hup, ht, linkOf]
      · simp [view, hu, hup]

/-- Seeing the own `locked` set. -/
lemma Ok.acquire (ht : role t = .waiting) (hl : locked t ≠ 0) :
    Ok q next locked (Function.update role t .holding) := by
  obtain ⟨prev, hi⟩ := h
  refine ok_of_state (Step.inv (.acquire (t := t) ht hl) hi) ?_ ?_ (fun _ => rfl)
  · intro u
    by_cases hu : u = t <;> simp [view, hu]
  · intro u
    by_cases hu : u = t
    · subst hu
      simp [view, linkOf, ht]
    · simp [view, hu]

/-- Reading the own `next` takes the link. -/
lemma Ok.take {z : ι} (ht : role t = .holding) (hz : next t = some z) :
    Ok q next locked (Function.update role t (.granting z)) := by
  obtain ⟨prev, hi⟩ := h
  have hnext : (view next locked role prev).next t = some z := by simp [view, linkOf, ht, hz]
  refine ok_of_state (Step.inv (.takeHolding z ht hnext) hi) ?_ ?_ (fun _ => rfl)
  · intro u
    by_cases hu : u = t <;> simp [view, hu]
  · intro u
    by_cases hu : u = t
    · subst hu
      simp [linkOf]
    · simp [view, hu]

/-- The only member leaves and clears the tail. -/
lemma Ok.releaseLast (ht : role t = .holding) (hl : q.getLast? = some t) :
    Ok (q.erase t) next locked (Function.update role t .out) := by
  obtain ⟨prev, hi⟩ := h
  have hlast := (hi.last t hl).1
  refine ok_of_state (Step.inv (.releaseLast (t := t) ht hl) hi) ?_ ?_ (fun _ => rfl)
  · intro u
    by_cases hu : u = t <;> simp [view, hu]
  · intro u
    by_cases hu : u = t
    · subst hu
      simpa [linkOf] using hlast
    · simp [view, hu]

/-- The head hands over. -/
lemma Ok.grant {z : ι} (ht : role t = .granting z) :
    Ok (q.erase t) next (Function.update locked z 1) (Function.update role t .out) := by
  obtain ⟨prev, hi⟩ := h
  refine ok_of_state (Step.inv (.grant z ht) hi) ?_ ?_ ?_
  · intro u
    by_cases hu : u = t <;> simp [view, hu]
  · intro u
    by_cases hu : u = t
    · subst hu
      simp [view, linkOf, ht]
    · simp [view, hu]
  · intro u
    simp [view, Function.update_apply]

end

/-- Taking the tail of the empty queue. -/
lemma Ok.enqueueFirst (h : Ok [] next locked role) (hn : next t = none) :
    Ok [t] next locked (Function.update role t .holding) := by
  obtain ⟨prev, hi⟩ := h
  have ht : role t = .out := by
    by_contra hne
    simpa using (hi.mem t).mpr hne
  refine ok_of_state (Step.inv (.enqueueFirst (t := t) ht) hi) ?_ ?_ (fun _ => rfl)
  · intro u
    by_cases hu : u = t <;> simp [view, hu]
  · intro u
    by_cases hu : u = t
    · subst hu
      simp [view, linkOf, ht, hn]
    · simp [view, hu]

end Steps
end Interleaving.McsQueue
