import Lockhammer.Interleaving.Queue
import Mathlib.Logic.Function.Basic

/-!
# A linked queue that can be left from the middle

Members arrive at the end of a queue and link themselves to the member in front, who
hands the lock over through that link. A waiting member may also leave: it cuts the link
that points to it, waits until it knows who is behind it (or that nobody is), and joins
its neighbours by two separate stores. The relation `Step` lists what one store may do,
with the queue as a ghost; `Inv` is what every such step keeps.
-/
namespace Interleaving.LinkedQueue
open Queue

/-- What a member is about to do with its links. `stored` says that the first of its two
stores is done. -/
inductive Role (ι : Type*)
  | out
  | arriving (p : ι) (stored : Bool)
  | waiting
  | leaving (p : ι)
  | splicing (p z : ι) (stored : Bool)
  | holding
  | granting (z : ι)

@[ext]
structure State (ι : Type*) where
  next : ι → Option ι
  prev : ι → Option ι
  locked : ι → ℕ
  role : ι → Role ι

variable {ι : Type*}

/-- The member in front, as far as somebody who is not linked to it remembers it. -/
def Role.attached : Role ι → Option ι
  | .arriving p _ | .leaving p | .splicing p _ _ => some p
  | _ => none

/-- The member behind, taken out of the own link and not yet served. -/
def Role.taken : Role ι → Option ι
  | .splicing _ z _ | .granting z => some z
  | _ => none

/-- Owner of the lock: only the first of the queue. -/
def Role.owner : Role ι → Bool
  | .holding | .granting _ => true
  | _ => false

/-- The own `prev` is set and still read. -/
def Role.hasPrev : Role ι → Bool
  | .waiting | .arriving _ true => true
  | _ => false

/-- What `x` in this role wants the `prev` of the member behind it to be: `x`, or already
the member in front of `x`. -/
def Role.front (x : ι) : Role ι → ι
  | .splicing p _ true => p
  | _ => x

lemma Role.front_eq {r : Role ι} (h : r.taken = none) (x : ι) : r.front x = x := by
  cases r <;> simp_all [Role.taken, Role.front]

/-- What the stores say about the queue. -/
structure Inv (q : List ι) (s : State ι) : Prop where
  nodup : q.Nodup
  mem : ∀ t, t ∈ q ↔ s.role t ≠ .out
  /-- The first owns the lock, or has been granted it. -/
  first : ∀ t, q.head? = some t →
    (s.role t).owner = true ∨ (s.role t = .waiting ∧ s.locked t ≠ 0)
  /-- Nobody else does. -/
  behind : ∀ x y, Adj q x y → s.locked y = 0 ∧ (s.role y).owner = false
  /-- A link points to a waiting member until the member in front takes it. -/
  linked : ∀ x y, Adj q x y → s.role y = .waiting →
    (s.next x = some y ∧ (s.role x).taken = none) ∨
      (s.next x = none ∧ (s.role x).taken = some y)
  /-- Who is not linked knows the member in front, who cannot go on. -/
  unlinked : ∀ x y p, Adj q x y → (s.role y).attached = some p →
    p = x ∧ s.next x = none ∧ (s.role x).taken = none
  last : ∀ x, q.getLast? = some x → s.next x = none ∧ (s.role x).taken = none
  idle : ∀ t, s.role t = .out → s.next t = none
  prev_ok : ∀ x y, Adj q x y → (s.role y).hasPrev = true → s.prev y = some ((s.role x).front x)
  prev_some : ∀ t, (s.role t).hasPrev = true → s.prev t ≠ none

section Parts
variable {q : List ι} {s s' : State ι} {t x y : ι}

/-- What the stores say about the first of the queue. -/
def First (s : State ι) (t : ι) : Prop :=
  (s.role t).owner = true ∨ (s.role t = .waiting ∧ s.locked t ≠ 0)

/-- Nobody is linked or taken behind `x`. -/
def Open (s : State ι) (x : ι) : Prop := s.next x = none ∧ (s.role x).taken = none

/-- What the stores say about `x` and the member `y` directly behind it. -/
structure Joined (s : State ι) (x y : ι) : Prop where
  behind : s.locked y = 0 ∧ (s.role y).owner = false
  linked : s.role y = .waiting → (s.next x = some y ∧ (s.role x).taken = none) ∨
    (s.next x = none ∧ (s.role x).taken = some y)
  unlinked : ∀ p, (s.role y).attached = some p → p = x ∧ Open s x
  prev_ok : (s.role y).hasPrev = true → s.prev y = some ((s.role x).front x)

/-- What the stores say about a member, wherever it stands. -/
structure Settled (s : State ι) (t : ι) : Prop where
  idle : s.role t = .out → s.next t = none
  prev_some : (s.role t).hasPrev = true → s.prev t ≠ none

lemma Inv.joined (h : Inv q s) (hxy : Adj q x y) : Joined s x y :=
  ⟨h.behind x y hxy, h.linked x y hxy, fun p hp => h.unlinked x y p hxy hp, h.prev_ok x y hxy⟩

lemma Inv.settled (h : Inv q s) (t : ι) : Settled s t := ⟨h.idle t, h.prev_some t⟩

/-- The invariant is checked at the ends of the queue and at each pair of neighbours. -/
lemma Inv.of_parts (hq : q.Nodup) (hmem : ∀ t, t ∈ q ↔ s.role t ≠ .out)
    (hfirst : ∀ t, q.head? = some t → First s t) (hadj : ∀ x y, Adj q x y → Joined s x y)
    (hlast : ∀ x, q.getLast? = some x → Open s x) (hset : ∀ t, Settled s t) : Inv q s where
  nodup := hq
  mem := hmem
  first := hfirst
  behind x y hxy := (hadj x y hxy).behind
  linked x y hxy := (hadj x y hxy).linked
  unlinked x y p hxy := (hadj x y hxy).unlinked p
  last := hlast
  idle t := (hset t).idle
  prev_ok x y hxy := (hadj x y hxy).prev_ok
  prev_some t := (hset t).prev_some

/-- A pair of neighbours sees the links of the one in front and the fields of the other. -/
lemma Joined.frame (h : Joined s x y) (hn : s'.next x = s.next x)
    (hk : (s'.role x).taken = (s.role x).taken) (hf : (s'.role x).front x = (s.role x).front x)
    (hl : s'.locked y = s.locked y) (hp : s'.prev y = s.prev y) (hr : s'.role y = s.role y) :
    Joined s' x y := by
  constructor
  · rw [hl, hr]
    exact h.behind
  · rw [hn, hk, hr]
    exact h.linked
  · rw [Open, hn, hk, hr]
    exact h.unlinked
  · rw [hp, hf, hr]
    exact h.prev_ok

lemma Joined.of_waiting (hw : s.role y = .waiting) (hl : s.locked y = 0)
    (hn : (s.next x = some y ∧ (s.role x).taken = none) ∨
      (s.next x = none ∧ (s.role x).taken = some y))
    (hp : s.prev y = some ((s.role x).front x)) : Joined s x y := by
  constructor
  · rw [hw]
    exact ⟨hl, rfl⟩
  · exact fun _ => hn
  · intro p hp
    rw [hw] at hp
    cases hp
  · exact fun _ => hp

lemma Joined.of_attached (ha : (s.role y).attached = some x) (hl : s.locked y = 0)
    (ho : Open s x) (hp : (s.role y).hasPrev = true → s.prev y = some x) : Joined s x y := by
  constructor
  · refine ⟨hl, ?_⟩
    cases hr : s.role y <;> simp_all [Role.attached, Role.owner]
  · intro hw
    simp [hw, Role.attached] at ha
  · intro p hp
    exact ⟨Option.some.inj (hp.symm.trans ha), ho⟩
  · intro hh
    rw [Role.front_eq ho.2, hp hh]

lemma Settled.frame (h : Settled s t) (hn : s'.next t = s.next t) (hp : s'.prev t = s.prev t)
    (hr : s'.role t = s.role t) : Settled s' t := by
  constructor
  · rw [hr, hn]
    exact h.idle
  · rw [hr, hp]
    exact h.prev_some

end Parts

section Neighbours
variable {q : List ι} {s : State ι} {t : ι} (h : Inv q s)
include h

/-- Who is not linked has a member in front, which waits for it. -/
lemma Inv.attached_adj {p : ι} (ht : (s.role t).attached = some p) :
    Adj q p t ∧ s.next p = none ∧ (s.role p).taken = none := by
  have hmem : t ∈ q := by
    rw [h.mem]
    rintro he
    simp [he, Role.attached] at ht
  rcases head_or_adj hmem with hhead | ⟨x, hx⟩
  · rcases h.first t hhead with ho | ⟨hw, -⟩
    · cases hr : s.role t <;> simp [hr, Role.owner, Role.attached] at ho ht
    · simp [hw, Role.attached] at ht
  · obtain ⟨rfl, hn, hk⟩ := h.unlinked x t p hx ht
    exact ⟨hx, hn, hk⟩

/-- An owner is first. -/
lemma Inv.owner_first (ht : (s.role t).owner = true) : q.head? = some t := by
  have hmem : t ∈ q := by
    rw [h.mem]
    rintro he
    simp [he, Role.owner] at ht
  rcases head_or_adj hmem with hhead | ⟨x, hx⟩
  · exact hhead
  · simp [(h.behind x t hx).2] at ht

/-- A link leads to the waiting member directly behind. -/
lemma Inv.next_adj {x y : ι} (hn : s.next x = some y) :
    Adj q x y ∧ s.role y = .waiting ∧ (s.role x).taken = none := by
  have hmem : x ∈ q := by
    rw [h.mem]
    intro he
    simp [h.idle x he] at hn
  rcases last_or_adj hmem with hlast | ⟨z, hz⟩
  · simp [(h.last x hlast).1] at hn
  · cases hr : s.role z with
    | waiting =>
      rcases h.linked x z hz hr with ⟨hl, hk⟩ | ⟨hl, -⟩
      · obtain rfl : z = y := Option.some.inj (hl.symm.trans hn)
        exact ⟨hz, hr, hk⟩
      · simp [hl] at hn
    | out => exact absurd hr ((h.mem z).mp hz.mem_right)
    | holding => simpa [hr, Role.owner] using (h.behind x z hz).2
    | granting => simpa [hr, Role.owner] using (h.behind x z hz).2
    | arriving p b => simp [(h.unlinked x z p hz (by rw [hr]; rfl)).2.1] at hn
    | leaving p => simp [(h.unlinked x z p hz (by rw [hr]; rfl)).2.1] at hn
    | splicing p w b => simp [(h.unlinked x z p hz (by rw [hr]; rfl)).2.1] at hn

/-- A taken member is the waiting one directly behind. -/
lemma Inv.taken_adj {x z : ι} (ht : (s.role x).taken = some z) :
    Adj q x z ∧ s.role z = .waiting ∧ s.next x = none := by
  have hmem : x ∈ q := by
    rw [h.mem]
    intro he
    simp [he, Role.taken] at ht
  rcases last_or_adj hmem with hlast | ⟨y, hy⟩
  · simp [(h.last x hlast).2] at ht
  · cases hr : s.role y with
    | waiting =>
      rcases h.linked x y hy hr with ⟨-, hk⟩ | ⟨hl, hk⟩
      · simp [hk] at ht
      · obtain rfl : y = z := Option.some.inj (hk.symm.trans ht)
        exact ⟨hy, hr, hl⟩
    | out => exact absurd hr ((h.mem y).mp hy.mem_right)
    | holding => simpa [hr, Role.owner] using (h.behind x y hy).2
    | granting => simpa [hr, Role.owner] using (h.behind x y hy).2
    | arriving p b => simp [(h.unlinked x y p hy (by rw [hr]; rfl)).2.2] at ht
    | leaving p => simp [(h.unlinked x y p hy (by rw [hr]; rfl)).2.2] at ht
    | splicing p w b => simp [(h.unlinked x y p hy (by rw [hr]; rfl)).2.2] at ht

end Neighbours

section Steps
variable [DecidableEq ι]

def State.setRole (s : State ι) (t : ι) (r : Role ι) : State ι :=
  { s with role := Function.update s.role t r }

def State.setNext (s : State ι) (t : ι) (v : Option ι) : State ι :=
  { s with next := Function.update s.next t v }

def State.setPrev (s : State ι) (t : ι) (v : Option ι) : State ι :=
  { s with prev := Function.update s.prev t v }

def State.setLocked (s : State ι) (t : ι) (v : ℕ) : State ι :=
  { s with locked := Function.update s.locked t v }

section Fields
variable (s : State ι) (t u : ι)

@[simp] lemma State.setNext_next (v : Option ι) :
    (s.setNext t v).next u = if u = t then v else s.next u := by simp [State.setNext, Function.update_apply]

@[simp] lemma State.setNext_prev (v : Option ι) : (s.setNext t v).prev u = s.prev u := rfl

@[simp] lemma State.setNext_locked (v : Option ι) : (s.setNext t v).locked u = s.locked u := rfl

@[simp] lemma State.setNext_role (v : Option ι) : (s.setNext t v).role u = s.role u := rfl

@[simp] lemma State.setPrev_next (v : Option ι) : (s.setPrev t v).next u = s.next u := rfl

@[simp] lemma State.setPrev_prev (v : Option ι) :
    (s.setPrev t v).prev u = if u = t then v else s.prev u := by simp [State.setPrev, Function.update_apply]

@[simp] lemma State.setPrev_locked (v : Option ι) : (s.setPrev t v).locked u = s.locked u := rfl

@[simp] lemma State.setPrev_role (v : Option ι) : (s.setPrev t v).role u = s.role u := rfl

@[simp] lemma State.setLocked_next (v : ℕ) : (s.setLocked t v).next u = s.next u := rfl

@[simp] lemma State.setLocked_prev (v : ℕ) : (s.setLocked t v).prev u = s.prev u := rfl

@[simp] lemma State.setLocked_locked (v : ℕ) :
    (s.setLocked t v).locked u = if u = t then v else s.locked u := by simp [State.setLocked, Function.update_apply]

@[simp] lemma State.setLocked_role (v : ℕ) : (s.setLocked t v).role u = s.role u := rfl

@[simp] lemma State.setRole_next (v : Role ι) : (s.setRole t v).next u = s.next u := rfl

@[simp] lemma State.setRole_prev (v : Role ι) : (s.setRole t v).prev u = s.prev u := rfl

@[simp] lemma State.setRole_locked (v : Role ι) : (s.setRole t v).locked u = s.locked u := rfl

@[simp] lemma State.setRole_role (v : Role ι) :
    (s.setRole t v).role u = if u = t then v else s.role u := by simp [State.setRole, Function.update_apply]

end Fields

/-- One store of member `t`, with the queue before and after it. -/
inductive Step (t : ι) : List ι → State ι → List ι → State ι → Prop
  | reset {q s} (h : s.role t = .out) : Step t q s q (s.setLocked t 0)
  | enqueueFirst {s} (h : s.role t = .out) : Step t [] s [t] (s.setRole t .holding)
  | enqueue {q s} (p : ι) (h : s.role t = .out) (hl : s.locked t = 0) (hp : q.getLast? = some p) :
      Step t q s (q ++ [t]) (s.setRole t (.arriving p false))
  | storePrev {q s} (p : ι) (h : s.role t = .arriving p false) :
      Step t q s q ((s.setPrev t (some p)).setRole t (.arriving p true))
  | link {q s} (p : ι) (h : s.role t = .arriving p true) :
      Step t q s q ((s.setNext p (some t)).setRole t .waiting)
  | acquire {q s} (h : s.role t = .waiting) (hl : s.locked t ≠ 0) :
      Step t q s q (s.setRole t .holding)
  | commit {q s} (p : ι) (h : s.role t = .waiting) (hp : s.next p = some t) :
      Step t q s q ((s.setNext p none).setRole t (.leaving p))
  | leaveLast {q s} (p : ι) (h : s.role t = .leaving p) (hl : q.getLast? = some t) :
      Step t q s (q.erase t) (s.setRole t .out)
  | releaseLast {q s} (h : s.role t = .holding) (hl : q.getLast? = some t) :
      Step t q s (q.erase t) (s.setRole t .out)
  | takeLeaving {q s} (p z : ι) (h : s.role t = .leaving p) (hz : s.next t = some z) :
      Step t q s q ((s.setNext t none).setRole t (.splicing p z false))
  | takeHolding {q s} (z : ι) (h : s.role t = .holding) (hz : s.next t = some z) :
      Step t q s q ((s.setNext t none).setRole t (.granting z))
  | splicePrev {q s} (p z : ι) (h : s.role t = .splicing p z false) :
      Step t q s q ((s.setPrev z (some p)).setRole t (.splicing p z true))
  | spliceNext {q s} (p z : ι) (h : s.role t = .splicing p z true) :
      Step t q s (q.erase t) ((s.setNext p (some z)).setRole t .out)
  | grant {q s} (z : ι) (h : s.role t = .granting z) :
      Step t q s (q.erase t) ((s.setLocked z 1).setRole t .out)

variable {q q' : List ι} {s s' : State ι} {t : ι}

lemma Inv.storePrev (h : Inv q s) {p : ι} (ht : s.role t = .arriving p false) :
    Inv q ((s.setPrev t (some p)).setRole t (.arriving p true)) := by
  obtain ⟨hadj, hopen⟩ := h.attached_adj (t := t) (p := p) (by rw [ht]; rfl)
  have hne := hadj.ne h.nodup
  apply Inv.of_parts h.nodup
  · intro u
    by_cases hu : u = t <;> simp [hu, h.mem, ht]
  · intro u hu
    have hut : u ≠ t := fun e => hadj.head_ne h.nodup (e ▸ hu)
    simpa [First, hut] using h.first u hu
  · intro x y hxy
    by_cases hy : y = t
    · subst hy
      obtain rfl := hxy.left_unique h.nodup hadj
      apply Joined.of_attached
      · simp [Role.attached]
      · simpa using (h.behind x y hxy).1
      · simpa [Open, hne] using hopen
      · simp
    · apply (h.joined hxy).frame
      · simp
      · by_cases hx : x = t <;> simp [hx, ht, Role.taken]
      · by_cases hx : x = t <;> simp [hx, ht, Role.front]
      · simp
      · simp [hy]
      · simp [hy]
  · intro x hx
    have := h.last x hx
    by_cases hxt : x = t <;> simp_all [Open, Role.taken]
  · intro u
    by_cases hu : u = t
    · subst hu
      constructor <;> simp
    · exact (h.settled u).frame (by simp) (by simp [hu]) (by simp [hu])

lemma Inv.link (h : Inv q s) {p : ι} (ht : s.role t = .arriving p true) :
    Inv q ((s.setNext p (some t)).setRole t .waiting) := by
  obtain ⟨hadj, hnext, htaken⟩ := h.attached_adj (t := t) (p := p) (by rw [ht]; rfl)
  have hne := hadj.ne h.nodup
  apply Inv.of_parts h.nodup
  · intro u
    by_cases hu : u = t <;> simp [hu, h.mem, ht]
  · intro u hu
    have hut : u ≠ t := fun e => hadj.head_ne h.nodup (e ▸ hu)
    simpa [First, hut] using h.first u hu
  · intro x y hxy
    by_cases hx : x = p
    · -- the link that was missing
      subst hx
      obtain rfl := hxy.right_unique h.nodup hadj
      apply Joined.of_waiting
      · simp
      · simpa using (h.behind x y hxy).1
      · simp [hne, htaken]
      · simpa [hne] using h.prev_ok x y hxy (by rw [ht]; rfl)
    · have hy : y ≠ t := fun e => hx ((e ▸ hxy).left_unique h.nodup hadj)
      apply (h.joined hxy).frame
      · simp [hx]
      · by_cases hxt : x = t <;> simp [hxt, ht, Role.taken]
      · by_cases hxt : x = t <;> simp [hxt, ht, Role.front]
      · simp
      · simp
      · simp [hy]
  · intro x hx
    have hxp : x ≠ p := fun e => hadj.last_ne h.nodup (e ▸ hx)
    have := h.last x hx
    by_cases hxt : x = t <;> simp_all [Open, Role.taken]
  · intro u
    have hset := h.settled u
    by_cases hu : u = t
    · subst hu
      exact ⟨by simp, fun _ => hset.prev_some (by rw [ht]; rfl)⟩
    · by_cases hup : u = p
      · subst hup
        have hin := (h.mem u).mp hadj.mem_left
        exact ⟨by simp [hu, hin], by simpa [hu] using hset.prev_some⟩
      · exact hset.frame (by simp [hup]) (by simp) (by simp [hu])

lemma Inv.acquire (h : Inv q s) (ht : s.role t = .waiting) (hl : s.locked t ≠ 0) :
    Inv q (s.setRole t .holding) := by
  apply Inv.of_parts h.nodup
  · intro u
    by_cases hu : u = t <;> simp [hu, h.mem, ht]
  · intro u hu
    by_cases hut : u = t
    · simp [First, hut, Role.owner]
    · simpa [First, hut] using h.first u hu
  · intro x y hxy
    have hy : y ≠ t := fun e => hl ((h.behind x t (e ▸ hxy)).1)
    apply (h.joined hxy).frame
    · simp
    · by_cases hx : x = t <;> simp [hx, ht, Role.taken]
    · by_cases hx : x = t <;> simp [hx, ht, Role.front]
    · simp
    · simp
    · simp [hy]
  · intro x hx
    have := h.last x hx
    by_cases hxt : x = t <;> simp_all [Open, Role.taken]
  · intro u
    by_cases hu : u = t
    · subst hu
      constructor <;> simp [Role.hasPrev]
    · exact (h.settled u).frame (by simp) (by simp) (by simp [hu])

lemma Inv.commit (h : Inv q s) {p : ι} (ht : s.role t = .waiting) (hp : s.next p = some t) :
    Inv q ((s.setNext p none).setRole t (.leaving p)) := by
  obtain ⟨hadj, -, htaken⟩ := h.next_adj hp
  have hne := hadj.ne h.nodup
  apply Inv.of_parts h.nodup
  · intro u
    by_cases hu : u = t <;> simp [hu, h.mem, ht]
  · intro u hu
    have hut : u ≠ t := fun e => hadj.head_ne h.nodup (e ▸ hu)
    simpa [First, hut] using h.first u hu
  · intro x y hxy
    by_cases hx : x = p
    · -- the link that is cut
      subst hx
      obtain rfl := hxy.right_unique h.nodup hadj
      apply Joined.of_attached
      · simp [Role.attached]
      · simpa using (h.behind x y hxy).1
      · simp [Open, hne, htaken]
      · simp [Role.hasPrev]
    · have hy : y ≠ t := fun e => hx ((e ▸ hxy).left_unique h.nodup hadj)
      apply (h.joined hxy).frame
      · simp [hx]
      · by_cases hxt : x = t <;> simp [hxt, ht, Role.taken]
      · by_cases hxt : x = t <;> simp [hxt, ht, Role.front]
      · simp
      · simp
      · simp [hy]
  · intro x hx
    have := h.last x hx
    by_cases hxt : x = t <;> simp_all [Open, Role.taken]
  · intro u
    have hset := h.settled u
    by_cases hu : u = t
    · subst hu
      constructor <;> simp [Role.hasPrev]
    · refine ⟨?_, by simpa [hu] using hset.prev_some⟩
      intro ho
      have hnext := hset.idle (by simpa [hu] using ho)
      simp [hnext]

lemma Inv.reset (h : Inv q s) (ht : s.role t = .out) : Inv q (s.setLocked t 0) := by
  have hmem (u : ι) (hu : u ∈ q) : u ≠ t := fun e => (h.mem t).mp (e ▸ hu) ht
  apply Inv.of_parts h.nodup
  · exact h.mem
  · intro u hu
    simpa [First, hmem u (List.mem_of_head? hu)] using h.first u hu
  · intro x y hxy
    have hy := hmem y hxy.mem_right
    exact (h.joined hxy).frame rfl rfl rfl (by simp [hy]) rfl rfl
  · exact h.last
  · exact fun u => (h.settled u).frame rfl rfl rfl

lemma Inv.enqueueFirst (h : Inv [] s) : Inv [t] (s.setRole t .holding) := by
  have hout (u : ι) : s.role u = .out := by simpa using (h.mem u).not
  have hnext (u : ι) : s.next u = none := h.idle u (hout u)
  apply Inv.of_parts (List.nodup_singleton t)
  · intro u
    by_cases hu : u = t <;> simp [hu, hout]
  · intro u hu
    obtain rfl : t = u := by simpa using hu
    simp [First, Role.owner]
  · simp [Adj]
  · intro u hu
    obtain rfl : t = u := by simpa using hu
    simp [Open, hnext, Role.taken]
  · intro u
    by_cases hu : u = t
    · subst hu
      constructor <;> simp [Role.hasPrev]
    · exact (h.settled u).frame (by simp) (by simp) (by simp [hu])

lemma Inv.enqueue (h : Inv q s) {p : ι} (ht : s.role t = .out) (hl : s.locked t = 0)
    (hp : q.getLast? = some p) : Inv (q ++ [t]) (s.setRole t (.arriving p false)) := by
  have hmem : t ∉ q := fun hm => (h.mem t).mp hm ht
  have hnt (u : ι) (hu : u ∈ q) : u ≠ t := fun e => hmem (e ▸ hu)
  have hne := hnt p (List.mem_of_getLast? hp)
  apply Inv.of_parts
  · exact h.nodup.append (List.nodup_singleton t) (by simpa using hmem)
  · intro u
    by_cases hu : u = t <;> simp [hu, h.mem]
  · intro u hu
    rcases (head?_push q t u).mp hu with hu | ⟨rfl, -⟩
    · simpa [First, hnt u (List.mem_of_head? hu)] using h.first u hu
    · simp at hp
  · intro x y hxy
    rcases (adj_push q t x y).mp hxy with hxy | ⟨hx, rfl⟩
    · have hx := hnt x hxy.mem_left
      have hy := hnt y hxy.mem_right
      apply (h.joined hxy).frame <;> simp [hx, hy]
    · obtain rfl : p = x := Option.some.inj (hp.symm.trans hx)
      apply Joined.of_attached
      · simp [Role.attached]
      · simpa using hl
      · simpa [Open, hne] using h.last p hp
      · simp [Role.hasPrev]
  · intro x hx
    obtain rfl : t = x := Option.some.inj ((getLast?_push q t).symm.trans hx)
    simp [Open, h.idle t ht, Role.taken]
  · intro u
    by_cases hu : u = t
    · subst hu
      constructor <;> simp [Role.hasPrev]
    · exact (h.settled u).frame (by simp) (by simp) (by simp [hu])

/-- Taking the member behind out of the own link, on the way out or with the lock. -/
lemma Inv.take (h : Inv q s) {z : ι} {r : Role ι} (hz : s.next t = some z)
    (ho : r.owner = (s.role t).owner) (ha : r.attached = (s.role t).attached)
    (hk : r.taken = some z) (hout : s.role t ≠ .out ∧ r ≠ .out)
    (hp : (s.role t).hasPrev = false ∧ r.hasPrev = false) (hw : s.role t ≠ .waiting)
    (hf : r.front t = t) :
    Inv q ((s.setNext t none).setRole t r) := by
  obtain ⟨hadj, hwait, htaken⟩ := h.next_adj hz
  have hne := hadj.ne h.nodup
  have hrw : r ≠ .waiting := fun e => by simp [e, Role.taken] at hk
  apply Inv.of_parts h.nodup
  · intro u
    by_cases hu : u = t <;> simp [hu, h.mem, hout]
  · intro u hu
    by_cases hut : u = t
    · subst hut
      rcases h.first u hu with howner | ⟨hwaiting, -⟩
      · simp [First, ho, howner]
      · exact absurd hwaiting hw
    · simpa [First, hut] using h.first u hu
  · intro x y hxy
    have hj := h.joined hxy
    by_cases hx : x = t
    · subst hx
      obtain rfl := hxy.right_unique h.nodup hadj
      apply Joined.of_waiting
      · simpa [hne.symm] using hwait
      · simpa using hj.behind.1
      · simp [hk]
      · simpa [hne.symm, hf, Role.front_eq htaken] using hj.prev_ok (by rw [hwait]; rfl)
    · by_cases hy : y = t
      · subst hy
        constructor
        · simpa [ho] using hj.behind
        · simp [hrw]
        · simpa [Open, ha, hx] using hj.unlinked
        · simp [hp]
      · apply hj.frame <;> simp [hx, hy]
  · intro x hx
    have hxt : x ≠ t := fun e => hadj.last_ne h.nodup (e ▸ hx)
    simpa [Open, hxt] using h.last x hx
  · intro u
    by_cases hu : u = t
    · subst hu
      constructor <;> simp [hp]
    · exact (h.settled u).frame (by simp [hu]) (by simp) (by simp [hu])

lemma Inv.splicePrev (h : Inv q s) {p z : ι} (ht : s.role t = .splicing p z false) :
    Inv q ((s.setPrev z (some p)).setRole t (.splicing p z true)) := by
  obtain ⟨hfront, hopen⟩ := h.attached_adj (t := t) (p := p) (by rw [ht]; rfl)
  obtain ⟨hadj, hwait, hnext⟩ := h.taken_adj (x := t) (z := z) (by rw [ht]; rfl)
  have hne := hadj.ne h.nodup
  have hnp := hfront.ne h.nodup
  apply Inv.of_parts h.nodup
  · intro u
    by_cases hu : u = t <;> simp [hu, h.mem, ht]
  · intro u hu
    have hut : u ≠ t := fun e => hfront.head_ne h.nodup (e ▸ hu)
    simpa [First, hut] using h.first u hu
  · intro x y hxy
    have hl := (h.behind x y hxy).1
    by_cases hx : x = t
    · subst hx
      obtain rfl := hxy.right_unique h.nodup hadj
      apply Joined.of_waiting
      · simpa [hne.symm] using hwait
      · simpa using hl
      · simp [hnext, Role.taken]
      · simp [Role.front]
    · have hyz : y ≠ z := fun e => hx ((e ▸ hxy).left_unique h.nodup hadj)
      by_cases hy : y = t
      · subst hy
        obtain rfl := hxy.left_unique h.nodup hfront
        apply Joined.of_attached
        · simp [Role.attached]
        · simpa using hl
        · simpa [Open, hnp] using hopen
        · simp [Role.hasPrev]
      · apply (h.joined hxy).frame <;> simp [hx, hy, hyz]
  · intro x hx
    have hxt : x ≠ t := fun e => hadj.last_ne h.nodup (e ▸ hx)
    simpa [Open, hxt] using h.last x hx
  · intro u
    have hset := h.settled u
    by_cases hu : u = t
    · subst hu
      constructor <;> simp [Role.hasPrev]
    · refine ⟨by simpa [hu] using hset.idle, ?_⟩
      by_cases huz : u = z
      · simp [huz]
      · simpa [hu, huz] using hset.prev_some

/-- Leaving the queue takes nobody else out of it. -/
lemma Inv.mem_erase (h : Inv q s) (hr : ∀ u, s'.role u = if u = t then .out else s.role u)
    (u : ι) : u ∈ q.erase t ↔ s'.role u ≠ .out := by
  rw [h.nodup.mem_erase_iff, h.mem, hr]
  by_cases hu : u = t <;> simp [hu]

/-- The last of the queue goes; the one in front of it becomes the last. -/
lemma Inv.dropLast (h : Inv q s) (hl : q.getLast? = some t)
    (hr : (s.role t).attached ≠ none ∨ (s.role t).owner = true) :
    Inv (q.erase t) (s.setRole t .out) := by
  have hmem := List.mem_of_getLast? hl
  have hnot (y : ι) : ¬ Adj q t y := fun hy => hy.last_ne h.nodup hl
  apply Inv.of_parts (h.nodup.erase t)
  · exact h.mem_erase (by simp)
  · intro u hu
    rcases (head?_erase h.nodup hmem u).mp hu with ⟨hu, hut⟩ | ⟨-, hu⟩
    · simpa [First, hut] using h.first u hu
    · exact absurd hu (hnot u)
  · intro x y hxy
    rcases (adj_erase h.nodup hmem x y).mp hxy with ⟨hxy, hx, hy⟩ | ⟨-, hy⟩
    · apply (h.joined hxy).frame <;> simp [hx, hy]
    · exact absurd hy (hnot y)
  · intro x hx
    rcases (getLast?_erase h.nodup hmem x).mp hx with ⟨hx, hxt⟩ | ⟨-, hadj⟩
    · exact absurd (Option.some.inj (hx.symm.trans hl)) hxt
    · obtain ⟨p, hp⟩ : ∃ p, (s.role t).attached = some p := by
        rcases hr with hr | hr
        · exact Option.ne_none_iff_exists'.mp hr
        · exact absurd (h.owner_first hr) (hadj.head_ne h.nodup)
      simpa [Open, hadj.ne h.nodup] using (h.unlinked x t p hadj hp).2
  · intro u
    by_cases hu : u = t
    · subst hu
      exact ⟨fun _ => (h.last u hl).1, by simp [Role.hasPrev]⟩
    · exact (h.settled u).frame (by simp) (by simp) (by simp [hu])

/-- The second store of a splice: the neighbours are joined. -/
lemma Inv.spliceNext (h : Inv q s) {p z : ι} (ht : s.role t = .splicing p z true) :
    Inv (q.erase t) ((s.setNext p (some z)).setRole t .out) := by
  obtain ⟨hadj, hopen⟩ := h.attached_adj (t := t) (p := p) (by rw [ht]; rfl)
  obtain ⟨hadj', hwait, hnext⟩ := h.taken_adj (x := t) (z := z) (by rw [ht]; rfl)
  have hmem := hadj.mem_right
  have hne := hadj.ne h.nodup
  have hne' := hadj'.ne h.nodup
  apply Inv.of_parts (h.nodup.erase t)
  · exact h.mem_erase (by simp)
  · intro u hu
    rcases (head?_erase h.nodup hmem u).mp hu with ⟨hu, hut⟩ | ⟨hu, -⟩
    · simpa [First, hut] using h.first u hu
    · exact absurd hu (hadj.head_ne h.nodup)
  · intro x y hxy
    rcases (adj_erase h.nodup hmem x y).mp hxy with ⟨hxy, hx, hy⟩ | ⟨hx, hy⟩
    · have hxp : x ≠ p := fun e => hy ((e ▸ hxy).right_unique h.nodup hadj)
      apply (h.joined hxy).frame <;> simp [hx, hy, hxp]
    · -- `p` and `z` become neighbours
      obtain rfl := hx.left_unique h.nodup hadj
      obtain rfl := hy.right_unique h.nodup hadj'
      have hprev : s.prev y = some x := by
        simpa [ht, Role.front] using h.prev_ok t y hy (by rw [hwait]; rfl)
      apply Joined.of_waiting
      · simpa [hne'.symm] using hwait
      · simpa using (h.behind t y hy).1
      · simp [hne, hopen.2]
      · simpa [hne, Role.front_eq hopen.2] using hprev
  · intro x hx
    rcases (getLast?_erase h.nodup hmem x).mp hx with ⟨hx, hxt⟩ | ⟨hx, -⟩
    · have hxp : x ≠ p := fun e => hadj.last_ne h.nodup (e ▸ hx)
      simpa [Open, hxt, hxp] using h.last x hx
    · exact absurd hx (hadj'.last_ne h.nodup)
  · intro u
    have hset := h.settled u
    by_cases hu : u = t
    · subst hu
      exact ⟨by simp [hne.symm, hnext], by simp [Role.hasPrev]⟩
    · by_cases hup : u = p
      · subst hup
        have hin := (h.mem u).mp hadj.mem_left
        exact ⟨by simp [hu, hin], by simpa [hu] using hset.prev_some⟩
      · exact hset.frame (by simp [hup]) (by simp) (by simp [hu])

/-- The owner goes and the member behind it is first, with the lock granted. -/
lemma Inv.grant (h : Inv q s) {z : ι} (ht : s.role t = .granting z) :
    Inv (q.erase t) ((s.setLocked z 1).setRole t .out) := by
  obtain ⟨hadj, hwait, hnext⟩ := h.taken_adj (x := t) (z := z) (by rw [ht]; rfl)
  have hfirst := h.owner_first (t := t) (by rw [ht]; rfl)
  have hmem := hadj.mem_left
  have hne := hadj.ne h.nodup
  apply Inv.of_parts (h.nodup.erase t)
  · exact h.mem_erase (by simp)
  · intro u hu
    rcases (head?_erase h.nodup hmem u).mp hu with ⟨hu, hut⟩ | ⟨-, hu⟩
    · exact absurd (Option.some.inj (hu.symm.trans hfirst)) hut
    · obtain rfl := hu.right_unique h.nodup hadj
      exact Or.inr (by simp [hne.symm, hwait])
  · intro x y hxy
    rcases (adj_erase h.nodup hmem x y).mp hxy with ⟨hxy, hx, hy⟩ | ⟨hx, -⟩
    · have hyz : y ≠ z := fun e => hx ((e ▸ hxy).left_unique h.nodup hadj)
      apply (h.joined hxy).frame <;> simp [hx, hy, hyz]
    · exact absurd hfirst (hx.head_ne h.nodup)
  · intro x hx
    rcases (getLast?_erase h.nodup hmem x).mp hx with ⟨hx, hxt⟩ | ⟨hx, -⟩
    · simpa [Open, hxt] using h.last x hx
    · exact absurd hx (hadj.last_ne h.nodup)
  · intro u
    by_cases hu : u = t
    · subst hu
      exact ⟨fun _ => hnext, by simp [Role.hasPrev]⟩
    · exact (h.settled u).frame (by simp) (by simp) (by simp [hu])

/-- Every store keeps the invariant. -/
theorem Step.inv (hs : Step t q s q' s') (h : Inv q s) : Inv q' s' := by
  cases hs with
  | reset ht => exact h.reset ht
  | enqueueFirst ht => exact h.enqueueFirst
  | enqueue p ht hl hp => exact h.enqueue ht hl hp
  | storePrev p ht => exact h.storePrev ht
  | link p ht => exact h.link ht
  | acquire ht hl => exact h.acquire ht hl
  | commit p ht hp => exact h.commit ht hp
  | leaveLast p ht hl => exact h.dropLast hl (by simp [ht, Role.attached])
  | releaseLast ht hl => exact h.dropLast hl (by simp [ht, Role.owner])
  | takeLeaving p z ht hz =>
    apply h.take hz <;> simp [ht, Role.owner, Role.attached, Role.taken, Role.hasPrev, Role.front]
  | takeHolding z ht hz =>
    apply h.take hz <;> simp [ht, Role.owner, Role.attached, Role.taken, Role.hasPrev, Role.front]
  | splicePrev p z ht => exact h.splicePrev ht
  | spliceNext p z ht => exact h.spliceNext ht
  | grant z ht => exact h.grant ht

end Steps
end Interleaving.LinkedQueue
