import Lockhammer.Interleaving.Fairness
import Lockhammer.Interleaving.Queue
import Lockhammer.Atomics.Primitives

/-!
# The CLH lock of ext/sms/clh_spinlock.h

A thread publishes its node by an exchange on `tail` and polls the node it got back.
On release it clears its own node and keeps the polled one for its next call, so nodes
migrate between threads. `threads` nodes come from `clh_nodepool`, one more is the dummy
node inside `global_clh_lock`.
-/
namespace Lockhammer.ClhSpinlock
open Interleaving Interleaving.Queue

/-- The address of a `struct clh_node`. -/
inductive Node (n : ℕ)
  | dummy
  | pool (i : Fin n)
  deriving DecidableEq

/-- `global_clh_lock.tail`, the fields of all nodes, and `clh_nodeptr`. -/
structure Shared (n : ℕ) where
  tail : Node n
  wait : Node n → Word
  prev : Node n → Option (Node n)
  nodeptr : Fin n → Option (Node n)

def Shared.setWait {n : ℕ} (s : Shared n) (node : Node n) (v : Word) : Shared n :=
  { s with wait := Function.update s.wait node v }

def Shared.setPrev {n : ℕ} (s : Shared n) (node : Node n) (v : Option (Node n)) : Shared n :=
  { s with prev := Function.update s.prev node v }

def Shared.setPtr {n : ℕ} (s : Shared n) (t : Fin n) (v : Option (Node n)) : Shared n :=
  { s with nodeptr := Function.update s.nodeptr t v }

/-- The dummy node is the tail; both arrays come zeroed from `calloc`. -/
def clhLockInit (n : ℕ) : Shared n where
  tail := .dummy
  wait _ := 0
  prev _ := none
  nodeptr _ := none

def clhThreadLocalInit {n : ℕ} (s : Shared n) (smtid : Fin n) : Shared n :=
  (s.setWait (.pool smtid) 1).setPtr smtid (some (.pool smtid))

/-- Where a thread is, with the pointers it holds in registers. A null dereference goes
to `fault`. -/
inductive Pc (n : ℕ)
  | idle
  | setWait (node : Node n)
  | exchange (node : Node n)
  | setPrev (node prev : Node n)
  | check (prev : Node n)
  | poll (prev : Node n)
  | critical
  | readPrev
  | clearWait (prev : Option (Node n))
  | setPtr (prev : Option (Node n))
  | fault
  deriving DecidableEq

/-- One atomic step of `lock_acquire` (up to `critical`) or `lock_release`. With
`use_wfe` one load comes before the loop of exclusive loads. -/
def step {n : ℕ} (useWfe : Bool) (t : Fin n) (s : Shared n) : Pc n → Shared n × Pc n
  | .idle =>
    match s.nodeptr t with
    | some node => (s, .setWait node)
    | none => (s, .fault)
  | .setWait node => (s.setWait node 1, .exchange node)
  | .exchange node => ({ s with tail := node }, .setPrev node s.tail)
  | .setPrev node prev =>
    (s.setPrev node (some prev), if useWfe then .check prev else .poll prev)
  | .check prev => (s, if s.wait prev ≠ 0 then .poll prev else .critical)
  | .poll prev => (s, if s.wait prev ≠ 0 then .poll prev else .critical)
  | .critical => (s, .readPrev)
  | .readPrev =>
    match s.nodeptr t with
    | some node => (s, .clearWait (s.prev node))
    | none => (s, .fault)
  | .clearWait prev =>
    match s.nodeptr t with
    | some node => (s.setWait node 0, .setPtr prev)
    | none => (s, .fault)
  | .setPtr prev => (s.setPtr t prev, .idle)
  | .fault => (s, .fault)

def machine (n : ℕ) (useWfe : Bool) : Machine (Fin n) Unit (Shared n) (Pc n) where
  step t _ := step useWfe t

/-- After `clh_lock_init` and the `clh_thread_local_init` of every thread. -/
def start (n : ℕ) : Config (Fin n) (Shared n) (Pc n) :=
  ⟨(List.finRange n).foldl clhThreadLocalInit (clhLockInit n), fun _ => .idle⟩

inductive Event (n : ℕ)
  | exchange (t : Fin n)
  | enter (t : Fin n)
  | release (node : Node n)

/-- The exchange on `tail`, the poll that lets a thread in, and the store `wait = 0`. -/
def obs {n : ℕ} (t : Fin n) (_ : Unit) (s : Shared n) : Pc n → Option (Event n)
  | .exchange _ => some (.exchange t)
  | .check prev => if s.wait prev ≠ 0 then none else some (.enter t)
  | .poll prev => if s.wait prev ≠ 0 then none else some (.enter t)
  | .clearWait _ => (s.nodeptr t).map .release
  | _ => none

def exchanges {n : ℕ} (tr : List (Event n)) : List (Fin n) :=
  tr.filterMap fun
    | .exchange t => some t
    | _ => none

def enters {n : ℕ} (tr : List (Event n)) : List (Fin n) :=
  tr.filterMap fun
    | .enter t => some t
    | _ => none

def releases {n : ℕ} (tr : List (Event n)) : List (Node n) :=
  tr.filterMap fun
    | .release node => some node
    | _ => none

/-- The last released tail node; before any release it is the dummy node. -/
def lastReleased {n : ℕ} (tr : List (Event n)) : Node n := (releases tr).getLast?.getD .dummy

/-- From the poll that succeeds to the store that releases. -/
def Pc.holding {n : ℕ} : Pc n → Bool
  | .critical | .readPrev | .clearWait _ => true
  | _ => false

/-- What the first of the queue still has to do before it leaves. -/
def Pc.phase {n : ℕ} : Pc n → ℕ
  | .setPrev _ _ => 6
  | .check _ => 5
  | .poll _ => 4
  | .critical => 3
  | .readPrev => 2
  | .clearWait _ => 1
  | _ => 0

/-- The node a thread has published, or else the one it will use next. -/
def ownedNode {n : ℕ} (c : Config (Fin n) (Shared n) (Pc n)) (t : Fin n) : Option (Node n) :=
  match c.loc t with
  | .setPtr prev => prev
  | _ => c.shared.nodeptr t

section Invariant
variable {n : ℕ} {useWfe : Bool}

/-- `p` is the node that `t` polls: the one of the thread in front, or the released one. -/
def Pred (q : List (Fin n)) (own : Fin n → Node n) (free : Node n) (t : Fin n) (p : Node n) : Prop :=
  (q.head? = some t ∧ p = free) ∨ ∃ x, Adj q x t ∧ p = own x

/-- What holds of a thread at each place, for the queue `q` of published nodes. -/
def LocalOk (s : Shared n) (q : List (Fin n)) (own : Fin n → Node n) (free : Node n) (t : Fin n) :
    Pc n → Prop
  | .idle => t ∉ q ∧ s.nodeptr t = some (own t)
  | .setWait node => t ∉ q ∧ s.nodeptr t = some (own t) ∧ node = own t
  | .exchange node => t ∉ q ∧ s.nodeptr t = some (own t) ∧ node = own t ∧ s.wait (own t) ≠ 0
  | .setPrev node prev =>
    t ∈ q ∧ s.nodeptr t = some (own t) ∧ node = own t ∧ Pred q own free t prev
  | .check prev | .poll prev =>
    t ∈ q ∧ s.nodeptr t = some (own t) ∧ Pred q own free t prev ∧ s.prev (own t) = some prev
  | .critical | .readPrev =>
    q.head? = some t ∧ s.nodeptr t = some (own t) ∧ s.prev (own t) = some free
  | .clearWait prev => q.head? = some t ∧ s.nodeptr t = some (own t) ∧ prev = some free
  | .setPtr prev => t ∉ q ∧ prev = some (own t)
  | .fault => False

structure Inv (tr : List (Event n)) (c : Config (Fin n) (Shared n) (Pc n)) (q : List (Fin n))
    (own : Fin n → Node n) : Prop where
  nodup : q.Nodup
  own_inj : Function.Injective own
  own_ne_free : ∀ t, own t ≠ lastReleased tr
  wait_free : c.shared.wait (lastReleased tr) = 0
  wait_own : ∀ t ∈ q, c.shared.wait (own t) ≠ 0
  tail_last : ∀ t, q.getLast? = some t → c.shared.tail = own t
  tail_free : q = [] → c.shared.tail = lastReleased tr
  local_ok : ∀ t, LocalOk c.shared q own (lastReleased tr) t (c.loc t)
  order : exchanges tr = enters tr ++ q.filter fun t => !(c.loc t).holding

variable {tr : List (Event n)} {c : Config (Fin n) (Shared n) (Pc n)} {q : List (Fin n)}
  {own : Fin n → Node n} {t : Fin n}

lemma init_shared (n : ℕ) :
    (start n).shared.tail = .dummy ∧ (start n).shared.wait .dummy = 0 ∧
      ∀ t, (start n).shared.nodeptr t = some (.pool t) := by
  have h : ∀ (l : List (Fin n)) (s : Shared n), s.tail = .dummy → s.wait .dummy = 0 →
      (l.foldl clhThreadLocalInit s).tail = .dummy ∧
      (l.foldl clhThreadLocalInit s).wait .dummy = 0 ∧
      ∀ t, (t ∈ l ∨ s.nodeptr t = some (.pool t)) →
        (l.foldl clhThreadLocalInit s).nodeptr t = some (.pool t) := by
    intro l
    induction l with
    | nil => intro s h1 h2; exact ⟨h1, h2, by simp⟩
    | cons a l ih =>
      intro s h1 h2
      obtain ⟨h1', h2', h3'⟩ := ih (clhThreadLocalInit s a) h1
        (by simp [clhThreadLocalInit, Shared.setWait, Shared.setPtr, h2])
      refine ⟨h1', h2', fun t ht => h3' t ?_⟩
      by_cases he : t = a
      · exact Or.inr (by simp [he, clhThreadLocalInit, Shared.setPtr])
      · rcases ht with ht | ht
        · exact Or.inl ((List.mem_cons.mp ht).resolve_left he)
        · exact Or.inr (by simpa [clhThreadLocalInit, Shared.setPtr, Shared.setWait, he] using ht)
  obtain ⟨h1, h2, h3⟩ := h (List.finRange n) (clhLockInit n) rfl rfl
  exact ⟨h1, h2, fun t => h3 t (Or.inl (List.mem_finRange t))⟩

lemma start_inv (n : ℕ) : Inv [] (start n) [] Node.pool where
  nodup := List.nodup_nil
  own_inj _ _ h := Node.pool.inj h
  own_ne_free _ := by simp [lastReleased, releases]
  wait_free := (init_shared n).2.1
  wait_own _ h := by simp at h
  tail_last _ h := by simp at h
  tail_free _ := (init_shared n).1
  local_ok t := ⟨List.not_mem_nil, (init_shared n).2.2 t⟩
  order := rfl

/-- A thread sees the store only through its own node and its own pointer. -/
lemma LocalOk.frame {s s' : Shared n} {free : Node n} {p : Pc n} (h : LocalOk s q own free t p)
    (hn : s'.nodeptr t = s.nodeptr t) (hp : s'.prev (own t) = s.prev (own t))
    (hw : s.wait (own t) ≠ 0 → s'.wait (own t) ≠ 0) : LocalOk s' q own free t p := by
  cases p with
  | exchange node => exact ⟨h.1, hn.trans h.2.1, h.2.2.1, hw h.2.2.2⟩
  | setPtr prev => exact h
  | fault => exact h
  | idle => exact ⟨h.1, hn.trans h.2⟩
  | setWait node => exact ⟨h.1, hn.trans h.2.1, h.2.2⟩
  | setPrev node prev => exact ⟨h.1, hn.trans h.2.1, h.2.2⟩
  | check prev => exact ⟨h.1, hn.trans h.2.1, h.2.2.1, hp.trans h.2.2.2⟩
  | poll prev => exact ⟨h.1, hn.trans h.2.1, h.2.2.1, hp.trans h.2.2.2⟩
  | critical => exact ⟨h.1, hn.trans h.2.1, hp.trans h.2.2⟩
  | readPrev => exact ⟨h.1, hn.trans h.2.1, hp.trans h.2.2⟩
  | clearWait prev => exact ⟨h.1, hn.trans h.2.1, h.2.2⟩

/-- Only the first thread of the queue can hold the lock. -/
lemma LocalOk.head_of_holding {s : Shared n} {free : Node n} {p : Pc n}
    (h : LocalOk s q own free t p) (hp : p.holding = true) : q.head? = some t := by
  cases p with
  | critical => exact h.1
  | readPrev => exact h.1
  | clearWait prev => exact h.1
  | _ => simp [Pc.holding] at hp

lemma lastReleased_append (tr : List (Event n)) (e : Event n) :
    lastReleased (tr ++ [e]) =
      match e with
      | .release node => node
      | _ => lastReleased tr := by
  cases e <;> simp [lastReleased, releases]

/-- Steps that keep the queue and touch no node but the thread's own. -/
lemma Inv.quiet (h : Inv tr c q own) {s' : Shared n} {p : Pc n}
    (ht : s'.tail = c.shared.tail)
    (hw : ∀ node, s'.wait node = c.shared.wait node ∨ (node = own t ∧ s'.wait node ≠ 0))
    (hp : ∀ u, u ≠ t → s'.prev (own u) = c.shared.prev (own u))
    (hn : ∀ u, u ≠ t → s'.nodeptr u = c.shared.nodeptr u)
    (hh : p.holding = (c.loc t).holding) (hl : LocalOk s' q own (lastReleased tr) t p) :
    Inv tr ⟨s', Function.update c.loc t p⟩ q own := by
  have hkeep (node : Node n) (hne : c.shared.wait node ≠ 0) : s'.wait node ≠ 0 := by
    rcases hw node with he | ⟨-, he⟩
    · rwa [he]
    · exact he
  refine ⟨h.nodup, h.own_inj, h.own_ne_free, ?_, ?_, ?_, ?_, ?_, ?_⟩
  · rcases hw (lastReleased tr) with he | ⟨he, -⟩
    · exact he.trans h.wait_free
    · exact absurd he.symm (h.own_ne_free t)
  · intro u hu
    exact hkeep _ (h.wait_own u hu)
  · intro u hu
    exact ht.trans (h.tail_last u hu)
  · intro he
    exact ht.trans (h.tail_free he)
  · intro u
    by_cases hu : u = t
    · subst hu
      simpa using hl
    · simpa [hu] using (h.local_ok u).frame (hn u hu) (hp u hu) (hkeep _)
  · rw [h.order]
    congr 1
    apply List.filter_congr
    intro u _
    by_cases hu : u = t
    · simp [hu, hh]
    · simp [hu]

/-- The poll that reads 0 was on the released node, so the thread is first. -/
lemma Inv.head_of_wait_zero (h : Inv tr c q own) {prev : Node n}
    (hpred : Pred q own (lastReleased tr) t prev) (hz : c.shared.wait prev = 0) :
    q.head? = some t ∧ prev = lastReleased tr := by
  rcases hpred with hpred | ⟨x, hx, rfl⟩
  · exact hpred
  · exact absurd hz (h.wait_own x hx.mem_left)

/-- And the first polls the released node. -/
lemma Inv.wait_zero_of_head (h : Inv tr c q own) {prev : Node n} (hhead : q.head? = some t)
    (hpred : Pred q own (lastReleased tr) t prev) : c.shared.wait prev = 0 := by
  rcases hpred with ⟨-, rfl⟩ | ⟨x, hx, -⟩
  · exact h.wait_free
  · exact absurd hhead (hx.head_ne h.nodup)

lemma Inv.enter (h : Inv tr c q own) {prev : Node n}
    (hnode : c.shared.nodeptr t = some (own t)) (hpred : Pred q own (lastReleased tr) t prev)
    (hprev : c.shared.prev (own t) = some prev) (hout : (c.loc t).holding = false)
    (hz : c.shared.wait prev = 0) :
    Inv (tr ++ [.enter t]) ⟨c.shared, Function.update c.loc t .critical⟩ q own := by
  obtain ⟨hhead, rfl⟩ := h.head_of_wait_zero hpred hz
  have hfree : lastReleased (tr ++ [.enter t]) = lastReleased tr := lastReleased_append tr _
  obtain ⟨q, rfl⟩ := List.head?_eq_some_iff.mp hhead
  refine ⟨h.nodup, h.own_inj, ?_, ?_, h.wait_own, h.tail_last, by simp, ?_, ?_⟩
  · rw [hfree]
    exact h.own_ne_free
  · rw [hfree]
    exact h.wait_free
  · intro u
    rw [hfree]
    by_cases hu : u = t
    · subst hu
      simpa using (show LocalOk c.shared (u :: q) own _ u .critical from ⟨hhead, hnode, hprev⟩)
    · simpa [hu] using h.local_ok u
  · have hrest : q.filter (fun u => !(Function.update c.loc t .critical u).holding) =
        q.filter fun u => !(c.loc u).holding := by
      apply List.filter_congr
      intro u hu
      have hne : u ≠ t := fun e => (List.nodup_cons.mp h.nodup).1 (e ▸ hu)
      simp [hne]
    have horder := h.order
    rw [List.filter_cons_of_pos (by simp [hout])] at horder
    rw [List.filter_cons_of_neg (by simp [Pc.holding]), hrest]
    simpa [exchanges, enters] using horder

/-- A load of `prev->wait`, before or inside the loop. -/
lemma Inv.load (h : Inv tr c q own) {prev : Node n}
    (hl : LocalOk c.shared q own (lastReleased tr) t (.poll prev))
    (hout : (c.loc t).holding = false) :
    Inv (tr ++ (if c.shared.wait prev ≠ 0 then none else some (.enter t)).toList)
      ⟨c.shared, Function.update c.loc t (if c.shared.wait prev ≠ 0 then .poll prev else .critical)⟩
      q own := by
  by_cases hz : c.shared.wait prev = 0
  · rw [if_neg (not_not.mpr hz), if_neg (not_not.mpr hz)]
    exact h.enter hl.2.1 hl.2.2.1 hl.2.2.2 hout hz
  · rw [if_pos hz, if_pos hz]
    simpa using h.quiet rfl (fun _ => Or.inl rfl) (fun _ _ => rfl) (fun _ _ => rfl)
      (by rw [hout]; rfl) hl

lemma Pred.push {free : Node n} {u : Fin n} {p : Node n} (h : Pred q own free u p) (t : Fin n) :
    Pred (q ++ [t]) own free u p := by
  rcases h with ⟨hu, hp⟩ | ⟨x, hx, hp⟩
  · exact Or.inl ⟨(head?_push q t u).mpr (Or.inl hu), hp⟩
  · exact Or.inr ⟨x, (adj_push q t x u).mpr (Or.inl hx), hp⟩

lemma LocalOk.push {s : Shared n} {free : Node n} {u : Fin n} {p : Pc n}
    (h : LocalOk s q own free u p) (hut : u ≠ t) : LocalOk s (q ++ [t]) own free u p := by
  have hout (hu : u ∉ q) : u ∉ q ++ [t] := by simp [hu, hut]
  have hin (hu : u ∈ q) : u ∈ q ++ [t] := List.mem_append_left [t] hu
  have hhead (hu : q.head? = some u) : (q ++ [t]).head? = some u :=
    (head?_push q t u).mpr (Or.inl hu)
  cases p with
  | idle => exact ⟨hout h.1, h.2⟩
  | setWait node => exact ⟨hout h.1, h.2⟩
  | exchange node => exact ⟨hout h.1, h.2⟩
  | setPrev node prev => exact ⟨hin h.1, h.2.1, h.2.2.1, h.2.2.2.push t⟩
  | check prev => exact ⟨hin h.1, h.2.1, h.2.2.1.push t, h.2.2.2⟩
  | poll prev => exact ⟨hin h.1, h.2.1, h.2.2.1.push t, h.2.2.2⟩
  | critical => exact ⟨hhead h.1, h.2⟩
  | readPrev => exact ⟨hhead h.1, h.2⟩
  | clearWait prev => exact ⟨hhead h.1, h.2⟩
  | setPtr prev => exact ⟨hout h.1, h.2⟩
  | fault => exact h

/-- The exchange appends the thread; what it gets back is the node in front. -/
lemma Inv.exchange (h : Inv tr c q own) {node : Node n} (hpc : c.loc t = .exchange node) :
    Inv (tr ++ [.exchange t])
      ⟨{ c.shared with tail := node }, Function.update c.loc t (.setPrev node c.shared.tail)⟩
      (q ++ [t]) own := by
  have hl := h.local_ok t
  rw [hpc] at hl
  obtain ⟨hout, hnode, rfl, hwait⟩ := hl
  have hfree : lastReleased (tr ++ [.exchange t]) = lastReleased tr := lastReleased_append tr _
  have hpred : Pred (q ++ [t]) own (lastReleased tr) t c.shared.tail := by
    cases hlast : q.getLast? with
    | none =>
      have hnil := List.getLast?_eq_none_iff.mp hlast
      exact Or.inl ⟨by simp [hnil], h.tail_free hnil⟩
    | some x => exact Or.inr ⟨x, (adj_push q t x t).mpr (Or.inr ⟨hlast, rfl⟩), h.tail_last x hlast⟩
  refine ⟨?_, h.own_inj, ?_, ?_, ?_, ?_, by simp, ?_, ?_⟩
  · exact h.nodup.append (List.nodup_singleton t) (by simpa using hout)
  · rw [hfree]
    exact h.own_ne_free
  · rw [hfree]
    exact h.wait_free
  · intro u hu
    rcases List.mem_append.mp hu with hu | hu
    · exact h.wait_own u hu
    · rw [List.mem_singleton.mp hu]
      exact hwait
  · intro u hu
    rw [getLast?_push] at hu
    rw [Option.some.inj hu]
  · intro u
    rw [hfree]
    by_cases hu : u = t
    · subst hu
      simpa [LocalOk, hnode] using hpred
    · have := (h.local_ok u).push hu
      simp only [Function.update_of_ne hu]
      exact this.frame rfl rfl id
  · have hrest : q.filter (fun u => !(Function.update c.loc t (.setPrev (own t) c.shared.tail) u).holding) =
        q.filter fun u => !(c.loc u).holding := by
      apply List.filter_congr
      intro u hu
      have hne : u ≠ t := fun e => hout (e ▸ hu)
      simp [hne]
    rw [List.filter_append, hrest]
    have horder := h.order
    simp [exchanges, enters, Pc.holding] at horder ⊢
    rw [horder]
    simp

/-- The released node is the one the next thread polls. -/
lemma Pred.pop {free : Node n} {u : Fin n} {p : Node n} (hq : (t :: q).Nodup)
    (h : Pred (t :: q) own free u p) (hut : u ≠ t) :
    Pred q (Function.update own t free) (own t) u p := by
  rcases h with ⟨hu, -⟩ | ⟨x, ⟨rfl, hx⟩ | hx, rfl⟩
  · exact absurd (Option.some.inj hu).symm hut
  · exact Or.inl ⟨hx, rfl⟩
  · have hne : x ≠ t := fun e => (List.nodup_cons.mp hq).1 (e ▸ hx.mem_left)
    exact Or.inr ⟨x, hx, by simp [hne]⟩

lemma LocalOk.pop {s : Shared n} {free : Node n} {u : Fin n} {p : Pc n} (hq : (t :: q).Nodup)
    (hinj : Function.Injective own) (h : LocalOk s (t :: q) own free u p) (hut : u ≠ t) :
    LocalOk (s.setWait (own t) 0) q (Function.update own t free) (own t) u p := by
  have hown : Function.update own t free u = own u := by simp [hut]
  have hwait : (s.setWait (own t) 0).wait (own u) = s.wait (own u) := by
    simp [Shared.setWait, hinj.ne hut]
  have hout (hu : u ∉ t :: q) : u ∉ q := fun he => hu (List.mem_cons_of_mem t he)
  have hin (hu : u ∈ t :: q) : u ∈ q := (List.mem_cons.mp hu).resolve_left hut
  have hhead : (t :: q).head? ≠ some u := fun he => hut (Option.some.inj he).symm
  cases p with
  | idle => simpa [LocalOk, hown] using ⟨hout h.1, h.2⟩
  | setWait node => simpa [LocalOk, hown] using ⟨hout h.1, h.2⟩
  | exchange node =>
    refine ⟨hout h.1, ?_⟩
    rw [hown, hwait]
    exact h.2
  | setPrev node prev =>
    simpa [LocalOk, hown] using ⟨hin h.1, h.2.1, h.2.2.1, h.2.2.2.pop hq hut⟩
  | check prev => simpa [LocalOk, hown] using ⟨hin h.1, h.2.1, h.2.2.1.pop hq hut, h.2.2.2⟩
  | poll prev => simpa [LocalOk, hown] using ⟨hin h.1, h.2.1, h.2.2.1.pop hq hut, h.2.2.2⟩
  | critical => exact absurd h.1 hhead
  | readPrev => exact absurd h.1 hhead
  | clearWait prev => exact absurd h.1 hhead
  | setPtr prev => simpa [LocalOk, hown] using ⟨hout h.1, h.2⟩
  | fault => exact h

/-- The release exchanges roles: the holder's node becomes the released one, and the
node released before belongs to the holder. -/
lemma Inv.release (h : Inv tr c (t :: q) own) {prev : Option (Node n)}
    (hprev : prev = some (lastReleased tr)) (hold : (c.loc t).holding = true) :
    Inv (tr ++ [.release (own t)])
      ⟨c.shared.setWait (own t) 0, Function.update c.loc t (.setPtr prev)⟩
      q (Function.update own t (lastReleased tr)) := by
  have hfree : lastReleased (tr ++ [.release (own t)]) = own t := lastReleased_append tr _
  obtain ⟨hout, hnd⟩ := List.nodup_cons.mp h.nodup
  have hother {u : Fin n} (hu : u ∈ q) : u ≠ t := fun e => hout (e ▸ hu)
  refine ⟨hnd, ?_, ?_, ?_, ?_, ?_, ?_, ?_, ?_⟩
  · intro u v huv
    by_cases hu : u = t <;> by_cases hv : v = t
    · rw [hu, hv]
    · exact absurd (by simpa [hu, hv] using huv.symm) (h.own_ne_free v)
    · exact absurd (by simpa [hu, hv] using huv) (h.own_ne_free u)
    · exact h.own_inj (by simpa [hu, hv] using huv)
  · intro u
    rw [hfree]
    by_cases hu : u = t
    · simpa [hu] using (h.own_ne_free t).symm
    · simpa [hu] using h.own_inj.ne hu
  · simp [hfree, Shared.setWait]
  · intro u hu
    simpa [hother hu, Shared.setWait, h.own_inj.ne (hother hu)] using
      h.wait_own u (List.mem_cons_of_mem t hu)
  · intro u hu
    have hlast : (t :: q).getLast? = some u := by
      cases q with
      | nil => simp at hu
      | cons a q => rwa [List.getLast?_cons_cons]
    simpa [hother (List.mem_of_getLast? hu), Shared.setWait] using h.tail_last u hlast
  · rintro rfl
    rw [hfree]
    exact h.tail_last t rfl
  · intro u
    rw [hfree]
    by_cases hu : u = t
    · subst hu
      simpa [LocalOk] using ⟨hout, hprev⟩
    · simpa [hu] using (h.local_ok u).pop h.nodup h.own_inj hu
  · have hrest : q.filter (fun u => !(Function.update c.loc t (.setPtr prev) u).holding) =
        q.filter fun u => !(c.loc u).holding := by
      apply List.filter_congr
      intro u hu
      simp [hother hu]
    have horder := h.order
    rw [List.filter_cons_of_neg (by simp [hold])] at horder
    rw [hrest]
    simpa [exchanges, enters] using horder

/-- A load moves the thread unless it waits behind another one. -/
lemma Inv.load_moves (h : Inv tr c q own) {prev : Node n} {p : Pc n}
    (hpred : Pred q own (lastReleased tr) t prev) (hp : 4 ≤ p.phase) :
    Moves (·.holding = true) Pc.phase t q q p (if c.shared.wait prev ≠ 0 then .poll prev else .critical) := by
  refine .same fun hhead => ?_
  rw [if_neg (not_not.mpr (h.wait_zero_of_head hhead hpred))]
  exact hp

/-- Every step keeps the invariant, for a queue and an assignment of nodes that follow. -/
theorem step_moves (h : Inv tr c q own) (t : Fin n) :
    ∃ q' own', Inv (tr ++ (obs t () c.shared (c.loc t)).toList)
      ((machine n useWfe).fire t () c) q' own' ∧
      Moves (·.holding = true) Pc.phase t q q' (c.loc t) (((machine n useWfe).fire t () c).loc t) := by
  have hl := h.local_ok t
  have hsame (node : Node n) : c.shared.wait node = c.shared.wait node ∨
    (node = own t ∧ c.shared.wait node ≠ 0) := Or.inl rfl
  have hqueued {P : Prop} (hout : t ∉ q) (hhead : q.head? = some t) : P :=
    absurd (List.mem_of_head? hhead) hout
  cases hpc : c.loc t with
  | idle =>
    rw [hpc] at hl
    refine ⟨q, own, ?_⟩
    rw [Machine.fire_eq _ (s := c.shared) (p := .setWait (own t))
      (by simp [machine, hpc, step, hl.2])]
    simp only [obs, Option.toList_none, List.append_nil]
    exact ⟨h.quiet rfl hsame (fun _ _ => rfl) (fun _ _ => rfl) (by rw [hpc]; rfl)
      ⟨hl.1, hl.2, rfl⟩, .same (hqueued hl.1)⟩
  | setWait node =>
    rw [hpc] at hl
    obtain ⟨hout, hnode, rfl⟩ := hl
    refine ⟨q, own, ?_⟩
    rw [Machine.fire_eq _ (s := c.shared.setWait (own t) 1) (p := .exchange (own t))
      (by simp [machine, hpc, step])]
    simp only [obs, Option.toList_none, List.append_nil]
    refine ⟨h.quiet rfl ?_ (fun _ _ => rfl) (fun _ _ => rfl) (by rw [hpc]; rfl)
      ⟨hout, hnode, rfl, by simp [Shared.setWait]⟩, .same (hqueued hout)⟩
    intro node
    by_cases he : node = own t
    · exact Or.inr ⟨he, by simp [Shared.setWait, he]⟩
    · exact Or.inl (by simp [Shared.setWait, he])
  | exchange node =>
    rw [hpc] at hl
    refine ⟨q ++ [t], own, ?_⟩
    rw [Machine.fire_eq _ (s := { c.shared with tail := node })
      (p := .setPrev node c.shared.tail) (by simp [machine, hpc, step])]
    exact ⟨h.exchange hpc, .of_not_mem hl.1 [t]⟩
  | setPrev node prev =>
    rw [hpc] at hl
    obtain ⟨hin, hnode, rfl, hpred⟩ := hl
    refine ⟨q, own, ?_⟩
    rw [Machine.fire_eq _ (s := c.shared.setPrev (own t) (some prev))
      (p := if useWfe then .check prev else .poll prev) (by simp [machine, hpc, step])]
    simp only [obs, Option.toList_none, List.append_nil]
    refine ⟨h.quiet rfl (fun _ => Or.inl rfl) ?_ (fun _ _ => rfl) ?_ ?_, .same fun _ => ?_⟩
    · intro u hu
      simp [Shared.setPrev, h.own_inj.ne hu]
    · rw [hpc]
      cases useWfe <;> rfl
    · cases useWfe <;> exact ⟨hin, hnode, hpred, by simp [Shared.setPrev]⟩
    · cases useWfe <;> simp [Pc.phase]
  | check prev =>
    rw [hpc] at hl
    refine ⟨q, own, ?_⟩
    rw [Machine.fire_eq _ (s := c.shared) (p := if c.shared.wait prev ≠ 0 then .poll prev
      else .critical) (by rw [hpc]; rfl)]
    refine ⟨h.load hl (by rw [hpc]; rfl), ?_⟩
    simpa using h.load_moves hl.2.2.1 (by simp [Pc.phase])
  | poll prev =>
    rw [hpc] at hl
    refine ⟨q, own, ?_⟩
    rw [Machine.fire_eq _ (s := c.shared) (p := if c.shared.wait prev ≠ 0 then .poll prev
      else .critical) (by rw [hpc]; rfl)]
    refine ⟨h.load hl (by rw [hpc]; rfl), ?_⟩
    simpa using h.load_moves hl.2.2.1 (by simp [Pc.phase])
  | critical =>
    rw [hpc] at hl
    refine ⟨q, own, ?_⟩
    rw [Machine.fire_eq _ (s := c.shared) (p := .readPrev) (by simp [machine, hpc, step])]
    simp only [obs, Option.toList_none, List.append_nil]
    exact ⟨h.quiet rfl hsame (fun _ _ => rfl) (fun _ _ => rfl) (by rw [hpc]; rfl) hl,
      .same (fun _ => by simp [Pc.phase])⟩
  | readPrev =>
    rw [hpc] at hl
    refine ⟨q, own, ?_⟩
    rw [Machine.fire_eq _ (s := c.shared) (p := .clearWait (some (lastReleased tr)))
      (by simp [machine, hpc, step, hl.2.1, hl.2.2])]
    simp only [obs, Option.toList_none, List.append_nil]
    exact ⟨h.quiet rfl hsame (fun _ _ => rfl) (fun _ _ => rfl) (by rw [hpc]; rfl)
      ⟨hl.1, hl.2.1, rfl⟩, .same (fun _ => by simp [Pc.phase])⟩
  | clearWait prev =>
    rw [hpc] at hl
    obtain ⟨hhead, hnode, hprev⟩ := hl
    obtain ⟨q, rfl⟩ := List.head?_eq_some_iff.mp hhead
    refine ⟨q, Function.update own t (lastReleased tr), ?_⟩
    rw [Machine.fire_eq _ (s := c.shared.setWait (own t) 0) (p := .setPtr prev)
      (by simp [machine, hpc, step, hnode])]
    simp only [obs, hnode, Option.map_some, Option.toList_some]
    exact ⟨h.release hprev (by rw [hpc]; rfl), Or.inr ⟨rfl, by simp [Pc.holding], rfl⟩⟩
  | setPtr prev =>
    rw [hpc] at hl
    refine ⟨q, own, ?_⟩
    rw [Machine.fire_eq _ (s := c.shared.setPtr t prev) (p := .idle)
      (by simp [machine, hpc, step])]
    simp only [obs, Option.toList_none, List.append_nil]
    refine ⟨h.quiet rfl (fun _ => Or.inl rfl) (fun _ _ => rfl) ?_ (by rw [hpc]; rfl)
      ⟨hl.1, by simp [Shared.setPtr, hl.2]⟩, .same (hqueued hl.1)⟩
    intro u hu
    simp [Shared.setPtr, hu]
  | fault =>
    rw [hpc] at hl
    exact hl.elim

theorem step_inv (h : Inv tr c q own) (t : Fin n) :
    ∃ q' own', Inv (tr ++ (obs t () c.shared (c.loc t)).toList)
      ((machine n useWfe).fire t () c) q' own' := by
  obtain ⟨q', own', hi, -⟩ := @step_moves n useWfe tr c q own h t
  exact ⟨q', own', hi⟩

lemma LocalOk.ownedNode (h : LocalOk c.shared q own (lastReleased tr) t (c.loc t)) :
    ownedNode c t = some (own t) := by
  rw [ClhSpinlock.ownedNode]
  cases hpc : c.loc t with
  | idle => rw [hpc] at h; exact h.2
  | setPtr prev => rw [hpc] at h; exact h.2
  | fault => rw [hpc] at h; exact h.elim
  | _ => rw [hpc] at h; exact h.2.1

end Invariant

/-- In every run from the initial state, with and without WFE: one holder at a time, the
lock is entered in the order of the exchanges, no null pointer is followed, and the nodes
of all threads and the last released node are pairwise distinct. -/
theorem clh_exclusion_order_ownership {n : ℕ} {useWfe : Bool} {tr : List (Event n)}
    {c : Config (Fin n) (Shared n) (Pc n)}
    (h : (machine n useWfe).History obs (start n) tr c) :
    (∀ t u, (c.loc t).holding = true → (c.loc u).holding = true → t = u) ∧
      enters tr <+: exchanges tr ∧
      (∀ t, c.loc t ≠ .fault) ∧
      (∀ t, ∃ node, ownedNode c t = some node ∧ node ≠ lastReleased tr) ∧
      ∀ t u, ownedNode c t = ownedNode c u → t = u := by
  obtain ⟨q, own, hinv⟩ : ∃ q own, Inv tr c q own := by
    apply h.invariant (machine n useWfe) ⟨[], Node.pool, start_inv n⟩
    rintro tr c t - ⟨q, own, hi⟩
    exact step_inv hi t
  refine ⟨?_, ?_, ?_, ?_, ?_⟩
  · intro t u ht hu
    have ht := (hinv.local_ok t).head_of_holding ht
    have hu := (hinv.local_ok u).head_of_holding hu
    exact Option.some.inj (ht.symm.trans hu)
  · rw [hinv.order]
    exact List.prefix_append _ _
  · intro t ht
    have hl := hinv.local_ok t
    rw [ht] at hl
    exact hl
  · exact fun t => ⟨own t, (hinv.local_ok t).ownedNode, hinv.own_ne_free t⟩
  · intro t u htu
    rw [(hinv.local_ok t).ownedNode, (hinv.local_ok u).ownedNode] at htu
    exact hinv.own_inj (Option.some.inj htu)

/-- Both threads queue, `a` enters and releases, `b` enters. -/
def handover (a b : Fin n) : List (Fin n × Unit) :=
  [a, a, a, b, b, b, a, b, a, b, a, a, a, a, b, b].map fun t => (t, ())

theorem clh_exclusion_order_ownership_two :
    enters ((machine 2 true).trace obs (start 2) (handover 0 1)) = [0, 1] ∧
      exchanges ((machine 2 true).trace obs (start 2) (handover 0 1)) = [0, 1] ∧
      ∀ t u, ownedNode ((machine 2 true).run (start 2) (handover 0 1)) t =
        ownedNode ((machine 2 true).run (start 2) (handover 0 1)) u → t = u :=
  ⟨by decide +kernel, by decide +kernel, (clh_exclusion_order_ownership
    ((machine 2 true).history_run obs (start 2) (handover 0 1))).2.2.2.2⟩

end Lockhammer.ClhSpinlock
