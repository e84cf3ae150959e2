import Lockhammer.Interleaving.McsQueue
import Lockhammer.Linux.HybridSpinlock

/-!
# The queue of the hybrid spinlocks

Both headers have the same MCS queue: it is entered by the exchange of the tail and left
by the compare-exchange that clears the tail or by the hand-over to the next node. What
the head does in between, drawing a ticket and in one of the headers waiting for it, does
not touch the queue.
-/
namespace Lockhammer.HybridSpinlock
open Interleaving Interleaving.Queue Interleaving.LinkedQueue

section Places
variable {n : ℕ}

/-- The word a thread goes to store, less the ticket it draws. -/
def Pc.loaded : Pc n → Option (BitVec 32)
  | .fastStore ticket => some ticket
  | .drawStore ticket => some ticket
  | .headStore _ _ ticket => some ticket
  | _ => none

/-- The head, with what it has read of its own `next`. -/
def headRole (next : Option (NodeId n)) : Role (Fin n) := next.elim .holding (.granting ·.1)

def Pc.role : Pc n → Role (Fin n)
  | .link _ prev => .arriving prev.1 true
  | .waitLocked _ => .waiting
  | .readNext _ => .holding
  | .headLoad _ next => headRole next
  | .headStore _ next _ => headRole next
  | .headWait _ next _ => headRole next
  | .readVal _ next _ => headRole next
  | .clearTail _ next _ _ => headRole next
  | .waitNext _ _ => .holding
  | .handoff _ next _ => .granting next.1
  | _ => .out

/-- The index of the node a thread works on. -/
def Pc.node : Pc n → Option (Fin maxNodes)
  | .initLocked idx => some idx
  | .initNext idx => some idx
  | .xchgTail idx => some idx
  | .link idx _ => some idx
  | .waitLocked idx => some idx
  | .readNext idx => some idx
  | .headLoad idx _ => some idx
  | .headStore idx _ _ => some idx
  | .headWait idx _ _ => some idx
  | .readVal idx _ _ => some idx
  | .clearTail idx _ _ _ => some idx
  | .waitNext idx _ => some idx
  | .handoff idx _ _ => some idx
  | _ => none

/-- The node a thread has a pointer to in a register. -/
def Pc.pointer : Pc n → Option (NodeId n)
  | .link _ prev => some prev
  | .headLoad _ next => next
  | .headStore _ next _ => next
  | .headWait _ next _ => next
  | .readVal _ next _ => next
  | .clearTail _ next _ _ => next
  | .handoff _ next _ => some next
  | _ => none

/-- In `hybrid_spinlock_slowpath` between the two updates of the count. -/
def Pc.counted (p : Pc n) : Bool :=
  match p with
  | .decCount _ => true
  | p => p.node.isSome

end Places

/-! What one step does. -/

/-- Everything one step of thread `t` can do, by its effect on the lock word and on
`mcs_pool`. In the three draws the monitor has shown that the loaded word is still there. -/
inductive Step {n : ℕ} (h : Header) (t : Fin n) : Shared n → Pc n → Shared n → Pc n → Prop
  | call {s} : Step h t s .idle s .fastLoad
  | fastLoaded {s} (hp : palindromic s.lock.val = true) :
      Step h t s .fastLoad (s.loadExclusive t) (.fastStore s.lock.val)
  | drawLoaded {s} (hq : mustQueue h s.lock.val = false) :
      Step h t s .drawLoad (s.loadExclusive t) (.drawStore s.lock.val)
  | headLoaded {s idx next} (hd : h = .fastdequeue → aboveDequeueThreshold s.lock.val = false) :
      Step h t s (.headLoad idx next) (s.loadExclusive t) (.headStore idx next s.lock.val)
  | headAbove {s idx next} (hd : h = .fastdequeue ∧ aboveDequeueThreshold s.lock.val = true) :
      Step h t s (.headLoad idx next) (s.loadExclusive t) (.headLoad idx next)
  | queueUp {s p} (hp : p = .fastLoad ∨ p = .drawLoad) : Step h t s p (s.loadExclusive t) .incCount
  | tryDraw {s} : Step h t s .fastLoad (s.loadExclusive t) .drawLoad
  | fastRetry {s v} : Step h t s (.fastStore v) s .fastLoad
  | drawRetry {s v} : Step h t s (.drawStore v) s .drawLoad
  | headRetry {s idx next v} : Step h t s (.headStore idx next v) s (.headLoad idx next)
  | fastDraw {s} :
      Step h t s (.fastStore s.lock.val) (s.setLock { s.lock with next := s.lock.next + 1 }) (.critical 0)
  | draw {s} : Step h t s (.drawStore s.lock.val)
      (s.setLock { s.lock with next := s.lock.next + 1 }) (.waitServing s.lock.val)
  | headDraw {s idx next} (hh : h = .hybridSpinlock) : Step h t s (.headStore idx next s.lock.val)
      (s.setLock { s.lock with next := s.lock.next + 1 }) (.headWait idx next s.lock.val)
  | headDrawFast {s idx next} (hh : h = .fastdequeue) : Step h t s (.headStore idx next s.lock.val)
      (s.setLock { s.lock with next := s.lock.next + 1 }) (.readVal idx next s.lock.val)
  | poll {s p} : Step h t s p s p
  | served {s v} (hv : s.lock.serving = ticketByte v) :
      Step h t s (.waitServing v) s (.critical (ticketDepth v))
  | lateServed {s v} (hv : s.lock.serving = ticketByte v) :
      Step h t s (.lateWait v) s (.critical (ticketDepth v))
  | headServed {s idx next v} (hv : s.lock.serving = ticketByte v) :
      Step h t s (.headWait idx next v) s (.readVal idx next v)
  | incCount {s} (hc : s.count t < maxNodes) :
      Step h t s .incCount (s.setCount t (s.count t + 1)) (.initLocked ⟨s.count t, hc⟩)
  | countFault {s} (hc : ¬ s.count t < maxNodes) :
      Step h t s .incCount (s.setCount t (s.count t + 1)) .fault
  | initLocked {s idx} : Step h t s (.initLocked idx) (s.setNodeLocked (t, idx) 0) (.initNext idx)
  | initNext {s idx} : Step h t s (.initNext idx) (s.setNext (t, idx) none) (.xchgTail idx)
  | xchgFirst {s idx} (hz : s.lock.tail.setWidth 32 &&& qTailMask = 0) :
      Step h t s (.xchgTail idx) (s.setLock (HybridSpinlock.xchgTail s.lock (encodeTail t idx)).2)
        (.headLoad idx none)
  | xchgBehind {s idx prev} (hz : s.lock.tail.setWidth 32 &&& qTailMask ≠ 0)
      (hp : decodeTail (s.lock.tail.setWidth 32) = some prev) :
      Step h t s (.xchgTail idx) (s.setLock (HybridSpinlock.xchgTail s.lock (encodeTail t idx)).2)
        (.link idx prev)
  | tailFault {s idx} (hz : s.lock.tail.setWidth 32 &&& qTailMask ≠ 0)
      (hp : (decodeTail (s.lock.tail.setWidth 32) : Option (NodeId n)) = none) :
      Step h t s (.xchgTail idx) (s.setLock (HybridSpinlock.xchgTail s.lock (encodeTail t idx)).2) .fault
  | link {s idx prev} : Step h t s (.link idx prev) (s.setNext prev (some (t, idx))) (.waitLocked idx)
  | granted {s idx} (hl : s.locked (t, idx) ≠ 0) : Step h t s (.waitLocked idx) s (.readNext idx)
  | readNext {s idx} : Step h t s (.readNext idx) s (.headLoad idx (s.next (t, idx)))
  | tailMine {s p} {idx : Fin maxNodes} {next : Option (NodeId n)} {v : BitVec 32}
      (hp : p = .readVal idx next v ∨ ∃ val, p = .clearTail idx next v val)
      (hv : s.lock.val &&& qTailMask = encodeTail t idx) :
      Step h t s p s (.clearTail idx next v s.lock.val)
  | tailOther {s p} {idx : Fin maxNodes} {next : Option (NodeId n)} {v : BitVec 32}
      (hp : p = .readVal idx next v ∨ ∃ val, p = .clearTail idx next v val)
      (hv : s.lock.val &&& qTailMask ≠ encodeTail t idx) :
      Step h t s p s (next.elim (.waitNext idx v) fun z => .handoff idx z v)
  | clearTail {s idx next v} : Step h t s (.clearTail idx next v s.lock.val)
      (s.setLock { s.lock with tail := 0 }) (.decCount v)
  | seeNext {s idx v z} (hz : s.next (t, idx) = some z) :
      Step h t s (.waitNext idx v) s (.handoff idx z v)
  | handoff {s idx z v} : Step h t s (.handoff idx z v) (s.setNodeLocked z 1) (.decCount v)
  | decCount {s v} (hh : h = .hybridSpinlock) :
      Step h t s (.decCount v) (s.setCount t (s.count t - 1)) (.critical (ticketDepth v))
  | decCountFast {s v} (hh : h = .fastdequeue) :
      Step h t s (.decCount v) (s.setCount t (s.count t - 1)) (.lateWait v)
  | leave {s d} : Step h t s (.critical d) s .loadServing
  | loadServing {s} : Step h t s .loadServing s (.storeServing s.lock.serving)
  | storeServing {s tmp} :
      Step h t s (.storeServing tmp) (s.setLock { s.lock with serving := tmp + 1 }) .idle

/-- A set monitor means that the word is still the one its thread has loaded. -/
def MonitorOk {n : ℕ} (c : Config (Fin n) (Shared n) (Pc n)) : Prop :=
  ∀ t v, (c.loc t).loaded = some v → c.shared.exclusive t = true → v = c.shared.lock.val

variable {n : ℕ} {h : Header} {c : Config (Fin n) (Shared n) (Pc n)} {t : Fin n}

lemma stxr_cases {s : Shared n} {v : BitVec 32} (fails : Bool)
    (hm : s.exclusive t = true → v = s.lock.val) :
    stxr t fails s v = none ∨
      v = s.lock.val ∧ stxr t fails s v = some (s.setLock { s.lock with next := s.lock.next + 1 }) := by
  unfold stxr
  by_cases hx : s.exclusive t = true ∧ fails = false
  · right
    have hv := hm hx.1
    rw [if_pos hx, hv, ofVal_add_ticketInc]
    exact ⟨rfl, rfl⟩
  · left
    rw [if_neg hx]

lemma afterVal_step {s : Shared n} {p : Pc n} {idx : Fin maxNodes} {next : Option (NodeId n)}
    {v : BitVec 32} (hp : p = .readVal idx next v ∨ ∃ val, p = .clearTail idx next v val) :
    Step h t s p s (afterVal t idx next v s.lock.val) := by
  unfold afterVal
  by_cases hv : s.lock.val &&& qTailMask = encodeTail t idx
  · rw [if_pos hv]
    exact .tailMine hp hv
  · rw [if_neg hv]
    have hs := Step.tailOther (h := h) hp hv
    cases next <;> exact hs

theorem step_step (hm : MonitorOk c) (t : Fin n) (fails : Bool) :
    Step h t c.shared (c.loc t) (step h t fails c.shared (c.loc t)).1
      (step h t fails c.shared (c.loc t)).2 := by
  cases hpc : c.loc t with
  | idle => exact .call
  | fastLoad =>
    simp only [step]
    split
    · next hp => exact .fastLoaded hp
    · split
      · exact .queueUp (Or.inl rfl)
      · exact .tryDraw
  | fastStore v =>
    rcases stxr_cases fails (hm t v (by rw [hpc]; rfl)) with hs | ⟨rfl, hs⟩
    · simp only [step, hs]
      exact .fastRetry
    · simp only [step, hs]
      exact .fastDraw
  | drawLoad =>
    simp only [step]
    split
    · exact .queueUp (Or.inr rfl)
    · next hq => exact .drawLoaded (Bool.eq_false_iff.mpr hq)
  | drawStore v =>
    rcases stxr_cases fails (hm t v (by rw [hpc]; rfl)) with hs | ⟨rfl, hs⟩
    · simp only [step, hs]
      exact .drawRetry
    · simp only [step, hs]
      exact .draw
  | waitServing v =>
    simp only [step]
    split
    · next hv => exact .served hv
    · exact .poll
  | incCount =>
    simp only [step]
    split
    · next hc => exact .incCount hc
    · next hc => exact .countFault hc
  | initLocked idx => exact .initLocked
  | initNext idx => exact .initNext
  | xchgTail idx =>
    simp only [step]
    by_cases hz : c.shared.lock.tail.setWidth 32 &&& qTailMask = 0
    · have he : ¬ ((HybridSpinlock.xchgTail c.shared.lock (encodeTail t idx)).1 &&& qTailMask ≠ 0) :=
        not_not.mpr hz
      rw [if_neg he]
      exact .xchgFirst hz
    · have he : (HybridSpinlock.xchgTail c.shared.lock (encodeTail t idx)).1 &&& qTailMask ≠ 0 := hz
      rw [if_pos he]
      cases hp : decodeTail (HybridSpinlock.xchgTail c.shared.lock (encodeTail t idx)).1 with
      | none => exact .tailFault hz hp
      | some prev => exact .xchgBehind hz hp
  | link idx prev => exact .link
  | waitLocked idx =>
    simp only [step]
    split
    · next hl => exact .granted hl
    · exact .poll
  | readNext idx => exact .readNext
  | headLoad idx next =>
    simp only [step]
    split
    · next hd => exact .headAbove hd
    · next hd =>
      refine .headLoaded fun hh => ?_
      by_contra ha
      exact hd ⟨hh, Bool.not_eq_false _ ▸ ha⟩
  | headStore idx next v =>
    rcases stxr_cases fails (hm t v (by rw [hpc]; rfl)) with hs | ⟨rfl, hs⟩
    · simp only [step, hs]
      exact .headRetry
    · cases h with
      | hybridSpinlock =>
        simp only [step, hs]
        exact .headDraw rfl
      | fastdequeue =>
        simp only [step, hs]
        exact .headDrawFast rfl
  | headWait idx next v =>
    simp only [step]
    split
    · next hv => exact .headServed hv
    · exact .poll
  | readVal idx next v => exact afterVal_step (Or.inl rfl)
  | clearTail idx next v val =>
    simp only [step]
    split
    · next hv =>
      subst hv
      rw [ofVal_and_not_qTailMask]
      exact .clearTail
    · exact afterVal_step (Or.inr ⟨val, rfl⟩)
  | waitNext idx v =>
    simp only [step]
    split
    · next hz => exact .seeNext hz
    · exact .poll
  | handoff idx next v => exact .handoff
  | decCount v =>
    cases h with
    | hybridSpinlock => exact .decCount rfl
    | fastdequeue => exact .decCountFast rfl
  | lateWait v =>
    simp only [step]
    split
    · next hv => exact .lateServed hv
    · exact .poll
  | critical d => exact .leave
  | loadServing => exact .loadServing
  | storeServing tmp => exact .storeServing
  | fault => exact .poll

/-- A store to the word clears every monitor; no other step touches the word or the monitor
of another thread. -/
lemma Step.monitor {s s' : Shared n} {p p' : Pc n} (hs : Step h t s p s' p') :
    (∀ u, s'.exclusive u = false) ∨
      s'.lock = s.lock ∧ (∀ u, u ≠ t → s'.exclusive u = s.exclusive u) ∧
        ∀ v, p'.loaded = some v → v = s.lock.val ∨ s'.exclusive t = s.exclusive t ∧ p' = p := by
  cases hs with
  | fastDraw | draw | headDraw | headDrawFast | xchgFirst | xchgBehind | tailFault | clearTail
  | storeServing => exact Or.inl fun _ => rfl
  | fastLoaded | drawLoaded | headLoaded =>
    refine Or.inr ⟨rfl, fun u hu => ?_, fun v hv => Or.inl ?_⟩
    · simp [Shared.loadExclusive, hu]
    · exact (Option.some.inj hv).symm
  | headAbove | queueUp | tryDraw =>
    refine Or.inr ⟨rfl, fun u hu => ?_, fun v hv => absurd hv (by simp [Pc.loaded])⟩
    simp [Shared.loadExclusive, hu]
  | poll => exact Or.inr ⟨rfl, fun _ _ => rfl, fun _ _ => Or.inr ⟨rfl, rfl⟩⟩
  | @tailOther _ _ next =>
    refine Or.inr ⟨rfl, fun _ _ => rfl, fun v hv => absurd hv ?_⟩
    cases next <;> simp [Pc.loaded]
  | _ => exact Or.inr ⟨rfl, fun _ _ => rfl, fun v hv => absurd hv (by simp [Pc.loaded])⟩

theorem MonitorOk.step {s' : Shared n} {p p' : Pc n} (hm : MonitorOk c) (hp : c.loc t = p)
    (hs : Step h t c.shared p s' p') : MonitorOk ⟨s', Function.update c.loc t p'⟩ := by
  intro u v hv hx
  change s'.exclusive u = true at hx
  change v = s'.lock.val
  rcases hs.monitor with hclear | ⟨hlock, hother, hself⟩
  · rw [hclear u] at hx
    exact absurd hx (by decide)
  · rw [hlock]
    by_cases hu : u = t
    · subst hu
      have hv' : p'.loaded = some v := by simpa using hv
      rcases hself v hv' with hval | ⟨hkeep, rfl⟩
      · exact hval
      · exact hm u v (by rw [hp]; exact hv') (hkeep ▸ hx)
    · rw [hother u hu] at hx
      exact hm u v (by simpa [hu] using hv) hx

/-! The queue along a run. -/

section Invariant

def Pc.queued (p : Pc n) : Bool :=
  match p.role with
  | .out => false
  | _ => true

lemma Pc.queued_iff (p : Pc n) : p.role ≠ .out ↔ p.queued = true := by
  unfold Pc.queued
  cases p.role <;> simp

/-- What the registers and the own node of thread `t` say at a place. -/
def Pc.Ok (s : Shared n) (q : List (Fin n)) (t : Fin n) : Pc n → Prop
  | .initNext _ => s.locked (t, 0) = 0
  | .xchgTail _ => s.locked (t, 0) = 0 ∧ s.next (t, 0) = none
  | .clearTail _ _ _ val => val &&& qTailMask = encodeTail t 0
  | .waitNext _ _ => q.getLast? ≠ some t
  | .fault => False
  | _ => True

/-- The tail half-word names the last of the queue. -/
def tailOf (q : List (Fin n)) : BitVec 16 := q.getLast?.elim 0 fun t => tailCode t

/-- The word and the nodes fit the queue `q`. Every thread uses its first node only. -/
structure QueueOk (c : Config (Fin n) (Shared n) (Pc n)) (q : List (Fin n)) : Prop where
  ok : McsQueue.Ok q (fun t => (c.shared.next (t, 0)).map Prod.fst)
    (fun t => c.shared.locked (t, 0)) fun t => (c.loc t).role
  tail : c.shared.lock.tail = tailOf q
  links : ∀ x z, c.shared.next x = some z → z.2 = 0
  pointers : ∀ t z, (c.loc t).pointer = some z → z.2 = 0
  nodes : ∀ t i, (c.loc t).node = some i → i = 0
  count : ∀ t, c.shared.count t = (c.loc t).counted.toNat
  places : ∀ t, (c.loc t).Ok c.shared q t

variable {q : List (Fin n)} {p p' : Pc n} {s' : Shared n}

lemma start_queueOk : QueueOk (start n) [] where
  ok := McsQueue.start_ok _ _
  tail := rfl
  links := by simp [start]
  pointers := by simp [start, Pc.pointer]
  nodes := by simp [start, Pc.node]
  count _ := rfl
  places _ := trivial

lemma tailOf_eq_zero (hn : n ≤ 513) : tailOf q = 0 ↔ q = [] := by
  unfold tailOf
  cases hl : q.getLast? with
  | none => simpa using List.getLast?_eq_none_iff.mp hl
  | some t =>
    have hne : q ≠ [] := by
      rintro rfl
      simp at hl
    simpa [hne] using tailCode_ne_zero hn t

lemma tailOf_eq_tailCode (hn : n ≤ 513) : tailOf q = tailCode t ↔ q.getLast? = some t := by
  unfold tailOf
  cases hl : q.getLast? with
  | none => simpa using (tailCode_ne_zero hn t).symm
  | some u => simpa using (tailCode_injective hn).eq_iff

/-- Places outside the queue need the own node to stay; a place that waits for `next` needs
that its thread does not become last. -/
lemma Pc.Ok.frame {s : Shared n} {q' : List (Fin n)} (h : p.Ok s q t)
    (hout : p.queued = false → s'.locked (t, 0) = s.locked (t, 0) ∧ s'.next (t, 0) = s.next (t, 0))
    (hlast : q'.getLast? = some t → q.getLast? = some t) : p.Ok s' q' t := by
  cases p with
  | initNext _ => exact (hout rfl).1.trans h
  | xchgTail _ => exact ⟨(hout rfl).1.trans h.1, (hout rfl).2.trans h.2⟩
  | clearTail _ _ _ _ => exact h
  | waitNext _ _ => exact fun hl => h (hlast hl)
  | fault => exact h
  | _ => trivial

lemma setNext_fst (s : Shared n) (x : Fin n) (v : Option (NodeId n)) :
    (fun u => ((s.setNext (x, 0) v).next (u, 0)).map Prod.fst) =
      Function.update (fun u => (s.next (u, 0)).map Prod.fst) x (v.map Prod.fst) := by
  funext u
  by_cases hu : u = x <;> simp [Shared.setNext, hu]

lemma setNodeLocked_fst (s : Shared n) (x : Fin n) (v : ℕ) :
    (fun u => (s.setNodeLocked (x, 0) v).locked (u, 0)) =
      Function.update (fun u => s.locked (u, 0)) x v := by
  funext u
  by_cases hu : u = x <;> simp [Shared.setNodeLocked, hu]

lemma others_push (hnext : s'.next = c.shared.next)
    (hlocked : s'.locked = c.shared.locked) :
    ∀ u, u ≠ t → (c.loc u).Ok c.shared q u → (c.loc u).Ok s' (q ++ [t]) u := by
  intro u hut hu
  refine hu.frame (fun _ => ?_) fun hl => ?_
  · rw [hnext, hlocked]
    exact ⟨rfl, rfl⟩
  · rw [getLast?_push] at hl
    exact absurd (Option.some.inj hl).symm hut

lemma role_kept (hrole : p'.role = (c.loc t).role) :
    Function.update (fun u => (c.loc u).role) t p'.role = fun u => (c.loc u).role :=
  Function.update_eq_self_iff.mpr hrole

section
variable (hq : QueueOk c q)
include hq

lemma QueueOk.count_kept (hcounted : p'.counted = (c.loc t).counted) :
    c.shared.count = Function.update c.shared.count t p'.counted.toNat := by
  rw [hcounted, ← hq.count t]
  exact (Function.update_eq_self _ _).symm

lemma QueueOk.mem (u : Fin n) : u ∈ q ↔ (c.loc u).queued = true :=
  (hq.ok.mem u).trans (Pc.queued_iff _)

/-- The tail test of the head says whether it is last. -/
lemma QueueOk.tail_mine (hn : n ≤ 513) :
    c.shared.lock.val &&& qTailMask = encodeTail t 0 ↔ q.getLast? = some t := by
  rw [val_and_qTailMask, encodeTail_zero hn, setWidth_inj, hq.tail, tailOf_eq_tailCode hn]

/-- To keep `QueueOk`, look at the fields that changed, at the thread that moved, and at what
the others' places say. -/
lemma QueueOk.of_step {q' : List (Fin n)}
    (hok : McsQueue.Ok q' (fun u => (s'.next (u, 0)).map Prod.fst) (fun u => s'.locked (u, 0))
      (Function.update (fun u => (c.loc u).role) t p'.role))
    (htail : s'.lock.tail = tailOf q') (hlinks : ∀ x z, s'.next x = some z → z.2 = 0)
    (hptr : ∀ z, p'.pointer = some z → z.2 = 0) (hnode : ∀ i, p'.node = some i → i = 0)
    (hcount : s'.count = Function.update c.shared.count t p'.counted.toNat)
    (hplace : p'.Ok s' q' t) (hothers : ∀ u, u ≠ t → (c.loc u).Ok c.shared q u → (c.loc u).Ok s' q' u) :
    QueueOk ⟨s', Function.update c.loc t p'⟩ q' where
  ok := by
    have hrole : (fun u => (Function.update c.loc t p' u).role) =
        Function.update (fun u => (c.loc u).role) t p'.role := by
      funext u
      exact Function.apply_update (fun _ => Pc.role) c.loc t p' u
    change McsQueue.Ok q' _ _ fun u => (Function.update c.loc t p' u).role
    rw [hrole]
    exact hok
  tail := htail
  links := hlinks
  pointers u z hz := by
    by_cases hu : u = t
    · subst hu
      exact hptr z (by simpa using hz)
    · exact hq.pointers u z (by simpa [hu] using hz)
  nodes u i hi := by
    by_cases hu : u = t
    · subst hu
      exact hnode i (by simpa using hi)
    · exact hq.nodes u i (by simpa [hu] using hi)
  count u := by
    change s'.count u = _
    rw [hcount]
    by_cases hu : u = t
    · subst hu
      simp
    · simp [hu, hq.count u]
  places u := by
    by_cases hu : u = t
    · subst hu
      simpa using hplace
    · simpa [hu] using hothers u hu (hq.places u)

/-- A step that leaves the queue and the nodes alone. -/
lemma QueueOk.quiet (hp : c.loc t = p) (hnext : s'.next = c.shared.next)
    (hlocked : s'.locked = c.shared.locked) (hcount : s'.count = c.shared.count)
    (htail : s'.lock.tail = c.shared.lock.tail) (hrole : p'.role = p.role)
    (hptr : p'.pointer = p.pointer) (hnode : p'.node = p.node) (hcounted : p'.counted = p.counted)
    (hplace : p'.Ok s' q t) :
    QueueOk ⟨s', Function.update c.loc t p'⟩ (follow t p.queued p'.queued q) := by
  have hqueued : p'.queued = p.queued := by
    unfold Pc.queued
    rw [hrole]
  subst hp
  rw [hqueued, follow_same]
  refine hq.of_step ?_ (htail.trans hq.tail) ?_ ?_ ?_ ?_ hplace ?_
  · rw [role_kept hrole, hnext, hlocked]
    exact hq.ok
  · rw [hnext]
    exact hq.links
  · rw [hptr]
    exact hq.pointers t
  · rw [hnode]
    exact hq.nodes t
  · rw [hcount]
    exact hq.count_kept hcounted
  · intro u _ hu
    refine hu.frame (fun _ => ?_) id
    rw [hnext, hlocked]
    exact ⟨rfl, rfl⟩

/-- The first node of the thread is at hand: `count` is zero. -/
lemma QueueOk.incCount (hp : c.loc t = .incCount) (hc : c.shared.count t < maxNodes) :
    QueueOk ⟨c.shared.setCount t (c.shared.count t + 1),
      Function.update c.loc t (.initLocked ⟨c.shared.count t, hc⟩)⟩ q := by
  have hzero : c.shared.count t = 0 := by
    rw [hq.count t, hp]
    rfl
  refine hq.of_step ?_ hq.tail hq.links (by simp [Pc.pointer]) ?_ ?_ trivial ?_
  · rw [role_kept (by rw [hp]; rfl)]
    exact hq.ok
  · intro i hi
    obtain rfl : ⟨c.shared.count t, hc⟩ = i := by simpa [Pc.node] using hi
    exact Fin.ext hzero
  · exact congrArg (Function.update c.shared.count t) (congrArg (· + 1) hzero)
  · intro u _ hu
    exact hu.frame (fun _ => ⟨rfl, rfl⟩) id

lemma QueueOk.initLocked (hp : c.loc t = .initLocked 0) :
    QueueOk ⟨c.shared.setNodeLocked (t, 0) 0, Function.update c.loc t (.initNext 0)⟩ q := by
  have hout : (c.loc t).role = .out := by rw [hp]; rfl
  refine hq.of_step ?_ hq.tail hq.links (by simp [Pc.pointer]) (by simp [Pc.node, eq_comm]) ?_ ?_ ?_
  · rw [role_kept (by rw [hp]; rfl), setNodeLocked_fst]
    exact hq.ok.reset hout
  · exact hq.count_kept (by rw [hp]; rfl)
  · simp [Pc.Ok, Shared.setNodeLocked]
  · intro u hut hu
    refine hu.frame (fun _ => ⟨?_, rfl⟩) id
    simp [Shared.setNodeLocked, hut]

lemma QueueOk.initNext (hp : c.loc t = .initNext 0) :
    QueueOk ⟨c.shared.setNext (t, 0) none, Function.update c.loc t (.xchgTail 0)⟩ q := by
  have hout : (c.loc t).role = .out := by rw [hp]; rfl
  have hlocked : c.shared.locked (t, 0) = 0 := by
    have hplace := hq.places t
    rw [hp] at hplace
    exact hplace
  refine hq.of_step ?_ hq.tail ?_ (by simp [Pc.pointer]) (by simp [Pc.node, eq_comm]) ?_ ?_ ?_
  · rw [role_kept (by rw [hp]; rfl), setNext_fst]
    exact hq.ok.setNext hout none
  · intro x z hz
    by_cases hx : x = (t, 0)
    · simp [Shared.setNext, hx] at hz
    · exact hq.links x z (by simpa [Shared.setNext, hx] using hz)
  · exact hq.count_kept (by rw [hp]; rfl)
  · exact ⟨hlocked, by simp [Shared.setNext]⟩
  · intro u hut hu
    refine hu.frame (fun _ => ⟨rfl, ?_⟩) id
    simp [Shared.setNext, hut]

/-- The facts about a thread in front of `xchg_tail`. -/
lemma QueueOk.at_xchgTail {idx : Fin maxNodes} (hp : c.loc t = .xchgTail idx) :
    idx = 0 ∧ (c.loc t).role = .out ∧ c.shared.locked (t, 0) = 0 ∧ c.shared.next (t, 0) = none := by
  have hplace := hq.places t
  rw [hp] at hplace
  exact ⟨hq.nodes t idx (by rw [hp]; rfl), by rw [hp]; rfl, hplace.1, hplace.2⟩

/-- What the exchange finds: no queue, or the node of the last. -/
lemma QueueOk.old_tail (hn : n ≤ 513) :
    (q = [] ∧ c.shared.lock.tail.setWidth 32 &&& qTailMask = 0) ∨
      ∃ u, q.getLast? = some u ∧ c.shared.lock.tail.setWidth 32 &&& qTailMask ≠ 0 ∧
        decodeTail (c.shared.lock.tail.setWidth 32) = some (u, 0) := by
  rw [setWidth_and_qTailMask, hq.tail]
  cases hl : q.getLast? with
  | none =>
    obtain rfl := List.getLast?_eq_none_iff.mp hl
    exact Or.inl ⟨rfl, rfl⟩
  | some u =>
    refine Or.inr ⟨u, rfl, ?_, ?_⟩
    · rw [(tailOf_eq_tailCode hn).mpr hl]
      intro h0
      exact tailCode_ne_zero hn u (setWidth_inj.mp (h0.trans (by decide)))
    · rw [(tailOf_eq_tailCode hn).mpr hl]
      exact decodeTail_tailCode hn u

lemma QueueOk.xchgFirst (hn : n ≤ 513) {idx : Fin maxNodes} (hp : c.loc t = .xchgTail idx)
    (hz : c.shared.lock.tail.setWidth 32 &&& qTailMask = 0) :
    QueueOk ⟨c.shared.setLock (HybridSpinlock.xchgTail c.shared.lock (encodeTail t idx)).2,
      Function.update c.loc t (.headLoad idx none)⟩ (q ++ [t]) := by
  obtain ⟨rfl, hout, hlocked, hnext⟩ := hq.at_xchgTail hp
  have hempty : q = [] := by
    rcases hq.old_tail hn with ⟨rfl, -⟩ | ⟨u, -, hne, -⟩
    · rfl
    · exact absurd hz hne
  subst hempty
  refine hq.of_step ?_ ?_ hq.links (by simp [Pc.pointer]) (by simp [Pc.node, eq_comm]) ?_ trivial
    (others_push rfl rfl)
  · exact hq.ok.enqueueFirst (by simp [hnext])
  · rw [Fin.val_zero, xchgTail_eq hn]
    exact ((tailOf_eq_tailCode hn).mpr (getLast?_push [] t)).symm
  · exact hq.count_kept (by rw [hp]; rfl)

lemma QueueOk.xchgBehind (hn : n ≤ 513) {idx : Fin maxNodes} {prev : NodeId n}
    (hp : c.loc t = .xchgTail idx) (hz : c.shared.lock.tail.setWidth 32 &&& qTailMask ≠ 0)
    (hd : decodeTail (c.shared.lock.tail.setWidth 32) = some prev) :
    QueueOk ⟨c.shared.setLock (HybridSpinlock.xchgTail c.shared.lock (encodeTail t idx)).2,
      Function.update c.loc t (.link idx prev)⟩ (q ++ [t]) := by
  obtain ⟨rfl, hout, hlocked, hnext⟩ := hq.at_xchgTail hp
  obtain ⟨u, hlast, rfl⟩ : ∃ u, q.getLast? = some u ∧ prev = (u, 0) := by
    rcases hq.old_tail hn with ⟨-, h0⟩ | ⟨u, hlast, -, hu⟩
    · exact absurd h0 hz
    · exact ⟨u, hlast, Option.some.inj (hd.symm.trans hu)⟩
  refine hq.of_step ?_ ?_ hq.links (by simp [Pc.pointer]) (by simp [Pc.node, eq_comm]) ?_ trivial
    (others_push rfl rfl)
  · exact hq.ok.enqueue hout hlocked (by simp [hnext]) hlast
  · rw [Fin.val_zero, xchgTail_eq hn]
    exact ((tailOf_eq_tailCode hn).mpr (getLast?_push q t)).symm
  · exact hq.count_kept (by rw [hp]; rfl)

lemma QueueOk.link {idx : Fin maxNodes} {prev : NodeId n} (hp : c.loc t = .link idx prev) :
    QueueOk ⟨c.shared.setNext prev (some (t, idx)), Function.update c.loc t (.waitLocked idx)⟩ q := by
  obtain rfl : idx = 0 := hq.nodes t idx (by rw [hp]; rfl)
  obtain ⟨x, i⟩ := prev
  obtain rfl : i = 0 := hq.pointers t (x, i) (by rw [hp]; rfl)
  have hrole : (c.loc t).role = .arriving x true := by rw [hp]; rfl
  have hmem : x ∈ q := (hq.ok.arriving_adj hrole).mem_left
  refine hq.of_step ?_ hq.tail ?_ (by simp [Pc.pointer]) (by simp [Pc.node, eq_comm]) ?_ trivial ?_
  · rw [setNext_fst]
    exact hq.ok.link hrole
  · intro y z hz
    by_cases hy : y = (x, 0)
    · obtain rfl : (t, 0) = z := by simpa [Shared.setNext, hy] using hz
      rfl
    · exact hq.links y z (by simpa [Shared.setNext, hy] using hz)
  · exact hq.count_kept (by rw [hp]; rfl)
  · intro u _ hu
    refine hu.frame (fun hout => ⟨rfl, ?_⟩) id
    have hux : u ≠ x := by
      rintro rfl
      rw [(hq.mem u).mp hmem] at hout
      exact absurd hout (by decide)
    simp [Shared.setNext, hux]

lemma QueueOk.granted {idx : Fin maxNodes} (hp : c.loc t = .waitLocked idx)
    (hl : c.shared.locked (t, idx) ≠ 0) :
    QueueOk ⟨c.shared, Function.update c.loc t (.readNext idx)⟩ q := by
  obtain rfl : idx = 0 := hq.nodes t idx (by rw [hp]; rfl)
  refine hq.of_step ?_ hq.tail hq.links (by simp [Pc.pointer]) (by simp [Pc.node, eq_comm]) ?_ trivial
    fun u _ hu => hu
  · exact hq.ok.acquire (by rw [hp]; rfl) hl
  · exact hq.count_kept (by rw [hp]; rfl)

/-- Reading the own `next` field, found set or not. -/
lemma QueueOk.ok_next (hrole : (c.loc t).role = .holding) :
    McsQueue.Ok q (fun u => (c.shared.next (u, 0)).map Prod.fst) (fun u => c.shared.locked (u, 0))
      (Function.update (fun u => (c.loc u).role) t (headRole (c.shared.next (t, 0)))) := by
  cases hz : c.shared.next (t, 0) with
  | none =>
    rw [Function.update_eq_self_iff.mpr hrole.symm]
    exact hq.ok
  | some z => exact hq.ok.take hrole (by simp [hz])

lemma QueueOk.readNext {idx : Fin maxNodes} (hp : c.loc t = .readNext idx) :
    QueueOk ⟨c.shared, Function.update c.loc t (.headLoad idx (c.shared.next (t, idx)))⟩ q := by
  obtain rfl : idx = 0 := hq.nodes t idx (by rw [hp]; rfl)
  refine hq.of_step ?_ hq.tail hq.links ?_ (by simp [Pc.node, eq_comm]) ?_ trivial fun u _ hu => hu
  · exact hq.ok_next (by rw [hp]; rfl)
  · exact fun z hz => hq.links _ z hz
  · exact hq.count_kept (by rw [hp]; rfl)

lemma QueueOk.seeNext {idx : Fin maxNodes} {v : BitVec 32} {z : NodeId n}
    (hp : c.loc t = .waitNext idx v) (hz : c.shared.next (t, idx) = some z) :
    QueueOk ⟨c.shared, Function.update c.loc t (.handoff idx z v)⟩ q := by
  obtain rfl : idx = 0 := hq.nodes t idx (by rw [hp]; rfl)
  refine hq.of_step ?_ hq.tail hq.links ?_ (by simp [Pc.node, eq_comm]) ?_ trivial fun u _ hu => hu
  · have hnext := hq.ok_next (t := t) (by rw [hp]; rfl)
    rw [hz] at hnext
    exact hnext
  · intro y hy
    obtain rfl : z = y := by simpa [Pc.pointer] using hy
    exact hq.links _ z hz
  · exact hq.count_kept (by rw [hp]; rfl)

lemma QueueOk.clearTail (hn : n ≤ 513) {idx : Fin maxNodes} {next : Option (NodeId n)}
    {v : BitVec 32} (hp : c.loc t = .clearTail idx next v c.shared.lock.val) :
    QueueOk ⟨c.shared.setLock { c.shared.lock with tail := 0 }, Function.update c.loc t (.decCount v)⟩
      (q.erase t) := by
  have hplace := hq.places t
  rw [hp] at hplace
  have hlast : q.getLast? = some t := (hq.tail_mine hn).mp hplace
  have hrole : (c.loc t).role = .holding := by
    have hne := hq.ok.last hlast
    rw [hp] at hne ⊢
    cases next with
    | none => rfl
    | some z => exact absurd rfl (hne z.1)
  have hone : q = [t] := eq_singleton hq.ok.nodup (hq.ok.owner_first (by rw [hrole]; rfl)) hlast
  have hgone : q.erase t = [] := by simp [hone]
  refine hq.of_step ?_ ?_ hq.links (by simp [Pc.pointer]) (by simp [Pc.node]) ?_ trivial ?_
  · exact hq.ok.releaseLast hrole hlast
  · rw [hgone]
    rfl
  · exact hq.count_kept (by rw [hp]; rfl)
  · intro u _ hu
    refine hu.frame (fun _ => ⟨rfl, rfl⟩) fun hl => ?_
    rw [hgone] at hl
    simp at hl

lemma QueueOk.handoff {idx : Fin maxNodes} {z : NodeId n} {v : BitVec 32}
    (hp : c.loc t = .handoff idx z v) :
    QueueOk ⟨c.shared.setNodeLocked z 1, Function.update c.loc t (.decCount v)⟩ (q.erase t) := by
  obtain ⟨z, i⟩ := z
  obtain rfl : i = 0 := hq.pointers t (z, i) (by rw [hp]; rfl)
  have hrole : (c.loc t).role = .granting z := by rw [hp]; rfl
  obtain ⟨hadj, hwait⟩ := hq.ok.granting_adj hrole
  have hlast : (q.erase t).getLast? = q.getLast? := getLast?_erase_of_adj hq.ok.nodup hadj
  refine hq.of_step ?_ ?_ hq.links (by simp [Pc.pointer]) (by simp [Pc.node]) ?_ trivial ?_
  · rw [setNodeLocked_fst]
    exact hq.ok.grant hrole
  · unfold tailOf
    rw [hlast]
    exact hq.tail
  · exact hq.count_kept (by rw [hp]; rfl)
  · intro u _ hu
    refine hu.frame (fun hout => ⟨?_, rfl⟩) fun hl => hlast ▸ hl
    have huz : u ≠ z := by
      rintro rfl
      rw [(hq.mem u).mp hadj.mem_right] at hout
      exact absurd hout (by decide)
    simp [Shared.setNodeLocked, huz]

lemma QueueOk.decCount {v : BitVec 32} (hp : c.loc t = .decCount v) (hout : p'.role = .out)
    (hptr : p'.pointer = none) (hcounted : p'.counted = false)
    (hplace : p'.Ok (c.shared.setCount t (c.shared.count t - 1)) q t) :
    QueueOk ⟨c.shared.setCount t (c.shared.count t - 1), Function.update c.loc t p'⟩ q := by
  have hone : c.shared.count t = 1 := by
    rw [hq.count t, hp]
    rfl
  have hnode : p'.node = none := by
    cases p' with
    | _ => first | rfl | simp [Pc.counted, Pc.node] at hcounted
  refine hq.of_step ?_ hq.tail hq.links (by simp [hptr]) (by simp [hnode]) ?_ hplace ?_
  · rw [role_kept (by rw [hp, hout]; rfl)]
    exact hq.ok
  · rw [hcounted]
    exact congrArg (Function.update c.shared.count t) (congrArg (· - 1) hone)
  · intro u _ hu
    exact hu.frame (fun _ => ⟨rfl, rfl⟩) id

/-- Every step of a thread keeps the queue, which follows who is queued. -/
theorem QueueOk.step (hn : n ≤ 513) (hp : c.loc t = p) (hs : Step h t c.shared p s' p') :
    QueueOk ⟨s', Function.update c.loc t p'⟩ (follow t p.queued p'.queued q) := by
  cases hs with
  | incCount hc => exact hq.incCount hp hc
  | countFault hc =>
    refine absurd ?_ hc
    rw [hq.count t, hp]
    exact Nat.zero_lt_succ 3
  | @initLocked idx =>
    obtain rfl : idx = 0 := hq.nodes t idx (by rw [hp]; rfl)
    exact hq.initLocked hp
  | @initNext idx =>
    obtain rfl : idx = 0 := hq.nodes t idx (by rw [hp]; rfl)
    exact hq.initNext hp
  | xchgFirst hz => exact hq.xchgFirst hn hp hz
  | xchgBehind hz hd => exact hq.xchgBehind hn hp hz hd
  | tailFault hz hd =>
    rcases hq.old_tail hn with ⟨-, h0⟩ | ⟨u, -, -, hu⟩
    · exact absurd h0 hz
    · exact absurd (hu.symm.trans hd) (by simp)
  | link => exact hq.link hp
  | granted hl => exact hq.granted hp hl
  | @readNext idx =>
    have hqueued : (Pc.headLoad idx (c.shared.next (t, idx))).queued = true := by
      cases c.shared.next (t, idx) <;> rfl
    rw [hqueued]
    exact hq.readNext hp
  | @tailMine _ idx next v hor hm =>
    obtain rfl : idx = 0 := by
      rcases hor with rfl | ⟨val, rfl⟩ <;> exact hq.nodes t idx (by rw [hp]; rfl)
    rcases hor with rfl | ⟨val, rfl⟩ <;> exact hq.quiet hp rfl rfl rfl rfl rfl rfl rfl rfl hm
  | @tailOther _ idx next v hor hm =>
    obtain rfl : idx = 0 := by
      rcases hor with rfl | ⟨val, rfl⟩ <;> exact hq.nodes t idx (by rw [hp]; rfl)
    have hlast : q.getLast? ≠ some t := fun hl => hm ((hq.tail_mine hn).mpr hl)
    cases next with
    | none =>
      rcases hor with rfl | ⟨val, rfl⟩ <;> exact hq.quiet hp rfl rfl rfl rfl rfl rfl rfl rfl hlast
    | some z =>
      rcases hor with rfl | ⟨val, rfl⟩ <;> exact hq.quiet hp rfl rfl rfl rfl rfl rfl rfl rfl trivial
  | @clearTail idx next v =>
    have hqueued : (Pc.clearTail idx next v c.shared.lock.val).queued = true := by
      cases next <;> rfl
    rw [hqueued]
    exact hq.clearTail hn hp
  | seeNext hz => exact hq.seeNext hp hz
  | handoff => exact hq.handoff hp
  | decCount hh => exact hq.decCount hp rfl rfl rfl trivial
  | decCountFast hh => exact hq.decCount hp rfl rfl rfl trivial
  | poll => exact hq.quiet hp rfl rfl rfl rfl rfl rfl rfl rfl (hp ▸ hq.places t)
  | queueUp hor =>
    rcases hor with rfl | rfl <;> exact hq.quiet hp rfl rfl rfl rfl rfl rfl rfl rfl trivial
  | _ => exact hq.quiet hp rfl rfl rfl rfl rfl rfl rfl rfl trivial

end
end Invariant

end Lockhammer.HybridSpinlock
