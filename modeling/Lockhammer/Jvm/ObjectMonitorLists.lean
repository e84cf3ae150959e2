import Lockhammer.Jvm.ObjectMonitor
import Lockhammer.Interleaving.LinkedList

/-!
# The two waiter lists of the ObjectMonitor

`_cxq` is pushed onto by anybody; everything else is done to the lists by the owner. What
the owner has half done is said, place by place, by `Shape`; everywhere else `_EntryList`
is a doubly linked list of marked nodes.
-/
namespace Lockhammer.JvmMonitor
open Interleaving Interleaving.LinkedList Jvm

section Definitions
variable {ι : Type*}

/-- The spin is one after a futile wakeup, when the node is on a list. -/
def SpinCaller.queued : SpinCaller → Bool
  | .futile => true
  | _ => false

def TryLockCaller.queued : TryLockCaller → Bool
  | .preSpin k _ | .abort k => k.queued
  | .enterI | .push => false
  | .loop | .woken => true

/-- The thread's node has been pushed and is not unlinked yet. A node in front of which
another one stands is off the list as soon as that one points past it. -/
def Pc.queued : Pc ι → Bool
  | .tryRead r | .tryCas r => r.queued
  | .bonusRead k _ | .bonusStore k _ | .spinRead k | .firstSuccRead k _ | .firstSuccStore k _
  | .ownerRead k _ _ | .spinCas k | .wonSucc k | .wonClear k | .succRead k _ _ | .succStore k _ _
  | .penaltyRead k _ _ | .penaltyStore k _ _ _ | .abortSucc k | .abortClear k => k.queued
  | .pushedEntry | .respCas | .respRead | .parking _ _ | .futileSucc | .futileClear => true
  | .unlinkState | .unlinkNext | .unlinkPrev _ | .unlinkSetPrev _ _ | .unlinkSetNext _ _
  | .unlinkEntry _ .null | .unlinkSetEntry _ => true
  | .cxqRead | .cxqNext | .cxqCas _ | .cxqReread | .walk _ _ | .splice _ _ => true
  | _ => false

/-- The thread's node is initialised and not pushed yet. -/
def Pc.unpublished : Pc ι → Bool
  | .initCond | .initMutex | .initEvent | .initNParked | .pushRead | .pushCas _ => true
  | .tryRead .push | .tryCas .push => true
  | _ => false

lemma Pc.unpublished_fresh {pc : Pc ι} (h : pc.unpublished = true) :
    pc.owns = false ∧ pc.queued = false := by
  cases pc with
  | tryRead r | tryCas r => cases r <;> first | exact ⟨rfl, rfl⟩ | cases h
  | _ => first | exact ⟨rfl, rfl⟩ | cases h

/-- What `_EntryList` is made of. -/
structure Fields (ι : Type*) where
  next : ι → Option ι
  prev : ι → Link ι
  tState : ι → TState
  entryList : Option ι

def ObjectMonitor.fields (s : ObjectMonitor ι) : Fields ι := ⟨s.next, s.prev, s.tState, s.entryList⟩

/-- `_EntryList` is the doubly linked list `E` of nodes marked `TS_ENTER`. -/
structure Entry (f : Fields ι) (E : List ι) : Prop where
  seg : Seg f.next f.entryList E none
  back : Back .node f.prev .null E
  marked : ∀ t ∈ E, f.tState t = .enter

/-- The drain loop is done with `V` and still has `R` before it. -/
structure Drain (f : Fields ι) (E V R : List ι) : Prop where
  split : E = V ++ R
  seg : Seg f.next f.entryList E none
  back : Back .node f.prev .null V
  marked : ∀ t ∈ V, f.tState t = .enter
  unmarked : ∀ t ∈ R, f.tState t = .cxq

/-- Node `t` of `E = L ++ t :: R` is being unlinked: `_prev` already passes over it. -/
structure Unlinking (f : Fields ι) (t : ι) (E L R : List ι) : Prop where
  split : E = L ++ t :: R
  seg : Seg f.next f.entryList E none
  back : Back .node f.prev .null (L ++ R)
  marked : ∀ t ∈ E, f.tState t = .enter

/-- What the owner `me` finds at each of its places, for the lists `C` of `_cxq` and `E` of
`_EntryList`, or of the chain that is to become `_EntryList`. -/
def Shape (me : ι) (pc : Pc ι) (f : Fields ι) (C E : List ι) : Prop :=
  match pc with
  | .fault => False
  | .exitCxq | .drainCas _ => Entry f E ∧ E = []
  | .storeEntry w => f.entryList = none ∧ Seg f.next w E none ∧ ∀ t ∈ E, f.tState t = .cxq
  | .drainGuarantee p q | .drainState p q => ∃ V R, Drain f E V (p :: R) ∧ q = V.getLast?
  | .drainPrev p q => ∃ V R, E = V ++ p :: R ∧ Seg f.next f.entryList E none ∧
      Back .node f.prev .null V ∧ (∀ t ∈ V ++ [p], f.tState t = .enter) ∧
      (∀ t ∈ R, f.tState t = .cxq) ∧ q = V.getLast?
  | .drainNext p => ∃ V R, Drain f E (V ++ [p]) R
  | .drainedGuarantee w | .epilogSucc w | .epilogRelease w => Entry f E ∧ w ∈ E
  | .unlinkNext => Entry f E ∧ me ∈ E
  | .unlinkPrev nxt => Entry f E ∧ ∃ L R, E = L ++ me :: R ∧ nxt = R.head?
  | .unlinkSetPrev nxt prv => Entry f E ∧ ∃ L R, E = L ++ me :: nxt :: R ∧ prv = tip .node .null L
  | .unlinkSetNext nxt prv => ∃ L R, Unlinking f me E (L ++ [prv]) R ∧ nxt = R.head?
  | .unlinkEntry nxt .null | .unlinkSetEntry nxt => ∃ R, Unlinking f me E [] R ∧ nxt = R.head?
  | .unlinkEntry _ .bad => False
  | .cxqRead | .cxqNext => Entry f E ∧ me ∈ C
  | .cxqCas nx => Entry f E ∧ me ∈ C ∧ f.next me = nx
  | .cxqReread => Entry f E ∧ me ∈ C ∧ C.head? ≠ some me
  | .walk p q => Entry f E ∧ ∃ A B, C = A ++ B ∧ me ∈ B ∧ p = B.head? ∧
      (q = none → p ≠ some me) ∧ ∀ x, q = some x → ∃ A', A = A' ++ [x]
  | .splice q nx => Entry f E ∧ f.next me = nx ∧ ∃ A R, C = A ++ q :: me :: R
  | _ => Entry f E

/-- A place where the owner has nothing half done and knows nothing of its own. -/
def Pc.plain : Pc ι → Bool
  | .fault | .exitCxq | .drainCas _ | .storeEntry _ | .drainGuarantee _ _ | .drainState _ _
  | .drainPrev _ _ | .drainNext _ | .drainedGuarantee _ | .epilogSucc _ | .epilogRelease _
  | .unlinkNext | .unlinkPrev _ | .unlinkSetPrev _ _ | .unlinkSetNext _ _ | .unlinkEntry _ _
  | .unlinkSetEntry _ | .cxqRead | .cxqNext | .cxqCas _ | .cxqReread | .walk _ _ | .splice _ _ => false
  | _ => true

lemma shape_iff_entry {me : ι} {pc : Pc ι} {f : Fields ι} {C E : List ι} (h : pc.plain = true) :
    Shape me pc f C E ↔ Entry f E := by
  cases pc <;> first | exact Iff.rfl | exact absurd h Bool.false_ne_true

/-- The invariant: `C` is what hangs on `_cxq` and `E` on `_EntryList`. -/
structure Lists (s : ObjectMonitor ι) (loc : ι → Pc ι) (C E : List ι) : Prop where
  nodup : (C ++ E).Nodup
  mem : ∀ t, t ∈ C ++ E ↔ (loc t).queued = true
  stack : Seg s.next s.cxq C none
  marked : ∀ t ∈ C, s.tState t = .cxq
  free : s.owner = none → Entry s.fields E
  held : ∀ t, s.owner = some t → Shape t (loc t) s.fields C E
  unpublished : ∀ t, (loc t).unpublished = true → s.tState t = .cxq
  pushing : ∀ t nxt, loc t = .pushCas nxt → s.next t = nxt

end Definitions

section Frames
variable {ι : Type*} {f g : Fields ι} {me : ι} {pc : Pc ι} {C E : List ι}

/-- `g` differs from `f` outside the nodes of `l` only. -/
structure Fields.Agree (f g : Fields ι) (l : List ι) : Prop where
  entryList : g.entryList = f.entryList
  next : ∀ t ∈ l, g.next t = f.next t
  prev : ∀ t ∈ l, g.prev t = f.prev t
  tState : ∀ t ∈ l, g.tState t = f.tState t

lemma Fields.Agree.mono {l l' : List ι} (h : f.Agree g l) (hl : ∀ t ∈ l', t ∈ l) : f.Agree g l' :=
  ⟨h.entryList, fun t ht => h.next t (hl t ht), fun t ht => h.prev t (hl t ht),
    fun t ht => h.tState t (hl t ht)⟩

lemma Entry.frame (h : Entry f E) (ha : f.Agree g E) : Entry g E := by
  refine ⟨?_, h.back.frame ha.prev, fun t ht => (ha.tState t ht).trans (h.marked t ht)⟩
  rw [ha.entryList]
  exact h.seg.frame ha.next

lemma Drain.frame {V R : List ι} (h : Drain f E V R) (ha : f.Agree g E) : Drain g E V R := by
  have hV : ∀ t ∈ V, t ∈ E := fun t ht => h.split ▸ List.mem_append_left R ht
  have hR : ∀ t ∈ R, t ∈ E := fun t ht => h.split ▸ List.mem_append_right V ht
  refine ⟨h.split, ?_, h.back.frame fun t ht => ha.prev t (hV t ht),
    fun t ht => (ha.tState t (hV t ht)).trans (h.marked t ht),
    fun t ht => (ha.tState t (hR t ht)).trans (h.unmarked t ht)⟩
  rw [ha.entryList]
  exact h.seg.frame ha.next

lemma Unlinking.frame {t : ι} {L R : List ι} (h : Unlinking f t E L R) (ha : f.Agree g E) :
    Unlinking g t E L R := by
  have hLR : ∀ u ∈ L ++ R, u ∈ E := by
    intro u hu
    rw [h.split]
    rcases List.mem_append.mp hu with hu | hu
    · exact List.mem_append_left _ hu
    · exact List.mem_append_right _ (List.mem_cons_of_mem t hu)
  refine ⟨h.split, ?_, h.back.frame fun u hu => ha.prev u (hLR u hu),
    fun u hu => (ha.tState u hu).trans (h.marked u hu)⟩
  rw [ha.entryList]
  exact h.seg.frame ha.next

/-- What the owner knows depends on the nodes of the lists only. -/
lemma Shape.frame (h : Shape me pc f C E) (ha : f.Agree g (C ++ E)) : Shape me pc g C E := by
  have haE : f.Agree g E := ha.mono fun t => List.mem_append_right C
  have hC : ∀ t ∈ C, g.next t = f.next t := fun t ht => ha.next t (List.mem_append_left E ht)
  cases pc with
  | fault => exact h
  | exitCxq | drainCas => exact ⟨h.1.frame haE, h.2⟩
  | storeEntry w =>
    exact ⟨haE.entryList.trans h.1, h.2.1.frame haE.next,
      fun t ht => (haE.tState t ht).trans (h.2.2 t ht)⟩
  | drainGuarantee | drainState =>
    obtain ⟨V, R, hd, hq⟩ := h
    exact ⟨V, R, hd.frame haE, hq⟩
  | drainPrev p q =>
    obtain ⟨V, R, rfl, hs, hb, hm, hu, hq⟩ := h
    have hV : ∀ t ∈ V, t ∈ V ++ p :: R := fun t => List.mem_append_left _
    refine ⟨V, R, rfl, ?_, hb.frame fun t ht => haE.prev t (hV t ht), ?_, ?_, hq⟩
    · rw [haE.entryList]
      exact hs.frame haE.next
    · intro t ht
      rw [haE.tState t, hm t ht]
      rcases List.mem_append.mp ht with ht | ht
      · exact hV t ht
      · exact List.mem_append_right _ (List.mem_singleton.mp ht ▸ List.mem_cons_self)
    · intro t ht
      rw [haE.tState t (List.mem_append_right _ (List.mem_cons_of_mem p ht)), hu t ht]
  | drainNext p =>
    obtain ⟨V, R, hd⟩ := h
    exact ⟨V, R, hd.frame haE⟩
  | drainedGuarantee | epilogSucc | epilogRelease => exact ⟨h.1.frame haE, h.2⟩
  | unlinkNext | unlinkPrev | unlinkSetPrev => exact ⟨h.1.frame haE, h.2⟩
  | unlinkSetNext nxt prv =>
    obtain ⟨L, R, hu, hn⟩ := h
    exact ⟨L, R, hu.frame haE, hn⟩
  | unlinkEntry nxt prv =>
    cases prv with
    | null =>
      obtain ⟨R, hu, hn⟩ := h
      exact ⟨R, hu.frame haE, hn⟩
    | bad => exact h
    | node p => exact Entry.frame h haE
  | unlinkSetEntry nxt =>
    obtain ⟨R, hu, hn⟩ := h
    exact ⟨R, hu.frame haE, hn⟩
  | cxqRead | cxqNext | cxqReread | walk => exact ⟨h.1.frame haE, h.2⟩
  | cxqCas nx => exact ⟨h.1.frame haE, h.2.1, (hC me h.2.1).trans h.2.2⟩
  | splice q nx =>
    obtain ⟨he, hn, A, R, hA⟩ := h
    have hme : me ∈ C := hA ▸ List.mem_append_right _ (List.mem_cons_of_mem q List.mem_cons_self)
    exact ⟨he.frame haE, (hC me hme).trans hn, A, R, hA⟩
  | _ => exact Entry.frame h haE

/-- A push goes unnoticed by the owner. -/
lemma Shape.push {x : ι} (h : Shape me pc f C E) (hx : x ∉ C) : Shape me pc f (x :: C) E := by
  cases pc with
  | cxqRead | cxqNext => exact ⟨h.1, List.mem_cons_of_mem x h.2⟩
  | cxqCas nx => exact ⟨h.1, List.mem_cons_of_mem x h.2.1, h.2.2⟩
  | cxqReread =>
    refine ⟨h.1, List.mem_cons_of_mem x h.2.1, ?_⟩
    intro he
    exact hx (Option.some.inj he ▸ h.2.1)
  | walk p q =>
    obtain ⟨he, A, B, rfl, hme, hp, h0, hq⟩ := h
    refine ⟨he, x :: A, B, rfl, hme, hp, h0, ?_⟩
    intro y hy
    obtain ⟨A', rfl⟩ := hq y hy
    exact ⟨x :: A', rfl⟩
  | splice q nx =>
    obtain ⟨he, hn, A, R, rfl⟩ := h
    exact ⟨he, hn, x :: A, R, rfl⟩
  | unlinkEntry nxt prv => cases prv <;> exact h
  | _ => exact h

end Frames

/-! The owner takes a node out of `_EntryList`, and turns `_cxq` into `_EntryList`. -/

section Work
variable {ι : Type*} {f : Fields ι} {me : ι} {C E L R V : List ι}

lemma Entry.eq_nil (h : Entry f E) (hn : f.entryList = none) : E = [] := by
  have hh := h.seg.head_eq
  rw [hn] at hh
  exact List.head?_eq_none_iff.mp hh.symm

lemma Entry.head_mem {w : ι} (h : Entry f E) (hw : f.entryList = some w) : w ∈ E := by
  have hh := h.seg.head_eq
  rw [hw] at hh
  exact List.mem_of_head? hh.symm

lemma tip_node_null (V : List ι) : tip Link.node .null V = .ofOption V.getLast? := by
  rcases V.eq_nil_or_concat' with rfl | ⟨V, x, rfl⟩
  · rfl
  · rw [tip_concat, List.getLast?_concat]
    rfl

/-- Once `_prev` passes over the node, `_next` or `_EntryList` is to follow. -/
lemma Unlinking.front (h : Unlinking f me E L R) :
    Shape me (unlinkFront R.head? (tip .node .null L)) f C E ∧
      (unlinkFront R.head? (tip .node .null L) : Pc ι).queued = true := by
  rcases L.eq_nil_or_concat' with rfl | ⟨L, x, rfl⟩
  · exact ⟨⟨R, h, rfl⟩, rfl⟩
  · rw [tip_concat]
    exact ⟨⟨L, R, h, rfl⟩, rfl⟩

/-- The last node has nothing behind it that points back. -/
lemma Entry.unlinkLast (h : Entry f (L ++ [me])) : Unlinking f me (L ++ [me]) L [] := by
  refine ⟨rfl, h.seg, ?_, h.marked⟩
  rw [List.append_nil]
  exact (back_append.mp h.back).1

lemma Drain.loop (h : Drain f E V R) : Shape me (drainLoop V.getLast? R.head?) f C E := by
  cases R with
  | nil =>
    obtain rfl : E = V := by simpa using h.split
    exact ⟨h.seg, h.back, h.marked⟩
  | cons p R => exact ⟨V, R, h, rfl⟩

/-- After a node, the drain loop goes on to the one behind it. -/
lemma Drain.next {p : ι} (h : Drain f E (V ++ [p]) R) :
    Shape me (drainLoop (some p) (f.next p)) f C E := by
  have hseg := h.seg
  rw [h.split, List.append_assoc] at hseg
  rw [hseg.next_eq (l := V)]
  have hloop : Shape me (drainLoop (V ++ [p]).getLast? R.head?) f C E := h.loop
  rw [List.getLast?_concat] at hloop
  exact hloop

/-- The first node leaves by the store to `_EntryList`. -/
lemma Unlinking.unlinkFirst (h : Unlinking f me E [] R) : Entry { f with entryList := R.head? } R := by
  obtain ⟨rfl, hseg, hback, hmarked⟩ := h
  have htail := hseg.2
  rw [hseg.next_eq (l := [])] at htail
  exact ⟨htail, hback, fun t ht => hmarked t (List.mem_cons_of_mem me ht)⟩

variable [DecidableEq ι]

/-- The store to `_prev` of the node behind. -/
lemma Entry.unlinkPrev {nxt : ι} (h : Entry f (L ++ me :: nxt :: R)) (hd : (L ++ me :: nxt :: R).Nodup) :
    Unlinking { f with prev := Function.update f.prev nxt (tip .node .null L) } me
      (L ++ me :: nxt :: R) L (nxt :: R) := by
  obtain ⟨-, hd', hdis⟩ := List.nodup_append.mp hd
  have hL : nxt ∉ L := fun hm =>
    hdis nxt hm nxt (List.mem_cons_of_mem me List.mem_cons_self) rfl
  obtain ⟨hbL, -, hbR⟩ := back_append.mp h.back
  exact ⟨rfl, h.seg, back_append.mpr ⟨hbL.update hL _, hbR.rebase (List.nodup_cons.mp hd').2⟩, h.marked⟩

/-- The store to `_next` of the node in front takes the node out. -/
lemma Unlinking.unlinkNext {prv : ι} (h : Unlinking f me E (L ++ [prv]) R) (hd : E.Nodup) :
    Entry { f with next := Function.update f.next prv R.head? } (L ++ prv :: R) := by
  obtain ⟨hsplit, hseg, hback, hmarked⟩ := h
  have hE : E = L ++ prv :: me :: R := by rw [hsplit, List.append_assoc]; rfl
  subst hE
  have hnext : f.next me = R.head? := by
    rw [hsplit] at hseg
    exact hseg.next_eq
  refine ⟨?_, ?_, ?_⟩
  · rw [← hnext]
    exact hseg.unlink hd
  · rw [List.append_assoc] at hback
    exact hback
  · intro t ht
    apply hmarked t
    rcases List.mem_append.mp ht with ht | ht
    · exact List.mem_append_left _ ht
    · rcases List.mem_cons.mp ht with rfl | ht
      · exact List.mem_append_right _ List.mem_cons_self
      · exact List.mem_append_right _ (List.mem_cons_of_mem _ (List.mem_cons_of_mem _ ht))

/-- The drain loop marks a node ... -/
lemma Drain.mark {p : ι} (h : Drain f E V (p :: R)) (hd : E.Nodup) :
    Shape me (.drainPrev p V.getLast?) { f with tState := Function.update f.tState p .enter } C E := by
  obtain ⟨rfl, hseg, hback, hmarked, hunmarked⟩ := h
  have hpR : p ∉ R := (List.nodup_cons.mp (List.nodup_append.mp hd).2.1).1
  refine ⟨V, R, rfl, hseg, hback, ?_, ?_, rfl⟩
  · intro t ht
    by_cases htp : t = p
    · rw [htp]
      exact Function.update_self p _ _
    · have htV : t ∈ V := by simpa [htp] using ht
      exact (Function.update_of_ne htp _ _).trans (hmarked t htV)
  · intro t ht
    have htp : t ≠ p := fun e => hpR (e ▸ ht)
    exact (Function.update_of_ne htp _ _).trans (hunmarked t (List.mem_cons_of_mem p ht))

/-- ... and points it back at the one before. -/
lemma Drain.link {p : ι} (hd : (V ++ p :: R).Nodup) (hseg : Seg f.next f.entryList (V ++ p :: R) none)
    (hback : Back .node f.prev .null V) (hmarked : ∀ t ∈ V ++ [p], f.tState t = .enter)
    (hunmarked : ∀ t ∈ R, f.tState t = .cxq) :
    Drain { f with prev := Function.update f.prev p (.ofOption V.getLast?) } (V ++ p :: R)
      (V ++ [p]) R := by
  have hpV : p ∉ V := fun hm => (List.nodup_append.mp hd).2.2 p hm p List.mem_cons_self rfl
  refine ⟨by simp, hseg, back_append.mpr ⟨hback.update hpV _, ?_, trivial⟩, hmarked, hunmarked⟩
  rw [tip_node_null]
  exact Function.update_self p _ _

end Work

/-! The moves that mean nothing to the lists. -/

section Keeps
variable {ι : Type*}

/-- A move between plain places that neither publishes nor retires the node. -/
structure Pc.Keeps (pc pc' : Pc ι) : Prop where
  plain : pc.plain = true
  plain' : pc'.plain = true
  queued : pc'.queued = pc.queued
  unpublished : pc'.unpublished = true → pc.unpublished = true
  pushing : ∀ nxt, pc' ≠ .pushCas nxt

lemma keeps_spun {pc : Pc ι} {k : SpinCaller} (hp : pc.plain = true) (hq : pc.queued = k.queued)
    (b : Bool) : pc.Keeps (spun k b) := by
  cases k <;> cases b <;> exact ⟨hp, rfl, hq.symm, nofun, nofun⟩

lemma keeps_tryCas (r : TryLockCaller) : (Pc.tryRead r : Pc ι).Keeps (.tryCas r) := by
  refine ⟨rfl, rfl, rfl, fun h => ?_, nofun⟩
  cases r <;> exact h

lemma keeps_won (r : TryLockCaller) : (Pc.tryCas r : Pc ι).Keeps (won r) := by
  cases r with
  | abort k => exact keeps_spun rfl rfl true
  | _ => exact ⟨rfl, rfl, rfl, nofun, nofun⟩

lemma keeps_lost {pc : Pc ι} {r : TryLockCaller} (h : pc = .tryRead r ∨ pc = .tryCas r) :
    pc.Keeps (lost r) := by
  rcases h with rfl | rfl
  all_goals
    cases r with
    | preSpin k ctr => cases ctr <;> exact ⟨rfl, rfl, rfl, nofun, nofun⟩
    | abort k => exact keeps_spun rfl rfl false
    | push => exact ⟨rfl, rfl, rfl, fun _ => rfl, nofun⟩
    | _ => exact ⟨rfl, rfl, rfl, nofun, nofun⟩

lemma keeps_spinLoop {pc : Pc ι} {k : SpinCaller} (hp : pc.plain = true) (hq : pc.queued = k.queued)
    (prv : Option ι) (ctr : ℕ) : pc.Keeps (spinLoop k prv ctr) := by
  cases ctr <;> exact ⟨hp, rfl, hq.symm, nofun, nofun⟩

lemma keeps_afterPark (timed : Bool) (q q' : ParkPc) :
    (Pc.parking timed q : Pc ι).Keeps (afterPark timed q') := by
  cases q' <;> exact ⟨rfl, rfl, rfl, nofun, nofun⟩

lemma keeps_afterUnpark (w : ι) (q q' : UnparkPc) : (Pc.unparking w q).Keeps (afterUnpark w q') := by
  cases q' <;> exact ⟨rfl, rfl, rfl, nofun, nofun⟩

end Keeps

/-! Putting the invariant together again after a step. -/

section Assembly
variable {ι : Type*} [DecidableEq ι] {s s' : ObjectMonitor ι} {loc : ι → Pc ι} {me : ι} {pc' : Pc ι}
  {C E C' E' : List ι}

/-- A step of `me` that rearranges the lists to `C'` and `E'`. -/
lemma Lists.moved (h : Lists s loc C E) (hnodup : (C' ++ E').Nodup)
    (hmem : ∀ u, u ≠ me → (u ∈ C' ++ E' ↔ u ∈ C ++ E)) (hme : me ∈ C' ++ E' ↔ pc'.queued = true)
    (hstack : Seg s'.next s'.cxq C' none) (hmarked : ∀ t ∈ C', s'.tState t = .cxq)
    (hfree : s'.owner = none → Entry s'.fields E')
    (hheld : s'.owner = some me → Shape me pc' s'.fields C' E')
    (hother : ∀ u, u ≠ me → s'.owner = some u → Shape u (loc u) s'.fields C' E')
    (hunpublished : pc'.unpublished = true → s'.tState me = .cxq)
    (hpushing : ∀ nxt, pc' = .pushCas nxt → s'.next me = nxt)
    (hframe : ∀ u, u ≠ me → u ∉ C ++ E → s'.next u = s.next u ∧ s'.tState u = s.tState u) :
    Lists s' (Function.update loc me pc') C' E' := by
  have hloc {u : ι} (hu : u ≠ me) : Function.update loc me pc' u = loc u := Function.update_of_ne hu _ _
  refine ⟨hnodup, fun u => ?_, hstack, hmarked, hfree, fun u => ?_, fun u => ?_, fun u nxt => ?_⟩
  · by_cases hu : u = me
    · rw [hu, Function.update_self]
      exact hme
    · rw [hloc hu, hmem u hu]
      exact h.mem u
  · by_cases hu : u = me
    · rw [hu, Function.update_self]
      exact hheld
    · rw [hloc hu]
      exact hother u hu
  · by_cases hu : u = me
    · rw [hu, Function.update_self]
      exact hunpublished
    · rw [hloc hu]
      intro hp
      have hn : u ∉ C ++ E := by
        rw [h.mem u, (Pc.unpublished_fresh hp).2]
        exact Bool.false_ne_true
      rw [(hframe u hu hn).2]
      exact h.unpublished u hp
  · by_cases hu : u = me
    · rw [hu, Function.update_self]
      exact hpushing nxt
    · rw [hloc hu]
      intro hp
      have hn : u ∉ C ++ E := by
        rw [h.mem u, hp]
        exact Bool.false_ne_true
      rw [(hframe u hu hn).1]
      exact h.pushing u nxt hp

/-- The owner rearranges the lists. -/
lemma Lists.owned (h : Lists s loc C E) (ho : s'.owner = some me) (hown : pc'.owns = true)
    (hnodup : (C' ++ E').Nodup) (hmem : ∀ u, u ≠ me → (u ∈ C' ++ E' ↔ u ∈ C ++ E))
    (hme : me ∈ C' ++ E' ↔ pc'.queued = true)
    (hstack : Seg s'.next s'.cxq C' none) (hmarked : ∀ t ∈ C', s'.tState t = .cxq)
    (hshape : Shape me pc' s'.fields C' E')
    (hframe : ∀ u, u ∉ C ++ E → s'.next u = s.next u ∧ s'.tState u = s.tState u) :
    Lists s' (Function.update loc me pc') C' E' := by
  refine h.moved hnodup hmem hme hstack hmarked ?_ (fun _ => hshape) ?_ ?_ ?_ fun u _ => hframe u
  · intro hn
    rw [ho] at hn
    cases hn
  · intro u hu hou
    rw [ho] at hou
    exact absurd (Option.some.inj hou).symm hu
  · intro hp
    rw [(Pc.unpublished_fresh hp).1] at hown
    cases hown
  · intro nxt hp
    rw [hp] at hown
    cases hown

/-- The owner goes on, with the nodes and the lists as they are. -/
lemma Lists.turn (h : Lists s loc C E) (ho : s.owner = some me) (hpc : loc me = pc)
    (hown : pc'.owns = true) (hq : pc'.queued = pc.queued) (hshape : Shape me pc' s.fields C E) :
    Lists s (Function.update loc me pc') C E := by
  refine h.owned ho hown h.nodup (fun _ _ => Iff.rfl) ?_ h.stack h.marked hshape fun _ _ => ⟨rfl, rfl⟩
  rw [hq, ← hpc]
  exact h.mem me

/-- A step that leaves the nodes and the lists alone. -/
lemma Lists.quiet (h : Lists s loc C E) (hpc : loc me = pc)
    (howner : (s'.owner = s.owner ∧ pc'.owns = pc.owns) ∨
      (s.owner = none ∧ s'.owner = some me ∧ pc'.owns = true) ∨
      (s.owner = some me ∧ s'.owner = none ∧ pc'.owns = false))
    (hf : s'.fields = s.fields) (hc : s'.cxq = s.cxq) (hk : pc.Keeps pc') :
    Lists s' (Function.update loc me pc') C E := by
  subst hpc
  obtain ⟨hp, hp', hq, hu, hpush⟩ := hk
  have hn : s'.next = s.next := congrArg Fields.next hf
  have ht : s'.tState = s.tState := congrArg Fields.tState hf
  refine h.moved h.nodup (fun _ _ => Iff.rfl) (by rw [hq]; exact h.mem me) (by rw [hn, hc]; exact h.stack)
    (by rw [ht]; exact h.marked) ?_ ?_ ?_ ?_ (fun nxt e => absurd e (hpush nxt))
    fun u _ _ => ⟨congrFun hn u, congrFun ht u⟩
  · intro hfree
    rw [hf]
    rcases howner with ⟨ho, -⟩ | ⟨-, ho, -⟩ | ⟨ho, -, -⟩
    · exact h.free (ho ▸ hfree)
    · rw [ho] at hfree
      cases hfree
    · exact (shape_iff_entry hp).mp (h.held me ho)
  · intro hmine
    rw [hf, shape_iff_entry hp']
    rcases howner with ⟨ho, -⟩ | ⟨ho, -, -⟩ | ⟨-, ho, -⟩
    · exact (shape_iff_entry hp).mp (h.held me (ho ▸ hmine))
    · exact h.free ho
    · rw [ho] at hmine
      cases hmine
  · intro u hne hu
    rw [hf]
    rcases howner with ⟨ho, -⟩ | ⟨-, ho, -⟩ | ⟨-, ho, -⟩
    · exact h.held u (ho ▸ hu)
    · rw [ho] at hu
      exact absurd (Option.some.inj hu).symm hne
    · rw [ho] at hu
      cases hu
  · intro hup
    rw [ht]
    exact h.unpublished me (hu hup)

/-- The owner takes its own node out of one of the lists. -/
lemma Lists.removed (h : Lists s loc C E) {X Y : List ι} (hl : C ++ E = X ++ me :: Y)
    (hl' : C' ++ E' = X ++ Y) (ho : s'.owner = some me) (hown : pc'.owns = true)
    (hq : pc'.queued = false) (hstack : Seg s'.next s'.cxq C' none) (ht : s'.tState = s.tState)
    (hshape : Shape me pc' s'.fields C' E') (hsub : ∀ t ∈ C', t ∈ C)
    (hframe : ∀ u, u ∉ C ++ E → s'.next u = s.next u) :
    Lists s' (Function.update loc me pc') C' E' := by
  have hd := h.nodup
  rw [hl, List.nodup_middle, List.nodup_cons] at hd
  refine h.owned ho hown (hl' ▸ hd.2) ?_ ?_ hstack ?_ hshape fun u hu => ⟨hframe u hu, congrFun ht u⟩
  · intro u hu
    rw [hl, hl', List.mem_append, List.mem_append, List.mem_cons]
    simp [hu]
  · rw [hl', hq]
    simp [hd.1]
  · intro t htC
    rw [ht]
    exact h.marked t (hsub t htC)

/-- A thread writes to its own node while that is on no list. -/
lemma Lists.ownNode (h : Lists s loc C E) (ho : s'.owner = s.owner) (hno : s.owner ≠ some me)
    (hq : (loc me).queued = false) (hq' : pc'.queued = false) (hc : s'.cxq = s.cxq)
    (he : s'.entryList = s.entryList) (hn : ∀ u, u ≠ me → s'.next u = s.next u)
    (hp : ∀ u, u ≠ me → s'.prev u = s.prev u) (ht : ∀ u, u ≠ me → s'.tState u = s.tState u)
    (hunpublished : s'.tState me = .cxq) (hpushing : ∀ nxt, pc' = .pushCas nxt → s'.next me = nxt) :
    Lists s' (Function.update loc me pc') C E := by
  have hme : me ∉ C ++ E := by
    rw [h.mem me, hq]
    exact Bool.false_ne_true
  have hne {t : ι} (htl : t ∈ C ++ E) : t ≠ me := fun e => hme (e ▸ htl)
  have ha : s.fields.Agree s'.fields (C ++ E) :=
    ⟨he, fun t htl => hn t (hne htl), fun t htl => hp t (hne htl), fun t htl => ht t (hne htl)⟩
  refine h.moved h.nodup (fun _ _ => Iff.rfl) (by rw [h.mem me, hq, hq']) ?_ ?_ ?_ ?_ ?_
    (fun _ => hunpublished) hpushing fun u hu _ => ⟨hn u hu, ht u hu⟩
  · rw [hc]
    exact h.stack.frame fun t htC => hn t (hne (List.mem_append_left E htC))
  · intro t htC
    rw [ht t (hne (List.mem_append_left E htC))]
    exact h.marked t htC
  · intro hfree
    exact (h.free (ho ▸ hfree)).frame (ha.mono fun t => List.mem_append_right C)
  · intro hmine
    exact absurd (ho ▸ hmine) hno
  · intro u _ hu
    exact (h.held u (ho ▸ hu)).frame ha

/-- The push. -/
lemma Lists.push (h : Lists s loc C E) {nxt : Option ι} (hpc : loc me = .pushCas nxt)
    (hcas : s.cxq = nxt) (hno : s.owner ≠ some me) (hq : pc'.queued = true) :
    Lists { s with cxq := some me } (Function.update loc me pc') (me :: C) E := by
  have hme : me ∉ C ++ E := by
    rw [h.mem me, hpc]
    exact Bool.false_ne_true
  have hunp : pc'.unpublished ≠ true := fun hp => by
    rw [(Pc.unpublished_fresh hp).2] at hq
    cases hq
  refine h.moved (List.nodup_cons.mpr ⟨hme, h.nodup⟩) ?_ ?_ ?_ ?_ h.free (fun hmine => absurd hmine hno)
    ?_ (fun hp => absurd hp hunp) ?_ fun _ _ _ => ⟨rfl, rfl⟩
  · intro u hu
    rw [List.cons_append, List.mem_cons]
    simp [hu]
  · rw [hq]
    simp
  · refine ⟨rfl, ?_⟩
    rw [h.pushing me nxt hpc, ← hcas]
    exact h.stack
  · intro t ht
    rcases List.mem_cons.mp ht with rfl | ht
    · exact h.unpublished t (by rw [hpc]; rfl)
    · exact h.marked t ht
  · intro u _ hu
    exact (h.held u hu).push fun hm => hme (List.mem_append_left E hm)
  · rintro nxt rfl
    exact absurd rfl hunp

end Assembly

/-! The stores of the owner. -/

section Owner
variable {ι : Type*} {s : ObjectMonitor ι} {loc : ι → Pc ι} {me : ι} {C E : List ι}

section
variable (h : Lists s loc C E)
include h

lemma Lists.entry_notMem {t : ι} (ht : t ∈ E) : t ∉ C :=
  fun hm => (List.nodup_append.mp h.nodup).2.2 t hm t ht rfl

lemma Lists.shape {pc : Pc ι} (ho : s.owner = some me) (hpc : loc me = pc) :
    Shape me pc s.fields C E := by
  rw [← hpc]
  exact h.held me ho

variable [DecidableEq ι]

lemma Lists.unlinkSetPrev {nxt : ι} {prv : Link ι} (ho : s.owner = some me)
    (hpc : loc me = .unlinkSetPrev nxt prv) :
    Lists { s with prev := Function.update s.prev nxt prv }
      (Function.update loc me (unlinkFront (some nxt) prv)) C E := by
  obtain ⟨he, L, R, rfl, rfl⟩ := h.shape ho hpc
  have hfront := (he.unlinkPrev (List.nodup_append.mp h.nodup).2.1).front (C := C)
  refine h.owned ho (unlinkFront_owns _ _) h.nodup (fun _ _ => Iff.rfl) ?_ h.stack h.marked hfront.1
    fun _ _ => ⟨rfl, rfl⟩
  rw [h.mem me, hpc]
  exact ⟨fun _ => hfront.2, fun _ => rfl⟩

lemma Lists.unlinkSetNext {nxt : Option ι} {prv : ι} (ho : s.owner = some me)
    (hpc : loc me = .unlinkSetNext nxt prv) :
    ∃ E', Lists { s with next := Function.update s.next prv nxt }
      (Function.update loc me (.unlinkEntry nxt (.node prv))) C E' := by
  obtain ⟨L, R, hu, rfl⟩ := h.shape ho hpc
  have hE : E = L ++ prv :: me :: R := by
    rw [hu.split, List.append_assoc]
    rfl
  have hprv : prv ∈ E := hE ▸ List.mem_append_right L List.mem_cons_self
  have hC := h.entry_notMem hprv
  refine ⟨L ++ prv :: R, h.removed (X := C ++ L ++ [prv]) (Y := R) ?_ ?_ ho rfl rfl ?_ rfl
    (hu.unlinkNext (List.nodup_append.mp h.nodup).2.1) (fun _ => id) ?_⟩
  · rw [hE]
    simp
  · simp
  · exact h.stack.update hC _
  · intro u hul
    have hup : u ≠ prv := fun e => hul (List.mem_append_right C (e ▸ hprv))
    exact Function.update_of_ne hup _ _

lemma Lists.unlinkSetEntry {nxt : Option ι} (ho : s.owner = some me)
    (hpc : loc me = .unlinkSetEntry nxt) :
    ∃ E', Lists { s with entryList := nxt } (Function.update loc me .egressSucc) C E' := by
  obtain ⟨R, hu, rfl⟩ := h.shape ho hpc
  have hE : E = me :: R := hu.split
  refine ⟨R, h.removed (X := C) (Y := R) ?_ rfl ho rfl rfl h.stack rfl hu.unlinkFirst (fun _ => id)
    fun _ _ => rfl⟩
  rw [hE]

lemma Lists.cxqWon {nx : Option ι} (ho : s.owner = some me) (hpc : loc me = .cxqCas nx)
    (hcas : s.cxq = some me) :
    ∃ C', Lists { s with cxq := nx } (Function.update loc me .egressSucc) C' E := by
  obtain ⟨he, hme, rfl⟩ := h.shape ho hpc
  have hstack := h.stack
  cases C with
  | nil => cases hme
  | cons a C =>
    obtain ⟨ha, hC⟩ := hstack
    obtain rfl : me = a := Option.some.inj (hcas.symm.trans ha)
    exact ⟨C, h.removed (X := []) (Y := C ++ E) rfl rfl ho rfl rfl hC rfl he
      (fun t => List.mem_cons_of_mem me) fun _ _ => rfl⟩

lemma Lists.splice {q : ι} {nx : Option ι} (ho : s.owner = some me) (hpc : loc me = .splice q nx) :
    ∃ C', Lists { s with next := Function.update s.next q nx } (Function.update loc me .egressSucc) C' E := by
  obtain ⟨he, rfl, A, R, rfl⟩ := h.shape ho hpc
  have hq : q ∈ A ++ q :: me :: R := List.mem_append_right A List.mem_cons_self
  have hqE : ∀ t ∈ E, t ≠ q := fun t ht e => h.entry_notMem ht (e ▸ hq)
  have hd := (List.nodup_append.mp h.nodup).1
  have he' : Entry ({ s with next := Function.update s.next q (s.next me) } : ObjectMonitor ι).fields E :=
    he.frame ⟨rfl, fun t ht => Function.update_of_ne (hqE t ht) _ _, fun _ _ => rfl, fun _ _ => rfl⟩
  refine ⟨A ++ q :: R, h.removed (X := A ++ [q]) (Y := R ++ E) ?_ ?_ ho rfl rfl (h.stack.unlink hd) rfl
    he' ?_ ?_⟩
  · simp
  · simp
  · intro t ht
    rcases List.mem_append.mp ht with ht | ht
    · exact List.mem_append_left _ ht
    · rcases List.mem_cons.mp ht with rfl | ht
      · exact hq
      · exact List.mem_append_right _ (List.mem_cons_of_mem _ (List.mem_cons_of_mem _ ht))
  · intro u hul
    have huq : u ≠ q := fun e => hul (List.mem_append_left E (e ▸ hq))
    exact Function.update_of_ne huq _ _

lemma Lists.drainWon {w : Option ι} (ho : s.owner = some me) (hpc : loc me = .drainCas w)
    (hcas : s.cxq = w) :
    Lists { s with cxq := none } (Function.update loc me (.storeEntry w)) [] C := by
  obtain ⟨he, rfl⟩ := h.shape ho hpc
  have hmem := h.mem me
  rw [List.append_nil] at hmem
  refine h.owned ho rfl ?_ ?_ ?_ rfl nofun ⟨he.seg, hcas ▸ h.stack, h.marked⟩ fun _ _ => ⟨rfl, rfl⟩
  · simpa using h.nodup
  · simp
  · rw [List.nil_append, hmem, hpc]
    rfl

lemma Lists.storeEntry {w : Option ι} (ho : s.owner = some me) (hpc : loc me = .storeEntry w) :
    Lists { s with entryList := w } (Function.update loc me (drainLoop none w)) C E := by
  obtain ⟨-, hseg, hmarks⟩ := h.shape ho hpc
  have hdrain : Drain ({ s with entryList := w } : ObjectMonitor ι).fields E [] E :=
    ⟨rfl, hseg, trivial, nofun, hmarks⟩
  have hloop : Shape me (drainLoop none E.head?)
      ({ s with entryList := w } : ObjectMonitor ι).fields C E := hdrain.loop
  rw [← hseg.head_eq] at hloop
  refine h.owned ho (drainLoop_owns _ _) h.nodup (fun _ _ => Iff.rfl) ?_ h.stack h.marked hloop
    fun _ _ => ⟨rfl, rfl⟩
  rw [h.mem me, hpc]
  cases w <;> rfl

lemma Lists.drainState {p : ι} {q : Option ι} (ho : s.owner = some me)
    (hpc : loc me = .drainState p q) :
    Lists { s with tState := Function.update s.tState p .enter }
      (Function.update loc me (.drainPrev p q)) C E := by
  obtain ⟨V, R, hd, rfl⟩ := h.shape ho hpc
  have hp : p ∈ E := hd.split ▸ List.mem_append_right V List.mem_cons_self
  have hpC := h.entry_notMem hp
  refine h.owned ho rfl h.nodup (fun _ _ => Iff.rfl) ?_ h.stack ?_
    (hd.mark (List.nodup_append.mp h.nodup).2.1) ?_
  · rw [h.mem me, hpc]
    rfl
  · intro t ht
    have htp : t ≠ p := fun e => hpC (e ▸ ht)
    exact (Function.update_of_ne htp _ _).trans (h.marked t ht)
  · intro u hu
    have hup : u ≠ p := fun e => hu (List.mem_append_right C (e ▸ hp))
    exact ⟨rfl, Function.update_of_ne hup _ _⟩

lemma Lists.drainPrev {p : ι} {q : Option ι} (ho : s.owner = some me) (hpc : loc me = .drainPrev p q) :
    Lists { s with prev := Function.update s.prev p (.ofOption q) }
      (Function.update loc me (.drainNext p)) C E := by
  obtain ⟨V, R, rfl, hseg, hback, hmarked, hunmarked, rfl⟩ := h.shape ho hpc
  refine h.owned ho rfl h.nodup (fun _ _ => Iff.rfl) ?_ h.stack h.marked
    ⟨V, R, Drain.link (List.nodup_append.mp h.nodup).2.1 hseg hback hmarked hunmarked⟩
    fun _ _ => ⟨rfl, rfl⟩
  rw [h.mem me, hpc]
  rfl

end
end Owner

section Runs
variable {ι : Type*} [DecidableEq ι] {me : ι} {s s' : ObjectMonitor ι} {pc pc' : Pc ι} {loc : ι → Pc ι}
  {C E : List ι}

theorem Lists.step (h : Lists s loc C E) (hown : OwnerOk ⟨s, loc⟩) (hpc : loc me = pc)
    (hs : Step me s pc s' pc') : ∃ C' E', Lists s' (Function.update loc me pc') C' E' := by
  have hmine : s.owner = some me ↔ pc.owns = true := hpc ▸ hown me
  have howner := hs.owner hmine
  cases hs with
  | initNode =>
    refine ⟨C, E, h.ownNode rfl (fun e => ?_) ?_ rfl rfl rfl ?_ ?_ ?_ ?_ nofun⟩
    · cases hmine.mp e
    · rw [hpc]; rfl
    · exact fun u hu => Function.update_of_ne hu _ _
    · exact fun u hu => Function.update_of_ne hu _ _
    · exact fun u hu => Function.update_of_ne hu _ _
    · exact Function.update_self me _ _
  | pushRead =>
    refine ⟨C, E, h.ownNode rfl (fun e => ?_) ?_ rfl rfl rfl ?_ (fun _ _ => rfl) (fun _ _ => rfl) ?_ ?_⟩
    · cases hmine.mp e
    · rw [hpc]; rfl
    · exact fun u hu => Function.update_of_ne hu _ _
    · exact h.unpublished me (by rw [hpc]; rfl)
    · intro nxt hnxt
      cases hnxt
      exact Function.update_self me _ _
  | pushWon nxt hcas =>
    refine ⟨me :: C, E, h.push hpc hcas (fun e => ?_) ?_⟩
    · cases hmine.mp e
    · split <;> rfl
  | unlinkEnter ht =>
    have ho := hmine.mpr rfl
    have hmem := (h.mem me).mpr (by rw [hpc]; rfl)
    have hE : me ∈ E := by
      rcases List.mem_append.mp hmem with hC | hE
      · rw [h.marked me hC] at ht
        cases ht
      · exact hE
    exact ⟨C, E, h.turn ho hpc rfl rfl ⟨h.shape ho hpc, hE⟩⟩
  | unlinkCxq ht =>
    have ho := hmine.mpr rfl
    have he : Entry s.fields E := h.shape ho hpc
    have hmem := (h.mem me).mpr (by rw [hpc]; rfl)
    have hC : me ∈ C := by
      rcases List.mem_append.mp hmem with hC | hE
      · exact hC
      · exact absurd (he.marked me hE) ht
    exact ⟨C, E, h.turn ho hpc rfl rfl ⟨he, hC⟩⟩
  | unlinkNext =>
    have ho := hmine.mpr rfl
    obtain ⟨he, hE⟩ := h.shape ho hpc
    obtain ⟨L, R, rfl⟩ := List.append_of_mem hE
    exact ⟨C, _, h.turn ho hpc rfl rfl ⟨he, L, R, rfl, he.seg.next_eq⟩⟩
  | unlinkPrevLast =>
    have ho := hmine.mpr rfl
    obtain ⟨he, L, R, rfl, hR⟩ := h.shape ho hpc
    obtain rfl : R = [] := List.head?_eq_none_iff.mp hR.symm
    have hprev : s.prev me = tip .node .null L := (back_append.mp he.back).2.1
    have hfront := he.unlinkLast.front (C := C)
    rw [hprev]
    exact ⟨C, _, h.turn ho hpc (unlinkFront_owns _ _) hfront.2 hfront.1⟩
  | unlinkPrev nxt =>
    have ho := hmine.mpr rfl
    obtain ⟨he, L, R, rfl, hR⟩ := h.shape ho hpc
    cases R with
    | nil => cases hR
    | cons a R =>
      obtain rfl : nxt = a := Option.some.inj hR
      exact ⟨C, _, h.turn ho hpc rfl rfl ⟨he, L, R, rfl, (back_append.mp he.back).2.1⟩⟩
  | unlinkSetPrev nxt prv => exact ⟨C, E, h.unlinkSetPrev (hmine.mpr rfl) hpc⟩
  | unlinkSetNext nxt prv => exact ⟨C, h.unlinkSetNext (hmine.mpr rfl) hpc⟩
  | unlinkFirst nxt prv hfirst =>
    have ho := hmine.mpr rfl
    have hsh := h.shape ho hpc
    cases prv with
    | null => exact ⟨C, E, h.turn ho hpc rfl rfl hsh⟩
    | bad => exact hsh.elim
    | node p =>
      -- the node is off the list, so it cannot be the first
      have hE : me ∈ E := Entry.head_mem hsh hfirst
      have hq := (h.mem me).mp (List.mem_append_right C hE)
      rw [hpc] at hq
      cases hq
  | unlinkInner nxt prv hinner =>
    have ho := hmine.mpr rfl
    have hsh := h.shape ho hpc
    cases prv with
    | null =>
      obtain ⟨R, hu, -⟩ := hsh
      have hhead := hu.seg.head_eq
      rw [hu.split] at hhead
      exact absurd hhead hinner
    | bad => exact hsh.elim
    | node p => exact ⟨C, E, h.turn ho hpc rfl rfl hsh⟩
  | unlinkSetEntry nxt => exact ⟨C, h.unlinkSetEntry (hmine.mpr rfl) hpc⟩
  | cxqFirst =>
    have ho := hmine.mpr rfl
    have hsh := h.shape ho hpc
    exact ⟨C, E, h.turn ho hpc rfl rfl hsh⟩
  | cxqInner hinner =>
    have ho := hmine.mpr rfl
    obtain ⟨he, hC⟩ := h.shape ho hpc
    exact ⟨C, E, h.turn ho hpc rfl rfl
      ⟨he, [], C, rfl, hC, h.stack.head_eq, fun _ => hinner, nofun⟩⟩
  | cxqNext =>
    have ho := hmine.mpr rfl
    obtain ⟨he, hC⟩ := h.shape ho hpc
    exact ⟨C, E, h.turn ho hpc rfl rfl ⟨he, hC, rfl⟩⟩
  | cxqWon nx hcas =>
    obtain ⟨C', hC'⟩ := h.cxqWon (hmine.mpr rfl) hpc hcas
    exact ⟨C', E, hC'⟩
  | cxqLost nx hcas =>
    have ho := hmine.mpr rfl
    obtain ⟨he, hC, -⟩ := h.shape ho hpc
    refine ⟨C, E, h.turn ho hpc rfl rfl ⟨he, hC, ?_⟩⟩
    rw [← h.stack.head_eq]
    exact hcas
  | cxqReread =>
    have ho := hmine.mpr rfl
    obtain ⟨he, hC, hhead⟩ := h.shape ho hpc
    rw [← h.stack.head_eq] at hhead
    exact ⟨C, E, h.turn ho hpc rfl rfl
      ⟨he, [], C, rfl, hC, h.stack.head_eq, fun _ => hhead, nofun⟩⟩
  | walkOff q =>
    obtain ⟨-, A, B, -, hB, hp, -⟩ := h.shape (hmine.mpr rfl) hpc
    rw [List.head?_eq_none_iff.mp hp.symm] at hB
    cases hB
  | walkFirst =>
    obtain ⟨-, A, B, -, -, -, h0, -⟩ := h.shape (hmine.mpr rfl) hpc
    exact absurd rfl (h0 rfl)
  | walkFound q =>
    have ho := hmine.mpr rfl
    obtain ⟨he, A, B, rfl, hB, hp, -, hq⟩ := h.shape ho hpc
    obtain ⟨A, rfl⟩ := hq q rfl
    cases B with
    | nil => cases hB
    | cons b B =>
      obtain rfl : me = b := Option.some.inj hp
      exact ⟨_, E, h.turn ho hpc rfl rfl ⟨he, rfl, A, B, by simp⟩⟩
  | walkOn p q hne =>
    have ho := hmine.mpr rfl
    obtain ⟨he, A, B, rfl, hB, hp, -, -⟩ := h.shape ho hpc
    cases B with
    | nil => cases hB
    | cons b B =>
      obtain rfl : p = b := Option.some.inj hp
      have hme : me ∈ B := (List.mem_cons.mp hB).resolve_left hne.symm
      refine ⟨_, E, h.turn ho hpc rfl rfl
        ⟨he, A ++ [p], B, by simp, hme, h.stack.next_eq, nofun, ?_⟩⟩
      intro x hx
      exact ⟨A, by rw [Option.some.inj hx]⟩
  | splice q nx =>
    obtain ⟨C', hC'⟩ := h.splice (hmine.mpr rfl) hpc
    exact ⟨C', E, hC'⟩
  | exitGuaranteeFails ho => exact absurd (hmine.mpr rfl) ho
  | exitEntryNone hn =>
    have ho := hmine.mpr rfl
    have he : Entry s.fields E := h.shape ho hpc
    exact ⟨C, E, h.turn ho hpc rfl rfl ⟨he, he.eq_nil hn⟩⟩
  | exitEntry w hw =>
    have ho := hmine.mpr rfl
    have he : Entry s.fields E := h.shape ho hpc
    exact ⟨C, E, h.turn ho hpc rfl rfl ⟨he, he.head_mem hw⟩⟩
  | exitCxqNone =>
    have ho := hmine.mpr rfl
    exact ⟨C, E, h.turn ho hpc rfl rfl (h.shape ho hpc).1⟩
  | exitCxq | drainLost =>
    have ho := hmine.mpr rfl
    have hsh := h.shape ho hpc
    exact ⟨C, E, h.turn ho hpc rfl rfl hsh⟩
  | drainWon w hcas => exact ⟨[], C, h.drainWon (hmine.mpr rfl) hpc hcas⟩
  | storeEntry w => exact ⟨C, E, h.storeEntry (hmine.mpr rfl) hpc⟩
  | drainGuarantee p q =>
    have ho := hmine.mpr rfl
    have hsh := h.shape ho hpc
    exact ⟨C, E, h.turn ho hpc rfl rfl hsh⟩
  | drainGuaranteeFails p q hp =>
    obtain ⟨V, R, hd, -⟩ := h.shape (hmine.mpr rfl) hpc
    exact absurd (hd.unmarked p List.mem_cons_self) hp
  | drainState p q => exact ⟨C, E, h.drainState (hmine.mpr rfl) hpc⟩
  | drainPrev p q => exact ⟨C, E, h.drainPrev (hmine.mpr rfl) hpc⟩
  | drainNext p =>
    have ho := hmine.mpr rfl
    obtain ⟨V, R, hd⟩ := h.shape ho hpc
    refine ⟨C, E, h.turn ho hpc (drainLoop_owns _ _) ?_ hd.next⟩
    cases s.next p <;> rfl
  | drainedEntry w hw =>
    have ho := hmine.mpr rfl
    have he : Entry s.fields E := h.shape ho hpc
    exact ⟨C, E, h.turn ho hpc rfl rfl ⟨he, he.head_mem hw⟩⟩
  | drainedGuarantee w =>
    have ho := hmine.mpr rfl
    have hsh := h.shape ho hpc
    exact ⟨C, E, h.turn ho hpc rfl rfl hsh⟩
  | drainedGuaranteeFails w hw =>
    obtain ⟨he, hmem⟩ := h.shape (hmine.mpr rfl) hpc
    exact absurd (he.marked w hmem) hw
  | epilogSucc w =>
    have ho := hmine.mpr rfl
    have hsh := h.shape ho hpc
    refine ⟨C, E, h.owned ho rfl h.nodup (fun _ _ => Iff.rfl) ?_ h.stack h.marked hsh
      fun _ _ => ⟨rfl, rfl⟩⟩
    rw [h.mem me, hpc]
    rfl
  | epilogRelease w =>
    have ho := hmine.mpr rfl
    obtain ⟨he, -⟩ := h.shape ho hpc
    refine ⟨C, E, h.moved h.nodup (fun _ _ => Iff.rfl) ?_ h.stack h.marked (fun _ => he) nofun
      nofun nofun nofun fun _ _ _ => ⟨rfl, rfl⟩⟩
    rw [h.mem me, hpc]
    rfl
  | stuck => exact (h.shape (hmine.mpr rfl) hpc).elim
  | tryFree r =>
    exact ⟨C, E, h.quiet hpc howner rfl rfl (keeps_tryCas r)⟩
  | tryBusy r =>
    exact ⟨C, E, h.quiet hpc howner rfl rfl (keeps_lost (.inl rfl))⟩
  | tryLost r =>
    exact ⟨C, E, h.quiet hpc howner rfl rfl (keeps_lost (.inr rfl))⟩
  | tryWon r =>
    exact ⟨C, E, h.quiet hpc howner rfl rfl (keeps_won r)⟩
  | bonusFull | bonusStore | spinDenied | abortOther =>
    exact ⟨C, E, h.quiet hpc howner rfl rfl (keeps_spun rfl rfl _)⟩
  | firstSuccTaken | firstSuccStore | penaltyNone | penaltyStore =>
    exact ⟨C, E, h.quiet hpc howner rfl rfl (keeps_spinLoop rfl rfl _ _)⟩
  | park timed =>
    exact ⟨C, E, h.quiet hpc howner rfl rfl (keeps_afterPark timed _ _)⟩
  | unpark w =>
    exact ⟨C, E, h.quiet hpc howner rfl rfl (keeps_afterUnpark w _ _)⟩
  | initCond | initMutex | initEvent | initNParked | pushLost =>
    exact ⟨C, E, h.quiet hpc howner rfl rfl ⟨rfl, rfl, rfl, fun _ => rfl, nofun⟩⟩
  | _ =>
    exact ⟨C, E, h.quiet hpc howner rfl rfl ⟨rfl, rfl, rfl, nofun, nofun⟩⟩

/-- In every reachable state the nodes hang on the lists as the owner's place says. -/
theorem reachable_lists {c : Config ι (ObjectMonitor ι) (Pc ι)}
    (h : (objectMonitor ι).Reachable (jvmInitLocks ι) c) : ∃ C E, Lists c.shared c.loc C E := by
  suffices hall : OwnerOk c ∧ ∃ C E, Lists c.shared c.loc C E from hall.2
  refine Machine.Reachable.invariant _ (P := fun c => OwnerOk c ∧ ∃ C E, Lists c.shared c.loc C E) h ?_ ?_
  · refine ⟨reachable_ownerOk .start, [], [], ?_⟩
    constructor <;> simp [jvmInitLocks, Pc.queued, Pc.unpublished, ObjectMonitor.fields]
    exact ⟨rfl, trivial, fun t ht => absurd ht List.not_mem_nil⟩
  · rintro c t k ⟨hown, C, E, hl⟩
    exact ⟨hown.fire t k, hl.step hown rfl (step_step t k c.shared (c.loc t))⟩

end Runs

/-! What can be seen of the lists from outside. -/

section Seen
variable {ι : Type*}

/-- Between the return of `Enter` and the first release of `_owner` in `Exit`. -/
def Pc.inside : Pc ι → Bool
  | .critical _ | .exitOwner | .exitSteal | .exitResp | .release => true
  | _ => false

/-- `UnlinkAfterAcquire` has stored to the node behind, if there is one, and its own node is
still on `_EntryList`. -/
def Pc.passedOver : Pc ι → Bool
  | .unlinkSetNext _ _ | .unlinkEntry _ .null | .unlinkSetEntry _ => true
  | _ => false

/-- The nodes of `_EntryList` and the chain `D` that is on neither list. Outside of the drain
and of an unlink there is no such chain, and `_EntryList` is marked and linked both ways. In the
drain that holds of the nodes before its pointer. -/
inductive EntryPhase (s : ObjectMonitor ι) (loc : ι → Pc ι) : List ι → List ι → Prop
  | settled {E : List ι} (hback : Back .node s.prev .null E) (hmarked : ∀ t ∈ E, s.tState t = .enter) :
      EntryPhase s loc E []
  | detached {D : List ι} {w : Option ι} (u : ι) (hu : loc u = .storeEntry w)
      (hseg : Seg s.next w D none) (hunmarked : ∀ t ∈ D, s.tState t = .cxq) : EntryPhase s loc [] D
  | draining {V R : List ι} {p : ι} (u : ι)
      (hu : loc u = .drainGuarantee p V.getLast? ∨ loc u = .drainState p V.getLast?)
      (hback : Back .node s.prev .null V) (hmarked : ∀ t ∈ V, s.tState t = .enter)
      (hunmarked : ∀ t ∈ p :: R, s.tState t = .cxq) : EntryPhase s loc (V ++ p :: R) []
  | linking {V R : List ι} {p : ι} (u : ι) (hu : loc u = .drainPrev p V.getLast?)
      (hback : Back .node s.prev .null V) (hmarked : ∀ t ∈ V ++ [p], s.tState t = .enter)
      (hunmarked : ∀ t ∈ R, s.tState t = .cxq) : EntryPhase s loc (V ++ p :: R) []
  | linked {V R : List ι} {p : ι} (u : ι) (hu : loc u = .drainNext p)
      (hback : Back .node s.prev .null (V ++ [p])) (hmarked : ∀ t ∈ V ++ [p], s.tState t = .enter)
      (hunmarked : ∀ t ∈ R, s.tState t = .cxq) : EntryPhase s loc (V ++ p :: R) []
  | unlinking {L R : List ι} (u : ι) (hu : (loc u).passedOver = true)
      (hback : Back .node s.prev .null (L ++ R)) (hmarked : ∀ t ∈ L ++ u :: R, s.tState t = .enter) :
      EntryPhase s loc (L ++ u :: R) []

lemma Entry.phase {s : ObjectMonitor ι} {loc : ι → Pc ι} {E : List ι} (h : Entry s.fields E) :
    ∃ E' D, E = E' ++ D ∧ Seg s.next s.entryList E' none ∧ EntryPhase s loc E' D :=
  ⟨E, [], by simp, h.seg, .settled h.back h.marked⟩

/-- Before the mark of the node at the drain pointer. -/
lemma Drain.phase {s : ObjectMonitor ι} {loc : ι → Pc ι} {E V R : List ι} {p : ι}
    (h : Drain s.fields E V (p :: R)) (u : ι)
    (hu : loc u = .drainGuarantee p V.getLast? ∨ loc u = .drainState p V.getLast?) :
    ∃ E' D, E = E' ++ D ∧ Seg s.next s.entryList E' none ∧ EntryPhase s loc E' D := by
  have hseg := h.seg
  rw [h.split] at hseg
  exact ⟨V ++ p :: R, [], by rw [h.split, List.append_nil], hseg, .draining u hu h.back h.marked h.unmarked⟩

lemma Lists.phase {s : ObjectMonitor ι} {loc : ι → Pc ι} {C E : List ι} (h : Lists s loc C E) :
    ∃ E' D, E = E' ++ D ∧ Seg s.next s.entryList E' none ∧ EntryPhase s loc E' D := by
  cases ho : s.owner with
  | none => exact (h.free ho).phase
  | some u =>
    have hsh := h.held u ho
    cases hpc : loc u with
    | fault =>
      rw [hpc] at hsh
      exact hsh.elim
    | storeEntry w =>
      rw [hpc] at hsh
      obtain ⟨he, hseg, hm⟩ := hsh
      exact ⟨[], E, rfl, he, .detached u hpc hseg hm⟩
    | drainGuarantee p q =>
      rw [hpc] at hsh
      obtain ⟨V, R, hd, rfl⟩ := hsh
      exact hd.phase u (.inl hpc)
    | drainState p q =>
      rw [hpc] at hsh
      obtain ⟨V, R, hd, rfl⟩ := hsh
      exact hd.phase u (.inr hpc)
    | drainPrev p q =>
      rw [hpc] at hsh
      obtain ⟨V, R, rfl, hseg, hb, hm, hu, rfl⟩ := hsh
      exact ⟨V ++ p :: R, [], by simp, hseg, .linking u hpc hb hm hu⟩
    | drainNext p =>
      rw [hpc] at hsh
      obtain ⟨V, R, hd⟩ := hsh
      have hseg := hd.seg
      rw [hd.split, List.append_assoc] at hseg
      exact ⟨V ++ p :: R, [], by rw [hd.split, List.append_nil, List.append_assoc]; rfl, hseg,
        .linked u hpc hd.back hd.marked hd.unmarked⟩
    | unlinkSetNext nxt prv =>
      rw [hpc] at hsh
      obtain ⟨L, R, ⟨rfl, hseg, hb, hm⟩, -⟩ := hsh
      exact ⟨_, [], (List.append_nil _).symm, hseg, .unlinking u (by rw [hpc]; rfl) hb hm⟩
    | unlinkSetEntry nxt =>
      rw [hpc] at hsh
      obtain ⟨R, ⟨rfl, hseg, hb, hm⟩, -⟩ := hsh
      exact ⟨_, [], (List.append_nil _).symm, hseg, .unlinking u (by rw [hpc]; rfl) hb hm⟩
    | unlinkEntry nxt prv =>
      rw [hpc] at hsh
      cases prv with
      | null =>
        obtain ⟨R, ⟨rfl, hseg, hb, hm⟩, -⟩ := hsh
        exact ⟨_, [], (List.append_nil _).symm, hseg, .unlinking u (by rw [hpc]; rfl) hb hm⟩
      | bad => exact hsh.elim
      | node p => exact Entry.phase hsh
    | exitCxq | drainCas | drainedGuarantee | epilogSucc | epilogRelease | unlinkNext | unlinkPrev
    | unlinkSetPrev | cxqRead | cxqNext | cxqCas | cxqReread | walk | splice =>
      rw [hpc] at hsh
      exact hsh.1.phase
    | _ =>
      rw [hpc] at hsh
      exact Entry.phase hsh

end Seen

/-- At most one thread is inside. The pushed nodes that are not unlinked yet hang, each
exactly once, on `_cxq`, on `_EntryList`, or on the chain that the owner has cut off `_cxq`
and not yet stored to `_EntryList`; both lists end with `NULL`. Nodes of `_cxq` are marked
`TS_CXQ`; marks and `_prev` links of `_EntryList` are right up to the place that the owner's
drain or unlink has come to. A thread that returns from `EnterI` has its node on no list. -/
theorem objectMonitor_waiterLists {n : ℕ} {c : Config (Fin n) (ObjectMonitor (Fin n)) (Pc (Fin n))}
    (h : (objectMonitor (Fin n)).Reachable (jvmInitLocks (Fin n)) c) :
    (∀ t u, (c.loc t).inside = true → (c.loc u).inside = true → t = u) ∧
    (∃ C E D, (C ++ (E ++ D)).Nodup ∧ (∀ t, t ∈ C ++ (E ++ D) ↔ (c.loc t).queued = true) ∧
      Seg c.shared.next c.shared.cxq C none ∧ Seg c.shared.next c.shared.entryList E none ∧
      (∀ t ∈ C, c.shared.tState t = .cxq) ∧ EntryPhase c.shared c.loc E D) ∧
    ∀ t, c.loc t = .decCount →
      ¬ Reaches c.shared.next c.shared.cxq t ∧ ¬ Reaches c.shared.next c.shared.entryList t := by
  have hown := reachable_ownerOk h
  obtain ⟨C, _, hl⟩ := reachable_lists h
  obtain ⟨E, D, rfl, hseg, hphase⟩ := hl.phase
  have hinside {t : Fin n} (ht : (c.loc t).inside = true) : (c.loc t).owns = true := by
    revert ht
    cases c.loc t <;> first | exact fun _ => rfl | exact nofun
  refine ⟨fun t u ht hu => hown.unique (hinside ht) (hinside hu),
    ⟨C, E, D, hl.nodup, hl.mem, hl.stack, hseg, hl.marked, hphase⟩, fun t ht => ?_⟩
  have hnot : t ∉ C ++ (E ++ D) := by
    rw [hl.mem t, ht]
    exact Bool.false_ne_true
  rw [hl.stack.reaches_iff, hseg.reaches_iff]
  exact ⟨fun hC => hnot (List.mem_append_left _ hC),
    fun hE => hnot (List.mem_append_right _ (List.mem_append_left _ hE))⟩

/-- Thread `b` pushes its node while `a` is inside; `a` leaves, takes the lock again and
cuts `_cxq` off. -/
def cutOff {ι : Type*} (a b : ι) : List (ι × Wakeup) :=
  List.replicate 2 (a, .none) ++ List.replicate 35 (b, .none) ++ List.replicate 12 (a, .none)

/-- The state reached there has the waiter `1` on its lists. -/
theorem objectMonitor_waiterLists_two :
    (((objectMonitor (Fin 2)).run (jvmInitLocks (Fin 2)) (cutOff 0 1)).loc 1).queued = true ∧
    ∃ C E D, 1 ∈ C ++ (E ++ D) ∧
      EntryPhase ((objectMonitor (Fin 2)).run (jvmInitLocks (Fin 2)) (cutOff 0 1)).shared
        ((objectMonitor (Fin 2)).run (jvmInitLocks (Fin 2)) (cutOff 0 1)).loc E D := by
  have hq : (((objectMonitor (Fin 2)).run (jvmInitLocks (Fin 2)) (cutOff 0 1)).loc 1).queued = true := by
    decide +kernel
  obtain ⟨-, ⟨C, E, D, -, hmem, -, -, -, hphase⟩, -⟩ :=
    objectMonitor_waiterLists ((objectMonitor (Fin 2)).reachable_run (jvmInitLocks (Fin 2)) (cutOff 0 1))
  exact ⟨hq, C, E, D, (hmem 1).mpr hq, hphase⟩

/-- `b` and `d` queue and park, `a` drains `_cxq`, wakes `d` and leaves, and `d` unlinks itself. -/
def passesOver {ι : Type*} (a b d : ι) : List (ι × Wakeup) :=
  List.replicate 2 (a, .none) ++ List.replicate 46 (b, .none) ++ List.replicate 46 (d, .none) ++
    List.replicate 31 (a, .none) ++ List.replicate 13 (d, .none)

/-- Between the compare-and-swap that empties `_cxq` and the store to `_EntryList` the waiter
is on neither list. Behind the store it is not marked, then marked and not linked back. And a thread
that unlinks itself has the `_prev` of the next node pass over it while the `_next` links do not. -/
theorem drain_cuts_waiter_off :
    (∃ c, (objectMonitor (Fin 2)).Reachable (jvmInitLocks (Fin 2)) c ∧ (c.loc 1).queued = true ∧
      ¬ Reaches c.shared.next c.shared.cxq 1 ∧ ¬ Reaches c.shared.next c.shared.entryList 1) ∧
    (∃ c, (objectMonitor (Fin 2)).Reachable (jvmInitLocks (Fin 2)) c ∧
      Reaches c.shared.next c.shared.entryList 1 ∧ c.shared.tState 1 = .cxq) ∧
    (∃ c, (objectMonitor (Fin 2)).Reachable (jvmInitLocks (Fin 2)) c ∧
      Reaches c.shared.next c.shared.entryList 1 ∧ c.shared.tState 1 = .enter ∧ c.shared.prev 1 = .bad) ∧
    ∃ c, (objectMonitor (Fin 3)).Reachable (jvmInitLocks (Fin 3)) c ∧
      Reaches c.shared.next c.shared.entryList 2 ∧ c.shared.next 2 = some 1 ∧ c.shared.prev 1 = .null := by
  have hreach {n : ℕ} {c : Config (Fin n) (ObjectMonitor (Fin n)) (Pc (Fin n))} {t : Fin n}
      (h : c.shared.entryList = some t) : Reaches c.shared.next c.shared.entryList t := by
    rw [h]
    exact .here
  refine ⟨⟨(objectMonitor (Fin 2)).run (jvmInitLocks (Fin 2)) (cutOff 0 1),
    (objectMonitor (Fin 2)).reachable_run _ _, by decide +kernel, ?_, ?_⟩,
    ⟨(objectMonitor (Fin 2)).run (jvmInitLocks (Fin 2)) (cutOff 0 1 ++ List.replicate 1 (0, .none)),
      (objectMonitor (Fin 2)).reachable_run _ _, hreach (by decide +kernel), by decide +kernel⟩,
    ⟨(objectMonitor (Fin 2)).run (jvmInitLocks (Fin 2)) (cutOff 0 1 ++ List.replicate 3 (0, .none)),
      (objectMonitor (Fin 2)).reachable_run _ _, hreach (by decide +kernel), by decide +kernel, by decide +kernel⟩,
    (objectMonitor (Fin 3)).run (jvmInitLocks (Fin 3)) (passesOver 0 1 2),
    (objectMonitor (Fin 3)).reachable_run _ _, hreach (by decide +kernel), by decide +kernel, by decide +kernel⟩
  · have hc : ((objectMonitor (Fin 2)).run (jvmInitLocks (Fin 2)) (cutOff 0 1)).shared.cxq = none := by
      decide +kernel
    rw [hc]
    exact nofun
  · have he : ((objectMonitor (Fin 2)).run (jvmInitLocks (Fin 2)) (cutOff 0 1)).shared.entryList = none := by
      decide +kernel
    rw [he]
    exact nofun

end Lockhammer.JvmMonitor
