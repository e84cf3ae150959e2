import Lockhammer.Linux.HybridSpinlockQueue
import Mathlib.Data.Finset.Card

/-!
# The tickets of the hybrid spinlocks

The threads that have drawn a ticket and not given the lock back stand in a line, served
from its front. Tickets are bytes, so everything rests on the length of the line: direct
draws need an empty queue and stop at the threshold, and of the queue only the head draws.
-/
namespace Lockhammer.HybridSpinlock
open Interleaving Interleaving.Queue Interleaving.LinkedQueue

section Places
variable {n : ℕ}

/-- The word a thread has drawn its ticket from, until it enters. -/
def Pc.ticket : Pc n → Option (BitVec 32)
  | .waitServing v => some v
  | .headWait _ _ v => some v
  | .readVal _ _ v => some v
  | .clearTail _ _ v _ => some v
  | .waitNext _ v => some v
  | .handoff _ _ v => some v
  | .decCount v => some v
  | .lateWait v => some v
  | _ => none

/-- With a ticket that is not served to the end. -/
def Pc.drawn (p : Pc n) : Bool := p.ticket.isSome || p.inCritical

/-- After seeing the own ticket served. In hybrid_spinlock.h the head of the queue waits for
that before it hands the queue on. -/
def Pc.served (h : Header) : Pc n → Bool
  | .readVal _ _ _ => h = .hybridSpinlock
  | .clearTail _ _ _ _ => h = .hybridSpinlock
  | .waitNext _ _ => h = .hybridSpinlock
  | .handoff _ _ _ => h = .hybridSpinlock
  | .decCount _ => h = .hybridSpinlock
  | p => p.inCritical

/-- The tests a loaded word has passed. -/
def Pc.LoadedOk (h : Header) : Pc n → Prop
  | .fastStore v => palindromic v = true
  | .drawStore v => mustQueue h v = false
  | .headStore _ _ v => h = .fastdequeue → aboveDequeueThreshold v = false
  | _ => True

/-- Who is queued and has a ticket is the head. -/
lemma Pc.owner_of_drawn {p : Pc n} (hq : p.queued = true) (hd : p.drawn = true) :
    p.role.owner = true := by
  have hhead (next : Option (NodeId n)) : (headRole next).owner = true := by cases next <;> rfl
  cases p with
  | headWait _ next _ => exact hhead next
  | readVal _ next _ => exact hhead next
  | clearTail _ next _ _ => exact hhead next
  | waitNext _ _ => rfl
  | handoff _ _ _ => rfl
  | link _ _ => simp [Pc.drawn, Pc.ticket, Pc.inCritical] at hd
  | waitLocked _ => simp [Pc.drawn, Pc.ticket, Pc.inCritical] at hd
  | readNext _ => simp [Pc.drawn, Pc.ticket, Pc.inCritical] at hd
  | headLoad _ _ => simp [Pc.drawn, Pc.ticket, Pc.inCritical] at hd
  | headStore _ _ _ => simp [Pc.drawn, Pc.ticket, Pc.inCritical] at hd
  | _ => simp [Pc.queued, Pc.role] at hq

end Places

/-- The most tickets that are ever out. -/
def maxDepth : Header → ℕ
  | .hybridSpinlock => qThreshold .hybridSpinlock + 1
  | .fastdequeue => qThreshold .fastdequeue

/-- The tickets fit the line `w`. -/
structure TicketOk {n : ℕ} (h : Header) (c : Config (Fin n) (Shared n) (Pc n))
    (q w : List (Fin n)) : Prop where
  nodup : w.Nodup
  mem : ∀ t, t ∈ w ↔ (c.loc t).drawn = true
  next : c.shared.lock.next = c.shared.lock.serving + BitVec.ofNat 8 w.length
  place : ∀ t v, (c.loc t).ticket = some v →
    ∃ i, w[i]? = some t ∧ ticketByte v = c.shared.lock.serving + BitVec.ofNat 8 i
  served : ∀ t, (c.loc t).served h = true → w.head? = some t
  release : ∀ t tmp, c.loc t = .storeServing tmp → tmp = c.shared.lock.serving
  loaded : ∀ t, (c.loc t).LoadedOk h
  bound : w.length ≤ maxDepth h
  /-- Beyond the threshold the last ticket belongs to the head of the queue. -/
  room : h = .hybridSpinlock → w.length = maxDepth h → ∃ t ∈ q, w.getLast? = some t

section Bytes

lemma add_ofNat_inj {x : BitVec 8} {i j : ℕ} (hi : i < 256) (hj : j < 256)
    (h : x + BitVec.ofNat 8 i = x + BitVec.ofNat 8 j) : i = j := by
  have hlt := x.isLt
  have hn := congrArg BitVec.toNat h
  simp only [BitVec.toNat_add, BitVec.toNat_ofNat] at hn
  omega

lemma add_ofNat_succ (x : BitVec 8) (i : ℕ) :
    x + BitVec.ofNat 8 (i + 1) = x + 1 + BitVec.ofNat 8 i := by
  apply BitVec.eq_of_toNat_eq
  have hone : BitVec.toNat (1 : BitVec 8) = 1 := rfl
  simp only [BitVec.toNat_add, BitVec.toNat_ofNat, hone]
  omega

lemma add_ofNat_sub_toNat {x : BitVec 8} {i : ℕ} (hi : i < 256) :
    (x + BitVec.ofNat 8 i - x).toNat = i := by
  have hlt := x.isLt
  simp only [BitVec.toNat_sub, BitVec.toNat_add, BitVec.toNat_ofNat]
  omega

end Bytes

variable {n : ℕ} {h : Header} {c : Config (Fin n) (Shared n) (Pc n)} {t : Fin n}
  {q w : List (Fin n)} {p p' : Pc n} {s' : Shared n}

lemma maxDepth_le (h : Header) : maxDepth h ≤ 6 := by cases h <;> decide

lemma start_ticketOk : TicketOk h (start n) [] [] where
  nodup := List.nodup_nil
  mem _ := by simp [start, Pc.drawn, Pc.ticket, Pc.inCritical]
  next := rfl
  place _ _ hv := by simp [start, Pc.ticket] at hv
  served _ hv := by simp [start, Pc.served, Pc.inCritical] at hv
  release _ _ hv := by simp [start] at hv
  loaded _ := trivial
  bound := Nat.zero_le _
  room hh h0 := by
    subst hh
    simp [maxDepth] at h0

section
variable (hw : TicketOk h c q w)
include hw

lemma TicketOk.length_lt : w.length < 256 :=
  lt_of_le_of_lt (hw.bound.trans (maxDepth_le h)) (by decide)

lemma TicketOk.depth : (c.shared.lock.next - c.shared.lock.serving).toNat = w.length := by
  rw [hw.next]
  exact add_ofNat_sub_toNat hw.length_lt

/-- Equal bytes mean an empty line. -/
lemma TicketOk.empty_iff : c.shared.lock.next = c.shared.lock.serving ↔ w = [] := by
  rw [hw.next]
  constructor
  · intro he
    have h0 := add_ofNat_inj hw.length_lt (j := 0) (by decide) (he.trans (by simp))
    exact List.eq_nil_of_length_eq_zero h0
  · rintro rfl
    simp

/-- Only the first sees its ticket served. -/
lemma TicketOk.head_of_serving {v : BitVec 32} (ht : (c.loc t).ticket = some v)
    (hv : c.shared.lock.serving = ticketByte v) : w.head? = some t := by
  obtain ⟨i, hi, hb⟩ := hw.place t v ht
  have hlt : i < w.length := (List.getElem?_eq_some_iff.mp hi).1
  have h0 : i = 0 := by
    refine add_ofNat_inj (x := c.shared.lock.serving) (hlt.trans hw.length_lt) (by decide) ?_
    rw [← hb, ← hv]
    simp
  rw [← hi, h0, List.head?_eq_getElem?]

/-- A step that draws no ticket and gives none back. -/
lemma TicketOk.quiet {q' : List (Fin n)} (hp : c.loc t = p)
    (hnext : s'.lock.next = c.shared.lock.next) (hserving : s'.lock.serving = c.shared.lock.serving)
    (hdrawn : p'.drawn = p.drawn) (hticket : ∀ v, p'.ticket = some v → p.ticket = some v)
    (hserved : p'.served h = true → w.head? = some t)
    (hrelease : ∀ tmp, p' = .storeServing tmp → tmp = s'.lock.serving) (hloaded : p'.LoadedOk h)
    (hroom : h = .hybridSpinlock → w.length = maxDepth h → ∃ u ∈ q', w.getLast? = some u) :
    TicketOk h ⟨s', Function.update c.loc t p'⟩ q' (follow t p.drawn p'.drawn w) := by
  subst hp
  rw [hdrawn, follow_same]
  refine ⟨hw.nodup, fun u => ?_, ?_, fun u v hv => ?_, fun u hu => ?_, fun u tmp hu => ?_,
    fun u => ?_, hw.bound, hroom⟩
  · rw [hw.mem]
    by_cases hu : u = t
    · subst hu
      simp [hdrawn]
    · simp [hu]
  · change s'.lock.next = s'.lock.serving + _
    rw [hnext, hserving]
    exact hw.next
  · change ∃ i, w[i]? = some u ∧ ticketByte v = s'.lock.serving + _
    rw [hserving]
    by_cases hut : u = t
    · subst hut
      exact hw.place u v (hticket v (by simpa using hv))
    · exact hw.place u v (by simpa [hut] using hv)
  · by_cases hut : u = t
    · subst hut
      exact hserved (by simpa using hu)
    · exact hw.served u (by simpa [hut] using hu)
  · change tmp = s'.lock.serving
    by_cases hut : u = t
    · subst hut
      exact hrelease tmp (by simpa using hu)
    · rw [hserving]
      exact hw.release u tmp (by simpa [hut] using hu)
  · by_cases hut : u = t
    · subst hut
      simpa using hloaded
    · simpa [hut] using hw.loaded u

/-- The draw of the next ticket. -/
lemma TicketOk.draw {q' : List (Fin n)} (hp : c.loc t = p)
    (hnext : s'.lock.next = c.shared.lock.next + 1) (hserving : s'.lock.serving = c.shared.lock.serving)
    (hwas : p.drawn = false) (hdrawn : p'.drawn = true)
    (hticket : ∀ v, p'.ticket = some v → v = c.shared.lock.val) (hserved : p'.served h = true → w = [])
    (hrelease : ∀ tmp, p' ≠ .storeServing tmp) (hloaded : p'.LoadedOk h) (hbound : w.length < maxDepth h)
    (hroom : h = .hybridSpinlock → w.length + 1 = maxDepth h → t ∈ q') :
    TicketOk h ⟨s', Function.update c.loc t p'⟩ q' (follow t p.drawn p'.drawn w) := by
  subst hp
  rw [hwas, hdrawn]
  have hnot : t ∉ w := by
    rw [hw.mem, hwas]
    decide
  have hnot' : t ∈ w ↔ false = true := by simp [hnot]
  refine ⟨follow_nodup hw.nodup hnot', fun u => ?_, ?_, fun u v hv => ?_, fun u hu => ?_,
    fun u tmp hu => ?_, fun u => ?_, ?_, fun hh hl => ⟨t, ?_, ?_⟩⟩
  · by_cases hut : u = t
    · subst hut
      simp [hdrawn, follow]
    · rw [mem_follow_of_ne hut, hw.mem]
      simp [hut]
  · change s'.lock.next = s'.lock.serving + BitVec.ofNat 8 (w ++ [t]).length
    rw [hnext, hserving, hw.next, List.length_append, List.length_singleton, add_ofNat_succ]
    exact add_right_comm _ _ _
  · change ∃ i, (w ++ [t])[i]? = some u ∧ ticketByte v = s'.lock.serving + _
    by_cases hut : u = t
    · subst hut
      obtain rfl := hticket v (by simpa using hv)
      refine ⟨w.length, by simp, ?_⟩
      rw [ticketByte_val, hserving, hw.next]
    · obtain ⟨i, hi, hb⟩ := hw.place u v (by simpa [hut] using hv)
      have hlt : i < w.length := (List.getElem?_eq_some_iff.mp hi).1
      refine ⟨i, ?_, hserving ▸ hb⟩
      rw [List.getElem?_append_left hlt]
      exact hi
  · change (w ++ [t]).head? = some u
    by_cases hut : u = t
    · subst hut
      simp [hserved (by simpa using hu)]
    · have hhead := hw.served u (by simpa [hut] using hu)
      exact (head?_push w t u).mpr (Or.inl hhead)
  · change tmp = s'.lock.serving
    by_cases hut : u = t
    · subst hut
      exact absurd (by simpa using hu) (hrelease tmp)
    · rw [hserving]
      exact hw.release u tmp (by simpa [hut] using hu)
  · by_cases hut : u = t
    · subst hut
      simpa using hloaded
    · simpa [hut] using hw.loaded u
  · change (w ++ [t]).length ≤ maxDepth h
    rw [List.length_append, List.length_singleton]
    exact hbound
  · refine hroom hh ?_
    have hlen : (w ++ [t]).length = w.length + 1 := by simp
    exact hlen.symm.trans hl
  · exact getLast?_push w t

/-- The end of `lock_release`: the next ticket is served. -/
lemma TicketOk.storeServing {tmp : BitVec 8} (hp : c.loc t = .storeServing tmp) :
    TicketOk h ⟨c.shared.setLock { c.shared.lock with serving := tmp + 1 },
      Function.update c.loc t .idle⟩ q (w.erase t) := by
  obtain rfl := hw.release t tmp hp
  have hhead : w.head? = some t := hw.served t (by rw [hp]; rfl)
  obtain ⟨rest, rfl⟩ : ∃ rest, w = t :: rest := by
    cases w with
    | nil => simp at hhead
    | cons a rest =>
      obtain rfl : a = t := by simpa using hhead
      exact ⟨rest, rfl⟩
  have hnot : t ∉ rest := (List.nodup_cons.mp hw.nodup).1
  rw [List.erase_cons_head]
  refine ⟨(List.nodup_cons.mp hw.nodup).2, fun u => ?_, ?_, fun u v hv => ?_, fun u hu => ?_,
    fun u tmp hu => ?_, fun u => ?_, ?_, fun hh hl => ?_⟩
  · by_cases hut : u = t
    · subst hut
      simp [hnot, Pc.drawn, Pc.ticket, Pc.inCritical]
    · have hmem := hw.mem u
      simpa [hut] using hmem
  · change c.shared.lock.next = c.shared.lock.serving + 1 + BitVec.ofNat 8 rest.length
    rw [hw.next, List.length_cons, add_ofNat_succ]
  · change ∃ i, rest[i]? = some u ∧ ticketByte v = c.shared.lock.serving + 1 + _
    by_cases hut : u = t
    · subst hut
      simp [Pc.ticket] at hv
    · obtain ⟨i, hi, hb⟩ := hw.place u v (by simpa [hut] using hv)
      cases i with
      | zero =>
        obtain rfl : t = u := by simpa using hi
        exact absurd rfl hut
      | succ i =>
        rw [add_ofNat_succ] at hb
        exact ⟨i, by simpa using hi, hb⟩
  · by_cases hut : u = t
    · subst hut
      simp [Pc.served, Pc.inCritical] at hu
    · obtain rfl : t = u := by simpa using hw.served u (by simpa [hut] using hu)
      exact absurd rfl hut
  · by_cases hut : u = t
    · subst hut
      simp at hu
    · have hu' : c.loc u = .storeServing tmp := by simpa [hut] using hu
      obtain rfl : t = u := by simpa using hw.served u (by rw [hu']; rfl)
      exact absurd rfl hut
  · by_cases hut : u = t
    · subst hut
      simp [Pc.LoadedOk]
    · simpa [hut] using hw.loaded u
  · exact (Nat.le_succ _).trans hw.bound
  · have hb := hw.bound
    rw [List.length_cons, ← hl] at hb
    omega

/-- Below the threshold by the test before a direct draw. -/
lemma TicketOk.below_threshold (hn : n ≤ 513) (hq : QueueOk c q)
    (hm : mustQueue h c.shared.lock.val = false) : q = [] ∧ w.length < qThreshold h := by
  obtain ⟨htail, hne⟩ := mustQueue_val.mp hm
  have hempty : q = [] := (tailOf_eq_zero hn).mp (hq.tail ▸ htail)
  refine ⟨hempty, ?_⟩
  have hlen : w.length ≠ qThreshold h := fun he => hne (he ▸ hw.next)
  have hb := hw.bound
  cases h with
  | fastdequeue => exact lt_of_le_of_ne hb hlen
  | hybridSpinlock =>
    have hfull : w.length ≠ maxDepth .hybridSpinlock := by
      intro he
      obtain ⟨u, hu, -⟩ := hw.room rfl he
      simp [hempty] at hu
    simp only [maxDepth, qThreshold] at hb hlen hfull ⊢
    omega

/-- When the head of the queue has not drawn, hybrid_spinlock.h has a ticket for it. -/
lemma TicketOk.head_room (hq : QueueOk c q) (hh : h = .hybridSpinlock)
    (hrole : (c.loc t).role.owner = true) (hd : (c.loc t).drawn = false) : w.length < maxDepth h := by
  apply lt_of_le_of_ne hw.bound
  intro hfull
  obtain ⟨u, hu, hlast⟩ := hw.room hh hfull
  have hudrawn : (c.loc u).drawn = true := (hw.mem u).mp (List.mem_of_getLast? hlast)
  have huown := Pc.owner_of_drawn ((hq.mem u).mp hu) hudrawn
  have hut : u = t := Option.some.inj ((hq.ok.owner_first huown).symm.trans (hq.ok.owner_first hrole))
  subst hut
  rw [hudrawn] at hd
  exact absurd hd (by decide)

lemma TicketOk.not_above (ha : aboveDequeueThreshold c.shared.lock.val = false) : w.length ≤ 3 := by
  have hb := c.shared.lock.borrow_le
  have hiff := aboveDequeueThreshold_val c.shared.lock
  rw [ha] at hiff
  have hlen := hw.bound.trans (maxDepth_le h)
  have hs := c.shared.lock.serving.isLt
  have hnext := congrArg BitVec.toNat hw.next
  simp only [BitVec.toNat_add, BitVec.toNat_ofNat] at hnext
  have hno := mt hiff.mpr (by decide)
  rw [not_and] at hno
  omega

/-- Who leaves the queue of hybrid_spinlock.h has been served, so it is not the last of a
full line. -/
lemma TicketOk.room_follow (hp : c.loc t = p)
    (hsv : h = .hybridSpinlock → p.queued = true → p.drawn = true → p'.queued = false →
      p.served h = true) :
    h = .hybridSpinlock → w.length = maxDepth h →
      ∃ u ∈ follow t p.queued p'.queued q, w.getLast? = some u := by
  intro hh hfull
  obtain ⟨u, hu, hlast⟩ := hw.room hh hfull
  refine ⟨u, ?_, hlast⟩
  by_cases hut : u = t
  · subst hut
    have hdrawn : p.drawn = true := by
      rw [← hp, ← hw.mem]
      exact List.mem_of_getLast? hlast
    cases hwas : p.queued with
    | false => cases p'.queued <;> simp [follow, hu]
    | true =>
      cases hnow : p'.queued with
      | true => exact hu
      | false =>
        have hhead := hw.served u (hp ▸ hsv hh hwas hdrawn hnow)
        rw [eq_singleton hw.nodup hhead hlast, hh] at hfull
        simp [maxDepth, qThreshold] at hfull
  · exact (mem_follow_of_ne hut).mpr hu

/-- A step on the way to a ticket. -/
lemma TicketOk.undrawn (hp : c.loc t = p)
    (hlock : s'.lock.next = c.shared.lock.next ∧ s'.lock.serving = c.shared.lock.serving)
    (hwas : p.drawn = false) (hnow : p'.drawn = false) (hserved : p'.served h = false)
    (hloaded : p'.LoadedOk h) (hqueued : p.queued = true → p'.queued = true) :
    TicketOk h ⟨s', Function.update c.loc t p'⟩ (follow t p.queued p'.queued q)
      (follow t p.drawn p'.drawn w) := by
  refine hw.quiet hp hlock.1 hlock.2 (hnow.trans hwas.symm) ?_ ?_ ?_ hloaded ?_
  · intro v hv
    simp [Pc.drawn, hv] at hnow
  · intro hs
    rw [hserved] at hs
    exact absurd hs (by decide)
  · rintro tmp rfl
    simp [Pc.drawn, Pc.inCritical] at hnow
  · intro hh hfull
    obtain ⟨u, hu, hlast⟩ := hw.room hh hfull
    exact ⟨u, mem_follow_of_mem hqueued hu, hlast⟩

/-- A step of a thread with a ticket on its way to the critical section. -/
lemma TicketOk.waiting {v : BitVec 32} (hp : c.loc t = p)
    (hlock : s'.lock.next = c.shared.lock.next ∧ s'.lock.serving = c.shared.lock.serving)
    (hwas : p.ticket = some v) (hnow : p'.ticket = some v)
    (hserved : p'.served h = true → p.served h = true ∨ c.shared.lock.serving = ticketByte v)
    (hloaded : p'.LoadedOk h)
    (hqueued : p'.queued = p.queued ∨ (h = .hybridSpinlock → p.served h = true)) :
    TicketOk h ⟨s', Function.update c.loc t p'⟩ (follow t p.queued p'.queued q)
      (follow t p.drawn p'.drawn w) := by
  refine hw.quiet hp hlock.1 hlock.2 ?_ ?_ ?_ ?_ hloaded ?_
  · simp [Pc.drawn, hwas, hnow]
  · intro v' hv'
    exact hwas.trans (hnow.symm.trans hv')
  · intro hs
    rcases hserved hs with hs | hs
    · exact hw.served t (hp ▸ hs)
    · exact hw.head_of_serving (hp ▸ hwas) hs
  · rintro tmp rfl
    simp [Pc.ticket] at hnow
  · refine hw.room_follow hp fun hh h1 _ h2 => ?_
    rcases hqueued with hkept | hserved
    · exact absurd (h2.symm.trans (hkept.trans h1)) (by decide)
    · exact hserved hh

/-- A step of the thread that is served. -/
lemma TicketOk.inside (hp : c.loc t = p)
    (hlock : s'.lock = c.shared.lock) (hwas : p.drawn = true) (hnow : p'.inCritical = true)
    (hhead : w.head? = some t) (hrelease : ∀ tmp, p' = .storeServing tmp → tmp = c.shared.lock.serving)
    (hloaded : p'.LoadedOk h) (hqueued : p.queued = false) (hqueued' : p'.queued = false) :
    TicketOk h ⟨s', Function.update c.loc t p'⟩ (follow t p.queued p'.queued q)
      (follow t p.drawn p'.drawn w) := by
  have hdrawn : p'.drawn = true := by simp [Pc.drawn, hnow]
  refine hw.quiet hp (congrArg LockWord.next hlock) (congrArg LockWord.serving hlock)
    (hdrawn.trans hwas.symm) ?_ (fun _ => hhead) ?_ hloaded ?_
  · intro v hv
    cases p' <;> simp [Pc.ticket, Pc.inCritical] at hv hnow
  · rw [hlock]
    exact hrelease
  · exact hw.room_follow hp fun _ h1 _ _ => absurd (h1.symm.trans hqueued) (by decide)

/-- Every step keeps the line, which follows who has a ticket. -/
theorem TicketOk.step (hn : n ≤ 513) (hq : QueueOk c q) (hp : c.loc t = p)
    (hs : Step h t c.shared p s' p') :
    TicketOk h ⟨s', Function.update c.loc t p'⟩ (follow t p.queued p'.queued q)
      (follow t p.drawn p'.drawn w) := by
  have hloaded := hw.loaded t
  rw [hp] at hloaded
  cases hs with
  | fastLoaded ht => exact hw.undrawn hp ⟨rfl, rfl⟩ rfl rfl rfl ht id
  | drawLoaded ht => exact hw.undrawn hp ⟨rfl, rfl⟩ rfl rfl rfl ht id
  | headLoaded ht => exact hw.undrawn hp ⟨rfl, rfl⟩ rfl rfl rfl ht id
  | queueUp hor => rcases hor with rfl | rfl <;> exact hw.undrawn hp ⟨rfl, rfl⟩ rfl rfl rfl trivial id
  | fastDraw =>
    obtain rfl : w = [] := hw.empty_iff.mp (palindromic_val.mp hloaded).1
    refine hw.draw hp rfl rfl rfl rfl ?_ (fun _ => rfl) ?_ trivial ?_ ?_
    · simp [Pc.ticket]
    · simp
    · cases h <;> exact Nat.succ_pos _
    · rintro rfl hone
      simp [maxDepth, qThreshold] at hone
  | draw =>
    obtain ⟨-, hlt⟩ := hw.below_threshold hn hq hloaded
    refine hw.draw hp rfl rfl rfl rfl ?_ ?_ ?_ trivial ?_ ?_
    · simp [Pc.ticket, eq_comm]
    · simp [Pc.served, Pc.inCritical]
    · simp
    · cases h <;> simp only [maxDepth, qThreshold] at hlt ⊢ <;> omega
    · rintro rfl hfull
      simp only [maxDepth, qThreshold] at hlt hfull
      omega
  | @headDraw idx next hh =>
    have hqueued : (Pc.headStore idx next c.shared.lock.val).queued = true := by cases next <;> rfl
    have hlt : w.length < maxDepth h := by
      refine hw.head_room hq (t := t) hh ?_ (by rw [hp]; rfl)
      rw [hp]
      cases next <;> rfl
    refine hw.draw hp rfl rfl rfl rfl ?_ ?_ ?_ trivial hlt fun _ _ => ?_
    · simp [Pc.ticket, eq_comm]
    · simp [Pc.served, Pc.inCritical]
    · simp
    · exact mem_follow_of_mem id ((hq.mem t).mpr (hp ▸ hqueued))
  | headDrawFast hh =>
    have hlt := hw.not_above (hloaded hh)
    refine hw.draw hp rfl rfl rfl rfl ?_ ?_ ?_ trivial ?_ ?_
    · simp [Pc.ticket, eq_comm]
    · simp [Pc.served, hh]
    · simp
    · rw [hh]
      exact lt_of_le_of_lt hlt (by decide)
    · simp [hh]
  | served hv =>
    exact hw.inside hp rfl rfl rfl (hw.head_of_serving (hp ▸ rfl) hv) (by simp) trivial rfl rfl
  | lateServed hv =>
    exact hw.inside hp rfl rfl rfl (hw.head_of_serving (hp ▸ rfl) hv) (by simp) trivial rfl rfl
  | decCount hh =>
    refine hw.inside hp rfl rfl rfl (hw.served t ?_) (by simp) trivial rfl rfl
    simp [hp, Pc.served, hh]
  | leave => exact hw.inside hp rfl rfl rfl (hw.served t (hp ▸ rfl)) (by simp) trivial rfl rfl
  | loadServing =>
    exact hw.inside hp rfl rfl rfl (hw.served t (hp ▸ rfl)) (by simp [eq_comm]) trivial rfl rfl
  | storeServing => exact hw.storeServing hp
  | poll =>
    refine hw.quiet hp rfl rfl rfl (fun _ hv => hv) ?_ ?_ hloaded ?_
    · exact fun hs => hw.served t (hp ▸ hs)
    · exact fun tmp ht => hw.release t tmp (hp.trans ht)
    · exact hw.room_follow hp fun _ h1 _ h2 => absurd (h1.symm.trans h2) (by decide)
  | headServed hv => exact hw.waiting hp ⟨rfl, rfl⟩ rfl rfl (fun _ => Or.inr hv) trivial (Or.inl rfl)
  | tailMine hor hm =>
    rcases hor with rfl | ⟨val, rfl⟩ <;>
      exact hw.waiting hp ⟨rfl, rfl⟩ rfl rfl Or.inl trivial (Or.inl rfl)
  | @tailOther _ idx next v hor hm =>
    cases next <;> rcases hor with rfl | ⟨val, rfl⟩ <;>
      exact hw.waiting hp ⟨rfl, rfl⟩ rfl rfl Or.inl trivial (Or.inl rfl)
  | clearTail =>
    refine hw.waiting hp ⟨rfl, rfl⟩ rfl rfl Or.inl trivial (Or.inr fun hh => ?_)
    simp [Pc.served, hh]
  | seeNext hz => exact hw.waiting hp ⟨rfl, rfl⟩ rfl rfl Or.inl trivial (Or.inl rfl)
  | handoff =>
    refine hw.waiting hp ⟨rfl, rfl⟩ rfl rfl Or.inl trivial (Or.inr fun hh => ?_)
    simp [Pc.served, hh]
  | decCountFast hh =>
    refine hw.waiting hp ⟨rfl, rfl⟩ rfl rfl ?_ trivial (Or.inl rfl)
    simp [Pc.served, Pc.inCritical]
  | @readNext idx =>
    refine hw.undrawn hp ⟨rfl, rfl⟩ rfl rfl rfl trivial fun _ => ?_
    cases c.shared.next (t, idx) <;> rfl
  | xchgFirst hz => exact hw.undrawn hp ⟨rfl, rfl⟩ rfl rfl rfl trivial fun _ => rfl
  | xchgBehind hz hd => exact hw.undrawn hp ⟨rfl, rfl⟩ rfl rfl rfl trivial fun _ => rfl
  | link => exact hw.undrawn hp ⟨rfl, rfl⟩ rfl rfl rfl trivial fun _ => rfl
  | granted hl => exact hw.undrawn hp ⟨rfl, rfl⟩ rfl rfl rfl trivial fun _ => rfl
  | _ => exact hw.undrawn hp ⟨rfl, rfl⟩ rfl rfl rfl trivial id

end

section Runs

/-- Queue and line together. -/
def Inv (h : Header) (c : Config (Fin n) (Shared n) (Pc n)) (q w : List (Fin n)) : Prop :=
  MonitorOk c ∧ QueueOk c q ∧ TicketOk h c q w

lemma start_inv : Inv h (start n) [] [] := by
  refine ⟨?_, start_queueOk, start_ticketOk⟩
  intro t v hv
  simp [start, Pc.loaded] at hv

theorem Inv.step (hn : n ≤ 513) (hi : Inv h c q w) (hp : c.loc t = p)
    (hs : Step h t c.shared p s' p') :
    Inv h ⟨s', Function.update c.loc t p'⟩ (follow t p.queued p'.queued q)
      (follow t p.drawn p'.drawn w) :=
  ⟨hi.1.step hp hs, hi.2.1.step hn hp hs, hi.2.2.step hn hi.2.1 hp hs⟩

theorem reachable_inv (hn : n ≤ 513) (hr : (machine h n).Reachable (start n) c) :
    ∃ q w, Inv h c q w := by
  refine hr.invariant _ (P := fun c => ∃ q w, Inv h c q w) ⟨[], [], start_inv⟩ ?_
  rintro d t k ⟨q, w, hi⟩
  exact ⟨_, _, hi.step hn rfl (step_step hi.1 t k)⟩

/-- The line without its order. -/
lemma TicketOk.card_drawn (hw : TicketOk h c q w) :
    (Finset.univ.filter fun t => (c.loc t).drawn = true).card = w.length := by
  have hset : (Finset.univ.filter fun t => (c.loc t).drawn = true) = w.toFinset := by
    ext t
    simp [hw.mem]
  rw [hset, List.toFinset_card_of_nodup hw.nodup]

/-- Two waiting threads never hold the same ticket byte. -/
lemma TicketOk.ticket_inj (hw : TicketOk h c q w) {u : Fin n} {v v' : BitVec 32}
    (ht : (c.loc t).ticket = some v) (hu : (c.loc u).ticket = some v')
    (hv : ticketByte v = ticketByte v') : t = u := by
  obtain ⟨i, hi, hbi⟩ := hw.place t v ht
  obtain ⟨j, hj, hbj⟩ := hw.place u v' hu
  have hilt : i < w.length := (List.getElem?_eq_some_iff.mp hi).1
  have hjlt : j < w.length := (List.getElem?_eq_some_iff.mp hj).1
  have hij : i = j := by
    apply add_ofNat_inj (hilt.trans hw.length_lt) (hjlt.trans hw.length_lt)
    rw [← hbi, ← hbj, hv]
  subst hij
  exact Option.some.inj (hi.symm.trans hj)

/-- In both headers and in every interleaving of at most 513 threads: the bytes of the lock
word count the tickets that are out, of which there are at most 5 or 6; no two waiting
threads have the same ticket byte; and at most one thread is in the critical section. -/
theorem hybrid_tickets_exclusion (h : Header) (n : ℕ) (hn : n ≤ 513)
    (c : Config (Fin n) (Shared n) (Pc n)) (hr : (machine h n).Reachable (start n) c) :
    (Finset.univ.filter fun t => (c.loc t).drawn = true).card =
        (c.shared.lock.next - c.shared.lock.serving).toNat ∧
      (c.shared.lock.next - c.shared.lock.serving).toNat ≤ maxDepth h ∧
      (∀ t u v v', (c.loc t).ticket = some v → (c.loc u).ticket = some v' →
        ticketByte v = ticketByte v' → t = u) ∧
      ∀ t u, (c.loc t).inCritical = true → (c.loc u).inCritical = true → t = u := by
  obtain ⟨q, w, -, hq, hw⟩ := reachable_inv hn hr
  have hserved (t : Fin n) (ht : (c.loc t).inCritical = true) : w.head? = some t := by
    apply hw.served
    cases hpc : c.loc t <;> simp_all [Pc.inCritical, Pc.served]
  refine ⟨?_, ?_, ?_, ?_⟩
  · rw [hw.card_drawn, hw.depth]
  · rw [hw.depth]
    exact hw.bound
  · intro t u v v' ht hu hv
    exact hw.ticket_inj ht hu hv
  · intro t u ht hu
    exact Option.some.inj ((hserved t ht).symm.trans (hserved u hu))

/-- `a` takes the free lock, then `b` draws the next ticket. -/
def oneWaits (a b : Fin n) : List (Fin n × Bool) :=
  [(a, false), (a, false), (a, false), (b, false), (b, false), (b, false), (b, false)]

theorem hybrid_tickets_exclusion_two :
    (((machine .hybridSpinlock 2).run (start 2) (oneWaits 0 1)).loc 0).inCritical = true ∧
      (((machine .hybridSpinlock 2).run (start 2) (oneWaits 0 1)).loc 1).drawn = true ∧
      ∀ t, (((machine .hybridSpinlock 2).run (start 2) (oneWaits 0 1)).loc t).inCritical = true →
        t = 0 := by
  have hin : (((machine .hybridSpinlock 2).run (start 2) (oneWaits 0 1)).loc 0).inCritical = true := by
    decide +kernel
  refine ⟨hin, by decide +kernel, fun t ht => ?_⟩
  exact (hybrid_tickets_exclusion .hybridSpinlock 2 (by decide) _
    ((machine .hybridSpinlock 2).reachable_run (start 2) (oneWaits 0 1))).2.2.2 t 0 ht hin

end Runs

end Lockhammer.HybridSpinlock
