import Lockhammer.Interleaving.LinkedQueue
import Lockhammer.Linux.OsqLock

/-!
# The optimistic spin queue refines the linked queue

Forgetting `tail`, `cpu` and the exact place of each thread turns a configuration of
osq_lock into a state of the linked queue. Every step of a thread is one step of the
linked queue or leaves its state alone; the ghost queue follows the exchanges on `tail`
and the steps by which threads leave.
-/
namespace Lockhammer.OsqLock
open Interleaving Interleaving.Queue Interleaving.LinkedQueue

section Roles
variable {n : ℕ}

def waitRole : Option (Fin n) → Role (Fin n)
  | some p => .leaving p
  | none => .holding

def Pc.role : Pc n → Role (Fin n)
  | .idle | .setLocked | .setNext | .setCpu | .xchgTail | .backoff | .fault => .out
  | .setPrev p => .arriving p false
  | .link p => .arriving p true
  | .spin _ | .stepARead _ | .stepACmpxchg _ | .stepALocked | .stepAPrev => .waiting
  | .stepB p => .leaving p
  | .waitTail p _ | .waitCmpxchg p _ | .waitNext p _ | .waitXchg p _ => waitRole p
  | .stepCPrev p z => .splicing p z false
  | .stepCNext p z => .splicing p z true
  | .critical | .unlockCmpxchg | .unlockXchg => .holding
  | .grant z => .granting z

def abs (c : Config (Fin n) (Shared n) (Pc n)) : State (Fin n) :=
  ⟨c.shared.next, c.shared.prev, c.shared.locked, fun t => (c.loc t).role⟩

/-- The value of `tail` that a queue stands for. -/
def tailOf (q : List (Fin n)) : ℕ := q.getLast?.elim osqUnlockedVal encodeCpu

/-- The value of `old` that `osq_wait_next` computes from `prev`. -/
def oldOf (prev : Option (Fin n)) : ℕ := prev.elim osqUnlockedVal encodeCpu

/-- What a thread knows of its own node and registers at each place. -/
def PcOk (s : Shared n) (t : Fin n) : Pc n → Prop
  | .idle | .setLocked | .backoff => True
  | .setNext | .setCpu => s.locked t = 0
  | .xchgTail => s.locked t = 0 ∧ s.cpu t = encodeCpu t
  | .waitTail prev old | .waitCmpxchg prev old | .waitNext prev old | .waitXchg prev old =>
    s.cpu t = encodeCpu t ∧ old = oldOf prev
  | .fault => False
  | _ => s.cpu t = encodeCpu t

structure Coupled (c : Config (Fin n) (Shared n) (Pc n)) (q : List (Fin n)) : Prop where
  inv : LinkedQueue.Inv q (abs c)
  tail_eq : c.shared.tail = tailOf q
  pc_ok : ∀ t, PcOk c.shared t (c.loc t)

/-- The ghost queue after the next step of thread `t`. -/
def queueAfter (t : Fin n) (c : Config (Fin n) (Shared n) (Pc n)) (q : List (Fin n)) :
    List (Fin n) :=
  match c.loc t with
  | .xchgTail => q ++ [t]
  | .waitCmpxchg _ _ | .unlockCmpxchg => if c.shared.tail = encodeCpu t then q.erase t else q
  | .stepCNext _ _ | .grant _ => q.erase t
  | _ => q

end Roles

variable {n : ℕ} {c : Config (Fin n) (Shared n) (Pc n)} {q : List (Fin n)} {t : Fin n}

lemma encodeCpu_injective : Function.Injective (encodeCpu : Fin n → ℕ) := by
  intro a b h
  exact Fin.ext (Nat.succ.inj h)

lemma cpuToNode_encodeCpu (t : Fin n) : cpuToNode (encodeCpu t) = some t := by
  simp [cpuToNode, encodeCpu]

lemma tailOf_eq_iff : tailOf q = encodeCpu t ↔ q.getLast? = some t := by
  cases h : q.getLast? with
  | none => simp [tailOf, h, osqUnlockedVal, encodeCpu]
  | some x => simpa [tailOf, h] using encodeCpu_injective.eq_iff

lemma tailOf_eq_zero_iff : tailOf q = osqUnlockedVal ↔ q = [] := by
  cases h : q.getLast? with
  | none => simpa [tailOf, h] using List.getLast?_eq_none_iff.mp h
  | some x =>
    have hne : q ≠ [] := List.ne_nil_of_mem (List.mem_of_getLast? h)
    simp [tailOf, h, osqUnlockedVal, encodeCpu, hne]

lemma abs_update (s : Shared n) (p : Pc n) :
    abs ⟨s, Function.update c.loc t p⟩ =
      ⟨s.next, s.prev, s.locked, Function.update (abs c).role t p.role⟩ := by
  have : (fun u => (Function.update c.loc t p u).role) = Function.update (abs c).role t p.role :=
    Function.comp_update Pc.role c.loc t p
  rw [abs, this]

lemma abs_stutter {s : Shared n} {p : Pc n} (hn : s.next = c.shared.next)
    (hv : s.prev = c.shared.prev) (hl : s.locked = c.shared.locked)
    (hr : p.role = (c.loc t).role) : abs ⟨s, Function.update c.loc t p⟩ = abs c := by
  rw [abs_update, hn, hv, hl, hr]
  change State.mk _ _ _ (Function.update (abs c).role t ((abs c).role t)) = _
  rw [Function.update_eq_self]
  rfl

/-- In the queue a thread has announced its number. -/
lemma PcOk.cpu {s : Shared n} {p : Pc n} (h : PcOk s t p) (hr : p.role ≠ .out) :
    s.cpu t = encodeCpu t := by
  cases p with
  | waitTail => exact h.1
  | waitCmpxchg => exact h.1
  | waitNext => exact h.1
  | waitXchg => exact h.1
  | idle | setLocked | setNext | setCpu | xchgTail | backoff | fault => exact absurd rfl hr
  | _ => exact h

lemma PcOk.frame {s s' : Shared n} {p : Pc n} (h : PcOk s t p) (hc : s'.cpu t = s.cpu t)
    (hl : p.role = .out → s'.locked t = s.locked t) : PcOk s' t p := by
  cases p with
  | idle | setLocked | backoff => trivial
  | setNext | setCpu => exact (hl rfl).trans h
  | xchgTail => exact ⟨(hl rfl).trans h.1, hc.trans h.2⟩
  | waitTail => exact ⟨hc.trans h.1, h.2⟩
  | waitCmpxchg => exact ⟨hc.trans h.1, h.2⟩
  | waitNext => exact ⟨hc.trans h.1, h.2⟩
  | waitXchg => exact ⟨hc.trans h.1, h.2⟩
  | fault => exact h
  | _ => exact hc.trans h

/-- A step of the linked queue that keeps `tail` in line with the queue. -/
lemma Coupled.next (h : Coupled c q) {s : Shared n} {p : Pc n} {q' : List (Fin n)}
    (hstep : LinkedQueue.Step t q (abs c) q' (abs ⟨s, Function.update c.loc t p⟩))
    (htail : s.tail = tailOf q') (hc : ∀ u, u ≠ t → s.cpu u = c.shared.cpu u)
    (hl : ∀ u, u ≠ t → (c.loc u).role = .out → s.locked u = c.shared.locked u)
    (hp : PcOk s t p) : Coupled ⟨s, Function.update c.loc t p⟩ q' := by
  refine ⟨hstep.inv h.inv, htail, ?_⟩
  intro u
  by_cases hu : u = t
  · subst hu
    simpa using hp
  · simpa [hu] using (h.pc_ok u).frame (hc u hu) (hl u hu)

/-- A step that changes no link, no `locked` and no role. -/
lemma Coupled.stutter (h : Coupled c q) {s : Shared n} {p : Pc n} (ht : s.tail = c.shared.tail)
    (hn : s.next = c.shared.next) (hv : s.prev = c.shared.prev)
    (hl : s.locked = c.shared.locked) (hc : ∀ u, u ≠ t → s.cpu u = c.shared.cpu u)
    (hr : p.role = (c.loc t).role) (hp : PcOk s t p) :
    Coupled ⟨s, Function.update c.loc t p⟩ q := by
  refine ⟨?_, ht.trans h.tail_eq, ?_⟩
  · rw [abs_stutter hn hv hl hr]
    exact h.inv
  · intro u
    by_cases hu : u = t
    · subst hu
      simpa using hp
    · simpa [hu] using (h.pc_ok u).frame (hc u hu) (fun _ => by rw [hl])

lemma Coupled.silent (h : Coupled c q) {p : Pc n} (hr : p.role = (c.loc t).role)
    (hp : PcOk c.shared t p) : Coupled ⟨c.shared, Function.update c.loc t p⟩ q :=
  h.stutter rfl rfl rfl rfl (fun _ _ => rfl) hr hp

section Cases
variable (h : Coupled c q)
include h

lemma Coupled.last_of_tail (hl : c.shared.tail = encodeCpu t) : q.getLast? = some t :=
  tailOf_eq_iff.mp (h.tail_eq ▸ hl)

lemma Coupled.cpu_of_mem (ht : t ∈ q) : c.shared.cpu t = encodeCpu t :=
  (h.pc_ok t).cpu ((h.inv.mem t).mp ht)

/-- The exchange on `tail` gives back the thread in front, if there is one. -/
lemma Coupled.xchgTail (hpc : c.loc t = .xchgTail) (k : Bool) :
    Coupled ((machine n).fire t k c) (q ++ [t]) := by
  have hok := h.pc_ok t
  rw [hpc] at hok
  have hrole : (abs c).role t = .out := by simp [abs, hpc, Pc.role]
  have htail : encodeCpu t = tailOf (q ++ [t]) := (tailOf_eq_iff.mpr (getLast?_push q t)).symm
  cases hlast : q.getLast? with
  | none =>
    obtain rfl := List.getLast?_eq_none_iff.mp hlast
    have hzero : c.shared.tail = osqUnlockedVal := h.tail_eq.trans (tailOf_eq_zero_iff.mpr rfl)
    rw [Machine.fire_eq _ (s := { c.shared with tail := encodeCpu t }) (p := .critical)
      (by simp [machine, hpc, step, hzero])]
    refine h.next ?_ htail (fun _ _ => rfl) (fun _ _ _ => rfl) hok.2
    rw [abs_update]
    exact .enqueueFirst hrole
  | some x =>
    have htx : c.shared.tail = encodeCpu x := h.tail_eq.trans (tailOf_eq_iff.mpr hlast)
    have hne : encodeCpu x ≠ osqUnlockedVal := Nat.succ_ne_zero _
    rw [Machine.fire_eq _ (s := { c.shared with tail := encodeCpu t }) (p := .setPrev x)
      (by simp [machine, hpc, step, htx, hne, cpuToNode_encodeCpu])]
    refine h.next ?_ htail (fun _ _ => rfl) (fun _ _ _ => rfl) hok.2
    rw [abs_update]
    exact .enqueue x hrole hok.1 hlast

/-- Giving the place at the end of the queue back. -/
lemma Coupled.dropLast {prev : Option (Fin n)} {p : Pc n} (hl : c.shared.tail = encodeCpu t)
    (hr : (c.loc t).role = waitRole prev) (hp : p = .idle ∨ p = .backoff) :
    Coupled ⟨{ c.shared with tail := oldOf prev }, Function.update c.loc t p⟩ (q.erase t) := by
  have hlast := h.last_of_tail hl
  have hrole : (abs c).role t = waitRole prev := hr
  have hout : p.role = .out := by rcases hp with rfl | rfl <;> rfl
  have hok : PcOk { c.shared with tail := oldOf prev } t p := by
    rcases hp with rfl | rfl <;> trivial
  cases prev with
  | none =>
    have hfirst := h.inv.owner_first (t := t) (by rw [hrole]; rfl)
    have hone := eq_singleton h.inv.nodup hfirst hlast
    refine h.next ?_ ?_ (fun _ _ => rfl) (fun _ _ _ => rfl) hok
    · rw [abs_update, hout]
      exact .releaseLast hrole hlast
    · exact (tailOf_eq_zero_iff.mpr (by simp [hone])).symm
  | some x =>
    obtain ⟨hadj, -⟩ := h.inv.attached_adj (t := t) (p := x) (by rw [hrole]; rfl)
    refine h.next ?_ ?_ (fun _ _ => rfl) (fun _ _ _ => rfl) hok
    · rw [abs_update, hout]
      exact .leaveLast x hrole hlast
    · exact (tailOf_eq_iff.mpr (getLast?_erase_last h.inv.nodup hadj hlast)).symm

/-- Taking the successor out of the own `next`. -/
lemma Coupled.take {prev : Option (Fin n)} {z : Fin n} (hr : (c.loc t).role = waitRole prev)
    (hz : c.shared.next t = some z) :
    Coupled ⟨c.shared.setNext t none, Function.update c.loc t (afterWaitNext prev (some z))⟩ q := by
  have hrole : (abs c).role t = waitRole prev := hr
  have hcpu : c.shared.cpu t = encodeCpu t :=
    (h.pc_ok t).cpu (by rw [hr]; cases prev <;> simp [waitRole])
  refine h.next ?_ h.tail_eq (fun _ _ => rfl) (fun _ _ _ => rfl) ?_
  · rw [abs_update]
    cases prev with
    | none => exact .takeHolding z hrole hz
    | some x => exact .takeLeaving x z hrole hz
  · cases prev <;> exact hcpu

/-- An exchange that finds the own `next` null. -/
lemma Coupled.takeNone {p : Pc n} (hz : c.shared.next t = none) (hr : p.role = (c.loc t).role)
    (hp : PcOk c.shared t p) :
    Coupled ⟨c.shared.setNext t none, Function.update c.loc t p⟩ q := by
  have hsame : Function.update c.shared.next t none = c.shared.next := by
    rw [← hz, Function.update_eq_self]
  exact h.stutter rfl hsame rfl rfl (fun _ _ => rfl) hr (hp.frame rfl (fun _ => rfl))

/-- A waiting thread that sees its `locked` set has the lock. -/
lemma Coupled.acquire (hr : (c.loc t).role = .waiting) (hl : c.shared.locked t ≠ 0) :
    Coupled ⟨c.shared, Function.update c.loc t .critical⟩ q := by
  refine h.next ?_ h.tail_eq (fun _ _ => rfl) (fun _ _ _ => rfl) ?_
  · rw [abs_update]
    exact .acquire hr hl
  · exact (h.pc_ok t).cpu (by rw [hr]; simp)

/-- A thread outside the queue clears its `locked`. -/
lemma Coupled.setLocked (hpc : c.loc t = .setLocked) :
    Coupled ⟨c.shared.setLocked t 0, Function.update c.loc t .setNext⟩ q := by
  have hsame : Function.update (abs c).role t (Pc.role .setNext) = (abs c).role := by
    rw [Function.update_eq_self_iff]
    simp [abs, hpc, Pc.role]
  refine h.next ?_ h.tail_eq (fun _ _ => rfl) ?_ (by simp [PcOk, Shared.setLocked])
  · rw [abs_update, hsame]
    exact .reset (by simp [abs, hpc, Pc.role])
  · intro u hu _
    simp [Shared.setLocked, hu]

/-- Step C ends by linking the two neighbours; somebody is behind, so the tail stays. -/
lemma Coupled.spliceNext {p z : Fin n} (hpc : c.loc t = .stepCNext p z) :
    Coupled ⟨c.shared.setNext p (some z), Function.update c.loc t .backoff⟩ (q.erase t) := by
  have hrole : (abs c).role t = .splicing p z true := by simp [abs, hpc, Pc.role]
  obtain ⟨hadj, -⟩ := h.inv.taken_adj (x := t) (z := z) (by rw [hrole]; rfl)
  refine h.next ?_ ?_ (fun _ _ => rfl) (fun _ _ _ => rfl) trivial
  · rw [abs_update]
    exact .spliceNext p z hrole
  · rw [tailOf, getLast?_erase_of_adj h.inv.nodup hadj]
    exact h.tail_eq

lemma Coupled.grant {z : Fin n} (hpc : c.loc t = .grant z) :
    Coupled ⟨c.shared.setLocked z 1, Function.update c.loc t .idle⟩ (q.erase t) := by
  have hrole : (abs c).role t = .granting z := by simp [abs, hpc, Pc.role]
  obtain ⟨hadj, hwait, -⟩ := h.inv.taken_adj (x := t) (z := z) (by rw [hrole]; rfl)
  refine h.next ?_ ?_ (fun _ _ => rfl) ?_ trivial
  · rw [abs_update]
    exact .grant z hrole
  · rw [tailOf, getLast?_erase_of_adj h.inv.nodup hadj]
    exact h.tail_eq
  · intro u hu hout
    have hne : u ≠ z := by
      rintro rfl
      exact absurd (hwait.symm.trans hout) (by simp)
    simp [Shared.setLocked, hne]

end Cases

/-- Every step of a thread keeps the coupling, with the ghost queue updated. -/
theorem fire_coupled (h : Coupled c q) (t : Fin n) (k : Bool) :
    Coupled ((machine n).fire t k c) (queueAfter t c q) := by
  have hok := h.pc_ok t
  unfold queueAfter
  cases hpc : c.loc t with
  | idle =>
    rw [Machine.fire_eq _ (s := c.shared) (p := .setLocked) (by simp [machine, hpc, step])]
    exact h.silent (by rw [hpc]; rfl) trivial
  | setLocked =>
    rw [Machine.fire_eq _ (s := c.shared.setLocked t 0) (p := .setNext)
      (by simp [machine, hpc, step])]
    exact h.setLocked hpc
  | setNext =>
    rw [hpc] at hok
    rw [Machine.fire_eq _ (s := c.shared.setNext t none) (p := .setCpu) (by simp [machine, hpc, step])]
    have hnone : c.shared.next t = none := h.inv.idle t (by simp [abs, hpc, Pc.role])
    exact h.takeNone hnone (by rw [hpc]; rfl) hok
  | setCpu =>
    rw [hpc] at hok
    rw [Machine.fire_eq _ (s := c.shared.setCpu t (encodeCpu t)) (p := .xchgTail)
      (by simp [machine, hpc, step])]
    refine h.stutter rfl rfl rfl rfl ?_ (by rw [hpc]; rfl) ⟨hok, by simp [Shared.setCpu]⟩
    intro u hu
    simp [Shared.setCpu, hu]
  | xchgTail => exact h.xchgTail hpc k
  | setPrev p =>
    rw [hpc] at hok
    rw [Machine.fire_eq _ (s := c.shared.setPrev t (some p)) (p := .link p)
      (by simp [machine, hpc, step])]
    refine h.next ?_ h.tail_eq (fun _ _ => rfl) (fun _ _ _ => rfl) hok
    rw [abs_update]
    exact .storePrev p (by simp [abs, hpc, Pc.role])
  | link p =>
    rw [hpc] at hok
    rw [Machine.fire_eq _ (s := c.shared.setNext p (some t)) (p := .spin p)
      (by simp [machine, hpc, step])]
    refine h.next ?_ h.tail_eq (fun _ _ => rfl) (fun _ _ _ => rfl) hok
    rw [abs_update]
    exact .link p (by simp [abs, hpc, Pc.role])
  | spin p =>
    rw [hpc] at hok
    by_cases hl : c.shared.locked t = 0
    · rw [Machine.fire_eq _ (s := c.shared) (p := if k then .stepARead p else .spin p)
        (by simp [machine, hpc, step, hl])]
      exact h.silent (by rw [hpc]; cases k <;> rfl) (by cases k <;> exact hok)
    · rw [Machine.fire_eq _ (s := c.shared) (p := .critical) (by simp [machine, hpc, step, hl])]
      exact h.acquire (by rw [hpc]; rfl) hl
  | stepARead p =>
    rw [hpc] at hok
    rw [Machine.fire_eq _ (s := c.shared) (p := if c.shared.next p = some t then .stepACmpxchg p
      else .stepALocked) (by simp [machine, hpc, step])]
    exact h.silent (by rw [hpc]; split <;> rfl) (by split <;> exact hok)
  | stepACmpxchg p =>
    rw [hpc] at hok
    by_cases hn : c.shared.next p = some t
    · rw [Machine.fire_eq _ (s := c.shared.setNext p none) (p := .stepB p)
        (by simp [machine, hpc, step, hn])]
      refine h.next ?_ h.tail_eq (fun _ _ => rfl) (fun _ _ _ => rfl) hok
      rw [abs_update]
      exact .commit p (by simp [abs, hpc, Pc.role]) hn
    · rw [Machine.fire_eq _ (s := c.shared) (p := .stepALocked) (by simp [machine, hpc, step, hn])]
      exact h.silent (by rw [hpc]; rfl) hok
  | stepALocked =>
    rw [hpc] at hok
    by_cases hl : c.shared.locked t = 0
    · rw [Machine.fire_eq _ (s := c.shared) (p := .stepAPrev) (by simp [machine, hpc, step, hl])]
      exact h.silent (by rw [hpc]; rfl) hok
    · rw [Machine.fire_eq _ (s := c.shared) (p := .critical) (by simp [machine, hpc, step, hl])]
      exact h.acquire (by rw [hpc]; rfl) hl
  | stepAPrev =>
    rw [hpc] at hok
    obtain ⟨p, hp⟩ : ∃ p, c.shared.prev t = some p :=
      Option.ne_none_iff_exists'.mp (h.inv.prev_some t (by simp [abs, hpc, Pc.role, Role.hasPrev]))
    rw [Machine.fire_eq _ (s := c.shared) (p := .stepARead p) (by simp [machine, hpc, step, hp])]
    exact h.silent (by rw [hpc]; rfl) hok
  | stepB p =>
    rw [hpc] at hok
    rw [Machine.fire_eq _ (s := c.shared) (p := .waitTail (some p) (c.shared.cpu p))
      (by simp [machine, hpc, step])]
    obtain ⟨hadj, -⟩ := h.inv.attached_adj (t := t) (p := p)
      (by simp [abs, hpc, Pc.role, Role.attached])
    exact h.silent (by rw [hpc]; rfl) ⟨hok, h.cpu_of_mem hadj.mem_left⟩
  | waitTail p old =>
    rw [hpc] at hok
    rw [Machine.fire_eq _ (s := c.shared) (p := if c.shared.tail = encodeCpu t
      then .waitCmpxchg p old else .waitNext p old) (by simp [machine, hpc, step])]
    exact h.silent (by rw [hpc]; split <;> rfl) (by split <;> exact hok)
  | waitCmpxchg p old =>
    rw [hpc] at hok
    obtain ⟨-, rfl⟩ := hok
    by_cases hl : c.shared.tail = encodeCpu t
    · simp only [if_pos hl]
      rw [Machine.fire_eq _ (s := { c.shared with tail := oldOf p }) (p := afterWaitNext p none)
        (by simp [machine, hpc, step, hl])]
      exact h.dropLast hl (by rw [hpc]; rfl) (by cases p <;> simp [afterWaitNext])
    · simp only [if_neg hl]
      rw [Machine.fire_eq _ (s := c.shared) (p := .waitNext p (oldOf p))
        (by simp [machine, hpc, step, hl])]
      exact h.silent (by rw [hpc]; rfl) (by simpa [hpc, PcOk] using h.pc_ok t)
  | waitNext p old =>
    rw [hpc] at hok
    rw [Machine.fire_eq _ (s := c.shared) (p := if c.shared.next t ≠ none
      then .waitXchg p old else .waitTail p old) (by simp [machine, hpc, step])]
    exact h.silent (by rw [hpc]; split <;> rfl) (by split <;> exact hok)
  | waitXchg p old =>
    cases hn : c.shared.next t with
    | none =>
      rw [Machine.fire_eq _ (s := c.shared.setNext t none) (p := .waitTail p old)
        (by simp [machine, hpc, step, hn])]
      exact h.takeNone hn (by rw [hpc]; rfl) (by simpa [hpc, PcOk] using hok)
    | some z =>
      rw [Machine.fire_eq _ (s := c.shared.setNext t none) (p := afterWaitNext p (some z))
        (by simp [machine, hpc, step, hn])]
      exact h.take (by rw [hpc]; rfl) hn
  | stepCPrev p z =>
    rw [hpc] at hok
    rw [Machine.fire_eq _ (s := c.shared.setPrev z (some p)) (p := .stepCNext p z)
      (by simp [machine, hpc, step])]
    refine h.next ?_ h.tail_eq (fun _ _ => rfl) (fun _ _ _ => rfl) hok
    rw [abs_update]
    exact .splicePrev p z (by simp [abs, hpc, Pc.role])
  | stepCNext p z =>
    rw [Machine.fire_eq _ (s := c.shared.setNext p (some z)) (p := .backoff)
      (by simp [machine, hpc, step])]
    exact h.spliceNext hpc
  | backoff =>
    rw [Machine.fire_eq _ (s := c.shared) (p := .setLocked) (by simp [machine, hpc, step])]
    exact h.silent (by rw [hpc]; rfl) trivial
  | critical =>
    rw [hpc] at hok
    rw [Machine.fire_eq _ (s := c.shared) (p := .unlockCmpxchg) (by simp [machine, hpc, step])]
    exact h.silent (by rw [hpc]; rfl) hok
  | unlockCmpxchg =>
    rw [hpc] at hok
    by_cases hl : c.shared.tail = encodeCpu t
    · simp only [if_pos hl]
      rw [Machine.fire_eq _ (s := { c.shared with tail := osqUnlockedVal }) (p := .idle)
        (by simp [machine, hpc, step, hl])]
      have hrole : (c.loc t).role = waitRole none := by rw [hpc]; rfl
      exact h.dropLast hl hrole (Or.inl rfl)
    · simp only [if_neg hl]
      rw [Machine.fire_eq _ (s := c.shared) (p := .unlockXchg) (by simp [machine, hpc, step, hl])]
      exact h.silent (by rw [hpc]; rfl) hok
  | unlockXchg =>
    cases hn : c.shared.next t with
    | none =>
      rw [Machine.fire_eq _ (s := c.shared.setNext t none) (p := .waitTail none osqUnlockedVal)
        (by simp [machine, hpc, step, hn])]
      exact h.takeNone hn (by rw [hpc]; rfl) ⟨by simpa [hpc, PcOk] using hok, rfl⟩
    | some z =>
      rw [Machine.fire_eq _ (s := c.shared.setNext t none) (p := afterWaitNext none (some z))
        (by simp [machine, hpc, step, hn, afterWaitNext])]
      exact h.take (by rw [hpc]; rfl) hn
  | grant z =>
    rw [Machine.fire_eq _ (s := c.shared.setLocked z 1) (p := .idle) (by simp [machine, hpc, step])]
    exact h.grant hpc
  | fault =>
    rw [hpc] at hok
    exact hok.elim

end Lockhammer.OsqLock
