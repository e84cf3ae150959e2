import Lockhammer.Interleaving.Fairness
import Lockhammer.Interleaving.Exclusive
import Lockhammer.Atomics.Primitives
import Lockhammer.CLib.Bits

/-!
# The ticket spinlock of ext/linux/ticket_spinlock.h

The low 32 bits of the lock are one word: the next ticket in the upper half, the ticket
being served in the lower half. An acquire adds to the whole word and so draws a ticket; a
release adds to the lower half alone, in x86 and LL/SC code by a load and a separate store.
The upper 32 bits of the lock are never accessed.
-/
namespace Lockhammer.TicketSpinlock
open Interleaving CLib

/-- The three bodies the preprocessor can choose. -/
inductive Body
  | x86
  | lse
  | llsc
  deriving DecidableEq, Repr

/-- The distance between two tickets. -/
def Body.stride : Body → ℕ
  | .x86 => 2
  | _ => 1

/-- The addend of the acquire. -/
def Body.ticketInc : Body → BitVec 32
  | .x86 => 0x20000
  | _ => 0x10000

/-- The addend of the release. -/
def Body.servingInc : Body → BitVec 16
  | .x86 => 2
  | _ => 1

def ticketHalf (v : BitVec 32) : BitVec 16 := v.extractLsb' 16 16
def servingHalf (v : BitVec 32) : BitVec 16 := v.extractLsb' 0 16

/-- A 16-bit store to the lower half. -/
def setServing (v : BitVec 32) (serving : BitVec 16) : BitVec 32 := ticketHalf v ++ serving

/-- The depth computed from the word before the addition. -/
def Body.depth (body : Body) (tmp : BitVec 32) : Word :=
  match body with
  | .x86 =>
    let depth : Word := tmp.setWidth 64
    (((depth >>> 16) - (depth &&& 0xFFFF)) &&& 0xFFFF) >>> 2
  | _ =>
    if tmp ^^^ tmp.rotateRight 16 = 0 then 0
    else (((tmp >>> 16) - (tmp &&& 0xFFFF)) &&& 0xFFFF).setWidth 64

/-- Where a thread is; `tmp` is the word its addition has found. -/
inductive Pc
  | idle
  | add
  | ldaxr
  | stxr (tmp : BitVec 32)
  | compare (tmp : BitVec 32)
  | poll (tmp : BitVec 32)
  | critical (depth : Word)
  | loadServing
  | storeServing (tmp : BitVec 16)
  | addServing

/-- The test on the drawn word that skips the wait. -/
def Body.servedAtOnce (body : Body) (tmp : BitVec 32) : Bool :=
  match body with
  | .x86 => servingHalf tmp = ticketHalf tmp
  | _ => tmp ^^^ tmp.rotateRight 16 = 0

/-- The test on the serving half while waiting. -/
def Body.served (body : Body) (tmp : BitVec 32) (serving : BitVec 16) : Bool :=
  match body with
  | .x86 => serving = ticketHalf tmp
  | _ => serving.setWidth 32 ^^^ (tmp >>> 16) = 0

/-- One atomic step; `idle` and `critical` only enter the next call. `fails` is read by the
store-exclusive alone. -/
def step {n : ℕ} (body : Body) (t : Fin n) (fails : Bool) (lock : Exclusive (Fin n) (BitVec 32)) :
    Pc → Exclusive (Fin n) (BitVec 32) × Pc
  | .idle => (lock, if body = .llsc then .ldaxr else .add)
  | .add => (lock.store (lock.val + body.ticketInc), .compare lock.val)
  | .ldaxr => (lock.load t, .stxr lock.val)
  | .stxr tmp =>
    let r := lock.storeExclusive t (tmp + body.ticketInc) fails
    (r.2, if r.1 = true then .compare tmp else .ldaxr)
  | .compare tmp => (lock, if body.servedAtOnce tmp then .critical (body.depth tmp) else .poll tmp)
  | .poll tmp =>
    -- aarch64 polls with ldaxrh, to be woken from its wfe
    (if body = .x86 then lock else lock.load t,
      if body.served tmp (servingHalf lock.val) then .critical (body.depth tmp) else .poll tmp)
  | .critical _ => (lock, if body = .lse then .addServing else .loadServing)
  | .loadServing => (lock, .storeServing (servingHalf lock.val))
  | .storeServing tmp => (lock.store (setServing lock.val (tmp + body.servingInc)), .idle)
  | .addServing =>
    (lock.store (setServing lock.val (servingHalf lock.val + body.servingInc)), .idle)

def machine (n : ℕ) (body : Body) : Machine (Fin n) Bool (Exclusive (Fin n) (BitVec 32)) Pc where
  step := step body

def start (n : ℕ) : Config (Fin n) (Exclusive (Fin n) (BitVec 32)) Pc :=
  ⟨Exclusive.init 0, fun _ => .idle⟩

inductive Event (n : ℕ)
  | draw (t : Fin n)
  | enter (t : Fin n)

/-- The addition that draws a ticket, and the test that lets a thread in. -/
def obs {n : ℕ} (body : Body) (t : Fin n) (fails : Bool) (lock : Exclusive (Fin n) (BitVec 32)) :
    Pc → Option (Event n)
  | .add => some (.draw t)
  | .stxr _ => if lock.reserved t = true ∧ fails = false then some (.draw t) else none
  | .compare tmp => if body.servedAtOnce tmp then some (.enter t) else none
  | .poll tmp => if body.served tmp (servingHalf lock.val) then some (.enter t) else none
  | _ => none

def draws {n : ℕ} (tr : List (Event n)) : List (Fin n) :=
  tr.filterMap fun
    | .draw t => some t
    | _ => none

def enters {n : ℕ} (tr : List (Event n)) : List (Fin n) :=
  tr.filterMap fun
    | .enter t => some t
    | _ => none

/-- From the test that lets a thread in to the store that releases. -/
def Pc.inCritical : Pc → Bool
  | .critical _ | .loadServing | .storeServing _ | .addServing => true
  | _ => false

def Pc.inAcquire : Pc → Bool
  | .add | .ldaxr | .stxr _ | .compare _ | .poll _ => true
  | _ => false

def Pc.inRelease : Pc → Bool
  | .loadServing | .storeServing _ | .addServing => true
  | _ => false

section Halves

lemma ticketHalf_toNat (v : BitVec 32) : (ticketHalf v).toNat = v.toNat / 2 ^ 16 := by
  have h := v.isLt
  rw [ticketHalf, extract_toNat]
  omega

lemma servingHalf_toNat (v : BitVec 32) : (servingHalf v).toNat = v.toNat % 2 ^ 16 := by
  rw [servingHalf, extract_toNat, pow_zero, Nat.div_one]

lemma Body.ticketInc_toNat (body : Body) : body.ticketInc.toNat = body.stride * 2 ^ 16 := by
  cases body <;> rfl

/-- The addition of an acquire goes to the ticket half; its carry leaves the word. -/
lemma ticketHalf_add (body : Body) (v : BitVec 32) :
    ticketHalf (v + body.ticketInc) = ticketHalf v + BitVec.ofNat 16 body.stride := by
  apply BitVec.eq_of_toNat_eq
  have h := v.isLt
  rw [ticketHalf_toNat, BitVec.toNat_add, BitVec.toNat_add, ticketHalf_toNat, BitVec.toNat_ofNat,
    body.ticketInc_toNat]
  omega

lemma servingHalf_add (body : Body) (v : BitVec 32) :
    servingHalf (v + body.ticketInc) = servingHalf v := by
  apply BitVec.eq_of_toNat_eq
  rw [servingHalf_toNat, BitVec.toNat_add, servingHalf_toNat, body.ticketInc_toNat]
  omega

lemma setServing_toNat (v : BitVec 32) (x : BitVec 16) :
    (setServing v x).toNat = (ticketHalf v).toNat * 2 ^ 16 + x.toNat := append_toNat _ _

@[simp] lemma ticketHalf_setServing (v : BitVec 32) (x : BitVec 16) :
    ticketHalf (setServing v x) = ticketHalf v := by
  apply BitVec.eq_of_toNat_eq
  have hx := x.isLt
  rw [ticketHalf_toNat, setServing_toNat]
  omega

@[simp] lemma servingHalf_setServing (v : BitVec 32) (x : BitVec 16) :
    servingHalf (setServing v x) = x := by
  apply BitVec.eq_of_toNat_eq
  have hx := x.isLt
  rw [servingHalf_toNat, setServing_toNat]
  omega

lemma rotateRight_toNat (v : BitVec 32) :
    (v.rotateRight 16).toNat = v.toNat % 2 ^ 16 * 2 ^ 16 + v.toNat / 2 ^ 16 := by
  have h := v.isLt
  have hshift : 16 % 32 = 16 := rfl
  have hd : v.toNat / 2 ^ 16 < 2 ^ 16 := by omega
  have he : v.toNat * 2 ^ (32 - 16) % 2 ^ 32 = 2 ^ 16 * (v.toNat % 2 ^ 16) := by omega
  rw [BitVec.toNat_rotateRight, hshift, Nat.shiftRight_eq_div_pow, Nat.shiftLeft_eq, Nat.or_comm, he,
    ← Nat.two_pow_add_eq_or_of_lt hd]
  omega

/-- Both tests on the drawn word compare its halves. -/
lemma servedAtOnce_iff (body : Body) (tmp : BitVec 32) :
    body.servedAtOnce tmp = true ↔ ticketHalf tmp = servingHalf tmp := by
  have hrot : tmp ^^^ tmp.rotateRight 16 = 0 ↔ ticketHalf tmp = servingHalf tmp := by
    have h := tmp.isLt
    have hx : tmp ^^^ tmp.rotateRight 16 = 0 ↔ tmp = tmp.rotateRight 16 := BitVec.xor_eq_zero_iff
    rw [hx, ← BitVec.toNat_inj, ← BitVec.toNat_inj, rotateRight_toNat, ticketHalf_toNat,
      servingHalf_toNat]
    omega
  cases body with
  | x86 => simp [Body.servedAtOnce, eq_comm]
  | lse => simpa [Body.servedAtOnce] using hrot
  | llsc => simpa [Body.servedAtOnce] using hrot

lemma served_iff (body : Body) (tmp : BitVec 32) (x : BitVec 16) :
    body.served tmp x = true ↔ x = ticketHalf tmp := by
  have hxor : x.setWidth 32 ^^^ (tmp >>> 16) = 0 ↔ x = ticketHalf tmp := by
    have hx : x.setWidth 32 ^^^ (tmp >>> 16) = 0 ↔ x.setWidth 32 = tmp >>> 16 := BitVec.xor_eq_zero_iff
    have h := x.isLt
    rw [hx, ← BitVec.toNat_inj, ← BitVec.toNat_inj, ticketHalf_toNat, BitVec.toNat_setWidth,
      BitVec.toNat_ushiftRight, Nat.shiftRight_eq_div_pow]
    omega
  cases body with
  | x86 => simp [Body.served]
  | lse => simpa [Body.served] using hxor
  | llsc => simpa [Body.served] using hxor

end Halves

section Tickets

/-- The `k`-th ticket of a run, as it stands in a half of the word. -/
def Body.ticket (body : Body) (k : ℕ) : BitVec 16 := BitVec.ofNat 16 (body.stride * k)

lemma Body.ticket_add (body : Body) (k : ℕ) :
    body.ticket k + BitVec.ofNat 16 body.stride = body.ticket (k + 1) := by
  rw [Body.ticket, Body.ticket, Nat.mul_add, Nat.mul_one, BitVec.ofNat_add]

lemma Body.servingInc_eq (body : Body) : body.servingInc = BitVec.ofNat 16 body.stride := by
  cases body <;> rfl

/-- Tickets that are out at the same time are told apart by their 16 bits. -/
lemma Body.ticket_inj (body : Body) {k i j : ℕ} (hi : body.stride * i < 2 ^ 16)
    (hj : body.stride * j < 2 ^ 16) (h : body.ticket (k + i) = body.ticket (k + j)) : i = j := by
  have hn := congrArg BitVec.toNat h
  rw [Body.ticket, Body.ticket, BitVec.toNat_ofNat, BitVec.toNat_ofNat] at hn
  cases body <;> simp only [Body.stride] at hi hj hn <;> omega

end Tickets

section Invariant

/-- `t` stands in line `q`, whose first ticket has number `served`, with the ticket of `tmp`. -/
def Holds {n : ℕ} (body : Body) (q : List (Fin n)) (served : ℕ) (t : Fin n) (tmp : BitVec 32) : Prop :=
  ∃ i, q[i]? = some t ∧ ticketHalf tmp = body.ticket (served + i)

/-- What holds of a thread at each place. -/
def LocalOk {n : ℕ} (body : Body) (lock : Exclusive (Fin n) (BitVec 32)) (q : List (Fin n))
    (served : ℕ) (t : Fin n) : Pc → Prop
  | .idle | .add | .ldaxr => t ∉ q
  | .stxr tmp => t ∉ q ∧ (lock.reserved t = true → tmp = lock.val)
  | .compare tmp => Holds body q served t tmp ∧ (ticketHalf tmp = servingHalf tmp → q.head? = some t)
  | .poll tmp => Holds body q served t tmp
  | .critical _ | .loadServing | .addServing => q.head? = some t
  | .storeServing tmp => q.head? = some t ∧ tmp = servingHalf lock.val

/-- What the first of the line still has to do before it leaves. -/
def Pc.phase : Pc → ℕ
  | .compare _ => 5
  | .poll _ => 4
  | .critical _ => 3
  | .loadServing | .addServing => 2
  | .storeServing _ => 1
  | _ => 0

/-- The threads with a ticket are in line `q`, of which the first has ticket number
`served`. -/
structure Inv {n : ℕ} (body : Body) (tr : List (Event n))
    (c : Config (Fin n) (Exclusive (Fin n) (BitVec 32)) Pc) (q : List (Fin n)) (served : ℕ) : Prop where
  nodup : q.Nodup
  ticket : ticketHalf c.shared.val = body.ticket (served + q.length)
  serving : servingHalf c.shared.val = body.ticket served
  local_ok : ∀ t, LocalOk body c.shared q served t (c.loc t)
  order : draws tr = enters tr ++ q.filter fun t => !(c.loc t).inCritical

variable {n : ℕ} {body : Body} {tr : List (Event n)}
  {c : Config (Fin n) (Exclusive (Fin n) (BitVec 32)) Pc} {q : List (Fin n)} {served : ℕ} {t : Fin n}
  {fails : Bool} {lock : Exclusive (Fin n) (BitVec 32)} {p : Pc}

lemma start_inv (n : ℕ) (body : Body) : Inv body [] (start n) [] 0 where
  nodup := List.nodup_nil
  ticket := by
    change ticketHalf 0 = body.ticket 0
    cases body <;> decide
  serving := by
    change servingHalf 0 = body.ticket 0
    cases body <;> decide
  local_ok _ := List.not_mem_nil
  order := rfl

lemma LocalOk.critical_head (h : LocalOk body lock q served t p) (hp : p.inCritical = true) :
    q.head? = some t := by
  cases p with
  | critical d => exact h
  | loadServing => exact h
  | addServing => exact h
  | storeServing tmp => exact h.1
  | _ => simp [Pc.inCritical] at hp

/-- Who sees the same word, and no reservation that it did not have, is not disturbed. -/
lemma LocalOk.frame {lock' : Exclusive (Fin n) (BitVec 32)} (h : LocalOk body lock q served t p)
    (hval : lock'.val = lock.val) (hres : lock'.reserved t = true → lock.reserved t = true) :
    LocalOk body lock' q served t p := by
  cases p with
  | stxr tmp => exact ⟨h.1, fun hr => hval ▸ h.2 (hres hr)⟩
  | storeServing tmp => exact ⟨h.1, hval ▸ h.2⟩
  | _ => exact h

/-- Another thread draws the next ticket. -/
lemma LocalOk.push {u : Fin n} (h : LocalOk body lock q served u p) (hut : u ≠ t) {v : BitVec 32}
    (hv : servingHalf v = servingHalf lock.val) : LocalOk body (lock.store v) (q ++ [t]) served u p := by
  have hmem (hu : u ∉ q) : u ∉ q ++ [t] := by simp [hu, hut]
  have hholds {tmp : BitVec 32} (hu : Holds body q served u tmp) : Holds body (q ++ [t]) served u tmp := by
    obtain ⟨i, hi, htmp⟩ := hu
    exact ⟨i, by rw [List.getElem?_append_left (List.getElem?_eq_some_iff.mp hi).1, hi], htmp⟩
  have hhead (hu : q.head? = some u) : (q ++ [t]).head? = some u := by simp [hu]
  cases p with
  | idle | add | ldaxr => exact hmem h
  | stxr tmp => exact ⟨hmem h.1, by simp [Exclusive.store]⟩
  | compare tmp => exact ⟨hholds h.1, fun he => hhead (h.2 he)⟩
  | poll tmp => exact hholds h
  | critical d => exact hhead h
  | loadServing | addServing => exact hhead h
  | storeServing tmp => exact ⟨hhead h.1, by rw [Exclusive.store_val, hv]; exact h.2⟩

/-- The first of the line goes; everybody else moves up. -/
lemma LocalOk.pop {u : Fin n} (h : LocalOk body lock (t :: q) served u p) (hut : u ≠ t) {v : BitVec 32} :
    LocalOk body (lock.store v) q (served + 1) u p := by
  have hmem (hu : u ∉ t :: q) : u ∉ q := fun hq => hu (List.mem_cons_of_mem t hq)
  have hholds {tmp : BitVec 32} (hu : Holds body (t :: q) served u tmp) : Holds body q (served + 1) u tmp := by
    obtain ⟨i, hi, htmp⟩ := hu
    cases i with
    | zero => exact absurd (Option.some.inj hi).symm hut
    | succ i => exact ⟨i, hi, by rw [htmp, Nat.add_right_comm, Nat.add_assoc]⟩
  have hhead (hu : (t :: q).head? = some u) : False := hut (Option.some.inj hu).symm
  cases p with
  | idle | add | ldaxr => exact hmem h
  | stxr tmp => exact ⟨hmem h.1, by simp [Exclusive.store]⟩
  | compare tmp => exact ⟨hholds h.1, fun he => (hhead (h.2 he)).elim⟩
  | poll tmp => exact hholds h
  | critical d => exact (hhead h).elim
  | loadServing | addServing => exact (hhead h).elim
  | storeServing tmp => exact (hhead h.1).elim

/-- The line without those inside does not see a step of a thread outside of it. -/
lemma filter_update (ht : t ∉ q) (p : Pc) :
    (q.filter fun u => !(Function.update c.loc t p u).inCritical) =
      q.filter fun u => !(c.loc u).inCritical := by
  apply List.filter_congr
  intro u hu
  have hut : u ≠ t := fun e => ht (e ▸ hu)
  rw [Function.update_of_ne hut]

lemma Inv.line_eq (h : Inv body tr c q served) (ht : q.head? = some t) : ∃ q', q = t :: q' ∧ t ∉ q' := by
  obtain ⟨q', rfl⟩ := List.head?_eq_some_iff.mp ht
  exact ⟨q', rfl, (List.nodup_cons.mp h.nodup).1⟩

/-- What the others keep and the stepping thread has to show. -/
lemma local_update {q' : List (Fin n)} {served' : ℕ}
    (hu : ∀ u, u ≠ t → LocalOk body lock q' served' u (c.loc u)) (ht : LocalOk body lock q' served' t p)
    (u : Fin n) : LocalOk body lock q' served' u (Function.update c.loc t p u) := by
  by_cases hut : u = t
  · rw [hut, Function.update_self]
    exact ht
  · rw [Function.update_of_ne hut]
    exact hu u hut

/-- Steps that leave the word and the line alone. -/
lemma Inv.quiet (h : Inv body tr c q served) (hval : lock.val = c.shared.val)
    (hres : ∀ u, u ≠ t → lock.reserved u = true → c.shared.reserved u = true)
    (hcrit : p.inCritical = (c.loc t).inCritical) (hp : LocalOk body lock q served t p) :
    Inv body tr ⟨lock, Function.update c.loc t p⟩ q served := by
  have hc (u : Fin n) : (Function.update c.loc t p u).inCritical = (c.loc u).inCritical := by
    by_cases hu : u = t
    · rw [hu, Function.update_self, hcrit]
    · rw [Function.update_of_ne hu]
  refine ⟨h.nodup, ?_, ?_, ?_, ?_⟩
  · rw [hval]
    exact h.ticket
  · rw [hval]
    exact h.serving
  · exact local_update (fun u hut => (h.local_ok u).frame hval (hres u hut)) hp
  · simp only [hc]
    exact h.order

/-- An addition that finds the word draws the ticket behind the line. -/
lemma Inv.draw (h : Inv body tr c q served) (hn : body.stride * n ≤ 2 ^ 16) (ht : t ∉ q) :
    Inv body (tr ++ [.draw t]) ⟨c.shared.store (c.shared.val + body.ticketInc),
      Function.update c.loc t (.compare c.shared.val)⟩ (q ++ [t]) served := by
  have hlen : q.length < n := by
    have hnodup : (t :: q).Nodup := List.nodup_cons.mpr ⟨ht, h.nodup⟩
    exact Nat.lt_of_succ_le (by simpa using hnodup.length_le_card)
  refine ⟨?_, ?_, ?_, ?_, ?_⟩
  · exact h.nodup.append (List.nodup_singleton t) (by simpa using ht)
  · change ticketHalf (c.shared.val + body.ticketInc) = _
    rw [ticketHalf_add, h.ticket, body.ticket_add]
    simp [Nat.add_assoc]
  · change servingHalf (c.shared.val + body.ticketInc) = _
    rw [servingHalf_add, h.serving]
  · refine local_update (fun u hut => (h.local_ok u).push hut (servingHalf_add body _)) ⟨?_, ?_⟩
    · exact ⟨q.length, by simp, h.ticket⟩
    · -- equal halves: fewer than 2^16 tickets are out, so none is
      intro he
      rw [h.ticket, h.serving] at he
      have hpos : 0 < body.stride := by cases body <;> decide
      have h16 : body.stride * q.length < 2 ^ 16 :=
        lt_of_lt_of_le (Nat.mul_lt_mul_of_pos_left hlen hpos) hn
      have hzero : q.length = 0 := body.ticket_inj (k := served) (j := 0) h16 (by simp) he
      rw [List.length_eq_zero_iff.mp hzero]
      rfl
  · have hnew : (Pc.compare c.shared.val).inCritical = false := rfl
    have hlast : ([t].filter fun u => !(Function.update c.loc t (.compare c.shared.val) u).inCritical) = [t] := by
      rw [List.filter_singleton, Function.update_self, hnew]
      rfl
    have hdraw : draws (tr ++ [.draw t]) = draws tr ++ [t] := by simp [draws]
    have henter : enters (tr ++ [.draw t]) = enters tr := by simp [enters]
    rw [List.filter_append, filter_update ht, hlast, hdraw, henter, h.order, List.append_assoc]

/-- Only the first of the line sees its ticket served. -/
lemma Inv.head_of_served (h : Inv body tr c q served) (hn : body.stride * n ≤ 2 ^ 16) {tmp : BitVec 32}
    (hd : Holds body q served t tmp) (hs : servingHalf c.shared.val = ticketHalf tmp) :
    q.head? = some t := by
  obtain ⟨i, hi, htmp⟩ := hd
  have hlt : i < q.length := (List.getElem?_eq_some_iff.mp hi).1
  have hlen : q.length ≤ n := by simpa using h.nodup.length_le_card
  have hpos : 0 < body.stride := by cases body <;> decide
  have h16 : body.stride * i < 2 ^ 16 :=
    lt_of_lt_of_le (Nat.mul_lt_mul_of_pos_left (lt_of_lt_of_le hlt hlen) hpos) hn
  have hzero : i = 0 := by
    apply body.ticket_inj (k := served) (j := 0) h16 (by simp)
    rw [← htmp, ← hs, h.serving, Nat.add_zero]
  rw [hzero, ← List.head?_eq_getElem?] at hi
  exact hi

/-- The first of the line sees its ticket served. -/
lemma Inv.served_of_head (h : Inv body tr c q served) {tmp : BitVec 32} (hhead : q.head? = some t)
    (hd : Holds body q served t tmp) : servingHalf c.shared.val = ticketHalf tmp := by
  obtain ⟨i, hi, htmp⟩ := hd
  obtain ⟨hlt, hget⟩ := List.getElem?_eq_some_iff.mp hi
  rw [List.head?_eq_getElem?] at hhead
  obtain ⟨hlt₀, hget₀⟩ := List.getElem?_eq_some_iff.mp hhead
  have hzero : i = 0 := (h.nodup.getElem_inj_iff).mp (hget.trans hget₀.symm)
  rw [h.serving, htmp, hzero, Nat.add_zero]

/-- The first of the line goes into the critical section. -/
lemma Inv.enter (h : Inv body tr c q served) {depth : Word} (ht : q.head? = some t)
    (hcrit : (c.loc t).inCritical = false) (hval : lock.val = c.shared.val)
    (hres : ∀ u, u ≠ t → lock.reserved u = true → c.shared.reserved u = true) :
    Inv body (tr ++ [.enter t]) ⟨lock, Function.update c.loc t (.critical depth)⟩ q served := by
  obtain ⟨q', rfl, hq'⟩ := h.line_eq ht
  refine ⟨h.nodup, ?_, ?_, ?_, ?_⟩
  · rw [hval]
    exact h.ticket
  · rw [hval]
    exact h.serving
  · exact local_update (fun u hut => (h.local_ok u).frame hval (hres u hut)) ht
  · have horder := h.order
    have hnew : (Pc.critical depth).inCritical = true := rfl
    rw [List.filter_cons_of_pos (by simp [hcrit])] at horder
    rw [List.filter_cons_of_neg (by simp [hnew]), filter_update hq']
    simpa [draws, enters] using horder

/-- The release serves the next ticket. -/
lemma Inv.releaseServing (h : Inv body tr c (t :: q) served) (hcrit : (c.loc t).inCritical = true) :
    Inv body tr ⟨c.shared.store (setServing c.shared.val
      (servingHalf c.shared.val + body.servingInc)), Function.update c.loc t .idle⟩ q (served + 1) := by
  have hq' : t ∉ q := (List.nodup_cons.mp h.nodup).1
  refine ⟨(List.nodup_cons.mp h.nodup).2, ?_, ?_, ?_, ?_⟩
  · change ticketHalf (setServing _ _) = _
    rw [ticketHalf_setServing, h.ticket, List.length_cons]
    congr 1
    omega
  · change servingHalf (setServing _ _) = _
    rw [servingHalf_setServing, h.serving, body.servingInc_eq, body.ticket_add]
  · exact local_update (fun u hut => (h.local_ok u).pop hut) hq'
  · have horder := h.order
    rw [List.filter_cons_of_neg (by simp [hcrit])] at horder
    rw [filter_update hq']
    exact horder

/-- A step without an event that keeps the word and the line. -/
lemma Inv.silent (h : Inv body tr c q served) {s : Exclusive (Fin n) (BitVec 32)} {fails : Bool}
    (hs : (machine n body).step t fails c.shared (c.loc t) = (s, p))
    (ho : obs body t fails c.shared (c.loc t) = none) (hval : s.val = c.shared.val)
    (hres : ∀ u, u ≠ t → s.reserved u = true → c.shared.reserved u = true)
    (hcrit : p.inCritical = (c.loc t).inCritical) (hp : LocalOk body s q served t p)
    (hphase : q.head? = some t → p.phase < (c.loc t).phase) :
    ∃ q' served', Inv body (tr ++ (obs body t fails c.shared (c.loc t)).toList)
      ((machine n body).fire t fails c) q' served' ∧
      Moves (·.inCritical = true) Pc.phase t q q' (c.loc t) (((machine n body).fire t fails c).loc t) := by
  rw [ho, (machine n body).fire_eq hs, Option.toList_none, List.append_nil]
  refine ⟨q, served, h.quiet hval hres hcrit hp, .same ?_⟩
  simpa using hphase

/-- The exclusive store of a drawn ticket goes through or sends the thread back to the load. -/
lemma Inv.stxr_step (h : Inv body tr c q served) (hn : body.stride * n ≤ 2 ^ 16) {tmp : BitVec 32}
    (hpc : c.loc t = .stxr tmp) (fails : Bool) :
    ∃ q' served', Inv body (tr ++ (obs body t fails c.shared (c.loc t)).toList)
      ((machine n body).fire t fails c) q' served' ∧
      Moves (·.inCritical = true) Pc.phase t q q' (c.loc t) (((machine n body).fire t fails c).loc t) := by
  have hok := h.local_ok t
  rw [hpc] at hok
  by_cases hsucc : c.shared.reserved t = true ∧ fails = false
  · -- the reservation is intact, so the word is the one that was loaded
    obtain rfl := hok.2 hsucc.1
    have hs : (machine n body).step t fails c.shared (c.loc t) =
        (c.shared.store (c.shared.val + body.ticketInc), .compare c.shared.val) := by
      change step body t fails c.shared (c.loc t) = _
      rw [hpc, step, Exclusive.storeExclusive_success _ hsucc]
      rfl
    rw [(machine n body).fire_eq hs, hpc, obs, if_pos hsucc]
    exact ⟨q ++ [t], served, h.draw hn hok.1, .of_not_mem hok.1 [t]⟩
  · refine h.silent (p := .ldaxr)
      (s := { c.shared with reserved := Function.update c.shared.reserved t false }) ?_ ?_ rfl ?_ ?_ hok.1
      (fun hhead => absurd (List.mem_of_head? hhead) hok.1)
    · change step body t fails c.shared (c.loc t) = _
      rw [hpc, step, Exclusive.storeExclusive_failure _ hsucc]
      rfl
    · rw [hpc, obs, if_neg hsucc]
    · intro u hu hr
      simpa [hu] using hr
    · rw [hpc]
      rfl

/-- The comparison behind the draw. -/
lemma Inv.compare_step (h : Inv body tr c q served) {tmp : BitVec 32} (hpc : c.loc t = .compare tmp)
    (fails : Bool) :
    ∃ q' served', Inv body (tr ++ (obs body t fails c.shared (c.loc t)).toList)
      ((machine n body).fire t fails c) q' served' ∧
      Moves (·.inCritical = true) Pc.phase t q q' (c.loc t) (((machine n body).fire t fails c).loc t) := by
  have hok := h.local_ok t
  rw [hpc] at hok
  by_cases hat : body.servedAtOnce tmp = true
  · have hs : (machine n body).step t fails c.shared (c.loc t) = (c.shared, .critical (body.depth tmp)) := by
      change step body t fails c.shared (c.loc t) = _
      rw [hpc, step, if_pos hat]
    rw [(machine n body).fire_eq hs, hpc, obs, if_pos hat]
    refine ⟨q, served, h.enter (hok.2 ((servedAtOnce_iff body tmp).mp hat)) (by rw [hpc]; rfl) rfl
      (fun _ _ hr => hr), .same (fun _ => ?_)⟩
    simp [Pc.phase]
  · refine h.silent (s := c.shared) (p := .poll tmp) ?_ ?_ rfl (fun _ _ hr => hr) (by rw [hpc]; rfl) hok.1
      (fun _ => by simp [hpc, Pc.phase])
    · change step body t fails c.shared (c.loc t) = _
      rw [hpc, step, if_neg hat]
    · rw [hpc, obs, if_neg hat]

/-- A look at the half that is served. -/
lemma Inv.poll_step (h : Inv body tr c q served) (hn : body.stride * n ≤ 2 ^ 16) {tmp : BitVec 32}
    (hpc : c.loc t = .poll tmp) (fails : Bool) :
    ∃ q' served', Inv body (tr ++ (obs body t fails c.shared (c.loc t)).toList)
      ((machine n body).fire t fails c) q' served' ∧
      Moves (·.inCritical = true) Pc.phase t q q' (c.loc t) (((machine n body).fire t fails c).loc t) := by
  have hok := h.local_ok t
  rw [hpc] at hok
  have hval : (if body = .x86 then c.shared else c.shared.load t).val = c.shared.val := by
    split <;> rfl
  have hres (u : Fin n) (hu : u ≠ t)
      (hr : (if body = .x86 then c.shared else c.shared.load t).reserved u = true) :
      c.shared.reserved u = true := by
    split at hr
    · exact hr
    · exact Exclusive.reserved_of_load u hu hr
  by_cases hat : body.served tmp (servingHalf c.shared.val) = true
  · have hs : (machine n body).step t fails c.shared (c.loc t) =
        (if body = .x86 then c.shared else c.shared.load t, .critical (body.depth tmp)) := by
      change step body t fails c.shared (c.loc t) = _
      rw [hpc, step, if_pos hat]
    rw [(machine n body).fire_eq hs, hpc, obs, if_pos hat]
    have hhead := h.head_of_served hn hok ((served_iff body tmp _).mp hat)
    refine ⟨q, served, h.enter hhead (by rw [hpc]; rfl) hval hres, .same (fun _ => ?_)⟩
    simp [Pc.phase]
  · refine h.silent (p := .poll tmp) (s := if body = .x86 then c.shared else c.shared.load t) ?_ ?_ hval
      hres (by rw [hpc]) hok (fun hhead => absurd ((served_iff body tmp _).mpr ?_) hat)
    · change step body t fails c.shared (c.loc t) = _
      rw [hpc, step, if_neg hat]
    · rw [hpc, obs, if_neg hat]
    · exact h.served_of_head hhead hok

/-- Either release of the first of the line. -/
lemma Inv.release_step (h : Inv body tr c q served) (ht : q.head? = some t) (hcrit : (c.loc t).inCritical = true)
    {fails : Bool}
    (hs : (machine n body).step t fails c.shared (c.loc t) = (c.shared.store (setServing c.shared.val
      (servingHalf c.shared.val + body.servingInc)), .idle))
    (ho : obs body t fails c.shared (c.loc t) = none) :
    ∃ q' served', Inv body (tr ++ (obs body t fails c.shared (c.loc t)).toList)
      ((machine n body).fire t fails c) q' served' ∧
      Moves (·.inCritical = true) Pc.phase t q q' (c.loc t) (((machine n body).fire t fails c).loc t) := by
  obtain ⟨q', rfl, -⟩ := h.line_eq ht
  rw [(machine n body).fire_eq hs, ho, Option.toList_none, List.append_nil]
  refine ⟨q', served + 1, h.releaseServing hcrit, Or.inr ⟨hcrit, ?_, rfl⟩⟩
  simp [Pc.inCritical]

/-- One step of any thread: the line grows at a draw and moves up at a release. -/
theorem step_moves (h : Inv body tr c q served) (hn : body.stride * n ≤ 2 ^ 16) (t : Fin n) (fails : Bool) :
    ∃ q' served', Inv body (tr ++ (obs body t fails c.shared (c.loc t)).toList)
      ((machine n body).fire t fails c) q' served' ∧
      Moves (·.inCritical = true) Pc.phase t q q' (c.loc t) (((machine n body).fire t fails c).loc t) := by
  have hok := h.local_ok t
  cases hpc : c.loc t with
  | idle =>
    rw [hpc] at hok
    rw [← hpc]
    refine h.silent (s := c.shared) (p := if body = .llsc then .ldaxr else .add) (by rw [hpc]; rfl)
      (by rw [hpc]; rfl) rfl (fun _ _ hr => hr) ?_ ?_ (fun hhead => absurd (List.mem_of_head? hhead) hok)
    · rw [hpc]
      split <;> rfl
    · split <;> exact hok
  | add =>
    rw [hpc] at hok
    have hs : (machine n body).step t fails c.shared (c.loc t) =
        (c.shared.store (c.shared.val + body.ticketInc), .compare c.shared.val) := by rw [hpc]; rfl
    rw [(machine n body).fire_eq hs]
    exact ⟨q ++ [t], served, h.draw hn hok, .of_not_mem hok [t]⟩
  | ldaxr =>
    rw [hpc] at hok
    rw [← hpc]
    exact h.silent (s := c.shared.load t) (p := .stxr c.shared.val) (by rw [hpc]; rfl) (by rw [hpc]; rfl)
      rfl (fun u hu hr => Exclusive.reserved_of_load u hu hr) (by rw [hpc]; rfl) ⟨hok, fun _ => rfl⟩
      (fun hhead => absurd (List.mem_of_head? hhead) hok)
  | stxr tmp =>
    rw [← hpc]
    exact h.stxr_step hn hpc fails
  | compare tmp =>
    rw [← hpc]
    exact h.compare_step hpc fails
  | poll tmp =>
    rw [← hpc]
    exact h.poll_step hn hpc fails
  | critical depth =>
    rw [hpc] at hok
    rw [← hpc]
    refine h.silent (s := c.shared) (p := if body = .lse then .addServing else .loadServing)
      (by rw [hpc]; rfl) (by rw [hpc]; rfl) rfl (fun _ _ hr => hr) ?_ ?_ (fun _ => ?_)
    · rw [hpc]
      split <;> rfl
    · split <;> exact hok
    · rw [hpc]
      split <;> simp [Pc.phase]
  | loadServing =>
    rw [hpc] at hok
    rw [← hpc]
    exact h.silent (s := c.shared) (p := .storeServing (servingHalf c.shared.val)) (by rw [hpc]; rfl)
      (by rw [hpc]; rfl) rfl (fun _ _ hr => hr) (by rw [hpc]; rfl) ⟨hok, rfl⟩
      (fun _ => by simp [hpc, Pc.phase])
  | storeServing tmp =>
    rw [hpc] at hok
    obtain ⟨hhead, rfl⟩ := hok
    rw [← hpc]
    exact h.release_step hhead (by rw [hpc]; rfl) (by rw [hpc]; rfl) (by rw [hpc]; rfl)
  | addServing =>
    rw [hpc] at hok
    rw [← hpc]
    exact h.release_step hok (by rw [hpc]; rfl) (by rw [hpc]; rfl) (by rw [hpc]; rfl)

theorem step_inv (h : Inv body tr c q served) (hn : body.stride * n ≤ 2 ^ 16) (t : Fin n) (fails : Bool) :
    ∃ q' served', Inv body (tr ++ (obs body t fails c.shared (c.loc t)).toList)
      ((machine n body).fire t fails c) q' served' := by
  obtain ⟨q', served', hi, -⟩ := step_moves h hn t fails
  exact ⟨q', served', hi⟩

theorem history_inv (h : (machine n body).History (obs body) (start n) tr c)
    (hn : body.stride * n ≤ 2 ^ 16) : ∃ q served, Inv body tr c q served := by
  apply h.invariant (machine n body) (P := fun tr c => ∃ q served, Inv body tr c q served)
  · exact ⟨[], 0, start_inv n body⟩
  · rintro tr c t fails ⟨q, served, hi⟩
    exact step_inv hi hn t fails

lemma Inv.servingHalf_fire (h : Inv body tr c q served) (ht : (c.loc t).inAcquire = true) :
    servingHalf ((machine n body).fire t fails c).shared.val = servingHalf c.shared.val := by
  rw [Machine.fire_shared]
  change servingHalf (step body t fails c.shared (c.loc t)).1.val = _
  have hok := h.local_ok t
  cases hpc : c.loc t with
  | add => exact servingHalf_add body _
  | ldaxr => rfl
  | stxr tmp =>
    rw [hpc] at hok
    by_cases hsucc : c.shared.reserved t = true ∧ fails = false
    · obtain rfl := hok.2 hsucc.1
      rw [step, Exclusive.storeExclusive_success _ hsucc]
      exact servingHalf_add body _
    · rw [step, Exclusive.storeExclusive_failure _ hsucc]
  | compare tmp => rfl
  | poll tmp =>
    rw [step]
    split <;> rfl
  | _ =>
    rw [hpc] at ht
    exact absurd ht Bool.false_ne_true

lemma ticketHalf_fire (ht : (c.loc t).inRelease = true) :
    ticketHalf ((machine n body).fire t fails c).shared.val = ticketHalf c.shared.val := by
  rw [Machine.fire_shared]
  change ticketHalf (step body t fails c.shared (c.loc t)).1.val = _
  cases hpc : c.loc t with
  | loadServing => rfl
  | storeServing tmp => exact ticketHalf_setServing _ _
  | addServing => exact ticketHalf_setServing _ _
  | _ =>
    rw [hpc] at ht
    exact absurd ht Bool.false_ne_true

end Invariant

/-- As many threads as there are tickets in a half of the word. -/
def Body.maxThreads : Body → ℕ
  | .x86 => 2 ^ 15
  | _ => 2 ^ 16

/-- In every run of at most as many threads as there are tickets: at most one thread is in
the critical section, the threads enter in the order of their draws, a release keeps the
ticket half and an acquire the serving half. -/
theorem ticketSpinlock_exclusion_order {n : ℕ} {body : Body} {tr : List (Event n)}
    {c : Config (Fin n) (Exclusive (Fin n) (BitVec 32)) Pc} (hn : n ≤ body.maxThreads)
    (h : (machine n body).History (obs body) (start n) tr c) :
    (∀ t u, (c.loc t).inCritical = true → (c.loc u).inCritical = true → t = u) ∧
    enters tr <+: draws tr ∧
    ∀ t fails,
      ((c.loc t).inRelease = true →
        ticketHalf ((machine n body).fire t fails c).shared.val = ticketHalf c.shared.val) ∧
      ((c.loc t).inAcquire = true →
        servingHalf ((machine n body).fire t fails c).shared.val = servingHalf c.shared.val) := by
  have hfit : body.stride * n ≤ 2 ^ 16 := by
    cases body <;> simp only [Body.maxThreads, Body.stride] at hn ⊢ <;> omega
  obtain ⟨q, served, hi⟩ := history_inv h hfit
  refine ⟨?_, ?_, ?_⟩
  · intro t u ht hu
    have hft := (hi.local_ok t).critical_head ht
    have hfu := (hi.local_ok u).critical_head hu
    exact Option.some.inj (hft.symm.trans hfu)
  · exact ⟨_, hi.order.symm⟩
  · exact fun t fails => ⟨ticketHalf_fire, hi.servingHalf_fire⟩

/-- `a` enters at once, `b` draws and waits; `a` releases and `b` enters. -/
def handover {n : ℕ} (a b : Fin n) : List (Fin n × Bool) :=
  (List.replicate 4 a ++ List.replicate 5 b ++ List.replicate 3 a ++ [b]).map fun t => (t, false)

theorem ticketSpinlock_exclusion_order_two :
    2 ≤ Body.llsc.maxThreads ∧
    enters ((machine 2 .llsc).trace (obs .llsc) (start 2) (handover 0 1)) = [0, 1] ∧
    enters ((machine 2 .llsc).trace (obs .llsc) (start 2) (handover 0 1)) <+:
      draws ((machine 2 .llsc).trace (obs .llsc) (start 2) (handover 0 1)) :=
  ⟨by decide, by decide +kernel, (ticketSpinlock_exclusion_order (by decide)
    ((machine 2 .llsc).history_run (obs .llsc) (start 2) (handover 0 1))).2.1⟩

end Lockhammer.TicketSpinlock
