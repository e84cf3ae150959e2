import Lockhammer.Interleaving.Count
import Lockhammer.Linux.TicketSpinlock

/-!
# The depth that the ticket spinlock returns

Each body computes the depth from the two halves of the word that its addition has found.
The aarch64 bodies return the difference of the halves, which is the number of tickets out;
the x86 body draws tickets in steps of two and divides the difference by four.
-/
namespace Lockhammer.TicketSpinlock
open Interleaving CLib

inductive TicketEvent (n : ℕ)
  | draw (t : Fin n)
  | release (t : Fin n)
  deriving DecidableEq

/-- The additions that draw a ticket and the stores that release one. -/
def ticketObs {n : ℕ} (t : Fin n) (fails : Bool) (lock : Exclusive (Fin n) (BitVec 32)) :
    Pc → Option (TicketEvent n)
  | .add => some (.draw t)
  | .stxr _ => if lock.reserved t = true ∧ fails = false then some (.draw t) else none
  | .storeServing _ | .addServing => some (.release t)
  | _ => none

def TicketEvent.isDraw {n : ℕ} : TicketEvent n → Bool
  | .draw _ => true
  | .release _ => false

/-- The tickets drawn and not yet released. -/
def ticketsOut {n : ℕ} (tr : List (TicketEvent n)) : ℕ :=
  tr.countP (·.isDraw) - tr.countP (!·.isDraw)

/-- In some run of `n` threads an acquire of `t` returns `depth`, `ahead` tickets being out
when it drew its own. -/
def Returns (body : Body) (n : ℕ) (t : Fin n) (ahead : ℕ) (depth : Word) : Prop :=
  ∃ tr c, (machine n body).History ticketObs (start n) tr c ∧ c.loc t = .critical depth ∧
    ∃ before after, tr = before ++ .draw t :: after ∧ .draw t ∉ after ∧ ticketsOut before = ahead

section Depth

/-- What the body makes of the difference of the halves. -/
def Body.scale (body : Body) (diff : ℕ) : ℕ :=
  match body with
  | .x86 => diff / 4
  | _ => diff

/-- The difference of the halves, as both aarch64 bodies and the x86 body compute it. -/
lemma halves_diff_toNat {w : ℕ} (v : BitVec 32) {x m : BitVec w} (hw : 32 ≤ w)
    (hx : x.toNat = v.toNat) (hm : m.toNat = 2 ^ 16 - 1) :
    (((x >>> 16) - (x &&& m)) &&& m).toNat =
      ((ticketHalf v).toNat + 2 ^ 16 - (servingHalf v).toNat) % 2 ^ 16 := by
  have hv := v.isLt
  have hle : 2 ^ 32 ≤ 2 ^ w := Nat.pow_le_pow_right (by decide) hw
  have hdvd : 2 ^ 16 ∣ 2 ^ w := Nat.pow_dvd_pow 2 (le_trans (by decide) hw)
  rw [and_mask_toNat hm, BitVec.toNat_sub, and_mask_toNat hm, BitVec.toNat_ushiftRight,
    Nat.shiftRight_eq_div_pow, hx, ticketHalf_toNat, servingHalf_toNat, Nat.mod_mod_of_dvd _ hdvd]
  obtain ⟨e, he⟩ := hdvd
  rw [he] at hle ⊢
  omega

lemma Body.depth_toNat (body : Body) (v : BitVec 32) : (body.depth v).toNat =
    body.scale (((ticketHalf v).toNat + 2 ^ 16 - (servingHalf v).toNat) % 2 ^ 16) := by
  have hzero : v ^^^ v.rotateRight 16 = 0 →
      ((ticketHalf v).toNat + 2 ^ 16 - (servingHalf v).toNat) % 2 ^ 16 = 0 := by
    intro h
    have heq := (servedAtOnce_iff .llsc v).mp (by simpa [Body.servedAtOnce] using h)
    rw [heq]
    omega
  have harm : (if v ^^^ v.rotateRight 16 = 0 then 0
      else (((v >>> 16) - (v &&& 0xFFFF)) &&& 0xFFFF).setWidth 64 : Word).toNat =
      ((ticketHalf v).toNat + 2 ^ 16 - (servingHalf v).toNat) % 2 ^ 16 := by
    split
    · next h =>
      rw [hzero h]
      rfl
    · rw [BitVec.toNat_setWidth, halves_diff_toNat v le_rfl rfl rfl]
      omega
  cases body with
  | x86 =>
    have hv := v.isLt
    have hx : (v.setWidth 64).toNat = v.toNat := by
      rw [BitVec.toNat_setWidth]
      omega
    simp only [Body.depth, Body.scale]
    rw [BitVec.toNat_ushiftRight, halves_diff_toNat v (by decide) hx rfl, Nat.shiftRight_eq_div_pow]
  | lse => exact harm
  | llsc => exact harm
/-- With `k` tickets out, the two halves of the word differ by `k` steps. -/
lemma Body.depth_of_tickets (body : Body) {v : BitVec 32} {served k : ℕ}
    (ht : ticketHalf v = body.ticket (served + k)) (hs : servingHalf v = body.ticket served)
    (hk : body.stride * k < 2 ^ 16) : (body.depth v).toNat = body.scale (body.stride * k) := by
  rw [body.depth_toNat, ht, hs, Body.ticket, Body.ticket, BitVec.toNat_ofNat, BitVec.toNat_ofNat,
    Nat.mul_add]
  congr 1
  omega

end Depth

section Holders
variable {n : ℕ} {body : Body} {tr₀ : List (Event n)}
  {c : Config (Fin n) (Exclusive (Fin n) (BitVec 32)) Pc} {q : List (Fin n)} {served : ℕ} {t : Fin n}
  {fails : Bool} {lock : Exclusive (Fin n) (BitVec 32)} {p : Pc}

/-- From the addition that draws the ticket to the store that releases it. -/
def Pc.holding : Pc → Bool
  | .idle | .add | .ldaxr | .stxr _ => false
  | _ => true

lemma LocalOk.mem_iff (h : LocalOk body lock q served t p) : t ∈ q ↔ p.holding = true := by
  have hhead (hq : q.head? = some t) : t ∈ q := List.mem_of_head? hq
  have hholds {tmp : BitVec 32} (hq : Holds body q served t tmp) : t ∈ q := by
    obtain ⟨i, hi, -⟩ := hq
    exact List.mem_of_getElem? hi
  cases p with
  | idle | add | ldaxr => exact iff_of_false h Bool.false_ne_true
  | stxr tmp => simpa [Pc.holding] using h.1
  | compare tmp => simpa [Pc.holding] using hholds h.1
  | poll tmp => simpa [Pc.holding] using hholds h
  | critical d | loadServing | addServing => simpa [Pc.holding] using hhead h
  | storeServing tmp => simpa [Pc.holding] using hhead h.1

/-- The line is as long as there are threads with a ticket. -/
lemma Inv.length_eq (h : Inv body tr₀ c q served) : q.length = c.count (·.holding = true) := by
  rw [← List.toFinset_card_of_nodup h.nodup, Config.count]
  congr 1
  ext t
  rw [List.mem_toFinset, (h.local_ok t).mem_iff, Finset.mem_filter]
  simp

/-- Draws and releases are the steps that begin and end the holding of a ticket. -/
lemma step_holding (body : Body) (t : Fin n) (fails : Bool) (lock : Exclusive (Fin n) (BitVec 32))
    (p : Pc) :
    (ticketObs t fails lock p).toList.countP (·.isDraw) + p.holding.toNat =
      (ticketObs t fails lock p).toList.countP (!·.isDraw) +
        (step body t fails lock p).2.holding.toNat := by
  cases p with
  | idle =>
    rw [step]
    split <;> rfl
  | stxr tmp =>
    by_cases hs : lock.reserved t = true ∧ fails = false
    · rw [ticketObs, if_pos hs, step, Exclusive.storeExclusive_success _ hs]
      rfl
    · rw [ticketObs, if_neg hs, step, Exclusive.storeExclusive_failure _ hs]
      rfl
  | compare tmp =>
    rw [step]
    split <;> rfl
  | poll tmp =>
    rw [step]
    dsimp only
    split <;> rfl
  | critical d =>
    rw [step]
    split <;> rfl
  | _ => rfl

end Holders

section Acquires
variable {n : ℕ} {body : Body} {tr : List (TicketEvent n)} {tr₀ : List (Event n)}
  {c : Config (Fin n) (Exclusive (Fin n) (BitVec 32)) Pc} {q : List (Fin n)} {served : ℕ} {t : Fin n}
  {fails : Bool} {lock : Exclusive (Fin n) (BitVec 32)} {p : Pc}

/-- What a thread between its draw and its release is going to return. -/
def Pc.depth (body : Body) : Pc → Option Word
  | .compare tmp | .poll tmp => some (body.depth tmp)
  | .critical depth => some depth
  | _ => none

/-- Every draw and release is counted, and each thread between its draw and its return has
the depth of the moment of the draw. -/
structure DepthInv (body : Body) (tr : List (TicketEvent n))
    (c : Config (Fin n) (Exclusive (Fin n) (BitVec 32)) Pc) : Prop where
  balance : tr.countP (·.isDraw) = tr.countP (!·.isDraw) + c.count (·.holding = true)
  depth : ∀ t d before after, tr = before ++ .draw t :: after → .draw t ∉ after →
    (c.loc t).depth body = some d → d.toNat = body.scale (body.stride * ticketsOut before)

lemma DepthInv.ticketsOut_eq (h : DepthInv body tr c) : ticketsOut tr = c.count (·.holding = true) := by
  rw [ticketsOut, h.balance]
  omega

/-- Only its draw gives a thread a new depth. -/
lemma step_depth {d : Word} (hno : ticketObs t fails lock p ≠ some (.draw t))
    (hd : (step body t fails lock p).2.depth body = some d) : p.depth body = some d := by
  cases p with
  | idle =>
    rw [step] at hd
    dsimp only at hd
    split at hd <;> simp [Pc.depth] at hd
  | stxr tmp =>
    by_cases hs : lock.reserved t = true ∧ fails = false
    · exact absurd (if_pos hs) hno
    · rw [step, Exclusive.storeExclusive_failure _ hs] at hd
      simp [Pc.depth] at hd
  | compare tmp =>
    rw [step] at hd
    dsimp only at hd
    split at hd <;> exact hd
  | poll tmp =>
    rw [step] at hd
    dsimp only at hd
    split at hd <;> exact hd
  | critical depth =>
    rw [step] at hd
    dsimp only at hd
    split at hd <;> simp [Pc.depth] at hd
  | add => exact absurd rfl hno
  | _ => simp [step, Pc.depth] at hd

/-- A draw takes its depth from the word that it finds. -/
lemma step_draw (hok : LocalOk body lock q served t p)
    (hd : ticketObs t fails lock p = some (.draw t)) :
    t ∉ q ∧ (step body t fails lock p).2 = .compare lock.val := by
  cases p with
  | add => exact ⟨hok, rfl⟩
  | stxr tmp =>
    by_cases hs : lock.reserved t = true ∧ fails = false
    · rw [step, Exclusive.storeExclusive_success _ hs, ← hok.2 hs.1]
      exact ⟨hok.1, rfl⟩
    · rw [ticketObs, if_neg hs] at hd
      cases hd
  | _ => cases hd

lemma obs_draw_eq {u : Fin n} (h : ticketObs t fails lock p = some (.draw u)) : u = t := by
  cases p with
  | add => simpa [ticketObs, eq_comm] using h
  | stxr tmp =>
    rw [ticketObs] at h
    split at h
    · simpa [eq_comm] using h
    · cases h
  | _ => simp [ticketObs] at h

/-- The depth that a draw takes along is made of the tickets out. -/
lemma Inv.depth_draw (h : Inv body tr₀ c q served) (hn : body.stride * n ≤ 2 ^ 16) (ht : t ∉ q) :
    (body.depth c.shared.val).toNat = body.scale (body.stride * q.length) := by
  refine body.depth_of_tickets h.ticket h.serving ?_
  have hnodup : (t :: q).Nodup := List.nodup_cons.mpr ⟨ht, h.nodup⟩
  have hlen : q.length < n := Nat.lt_of_succ_le (by simpa using hnodup.length_le_card)
  have hpos : 0 < body.stride := by cases body <;> decide
  exact lt_of_lt_of_le (Nat.mul_lt_mul_of_pos_left hlen hpos) hn

theorem DepthInv.fire (h : DepthInv body tr c) (hi : Inv body tr₀ c q served)
    (hn : body.stride * n ≤ 2 ^ 16) (t : Fin n) (fails : Bool) :
    DepthInv body (tr ++ (ticketObs t fails c.shared (c.loc t)).toList)
      ((machine n body).fire t fails c) := by
  refine ⟨?_, ?_⟩
  · have hcount := (machine n body).count_fire_toNat (i := t) (k := fails) (c := c) Pc.holding rfl
    have hstep := step_holding body t fails c.shared (c.loc t)
    have hbal := h.balance
    change _ = _ + Bool.toNat (step body t fails c.shared (c.loc t)).2.holding at hcount
    rw [List.countP_append, List.countP_append]
    omega
  · intro u d before after htr hlast hd
    rcases Machine.append_toList_eq htr with ⟨rfl, hdraw, rfl⟩ | ⟨after₀, rfl, rfl⟩
    · -- the draw is this step
      obtain rfl := obs_draw_eq hdraw
      obtain ⟨hu, hp⟩ := step_draw (hi.local_ok u) hdraw
      rw [Machine.fire_loc_self] at hd
      change (step body u fails c.shared (c.loc u)).2.depth body = some d at hd
      rw [hp] at hd
      obtain rfl := Option.some.inj hd
      rw [hi.depth_draw hn hu, hi.length_eq, h.ticketsOut_eq]
    · rw [List.mem_append, not_or] at hlast
      refine h.depth u d before after₀ rfl hlast.1 ?_
      by_cases hut : u = t
      · subst hut
        rw [Machine.fire_loc_self] at hd
        refine step_depth (fun hdraw => hlast.2 ?_) hd
        rw [hdraw]
        exact List.mem_singleton_self _
      · rwa [Machine.fire_loc_of_ne _ hut] at hd

/-- The invariant along every run, together with that of the line. -/
theorem history_depthInv (h : (machine n body).History ticketObs (start n) tr c)
    (hn : body.stride * n ≤ 2 ^ 16) : DepthInv body tr c := by
  suffices hall : (∃ tr₀ q served, Inv body tr₀ c q served) ∧ DepthInv body tr c from hall.2
  apply h.invariant (machine n body)
    (P := fun tr c => (∃ tr₀ q served, Inv body tr₀ c q served) ∧ DepthInv body tr c)
  · refine ⟨⟨[], [], 0, start_inv n body⟩, ?_, ?_⟩
    · have hzero : (start n).count (·.holding = true) = 0 := by
        rw [Config.count_eq_zero_iff]
        exact fun t => Bool.false_ne_true
      rw [hzero]
      rfl
    · intro t d before after htr
      simp at htr
  · rintro tr c t fails ⟨⟨tr₀, q, served, hi⟩, hd⟩
    obtain ⟨q', served', hi'⟩ := step_inv hi hn t fails
    exact ⟨⟨_, q', served', hi'⟩, hd.fire hi hn t fails⟩

end Acquires

section Returned
variable {body : Body} {n : ℕ} {t : Fin n} {ahead : ℕ} {depth : Word}

lemma Body.stride_mul_le (hn : n ≤ body.maxThreads) : body.stride * n ≤ 2 ^ 16 := by
  cases body <;> simp only [Body.maxThreads, Body.stride] at hn ⊢ <;> omega

/-- The x86 body returns half of the number of tickets out, the aarch64 bodies all of it. -/
theorem Returns.depth_toNat (h : Returns body n t ahead depth) (hn : n ≤ body.maxThreads) :
    depth.toNat = if body = .x86 then ahead / 2 else ahead := by
  obtain ⟨tr, c, hist, hcrit, before, after, htr, hlast, rfl⟩ := h
  rw [(history_depthInv hist (Body.stride_mul_le hn)).depth t depth before after htr hlast (by rw [hcrit]; rfl)]
  cases body with
  | x86 =>
    simp only [Body.scale, Body.stride, if_true]
    omega
  | lse => simp [Body.scale, Body.stride]
  | llsc => simp [Body.scale, Body.stride]

/-- An acquire returns the number of tickets out at its draw exactly in the aarch64 bodies
and where none was out. Two bodies return the same depth from corresponding states exactly
when both or neither are the x86 body, or no ticket was out. -/
theorem depth_counts_iff (hn : n ≤ body.maxThreads) (h : Returns body n t ahead depth) :
    (depth.toNat = ahead ↔ body ≠ .x86 ∨ ahead = 0) ∧
      ∀ (body' : Body) (n' : ℕ) (t' : Fin n') (depth' : Word), n' ≤ body'.maxThreads →
        Returns body' n' t' ahead depth' →
        (depth = depth' ↔ (body = .x86 ↔ body' = .x86) ∨ ahead = 0) := by
  have hdepth := h.depth_toNat hn
  refine ⟨?_, ?_⟩
  · by_cases hb : body = .x86
    · rw [if_pos hb] at hdepth
      simp only [hb, ne_eq, not_true_eq_false, false_or]
      omega
    · rw [if_neg hb] at hdepth
      simp [hb, hdepth]
  · intro body' n' t' depth' hn' h'
    have hdepth' := h'.depth_toNat hn'
    rw [← BitVec.toNat_inj, hdepth, hdepth']
    by_cases hb : body = .x86
    · by_cases hb' : body' = .x86
      · rw [if_pos hb, if_pos hb']
        exact iff_of_true rfl (Or.inl (iff_of_true hb hb'))
      · rw [if_pos hb, if_neg hb']
        simp only [hb, hb', iff_false, not_true_eq_false, false_or]
        omega
    · by_cases hb' : body' = .x86
      · rw [if_neg hb, if_pos hb']
        simp only [hb, hb', iff_true, false_or]
        omega
      · rw [if_neg hb, if_neg hb']
        exact iff_of_true rfl (Or.inl (iff_of_false hb hb'))

/-- What thread 1 gets that draws its ticket while thread 0 holds the lock. -/
lemma returns_handover {d : Word}
    (hd : ((machine 2 body).run (start 2) (handover 0 1)).loc 1 = .critical d)
    (htr : (machine 2 body).trace ticketObs (start 2) (handover 0 1) = [.draw 0, .draw 1, .release 0]) :
    Returns body 2 1 1 d := by
  refine ⟨_, _, (machine 2 body).history_run ticketObs (start 2) (handover 0 1), hd, [.draw 0], [.release 0], ?_⟩
  rw [htr]
  decide

theorem depth_counts_iff_handover :
    Returns .llsc 2 1 1 1 ∧ 2 ≤ Body.llsc.maxThreads ∧ BitVec.toNat (1 : Word) = 1 := by
  have h : Returns .llsc 2 1 1 1 := returns_handover rfl rfl
  exact ⟨h, by decide, (depth_counts_iff (by decide) h).1.mpr (Or.inl (by decide))⟩

theorem x86_depth_not_ahead :
    ¬ ∀ (body : Body) (n : ℕ) (t : Fin n) (ahead : ℕ) (depth : Word), n ≤ body.maxThreads →
      Returns body n t ahead depth → depth.toNat = ahead := by
  intro h
  have hdepth := h .x86 2 1 1 0 (by decide) (returns_handover rfl rfl)
  exact absurd hdepth (by decide)

end Returned
end Lockhammer.TicketSpinlock
