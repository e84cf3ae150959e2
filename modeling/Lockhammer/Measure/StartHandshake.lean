import Lockhammer.Interleaving.Count
import Lockhammer.Atomics.Primitives

/-!
# The start handshake of hmr

Every worker adds 2 to `p_sync_lock` and pins itself. The subordinates then report on
`p_ready_lock`; the marshal (thread 0) waits for all reports and sets the low bit of
`p_sync_lock`, the value every subordinate polls for. Both polls ask for equality.
-/
namespace Lockhammer.StartHandshake
open Interleaving

/-- The two words, as `run_one_experiment` clears them before the threads are launched. -/
structure Locks where
  syncLock : Word
  readyLock : Word
  deriving DecidableEq, Repr

/-- Where a worker is in `hmr`. The last place is the call of `calibrate_timer` and what is
behind it: the barriers there have words of their own, and these two are left alone. -/
inductive Pc
  | entry
  | setCpuAffinity
  | waitReady
  | setLsb
  | checkSync (syncLockValue : Word)
  | unexpected
  | addReady
  | waitSync
  | calibrateTimer
  deriving DecidableEq, Repr

/-- One atomic step of `hmr` for worker number `thread`; `ddebug` selects the build with
the check of the marshal's value. A call of `set_cpu_affinity` that fails ends the whole
process, so a run is made of calls that return. -/
def step (ddebug : Bool) (numThreads : Word) (thread : ℕ) (l : Locks) : Pc → Locks × Pc
  | .entry => ({ l with syncLock := (fetchadd64Acquire l.syncLock 2).2 }, .setCpuAffinity)
  | .setCpuAffinity => (l, if thread = 0 then .waitReady else .addReady)
  | .waitReady => (l, if l.readyLock = numThreads - 1 then .setLsb else .waitReady)
  | .setLsb =>
    let old := fetchadd64Release l.syncLock 1
    ({ l with syncLock := old.2 }, .checkSync old.1)
  | .checkSync value =>
    (l, if ddebug = true ∧ value ≠ numThreads <<< 1 then .unexpected else .calibrateTimer)
  | .unexpected => (l, .unexpected)
  | .addReady => ({ l with readyLock := (fetchadd64Release l.readyLock 1).2 }, .waitSync)
  | .waitSync => (l, if l.syncLock = numThreads * 2 ||| 1 then .calibrateTimer else .waitSync)
  | .calibrateTimer => (l, .calibrateTimer)

def machine (ddebug : Bool) (n : ℕ) : Machine (Fin n) Unit Locks Pc where
  step t _ := step ddebug (BitVec.ofNat 64 n) t

def start (n : ℕ) : Config (Fin n) Locks Pc := ⟨⟨0, 0⟩, fun _ => .entry⟩

/-- `set_cpu_affinity` has returned. -/
def Pc.pinned : Pc → Bool
  | .entry | .setCpuAffinity => false
  | _ => true

/-- The worker has reached its `calibrate_timer`. -/
def Pc.calibrates : Pc → Bool
  | .calibrateTimer => true
  | _ => false

/-- Past the fetchadd that sets the low bit, or past the poll for it. -/
def Pc.passed : Pc → Bool
  | .entry | .setCpuAffinity | .waitReady | .setLsb | .addReady | .waitSync => false
  | _ => true

/-- Polling for a value the word does not have. -/
def Pc.FailingPoll (numThreads : Word) (l : Locks) : Pc → Prop
  | .waitReady => l.readyLock ≠ numThreads - 1
  | .waitSync => l.syncLock ≠ numThreads * 2 ||| 1
  | _ => False

/-! The invariant. `b` tells whether the marshal has set the low bit. -/

/-- Counted in `p_sync_lock`. -/
def Pc.arrived : Pc → Bool
  | .entry => false
  | _ => true

/-- Counted in `p_ready_lock`, or the marshal past its release. -/
def Pc.reported : Pc → Bool
  | .entry | .setCpuAffinity | .waitReady | .setLsb | .addReady => false
  | _ => true

/-- What a worker's place says about its role and about the low bit. -/
def Placed (n : ℕ) (b : Bool) (thread : ℕ) : Pc → Prop
  | .entry | .setCpuAffinity => thread = 0 → b = false
  | .waitReady | .setLsb => thread = 0 ∧ b = false
  | .checkSync value => thread = 0 ∧ b = true ∧ value = BitVec.ofNat 64 (2 * n)
  | .unexpected => False
  | .addReady | .waitSync => thread ≠ 0
  | .calibrateTimer => b = true

structure Inv {n : ℕ} (b : Bool) (c : Config (Fin n) Locks Pc) : Prop where
  placed : ∀ t : Fin n, Placed n b t (c.loc t)
  sync : c.shared.syncLock = BitVec.ofNat 64 (2 * c.count (·.arrived = true) + b.toNat)
  ready : ∃ m, c.shared.readyLock = BitVec.ofNat 64 m ∧ m + b.toNat = c.count (·.reported = true)
  full : (∃ t, c.loc t = .setLsb) ∨ b = true → ∀ t : Fin n, t.val ≠ 0 → (c.loc t).reported = true

lemma start_inv (n : ℕ) : Inv false (start n) := by
  have ha : (start n).count (·.arrived = true) = 0 := by
    rw [Config.count_eq_zero_iff]
    simp [start, Pc.arrived]
  have hr : (start n).count (·.reported = true) = 0 := by
    rw [Config.count_eq_zero_iff]
    simp [start, Pc.reported]
  refine ⟨fun t _ => rfl, ?_, ⟨0, rfl, ?_⟩, ?_⟩
  · rw [ha]
    rfl
  · rw [hr]
    rfl
  · simp [start]

lemma ofNat_add_two (m : ℕ) : BitVec.ofNat 64 m + 2 = BitVec.ofNat 64 (m + 2) :=
  (BitVec.ofNat_add m 2).symm

lemma ofNat_add_one (m : ℕ) : BitVec.ofNat 64 m + 1 = BitVec.ofNat 64 (m + 1) :=
  (BitVec.ofNat_add m 1).symm

/-- What the subordinates poll for. -/
lemma mul_two_or_one (n : ℕ) : BitVec.ofNat 64 n * 2 ||| 1 = BitVec.ofNat 64 (2 * n + 1) := by
  apply BitVec.eq_of_toNat_eq
  have h2 : BitVec.toNat (2 : Word) = 2 := rfl
  have h1 : BitVec.toNat (1 : Word) = 1 := rfl
  rw [BitVec.toNat_or, BitVec.toNat_mul, BitVec.toNat_ofNat, BitVec.toNat_ofNat, h1, h2]
  have heven : n % 2^64 * 2 % 2^64 = 2^1 * (n % 2^63) := by omega
  rw [heven, ← Nat.two_pow_add_eq_or_of_lt (by omega)]
  omega

variable {ddebug b : Bool} {n : ℕ} {c : Config (Fin n) Locks Pc}

/-- What has to be shown for one step from `(c.shared, c.loc t)` to `(l, p)`. -/
lemma Inv.fire (h : Inv b c) {b' : Bool} {t : Fin n} {l : Locks} {p : Pc}
    (hs : (machine ddebug n).step t () c.shared (c.loc t) = (l, p))
    (hp : Placed n b' t p) (hother : ∀ u, u ≠ t → Placed n b' u (c.loc u))
    (hsync : ∀ a, a + (c.loc t).arrived.toNat = c.count (·.arrived = true) + p.arrived.toNat →
      l.syncLock = BitVec.ofNat 64 (2 * a + b'.toNat))
    (hready : ∀ r, r + (c.loc t).reported.toNat = c.count (·.reported = true) + p.reported.toNat →
      ∃ m, l.readyLock = BitVec.ofNat 64 m ∧ m + b'.toNat = r)
    (hmono : t.val ≠ 0 → (c.loc t).reported = true → p.reported = true)
    (hfull : p = .setLsb ∨ b' = true →
      ((∃ u, c.loc u = .setLsb) ∨ b = true) ∨ ∀ u : Fin n, u.val ≠ 0 → (c.loc u).reported = true) :
    Inv b' ((machine ddebug n).fire t () c) := by
  have hloc := Machine.fire_loc_eq (machine ddebug n) (k := ()) hs
  have hca := (machine ddebug n).count_fire_toNat Pc.arrived hs
  have hcr := (machine ddebug n).count_fire_toNat Pc.reported hs
  refine ⟨fun u => ?_, ?_, ?_, ?_⟩
  · rw [hloc]
    split
    · next hu => rw [hu]; exact hp
    · next hu => exact hother u hu
  · rw [Machine.fire_shared_eq _ hs]
    exact hsync _ hca
  · rw [Machine.fire_shared_eq _ hs]
    exact hready _ hcr
  · intro hb
    have hall : ∀ u : Fin n, u.val ≠ 0 → (c.loc u).reported = true := by
      have hold : ((∃ u, c.loc u = .setLsb) ∨ b = true) ∨
          ∀ u : Fin n, u.val ≠ 0 → (c.loc u).reported = true := by
        rcases hb with ⟨v, hv⟩ | hb
        · rw [hloc] at hv
          split at hv
          · exact hfull (Or.inl hv)
          · exact Or.inl (Or.inl ⟨v, hv⟩)
        · exact hfull (Or.inr hb)
      rcases hold with hold | hall
      · exact h.full hold
      · exact hall
    intro u hu
    rw [hloc]
    split
    · next he => exact hmono (he ▸ hu) (he ▸ hall u hu)
    · exact hall u hu

/-- A step that adds to neither word and does not move the marshal to its release. -/
lemma Inv.quiet (h : Inv b c) {t : Fin n} {p : Pc}
    (hs : (machine ddebug n).step t () c.shared (c.loc t) = (c.shared, p))
    (hp : Placed n b t p) (ha : p.arrived = (c.loc t).arrived)
    (hr : p.reported = (c.loc t).reported) (hl : p ≠ .setLsb) :
    Inv b ((machine ddebug n).fire t () c) := by
  refine h.fire hs hp (fun u _ => h.placed u) ?_ ?_ ?_ ?_
  · intro a hcount
    rw [ha] at hcount
    rw [h.sync, Nat.add_right_cancel hcount]
  · intro r hcount
    rw [hr] at hcount
    rw [Nat.add_right_cancel hcount]
    exact h.ready
  · intro _ hrep
    rw [hr, hrep]
  · rintro (he | hb)
    · exact absurd he hl
    · exact Or.inl (Or.inr hb)

/-- A newcomer is counted in `p_sync_lock`. -/
lemma Inv.entry (h : Inv b c) {t : Fin n} (hpc : c.loc t = .entry) :
    Inv b ((machine ddebug n).fire t () c) := by
  have hs : (machine ddebug n).step t () c.shared (c.loc t) =
      (⟨c.shared.syncLock + 2, c.shared.readyLock⟩, .setCpuAffinity) := by
    rw [hpc]
    rfl
  have hplace := h.placed t
  rw [hpc] at hplace
  refine h.fire hs hplace (fun u _ => h.placed u) ?_ ?_ ?_ ?_
  · intro a hcount
    rw [hpc] at hcount
    have ha : a = c.count (·.arrived = true) + 1 := hcount
    change c.shared.syncLock + 2 = _
    rw [h.sync, ofNat_add_two, ha]
    congr 1
    omega
  · intro r hcount
    rw [hpc] at hcount
    have hr : r = c.count (·.reported = true) := hcount
    rw [hr]
    exact h.ready
  · intro _ hrep
    rw [hpc] at hrep
    cases hrep
  · rintro (he | hb)
    · cases he
    · exact Or.inl (Or.inr hb)

/-- A subordinate is counted in `p_ready_lock`. -/
lemma Inv.report (h : Inv b c) {t : Fin n} (hpc : c.loc t = .addReady) :
    Inv b ((machine ddebug n).fire t () c) := by
  have hs : (machine ddebug n).step t () c.shared (c.loc t) =
      (⟨c.shared.syncLock, c.shared.readyLock + 1⟩, .waitSync) := by
    rw [hpc]
    rfl
  have hplace := h.placed t
  rw [hpc] at hplace
  refine h.fire hs hplace (fun u _ => h.placed u) ?_ ?_ ?_ ?_
  · intro a hcount
    rw [hpc] at hcount
    rw [h.sync, Nat.add_right_cancel hcount]
  · intro r hcount
    rw [hpc] at hcount
    have hr : r = c.count (·.reported = true) + 1 := hcount
    obtain ⟨m, hm, hrep⟩ := h.ready
    refine ⟨m + 1, ?_, by omega⟩
    rw [hm, ofNat_add_one]
  · intro _ _
    rfl
  · rintro (he | hb)
    · cases he
    · exact Or.inl (Or.inr hb)

/-- With `n - 1` reports and a marshal that has not released, only the marshal is missing. -/
lemma Inv.all_reported (h : Inv false c) (h1 : 1 ≤ n) (hn : n < 2^64) {t : Fin n} (ht : t.val = 0)
    (hpc : (c.loc t).reported = false) (hw : c.shared.readyLock = BitVec.ofNat 64 n - 1) :
    ∀ u : Fin n, u.val ≠ 0 → (c.loc u).reported = true := by
  obtain ⟨m, hm, hcount⟩ := h.ready
  have hle := c.count_le (·.reported = true)
  rw [Fintype.card_fin] at hle
  have hmn : m = n - 1 := by
    have he := congrArg BitVec.toNat (hm.symm.trans hw)
    have h1' : BitVec.toNat (1 : Word) = 1 := rfl
    rw [BitVec.toNat_sub, BitVec.toNat_ofNat, BitVec.toNat_ofNat, h1'] at he
    simp only [Bool.toNat_false] at hcount
    omega
  intro u hu
  by_contra hrep
  -- two threads are missing from the count
  have hmiss : ({t, u} : Finset (Fin n)) ⊆
      Finset.univ \ Finset.univ.filter fun v => (c.loc v).reported = true := by
    intro v hv
    rw [Finset.mem_insert, Finset.mem_singleton] at hv
    rcases hv with rfl | rfl
    · simp [hpc]
    · simpa using hrep
  have htu : t ≠ u := fun he => hu (he ▸ ht)
  have hcard := Finset.card_le_card hmiss
  rw [Finset.card_pair htu, Finset.card_sdiff_of_subset (Finset.filter_subset _ _), Finset.card_univ,
    Fintype.card_fin] at hcard
  simp only [Config.count, Bool.toNat_false] at hcount
  omega

/-- The marshal's poll ends when everybody else has reported. -/
lemma Inv.allReady (h : Inv b c) (h1 : 1 ≤ n) (hn : n < 2^64) {t : Fin n}
    (hpc : c.loc t = .waitReady) (hw : c.shared.readyLock = BitVec.ofNat 64 n - 1) :
    Inv b ((machine ddebug n).fire t () c) := by
  have hs : (machine ddebug n).step t () c.shared (c.loc t) = (c.shared, .setLsb) := by
    rw [hpc]
    simp [machine, step, hw]
  have hplace := h.placed t
  rw [hpc] at hplace
  obtain ⟨ht, rfl⟩ := hplace
  have hrep : (c.loc t).reported = false := by rw [hpc]; rfl
  refine h.fire hs ⟨ht, rfl⟩ (fun u _ => h.placed u) ?_ ?_ ?_ ?_
  · intro a hcount
    rw [hpc] at hcount
    rw [h.sync, Nat.add_right_cancel hcount]
  · intro r hcount
    rw [hpc] at hcount
    rw [Nat.add_right_cancel hcount]
    exact h.ready
  · exact fun hne => absurd ht hne
  · exact fun _ => Or.inr (h.all_reported h1 hn ht hrep hw)

/-- Whoever has reported has arrived. -/
lemma Pc.arrived_of_reported {p : Pc} (h : p.reported = true) : p.arrived = true := by
  cases p <;> first | rfl | cases h

/-- Before the release all `n` threads are in the count of `p_sync_lock`. -/
lemma Inv.sync_of_full (h : Inv b c) (hfull : (∃ t, c.loc t = .setLsb) ∨ b = true)
    {t : Fin n} (ht : t.val = 0) (hpc : (c.loc t).arrived = true) :
    c.shared.syncLock = BitVec.ofNat 64 (2 * n + b.toNat) := by
  have hall : c.count (·.arrived = true) = Fintype.card (Fin n) := by
    rw [Config.count_eq_card_iff]
    intro u
    by_cases hu : u.val = 0
    · rw [Fin.ext (hu.trans ht.symm)]
      exact hpc
    · exact Pc.arrived_of_reported (h.full hfull u hu)
  rw [h.sync, hall, Fintype.card_fin]

/-- The marshal sets the low bit. -/
lemma Inv.release (h : Inv b c) {t : Fin n} (hpc : c.loc t = .setLsb) :
    Inv true ((machine ddebug n).fire t () c) := by
  have hplace := h.placed t
  rw [hpc] at hplace
  obtain ⟨ht, rfl⟩ := hplace
  have hword := h.sync_of_full (Or.inl ⟨t, hpc⟩) ht (by rw [hpc]; rfl)
  have hs : (machine ddebug n).step t () c.shared (c.loc t) =
      (⟨c.shared.syncLock + 1, c.shared.readyLock⟩, .checkSync c.shared.syncLock) := by
    rw [hpc]
    rfl
  refine h.fire hs ⟨ht, rfl, hword⟩ ?_ ?_ ?_ ?_ ?_
  · intro u hu
    have hne : u.val ≠ 0 := fun he => hu (Fin.ext (he.trans ht.symm))
    have hrep := h.full (Or.inl ⟨t, hpc⟩) u hne
    have hp := h.placed u
    revert hp hrep
    cases c.loc u <;> simp [Placed, Pc.reported, hne]
  · intro a hcount
    rw [hpc] at hcount
    rw [h.sync, ofNat_add_one, Nat.add_right_cancel hcount]
    rfl
  · intro r hcount
    rw [hpc] at hcount
    have hr : r = c.count (·.reported = true) + 1 := hcount
    obtain ⟨m, hm, hrep⟩ := h.ready
    refine ⟨m, hm, ?_⟩
    simp only [Bool.toNat_false, Bool.toNat_true] at hrep ⊢
    omega
  · exact fun hne => absurd ht hne
  · exact fun _ => Or.inl (Or.inl ⟨t, hpc⟩)

/-- A subordinate sees the value it polls for only after the release: before it the word
is even. -/
lemma Inv.released_of_poll (h : Inv b c) (hw : c.shared.syncLock = BitVec.ofNat 64 n * 2 ||| 1) :
    b = true := by
  rw [h.sync, mul_two_or_one] at hw
  have he := congrArg BitVec.toNat hw
  rw [BitVec.toNat_ofNat, BitVec.toNat_ofNat] at he
  cases b with
  | true => rfl
  | false =>
    rw [Bool.toNat_false] at he
    omega

theorem step_inv (h1 : 1 ≤ n) (hn : n < 2^64) (h : Inv b c) (t : Fin n) :
    ∃ b', Inv b' ((machine ddebug n).fire t () c) := by
  have hplace := h.placed t
  cases hpc : c.loc t with
  | entry => exact ⟨b, h.entry hpc⟩
  | setCpuAffinity =>
    rw [hpc] at hplace
    by_cases ht : t.val = 0
    · exact ⟨b, h.quiet (p := .waitReady) (by rw [hpc]; simp [machine, step, ht])
        ⟨ht, hplace ht⟩ (by rw [hpc]; rfl) (by rw [hpc]; rfl) (by simp)⟩
    · exact ⟨b, h.quiet (p := .addReady) (by rw [hpc]; simp [machine, step, ht])
        ht (by rw [hpc]; rfl) (by rw [hpc]; rfl) (by simp)⟩
  | waitReady =>
    by_cases hw : c.shared.readyLock = BitVec.ofNat 64 n - 1
    · exact ⟨b, h.allReady h1 hn hpc hw⟩
    · rw [hpc] at hplace
      exact ⟨b, h.quiet (p := .waitReady) (by rw [hpc]; simp only [machine, step, if_neg hw])
        hplace (by rw [hpc]) (by rw [hpc]) (by simp)⟩
  | setLsb => exact ⟨true, h.release hpc⟩
  | checkSync value =>
    rw [hpc] at hplace
    obtain ⟨-, rfl, rfl⟩ := hplace
    have hshift : BitVec.ofNat 64 (2 * n) = BitVec.ofNat 64 n <<< 1 := by
      rw [BitVec.shiftLeft_eq_mul_twoPow, Nat.mul_comm, BitVec.ofNat_mul]
      rfl
    exact ⟨true, h.quiet (p := .calibrateTimer) (by rw [hpc]; simp [machine, step, hshift])
      rfl (by rw [hpc]; rfl) (by rw [hpc]; rfl) (by simp)⟩
  | unexpected =>
    rw [hpc] at hplace
    exact hplace.elim
  | addReady => exact ⟨b, h.report hpc⟩
  | waitSync =>
    by_cases hw : c.shared.syncLock = BitVec.ofNat 64 n * 2 ||| 1
    · exact ⟨b, h.quiet (p := .calibrateTimer) (by rw [hpc]; simp only [machine, step, if_pos hw])
        (h.released_of_poll hw) (by rw [hpc]; rfl) (by rw [hpc]; rfl) (by simp)⟩
    · rw [hpc] at hplace
      exact ⟨b, h.quiet (p := .waitSync) (by rw [hpc]; simp only [machine, step, if_neg hw])
        hplace (by rw [hpc]) (by rw [hpc]) (by simp)⟩
  | calibrateTimer =>
    rw [hpc] at hplace
    exact ⟨b, h.quiet (p := .calibrateTimer) (by rw [hpc]; rfl) hplace (by rw [hpc]) (by rw [hpc]) (by simp)⟩

theorem reachable_inv (h1 : 1 ≤ n) (hn : n < 2^64)
    (h : (machine ddebug n).Reachable (start n) c) : ∃ b, Inv b c := by
  refine h.invariant (machine ddebug n) (P := fun c => ∃ b, Inv b c) ⟨false, start_inv n⟩ ?_
  rintro c t ⟨⟩ ⟨b, hi⟩
  exact step_inv h1 hn hi t

/-- Once the low bit is set every thread has arrived, reported and been pinned. -/
lemma Inv.pinned (h : Inv true c) (u : Fin n) : (c.loc u).pinned = true := by
  have hp := h.placed u
  by_cases hu : u.val = 0
  · revert hp
    cases c.loc u <;> simp [Placed, Pc.pinned, hu]
  · have hr := h.full (Or.inr rfl) u hu
    revert hr
    cases c.loc u <;> simp [Pc.reported, Pc.pinned]

/-- A thread past the handshake is there because of the release. -/
lemma Inv.released_of_passed (h : Inv b c) {t : Fin n} (ht : (c.loc t).passed = true) : b = true := by
  have hp := h.placed t
  revert hp ht
  cases c.loc t <;> simp +contextual [Placed, Pc.passed]

/-- The reports of all subordinates make the marshal's poll true. -/
lemma Inv.ready_of_all_reported (h : Inv false c) (h1 : 1 ≤ n) {t : Fin n} (ht : t.val = 0)
    (hpc : (c.loc t).reported = false) (hall : ∀ u : Fin n, u.val ≠ 0 → (c.loc u).reported = true) :
    c.shared.readyLock = BitVec.ofNat 64 n - 1 := by
  obtain ⟨m, hm, hcount⟩ := h.ready
  have hset : (Finset.univ.filter fun u => (c.loc u).reported = true) = Finset.univ.erase t := by
    ext u
    simp only [Finset.mem_filter, Finset.mem_univ, true_and, Finset.mem_erase, and_true]
    constructor
    · rintro hu rfl
      rw [hpc] at hu
      cases hu
    · exact fun hu => hall u fun he => hu (Fin.ext (he.trans ht.symm))
  have hmn : m + 1 = n := by
    rw [Config.count, hset, Finset.card_erase_of_mem (Finset.mem_univ t), Finset.card_univ,
      Fintype.card_fin, Bool.toNat_false] at hcount
    omega
  rw [hm, ← hmn, ← ofNat_add_one, BitVec.add_sub_cancel]

/-- While the low bit is not set, the marshal or a subordinate before its report can step. -/
lemma Inv.not_stuck (h : Inv false c) (h1 : 1 ≤ n) :
    ∃ t, (c.loc t).passed = false ∧ ¬ (c.loc t).FailingPoll (BitVec.ofNat 64 n) c.shared := by
  have hnot (u : Fin n) : (c.loc u).passed = false := by
    by_contra hu
    simpa using h.released_of_passed (Bool.not_eq_false _ ▸ hu)
  by_cases hall : ∀ u : Fin n, u.val ≠ 0 → (c.loc u).reported = true
  · -- everybody else has reported: the marshal goes on
    refine ⟨⟨0, h1⟩, hnot _, ?_⟩
    have hp := h.placed ⟨0, h1⟩
    have hz : (c.loc ⟨0, h1⟩).reported = false := by
      have hz := hnot ⟨0, h1⟩
      revert hp hz
      cases c.loc ⟨0, h1⟩ <;> simp [Placed, Pc.reported, Pc.passed]
    have hready := h.ready_of_all_reported h1 rfl hz hall
    revert hp
    cases c.loc ⟨0, h1⟩ <;> simp [Placed, Pc.FailingPoll]
    exact hready
  · push Not at hall
    obtain ⟨u, hu, hr⟩ := hall
    refine ⟨u, hnot u, ?_⟩
    have hp := h.placed u
    revert hp hr
    cases c.loc u <;> simp [Placed, Pc.reported, Pc.FailingPoll, hu]

/-- The start handshake. In every run of `n` workers: nobody calibrates before all are
pinned; the marshal's fetchadd returns `2 n`, so the DDEBUG check never fires; from then
on `p_sync_lock` is `2 n + 1` and every subordinate's poll is true; and as long as
somebody has not passed the handshake, somebody who has not passed it is not at a
failing poll. -/
theorem hmr_startHandshake (h1 : 1 ≤ n) (hn : n < 2^64)
    (h : (machine ddebug n).Reachable (start n) c) :
    (∀ t, (c.loc t).calibrates = true → ∀ u, (c.loc u).pinned = true) ∧
    (∀ t, c.loc t = .setLsb →
      (fetchadd64Release c.shared.syncLock 1).1 = BitVec.ofNat 64 (2 * n)) ∧
    (∀ t, c.loc t ≠ .unexpected) ∧
    (∀ t : Fin n, t.val = 0 → (c.loc t).passed = true →
      c.shared.syncLock = BitVec.ofNat 64 (2 * n + 1) ∧
      ∀ u, ¬ (c.loc u).FailingPoll (BitVec.ofNat 64 n) c.shared) ∧
    ((∃ t, (c.loc t).passed = false) →
      ∃ t, (c.loc t).passed = false ∧ ¬ (c.loc t).FailingPoll (BitVec.ofNat 64 n) c.shared) := by
  obtain ⟨b, hi⟩ := reachable_inv h1 hn h
  have hword : b = true → c.shared.syncLock = BitVec.ofNat 64 (2 * n + 1) := by
    rintro rfl
    have hp := hi.pinned ⟨0, h1⟩
    refine hi.sync_of_full (Or.inr rfl) (t := ⟨0, h1⟩) rfl ?_
    revert hp
    cases c.loc ⟨0, h1⟩ <;> simp [Pc.pinned, Pc.arrived]
  have hpoll : b = true → ∀ u, ¬ (c.loc u).FailingPoll (BitVec.ofNat 64 n) c.shared := by
    rintro rfl u
    have hp := hi.placed u
    have hw := hword rfl
    rw [← mul_two_or_one] at hw
    revert hp
    cases c.loc u <;> simp [Placed, Pc.FailingPoll]
    exact fun _ => hw
  refine ⟨?_, ?_, ?_, ?_, ?_⟩
  · intro t ht u
    have hb : b = true := by
      refine hi.released_of_passed (t := t) ?_
      revert ht
      cases c.loc t <;> simp [Pc.calibrates, Pc.passed]
    subst hb
    exact hi.pinned u
  · intro t ht
    have hp := hi.placed t
    rw [ht] at hp
    obtain ⟨ht0, rfl⟩ := hp
    exact hi.sync_of_full (Or.inl ⟨t, ht⟩) ht0 (by rw [ht]; rfl)
  · intro t ht
    have hp := hi.placed t
    rw [ht] at hp
    exact hp
  · intro t _ ht
    have hb := hi.released_of_passed ht
    exact ⟨hword hb, hpoll hb⟩
  · rintro ⟨t, ht⟩
    cases b with
    | true => exact ⟨t, ht, hpoll rfl t⟩
    | false => exact hi.not_stuck h1

/-- Two workers through the handshake, the subordinate first. -/
def twoWorkers (marshal subordinate : Fin n) : List (Fin n × Unit) :=
  [subordinate, subordinate, subordinate, marshal, marshal, marshal, marshal].map fun t => (t, ())

theorem hmr_startHandshake_two :
    ((machine true 2).run (start 2) (twoWorkers 0 1)).loc 0 = .checkSync 4 ∧
    ((machine true 2).run (start 2) (twoWorkers 0 1)).shared.syncLock = 5 := by
  have hpc : ((machine true 2).run (start 2) (twoWorkers 0 1)).loc 0 = .checkSync 4 := by decide
  refine ⟨hpc, ?_⟩
  exact ((hmr_startHandshake (by decide) (by decide)
    ((machine true 2).reachable_run (start 2) (twoWorkers 0 1))).2.2.2.1 0 rfl (by rw [hpc]; rfl)).1

end Lockhammer.StartHandshake
