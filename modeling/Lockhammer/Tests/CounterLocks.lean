import Lockhammer.Interleaving.Count
import Lockhammer.Tests.CasLockref

/-!
# The counter locks of lockhammer/tests

Three locks that admit every thread and only count the holders: cas_lockref.h in the upper
half of the word, cas_rw_lock.h downwards from an initial value, incdec_refcount.h from
zero. The compare-and-swap is the documented one (`casContract`); a load and the
compare-and-swap that uses its value are separate steps.
-/
namespace Lockhammer.CounterLocks
open Interleaving CasLockref

/-- What is seen of a thread: whether it holds, what its `lock_acquire` has returned, and
whether its next step is the update of an acquire or of a release that goes through on the
word. -/
structure View (ρ : Type) where
  holding : ρ → Bool
  depth : ρ → Option Word
  acquires : ρ → Word → Bool
  releases : ρ → Word → Bool

/-- An acquire that goes through with `found` holders: the thread comes to hold, the word it
stores counts it too, and the number found is returned. -/
structure Acquired {ρ : Type} (V : View ρ) (decode : Word → ℕ) (found : ℕ) (p p' : ρ) (word' : Word) :
    Prop where
  waiting : V.holding p = false
  holds : V.holding p' = true
  counted : decode word' = found + 1
  returned : ∃ d, V.depth p' = some d ∧ d.toNat = found

structure Released {ρ : Type} (V : View ρ) (decode : Word → ℕ) (found : ℕ) (p p' : ρ) (word' : Word) :
    Prop where
  held : V.holding p = true
  left : V.holding p' = false
  counted : decode word' + 1 = found

/-- Any other step leaves the word, the holders, and a waiting thread without a return. -/
structure Unchanged {ρ : Type} (V : View ρ) (word : Word) (p p' : ρ) (word' : Word) : Prop where
  word_eq : word' = word
  holding_eq : V.holding p' = V.holding p
  waiting : V.holding p = false → V.depth p' = none

/-- The word decodes to the number of holders, and keeps doing so: an acquire that goes
through stores one more and returns the number it has found, a release stores one less. -/
structure ExactCount {n : ℕ} {ρ : Type} (M : Machine (Fin n) Unit Word ρ) (V : View ρ)
    (decode : Word → ℕ) (c : Config (Fin n) Word ρ) : Prop where
  word : decode c.shared = c.count (V.holding · = true)
  acquired : ∀ t, V.acquires (c.loc t) c.shared = true →
    Acquired V decode (c.count (V.holding · = true)) (c.loc t) ((M.fire t () c).loc t) (M.fire t () c).shared
  released : ∀ t, V.releases (c.loc t) c.shared = true →
    Released V decode (c.count (V.holding · = true)) (c.loc t) ((M.fire t () c).loc t) (M.fire t () c).shared
  other : ∀ t, V.acquires (c.loc t) c.shared = false → V.releases (c.loc t) c.shared = false →
    Unchanged V c.shared (c.loc t) ((M.fire t () c).loc t) (M.fire t () c).shared

/-- What a step of a counter lock does, whoever else holds. -/
structure Acts {ρ : Type} (V : View ρ) (decode : Word → ℕ) (lock : Word) (p : ρ) (r : Word × ρ) :
    Prop where
  acquire : V.acquires p lock = true → V.holding p = false ∧ V.holding r.2 = true ∧
    ∃ d, V.depth r.2 = some d ∧ d.toNat = decode lock
  release : V.releases p lock = true → V.holding p = true ∧ V.holding r.2 = false
  other : V.acquires p lock = false → V.releases p lock = false → Unchanged V lock p r.2 r.1

section Acts
variable {ρ : Type} {V : View ρ} {decode : Word → ℕ} {lock : Word} {p : ρ} {r : Word × ρ}

lemma Acts.of_acquires {d : Word} (ha : V.acquires p lock = true) (hr : V.releases p lock = false)
    (hp : V.holding p = false) (hnew : V.holding r.2 = true) (hd : V.depth r.2 = some d)
    (hfound : d.toNat = decode lock) : Acts V decode lock p r where
  acquire _ := ⟨hp, hnew, d, hd, hfound⟩
  release h := absurd h (Bool.eq_false_iff.mp hr)
  other h _ := absurd ha (Bool.eq_false_iff.mp h)

lemma Acts.of_releases (ha : V.acquires p lock = false) (hr : V.releases p lock = true)
    (hp : V.holding p = true) (hnew : V.holding r.2 = false) : Acts V decode lock p r where
  acquire h := absurd h (Bool.eq_false_iff.mp ha)
  release _ := ⟨hp, hnew⟩
  other _ h := absurd hr (Bool.eq_false_iff.mp h)

lemma Acts.of_unchanged (ha : V.acquires p lock = false) (hr : V.releases p lock = false)
    (h : Unchanged V lock p r.2 r.1) : Acts V decode lock p r where
  acquire h := absurd h (Bool.eq_false_iff.mp ha)
  release h := absurd h (Bool.eq_false_iff.mp hr)
  other _ _ := h

end Acts

/-- The invariant of a counter lock: the word encodes the number of holders, and each thread
meets `LocalOk`. -/
structure Counted {n : ℕ} {ρ : Type} (encode : ℕ → Word) (holding : ρ → Bool) (LocalOk : ρ → Prop)
    (c : Config (Fin n) Word ρ) : Prop where
  word : c.shared = encode (c.count (holding · = true))
  local_ok : ∀ t, LocalOk (c.loc t)

section Counted
variable {n : ℕ} {ρ : Type} {M : Machine (Fin n) Unit Word ρ} {encode : ℕ → Word} {holding : ρ → Bool}
  {LocalOk : ρ → Prop} {V : View ρ} {decode : Word → ℕ} {c : Config (Fin n) Word ρ} {t : Fin n} {s : Word}
  {p : ρ}

lemma Counted.of_idle (hword : c.shared = encode 0) (hidle : ∀ t, holding (c.loc t) = false)
    (hok : ∀ t, LocalOk (c.loc t)) : Counted encode holding LocalOk c := by
  have hzero : c.count (holding · = true) = 0 := by
    rw [Config.count_eq_zero_iff]
    simp [hidle]
  exact ⟨by rw [hzero, hword], hok⟩

lemma Counted.count_le (_ : Counted encode holding LocalOk c) : c.count (holding · = true) ≤ n := by
  simpa using c.count_le (holding · = true)

/-- What has to be shown of one step. -/
lemma Counted.fire (h : Counted encode holding LocalOk c) (hs : M.step t () c.shared (c.loc t) = (s, p))
    (henc : ∀ m, m + (holding (c.loc t)).toNat = c.count (holding · = true) + (holding p).toNat →
      s = encode m)
    (hp : LocalOk p) : Counted encode holding LocalOk (M.fire t () c) := by
  refine ⟨M.encoded_fire hs henc, fun u => ?_⟩
  rw [M.fire_loc_eq hs]
  split
  · exact hp
  · exact h.local_ok u

lemma Counted.quiet (h : Counted encode holding LocalOk c)
    (hs : M.step t () c.shared (c.loc t) = (c.shared, p)) (hh : holding p = holding (c.loc t))
    (hp : LocalOk p) : Counted encode holding LocalOk (M.fire t () c) := by
  refine h.fire hs (fun m hm => ?_) hp
  rw [hh] at hm
  rw [h.word, Nat.add_right_cancel hm]

lemma Counted.acquire (h : Counted encode holding LocalOk c)
    (hs : M.step t () c.shared (c.loc t) = (s, p)) (hold : holding (c.loc t) = false)
    (hnew : holding p = true) (henc : s = encode (c.count (holding · = true) + 1)) (hp : LocalOk p) :
    Counted encode holding LocalOk (M.fire t () c) := by
  refine h.fire hs (fun m hm => ?_) hp
  rw [henc]
  congr 1
  simpa [hold, hnew] using hm.symm

lemma Counted.release (h : Counted encode holding LocalOk c)
    (hs : M.step t () c.shared (c.loc t) = (s, p)) (hold : holding (c.loc t) = true)
    (hnew : holding p = false) (henc : ∀ m, c.count (holding · = true) = m + 1 → s = encode m)
    (hp : LocalOk p) : Counted encode holding LocalOk (M.fire t () c) := by
  refine h.fire hs (fun m hm => henc m ?_) hp
  simpa [hold, hnew] using hm.symm

/-- Where every step acts as it should, the count stays exact across it. -/
lemma Counted.exactCount (h : Counted encode V.holding LocalOk c)
    (hfire : ∀ t, Counted encode V.holding LocalOk (M.fire t () c))
    (hdecode : ∀ m ≤ n, decode (encode m) = m)
    (hacts : ∀ t, Acts V decode c.shared (c.loc t) (M.step t () c.shared (c.loc t))) :
    ExactCount M V decode c := by
  have hword : decode c.shared = c.count (V.holding · = true) := by
    rw [h.word]
    exact hdecode _ h.count_le
  have hnext (t : Fin n) : decode (M.fire t () c).shared + (V.holding (c.loc t)).toNat =
      c.count (V.holding · = true) + (V.holding ((M.fire t () c).loc t)).toNat := by
    rw [(hfire t).word, hdecode _ (hfire t).count_le, Machine.fire_loc_self]
    exact M.count_fire_toNat V.holding rfl
  refine ⟨hword, fun t ht => ?_, fun t ht => ?_, fun t ha hr => ?_⟩
  · obtain ⟨hwait, hhold, d, hd, hdw⟩ := (hacts t).acquire ht
    rw [← Machine.fire_loc_self] at hhold hd
    have hn := hnext t
    rw [hwait, hhold] at hn
    exact ⟨hwait, hhold, hn, d, hd, hdw.trans hword⟩
  · obtain ⟨hhold, hleft⟩ := (hacts t).release ht
    rw [← Machine.fire_loc_self] at hleft
    have hn := hnext t
    rw [hhold, hleft] at hn
    exact ⟨hhold, hleft, hn⟩
  · rw [Machine.fire_loc_self]
    exact (hacts t).other ha hr

end Counted

namespace Lockref

inductive Pc
  | idle
  | acquireLoad
  | acquireTest (old : Word)
  | acquireReload
  | acquireCas (old : Word)
  | critical (depth : Word)
  | releaseLoad
  | releaseTest (old : Word)
  | releaseReload
  | releaseCas (old : Word)

/-- One atomic step of cas_lockref.h; the reload is the body of an inner wait loop. -/
def step (lock : Word) : Pc → Word × Pc
  | .idle => (lock, .acquireLoad)
  | .acquireLoad => (lock, .acquireTest lock)
  | .acquireTest old => (lock, if acquireBusy old then .acquireReload else .acquireCas old)
  | .acquireReload => (lock, .acquireTest lock)
  | .acquireCas old =>
    let r := casContract lock (old + unit) old
    (r.2, if r.1 = old then .critical (r.1 >>> 32) else .acquireLoad)
  | .critical _ => (lock, .releaseLoad)
  | .releaseLoad => (lock, .releaseTest lock)
  | .releaseTest old => (lock, if releaseBusy old then .releaseReload else .releaseCas old)
  | .releaseReload => (lock, .releaseTest lock)
  | .releaseCas old =>
    let r := casContract lock (old - unit) old
    (r.2, if r.1 = old then .idle else .releaseLoad)

def machine (n : ℕ) : Machine (Fin n) Unit Word Pc where
  step _ _ := step

def start (n : ℕ) : Config (Fin n) Word Pc := ⟨0, fun _ => .idle⟩

def Pc.holding : Pc → Bool
  | .critical _ | .releaseLoad | .releaseTest _ | .releaseReload | .releaseCas _ => true
  | _ => false

/-- What `lock_acquire` has returned. -/
def Pc.depth : Pc → Option Word
  | .critical depth => some depth
  | _ => none

/-- The compare-and-swap of a call finds the value it expects. -/
def Pc.acquires : Pc → Word → Bool
  | .acquireCas old, lock => lock = old
  | _, _ => false

def Pc.releases : Pc → Word → Bool
  | .releaseCas old, lock => lock = old
  | _, _ => false

def view : View Pc := ⟨Pc.holding, Pc.depth, Pc.acquires, Pc.releases⟩

/-- The word with `m` holders. -/
def encode (m : ℕ) : Word := BitVec.ofNat 64 (2 ^ 32 * m)

/-- Every value a thread has read has a clear lower half, so no inner loop is entered. -/
def LocalOk : Pc → Prop
  | .acquireTest old | .acquireCas old | .releaseTest old | .releaseCas old => old &&& 0xFFFFFFFF = 0
  | .acquireReload | .releaseReload => False
  | _ => True

abbrev Inv {n : ℕ} (c : Config (Fin n) Word Pc) : Prop := Counted encode Pc.holding LocalOk c

lemma encode_low (m : ℕ) : encode m &&& 0xFFFFFFFF = 0 := by
  apply BitVec.eq_of_toNat_eq
  have hmask : BitVec.toNat (0xFFFFFFFF : Word) = 2 ^ 32 - 1 := rfl
  rw [BitVec.toNat_and, hmask, Nat.and_two_pow_sub_one_eq_mod, encode, BitVec.toNat_ofNat]
  change _ = 0
  omega

lemma encode_add (m : ℕ) : encode m + unit = encode (m + 1) := by
  have hunit : unit = BitVec.ofNat 64 (2 ^ 32) := rfl
  rw [encode, encode, hunit, ← BitVec.ofNat_add, Nat.mul_succ]

lemma encode_sub (m : ℕ) : encode (m + 1) - unit = encode m := by
  rw [← encode_add, add_sub_cancel_right]

lemma encode_shift {m : ℕ} (hm : m < 2 ^ 32) : (encode m >>> 32).toNat = m := by
  rw [BitVec.toNat_ushiftRight, encode, BitVec.toNat_ofNat, Nat.shiftRight_eq_div_pow]
  omega

variable {n : ℕ} {c : Config (Fin n) Word Pc} {t : Fin n}

lemma start_inv (n : ℕ) : Inv (start n) := .of_idle rfl (fun _ => rfl) (fun _ => trivial)

lemma low (h : Inv c) : c.shared &&& 0xFFFFFFFF = 0 := by
  rw [h.word]
  exact encode_low _

lemma acquireBusy_eq_false {old : Word} (h : old &&& 0xFFFFFFFF = 0) : acquireBusy old = false := by
  simp only [acquireBusy, h, ne_eq, not_true_eq_false, decide_false, Bool.false_and]

lemma releaseBusy_eq_false {old : Word} (h : old &&& 0xFFFFFFFF = 0) : releaseBusy old = false := by
  simp only [releaseBusy, h, ne_eq, not_true_eq_false, decide_false, Bool.false_and]

theorem step_inv (h : Inv c) (t : Fin n) : Inv ((machine n).fire t () c) := by
  have hok := h.local_ok t
  cases hpc : c.loc t with
  | idle => exact h.quiet (p := .acquireLoad) (by rw [hpc]; rfl) (by rw [hpc]; rfl) trivial
  | acquireLoad =>
    exact h.quiet (p := .acquireTest c.shared) (by rw [hpc]; rfl) (by rw [hpc]; rfl) (low h)
  | acquireTest old =>
    rw [hpc] at hok
    exact h.quiet (p := .acquireCas old) (by simp [machine, hpc, step, acquireBusy_eq_false hok])
      (by rw [hpc]; rfl) hok
  | acquireReload =>
    rw [hpc] at hok
    exact hok.elim
  | acquireCas old =>
    by_cases he : c.shared = old
    · subst he
      refine h.acquire (s := c.shared + unit) (p := .critical (c.shared >>> 32)) ?_ (by rw [hpc]; rfl) rfl
        ?_ trivial
      · rw [hpc]
        simp [machine, step, casContract]
      · rw [← encode_add, ← h.word]
    · exact h.quiet (p := .acquireLoad) (by simp [machine, hpc, step, casContract, he]) (by rw [hpc]; rfl)
        trivial
  | critical d => exact h.quiet (p := .releaseLoad) (by rw [hpc]; rfl) (by rw [hpc]; rfl) trivial
  | releaseLoad =>
    exact h.quiet (p := .releaseTest c.shared) (by rw [hpc]; rfl) (by rw [hpc]; rfl) (low h)
  | releaseTest old =>
    rw [hpc] at hok
    exact h.quiet (p := .releaseCas old) (by simp [machine, hpc, step, releaseBusy_eq_false hok])
      (by rw [hpc]; rfl) hok
  | releaseReload =>
    rw [hpc] at hok
    exact hok.elim
  | releaseCas old =>
    by_cases he : c.shared = old
    · subst he
      refine h.release (s := c.shared - unit) (p := .idle) ?_ (by rw [hpc]; rfl) rfl (fun m hm => ?_)
        trivial
      · rw [hpc]
        simp [machine, step, casContract]
      · rw [h.word, hm, encode_sub]
    · exact h.quiet (p := .releaseLoad) (by simp [machine, hpc, step, casContract, he]) (by rw [hpc]; rfl)
        trivial

lemma reachable_inv (h : (machine n).Reachable (start n) c) : Inv c :=
  h.invariant (machine n) (start_inv n) fun _ t _ hi => step_inv hi t

lemma step_acts (lock : Word) (p : Pc) : Acts view (fun w => (w >>> 32).toNat) lock p (step lock p) := by
  cases p with
  | acquireCas old =>
    by_cases he : lock = old
    · subst he
      have hs : step lock (.acquireCas lock) = (lock + unit, .critical (lock >>> 32)) := by
        simp [step, casContract]
      rw [hs]
      exact Acts.of_acquires (decide_eq_true rfl) rfl rfl rfl rfl rfl
    · have hs : step lock (.acquireCas old) = (lock, .acquireLoad) := by
        simp [step, casContract, he]
      rw [hs]
      exact Acts.of_unchanged (decide_eq_false he) rfl ⟨rfl, rfl, fun _ => rfl⟩
  | releaseCas old =>
    by_cases he : lock = old
    · subst he
      have hs : step lock (.releaseCas lock) = (lock - unit, .idle) := by
        simp [step, casContract]
      rw [hs]
      exact Acts.of_releases rfl (decide_eq_true rfl) rfl rfl
    · have hs : step lock (.releaseCas old) = (lock, .releaseLoad) := by
        simp [step, casContract, he]
      rw [hs]
      exact Acts.of_unchanged rfl (decide_eq_false he) ⟨rfl, rfl, fun h => absurd h.symm Bool.false_ne_true⟩
  | acquireTest old =>
    rw [step]
    split <;> exact Acts.of_unchanged rfl rfl ⟨rfl, rfl, fun _ => rfl⟩
  | releaseTest old =>
    rw [step]
    split <;> exact Acts.of_unchanged rfl rfl ⟨rfl, rfl, fun _ => rfl⟩
  | _ => exact Acts.of_unchanged rfl rfl ⟨rfl, rfl, fun _ => rfl⟩

lemma exactCount (h : Inv c) (hn : n < 2 ^ 32) :
    ExactCount (machine n) view (fun w => (w >>> 32).toNat) c :=
  Counted.exactCount h (step_inv h) (fun _ hm => encode_shift (lt_of_le_of_lt hm hn))
    (fun t => step_acts c.shared (c.loc t))

end Lockref

namespace RwLock

/-- `CAS_RW_INIT_VAL` -/
def initVal : Word := 0x20000000

/-- `*((long *) &old) > CAS_RW_THRESHOLD` -/
def aboveThreshold (old : Word) : Bool := 0 < old.toInt

inductive Pc
  | idle
  | load
  | test (old : Word)
  | reload
  | cas (old : Word)
  | critical (depth : Word)
  | exclusiveHeld
  | release

/-- One atomic step of cas_rw_lock.h. The harness releases after either return of
`lock_acquire`. -/
def step (lock : Word) : Pc → Word × Pc
  | .idle => (lock, .load)
  | .load => (lock, .test lock)
  | .test old => (lock, if aboveThreshold old then .reload else .exclusiveHeld)
  | .reload => (lock, .cas lock)
  | .cas old =>
    let r := casContract lock (old - 1) old
    (r.2, if r.1 = old then .critical (initVal - r.1) else .test old)
  | .critical _ => (lock, .release)
  | .exclusiveHeld => (lock, .release)
  | .release => ((fetchadd64Release lock 1).2, .idle)

def machine (n : ℕ) : Machine (Fin n) Unit Word Pc where
  step _ _ := step

/-- After `cas_rw_lock_init`. -/
def start (n : ℕ) : Config (Fin n) Word Pc := ⟨initVal, fun _ => .idle⟩

def Pc.holding : Pc → Bool
  | .critical _ | .release => true
  | _ => false

/-- What `lock_acquire` has returned. -/
def Pc.depth : Pc → Option Word
  | .critical depth => some depth
  | .exclusiveHeld => some 0
  | _ => none

/-- The compare-and-swap of an acquire finds the value it expects. -/
def Pc.acquires : Pc → Word → Bool
  | .cas old, lock => lock = old
  | _, _ => false

def Pc.releases : Pc → Word → Bool
  | .release, _ => true
  | _, _ => false

def view : View Pc := ⟨Pc.holding, Pc.depth, Pc.acquires, Pc.releases⟩

/-- The word with `m` holders. -/
def encode (m : ℕ) : Word := BitVec.ofNat 64 (2 ^ 29 - m)

/-- Every value a thread has read before its acquire is above the threshold. -/
def LocalOk : Pc → Prop
  | .test old | .cas old => aboveThreshold old = true
  | .exclusiveHeld => False
  | _ => True

abbrev Inv {n : ℕ} (c : Config (Fin n) Word Pc) : Prop := Counted encode Pc.holding LocalOk c

lemma aboveThreshold_encode {m : ℕ} (hm : m < 2 ^ 29) : aboveThreshold (encode m) = true := by
  have hto : (encode m).toNat = 2 ^ 29 - m := by
    rw [encode, BitVec.toNat_ofNat]
    omega
  rw [aboveThreshold, decide_eq_true_eq, BitVec.toInt_eq_toNat_of_lt (by omega), hto]
  omega

lemma encode_sub {m : ℕ} (hm : m < 2 ^ 29) : encode m - 1 = encode (m + 1) := by
  have hone : BitVec.toNat (1 : Word) = 1 := rfl
  apply BitVec.eq_of_toNat_eq
  rw [encode, encode, BitVec.toNat_sub, BitVec.toNat_ofNat, BitVec.toNat_ofNat, hone]
  omega

lemma encode_add {m : ℕ} (hm : m < 2 ^ 29) : encode (m + 1) + 1 = encode m := by
  rw [← encode_sub hm, sub_add_cancel]

lemma initVal_sub_encode {m : ℕ} (hm : m ≤ 2 ^ 29) : (initVal - encode m).toNat = m := by
  have hinit : initVal.toNat = 2 ^ 29 := rfl
  rw [BitVec.toNat_sub, hinit, encode, BitVec.toNat_ofNat]
  omega

variable {n : ℕ} {c : Config (Fin n) Word Pc} {t : Fin n}

lemma start_inv (n : ℕ) : Inv (start n) := .of_idle rfl (fun _ => rfl) (fun _ => trivial)

/-- A thread that does not hold sees a word above the threshold. -/
lemma above (h : Inv c) (hn : n ≤ 2 ^ 29) (ht : (c.loc t).holding = false) :
    c.count (·.holding = true) < 2 ^ 29 ∧ aboveThreshold c.shared = true := by
  have hlt : c.count (·.holding = true) < n := by
    have hcard := c.count_lt (p := (·.holding = true)) (i := t) (by simp [ht])
    rwa [Fintype.card_fin] at hcard
  refine ⟨lt_of_lt_of_le hlt hn, ?_⟩
  rw [h.word]
  exact aboveThreshold_encode (lt_of_lt_of_le hlt hn)

theorem step_inv (h : Inv c) (hn : n ≤ 2 ^ 29) (t : Fin n) : Inv ((machine n).fire t () c) := by
  have hok := h.local_ok t
  cases hpc : c.loc t with
  | idle => exact h.quiet (p := .load) (by rw [hpc]; rfl) (by rw [hpc]; rfl) trivial
  | load =>
    exact h.quiet (p := .test c.shared) (by rw [hpc]; rfl) (by rw [hpc]; rfl)
      (above h hn (t := t) (by rw [hpc]; rfl)).2
  | test old =>
    rw [hpc] at hok
    have habove : aboveThreshold old = true := hok
    exact h.quiet (p := .reload) (by simp [machine, hpc, step, habove]) (by rw [hpc]; rfl) trivial
  | reload =>
    exact h.quiet (p := .cas c.shared) (by rw [hpc]; rfl) (by rw [hpc]; rfl)
      (above h hn (t := t) (by rw [hpc]; rfl)).2
  | cas old =>
    rw [hpc] at hok
    by_cases he : c.shared = old
    · subst he
      refine h.acquire (s := c.shared - 1) (p := .critical (initVal - c.shared)) ?_ (by rw [hpc]; rfl) rfl
        ?_ trivial
      · rw [hpc]
        simp [machine, step, casContract]
      · rw [← encode_sub (above h hn (t := t) (by rw [hpc]; rfl)).1, ← h.word]
    · exact h.quiet (p := .test old) (by simp [machine, hpc, step, casContract, he]) (by rw [hpc]; rfl) hok
  | critical d => exact h.quiet (p := .release) (by rw [hpc]; rfl) (by rw [hpc]; rfl) trivial
  | exclusiveHeld =>
    rw [hpc] at hok
    exact hok.elim
  | release =>
    refine h.release (s := c.shared + 1) (p := .idle) (by rw [hpc]; rfl) (by rw [hpc]; rfl) rfl
      (fun m hm => ?_) trivial
    have hle := h.count_le
    rw [h.word, hm, encode_add (by omega)]

lemma reachable_inv (hn : n ≤ 2 ^ 29) (h : (machine n).Reachable (start n) c) : Inv c :=
  h.invariant (machine n) (start_inv n) fun _ t _ hi => step_inv hi hn t

lemma step_acts (lock : Word) {p : Pc} (hok : LocalOk p) :
    Acts view (fun w => (initVal - w).toNat) lock p (step lock p) := by
  cases p with
  | cas old =>
    by_cases he : lock = old
    · subst he
      have hs : step lock (.cas lock) = (lock - 1, .critical (initVal - lock)) := by
        simp [step, casContract]
      rw [hs]
      exact Acts.of_acquires (decide_eq_true rfl) rfl rfl rfl rfl rfl
    · have hs : step lock (.cas old) = (lock, .test old) := by
        simp [step, casContract, he]
      rw [hs]
      exact Acts.of_unchanged (decide_eq_false he) rfl ⟨rfl, rfl, fun _ => rfl⟩
  | release => exact Acts.of_releases rfl rfl rfl rfl
  | test old =>
    -- the value tested is above the threshold, so `lock_acquire` does not return here
    have habove : aboveThreshold old = true := hok
    rw [step, if_pos habove]
    exact Acts.of_unchanged rfl rfl ⟨rfl, rfl, fun _ => rfl⟩
  | exclusiveHeld => exact hok.elim
  | _ => exact Acts.of_unchanged rfl rfl ⟨rfl, rfl, fun _ => rfl⟩

lemma exactCount (h : Inv c) (hn : n ≤ 2 ^ 29) :
    ExactCount (machine n) view (fun w => (initVal - w).toNat) c :=
  Counted.exactCount h (step_inv h hn) (fun _ hm => initVal_sub_encode (hm.trans hn))
    (fun t => step_acts c.shared (h.local_ok t))

end RwLock

namespace Refcount

inductive Pc
  | idle
  | acquire
  | critical (depth : Word)
  | release

/-- One atomic step of incdec_refcount.h. -/
def step (lock : Word) : Pc → Word × Pc
  | .idle => (lock, .acquire)
  | .acquire => ((fetchadd64 lock 1).2, .critical (fetchadd64 lock 1).1)
  | .critical _ => (lock, .release)
  | .release => ((fetchsub64 lock 1).2, .idle)

def machine (n : ℕ) : Machine (Fin n) Unit Word Pc where
  step _ _ := step

def start (n : ℕ) : Config (Fin n) Word Pc := ⟨0, fun _ => .idle⟩

def Pc.holding : Pc → Bool
  | .critical _ | .release => true
  | _ => false

/-- What `lock_acquire` has returned. -/
def Pc.depth : Pc → Option Word
  | .critical depth => some depth
  | _ => none

/-- The additions of `lock_acquire` and `lock_release` always go through. -/
def Pc.acquires : Pc → Word → Bool
  | .acquire, _ => true
  | _, _ => false

def Pc.releases : Pc → Word → Bool
  | .release, _ => true
  | _, _ => false

def view : View Pc := ⟨Pc.holding, Pc.depth, Pc.acquires, Pc.releases⟩

variable {n : ℕ} {c : Config (Fin n) Word Pc} {t : Fin n}

/-- The word is the number of holders. -/
abbrev Inv (c : Config (Fin n) Word Pc) : Prop :=
  Counted (BitVec.ofNat 64) Pc.holding (fun _ => True) c

lemma start_inv (n : ℕ) : Inv (start n) := .of_idle rfl (fun _ => rfl) (fun _ => trivial)

theorem step_inv (h : Inv c) (t : Fin n) : Inv ((machine n).fire t () c) := by
  cases hpc : c.loc t with
  | idle => exact h.quiet (p := .acquire) (by rw [hpc]; rfl) (by rw [hpc]; rfl) trivial
  | acquire =>
    refine h.acquire (s := c.shared + 1) (p := .critical c.shared) (by rw [hpc]; rfl) (by rw [hpc]; rfl)
      rfl ?_ trivial
    rw [h.word, BitVec.ofNat_add]
    rfl
  | critical d => exact h.quiet (p := .release) (by rw [hpc]; rfl) (by rw [hpc]; rfl) trivial
  | release =>
    refine h.release (s := c.shared - 1) (p := .idle) (by rw [hpc]; rfl) (by rw [hpc]; rfl) rfl
      (fun m hm => ?_) trivial
    rw [h.word, hm, BitVec.ofNat_add]
    exact add_sub_cancel_right _ _

lemma reachable_inv (h : (machine n).Reachable (start n) c) : Inv c :=
  h.invariant (machine n) (start_inv n) fun _ t _ hi => step_inv hi t

lemma step_acts (lock : Word) (p : Pc) : Acts view BitVec.toNat lock p (step lock p) := by
  cases p with
  | acquire => exact Acts.of_acquires rfl rfl rfl rfl rfl rfl
  | release => exact Acts.of_releases rfl rfl rfl rfl
  | _ => exact Acts.of_unchanged rfl rfl ⟨rfl, rfl, fun _ => rfl⟩

lemma exactCount (h : Inv c) (hn : n < 2 ^ 64) : ExactCount (machine n) view BitVec.toNat c :=
  Counted.exactCount h (step_inv h)
    (fun m hm => by rw [BitVec.toNat_ofNat, Nat.mod_eq_of_lt (lt_of_le_of_lt hm hn)])
    (fun t => step_acts c.shared (c.loc t))

end Refcount

/-- In every run of at most 2^29 threads each word decodes to the number of holders; each
acquire that goes through stores one more and returns the number it has found, and each
release stores one less. The lower half of cas_lockref stays clear, so its inner loops are
not entered, and cas_rw_lock never returns without having acquired. -/
theorem counterLocks_exact {n : ℕ} (hn : n ≤ 2 ^ 29) :
    (∀ c, (Lockref.machine n).Reachable (Lockref.start n) c →
      ExactCount (Lockref.machine n) Lockref.view (fun w => (w >>> 32).toNat) c ∧
      c.shared &&& 0xFFFFFFFF = 0 ∧ ∀ t, c.loc t ≠ .acquireReload ∧ c.loc t ≠ .releaseReload) ∧
    (∀ c, (RwLock.machine n).Reachable (RwLock.start n) c →
      ExactCount (RwLock.machine n) RwLock.view (fun w => (0x20000000 - w).toNat) c ∧
      ∀ t, c.loc t ≠ .exclusiveHeld) ∧
    ∀ c, (Refcount.machine n).Reachable (Refcount.start n) c →
      ExactCount (Refcount.machine n) Refcount.view BitVec.toNat c := by
  refine ⟨?_, ?_, ?_⟩
  · intro c hc
    have hi := Lockref.reachable_inv hc
    refine ⟨Lockref.exactCount hi (by omega), Lockref.low hi, fun t => ?_⟩
    have hok := hi.local_ok t
    refine ⟨?_, ?_⟩ <;> intro he <;> rw [he] at hok <;> exact hok
  · intro c hc
    have hi := RwLock.reachable_inv hn hc
    refine ⟨RwLock.exactCount hi hn, fun t he => ?_⟩
    have hok := hi.local_ok t
    rw [he] at hok
    exact hok
  · intro c hc
    exact Refcount.exactCount (Refcount.reachable_inv hc) (by omega)

/-- `a` goes `k` steps, to its compare-and-swap; `b` acquires first, and `a` has to read the
word again. -/
def bothAcquire {n : ℕ} (k : ℕ) (a b : Fin n) : List (Fin n × Unit) :=
  (List.replicate k a ++ List.replicate (k + 1) b ++ List.replicate 4 a).map fun t => (t, ())

/-- Two threads come to their additions together. -/
def bothAdd {n : ℕ} (a b : Fin n) : List (Fin n × Unit) := [a, b, b, a].map fun t => (t, ())

theorem counterLocks_exact_two :
    (((Lockref.machine 2).run (Lockref.start 2) (bothAcquire 3 0 1)).count (Lockref.Pc.holding · = true) = 2 ∧
      ExactCount (Lockref.machine 2) Lockref.view (fun w => (w >>> 32).toNat)
        ((Lockref.machine 2).run (Lockref.start 2) (bothAcquire 3 0 1))) ∧
    (((RwLock.machine 2).run (RwLock.start 2) (bothAcquire 4 0 1)).count (RwLock.Pc.holding · = true) = 2 ∧
      ExactCount (RwLock.machine 2) RwLock.view (fun w => (0x20000000 - w).toNat)
        ((RwLock.machine 2).run (RwLock.start 2) (bothAcquire 4 0 1))) ∧
    ((Refcount.machine 2).run (Refcount.start 2) (bothAdd 0 1)).count (Refcount.Pc.holding · = true) = 2 ∧
      ExactCount (Refcount.machine 2) Refcount.view BitVec.toNat
        ((Refcount.machine 2).run (Refcount.start 2) (bothAdd 0 1)) :=
  have h := counterLocks_exact (n := 2) (by decide)
  ⟨⟨by decide +kernel, (h.1 _ ((Lockref.machine 2).reachable_run _ _)).1⟩,
    ⟨by decide +kernel, (h.2.1 _ ((RwLock.machine 2).reachable_run _ _)).1⟩,
    by decide +kernel, h.2.2 _ ((Refcount.machine 2).reachable_run _ _)⟩

end Lockhammer.CounterLocks
