import Lockhammer.Interleaving.Count
import Lockhammer.Atomics.Primitives
import Mathlib.Data.Nat.Bitwise

/-!
# The reusable barrier of measure.c

Bits 31..1 of the barrier word count the threads that have arrived, bit 60 is the sense.
A caller reads the sense, adds 2 to the word, and then either stores the flipped sense
(when it was the last to arrive) or polls the upper half until it shows the flip.
-/
namespace Lockhammer.Barrier
open Interleaving

def senseBitMask : Word := 1 <<< 60

/-- The half polled by `wait32((uint32_t*)((uint8_t*)barrier + 4), ..)`, little-endian. -/
def upper32 (w : Word) : BitVec 32 := (w >>> 32).setWidth 32

/-- Where a thread is in `synchronize_threads`, with the locals it still needs. -/
inductive Pc
  | outside
  | add (globalSense : Word)
  | store (tmpSense : Word)
  | wait (localSense : BitVec 32)
  deriving DecidableEq, Repr

/-- A thread and the number of calls it has returned from. -/
structure Thread where
  pc : Pc
  calls : ℕ
  deriving DecidableEq, Repr

/-- One atomic step of `synchronize_threads(barrier, num_threads)`. -/
def step (numThreads : Word) (barrier : Word) (x : Thread) : Word × Thread :=
  match x.pc with
  | .outside => (barrier, { x with pc := .add (barrier &&& senseBitMask) })
  | .add globalSense =>
    let tmpSense := ~~~globalSense &&& senseBitMask
    let localSense := upper32 tmpSense
    let old := fetchadd64Acquire barrier 2
    if old.1 = (numThreads - 1) * 2 ||| globalSense then (old.2, { x with pc := .store tmpSense })
    else (old.2, { x with pc := .wait localSense })
  | .store tmpSense => (tmpSense, ⟨.outside, x.calls + 1⟩)
  | .wait localSense =>
    if upper32 barrier = localSense then (barrier, ⟨.outside, x.calls + 1⟩) else (barrier, x)

def machine (n : ℕ) : Machine (Fin n) Unit Word Thread where
  step _ _ := step (BitVec.ofNat 64 n)

/-- `*barrier = 0` and nobody has called yet. -/
def start (n : ℕ) : Config (Fin n) Word Thread := ⟨0, fun _ => ⟨.outside, 0⟩⟩

/-- What a run shows: the fetchadd of a thread's call number `k` (and whether it took the
store branch), the store of the flipped sense, and a waiter leaving. The last two are
also the returns from the call. -/
inductive Event (n : ℕ)
  | added (t : Fin n) (k : ℕ) (storeBranch : Bool)
  | stored (t : Fin n) (k : ℕ)
  | left (t : Fin n) (k : ℕ)
  deriving DecidableEq, Repr

def observe {n : ℕ} (t : Fin n) (_ : Unit) (barrier : Word) (x : Thread) : Option (Event n) :=
  match x.pc with
  | .outside => none
  | .add globalSense =>
    some (.added t x.calls
      ((fetchadd64Acquire barrier 2).1 = (BitVec.ofNat 64 n - 1) * 2 ||| globalSense))
  | .store _ => some (.stored t x.calls)
  | .wait localSense => if upper32 barrier = localSense then some (.left t x.calls) else none

/-- Thread `t` has executed the fetchadd of its call number `k`. -/
def Added {n : ℕ} (tr : List (Event n)) (t : Fin n) (k : ℕ) : Prop := ∃ b, .added t k b ∈ tr

/-- Thread `t` has returned from its call number `k`. -/
def Returned {n : ℕ} (tr : List (Event n)) (t : Fin n) (k : ℕ) : Prop :=
  .stored t k ∈ tr ∨ .left t k ∈ tr

/-! The word in terms of the round and the number of arrivals. -/

/-- The sense during round `k`. -/
def sense (k : ℕ) : Word := BitVec.ofNat 64 (k % 2 * 2^60)

/-- The word after `a` arrivals in round `k`. -/
def word (k a : ℕ) : Word := BitVec.ofNat 64 (2 * a + k % 2 * 2^60)

lemma word_zero (k : ℕ) : word k 0 = sense k := by simp [word, sense]

lemma word_add_two (k a : ℕ) : word k a + 2 = word k (a + 1) := by
  rw [word, word, show (2 : Word) = BitVec.ofNat 64 2 from rfl, ← BitVec.ofNat_add]
  congr 1
  omega

lemma word_toNat {k a : ℕ} (ha : a < 2^31) : (word k a).toNat = 2 * a + k % 2 * 2^60 := by
  rw [word, BitVec.toNat_ofNat]
  omega

lemma word_and_mask {k a : ℕ} (ha : a < 2^31) : word k a &&& senseBitMask = sense k := by
  apply BitVec.eq_of_toNat_eq
  have hm : senseBitMask.toNat = 2^60 := by decide
  have hd : (2 * a + k % 2 * 2^60) / 2^60 = k % 2 := by omega
  rw [BitVec.toNat_and, word_toNat ha, hm, Nat.and_two_pow, Nat.testBit_eq_decide_div_mod_eq, hd,
    sense, BitVec.toNat_ofNat]
  rcases Nat.mod_two_eq_zero_or_one k with h | h <;> simp [h]

lemma flip_sense (k : ℕ) : ~~~sense k &&& senseBitMask = sense (k + 1) := by
  rcases Nat.mod_two_eq_zero_or_one k with h | h
  · have h' : (k + 1) % 2 = 1 := by omega
    simp only [sense, h, h']
    decide
  · have h' : (k + 1) % 2 = 0 := by omega
    simp only [sense, h, h']
    decide

lemma upper32_word {k a : ℕ} (ha : a < 2^31) : upper32 (word k a) = upper32 (sense k) := by
  apply BitVec.eq_of_toNat_eq
  rw [← word_zero, upper32, upper32, BitVec.toNat_setWidth, BitVec.toNat_setWidth,
    BitVec.toNat_ushiftRight, BitVec.toNat_ushiftRight, word_toNat ha, word_toNat (by omega),
    Nat.shiftRight_eq_div_pow, Nat.shiftRight_eq_div_pow]
  omega

lemma upper32_sense_ne (k : ℕ) : upper32 (sense k) ≠ upper32 (sense (k + 1)) := by
  rcases Nat.mod_two_eq_zero_or_one k with h | h
  · have h' : (k + 1) % 2 = 1 := by omega
    simp only [sense, h, h']
    decide
  · have h' : (k + 1) % 2 = 0 := by omega
    simp only [sense, h, h']
    decide

/-- The test for the store branch holds exactly for the last of the `n` arrivals. -/
lemma word_eq_last_iff {n k a : ℕ} (h1 : 1 ≤ n) (hn : n < 2^31) (ha : a ≤ n) :
    word k a = (BitVec.ofNat 64 n - 1) * 2 ||| sense k ↔ a + 1 = n := by
  have hlast : (BitVec.ofNat 64 n - 1) * 2 ||| sense k = word k (n - 1) := by
    apply BitVec.eq_of_toNat_eq
    have hcount : ((BitVec.ofNat 64 n - 1) * 2).toNat = 2 * (n - 1) := by
      have h1' : BitVec.toNat (1 : Word) = 1 := rfl
      have h2' : BitVec.toNat (2 : Word) = 2 := rfl
      rw [BitVec.toNat_mul, BitVec.toNat_sub, BitVec.toNat_ofNat, h1', h2']
      omega
    rw [BitVec.toNat_or, hcount, word_toNat (by omega), ← word_zero, word_toNat (by omega)]
    rw [Nat.mul_zero, Nat.zero_add, Nat.or_comm, Nat.add_comm, Nat.mul_comm (k % 2)]
    exact (Nat.two_pow_add_eq_or_of_lt (by omega) _).symm
  rw [hlast]
  constructor
  · intro h
    have := congrArg BitVec.toNat h
    rw [word_toNat (by omega), word_toNat (by omega)] at this
    omega
  · rintro rfl
    rfl

/-! The invariant: in round `K` every thread is at its place for round `K`, or still
waits for the flip that ended round `K - 1`. -/

/-- Between its fetchadd and its return. -/
def Thread.inside (x : Thread) : Bool :=
  match x.pc with
  | .store _ | .wait _ => true
  | _ => false

def Thread.storing (x : Thread) : Bool :=
  match x.pc with
  | .store _ => true
  | _ => false

/-- The number of fetchadds a thread has executed. -/
def Thread.adds (x : Thread) : ℕ := x.calls + if x.inside then 1 else 0

/-- Counted in the word of round `K`. -/
def Arrived (K : ℕ) (x : Thread) : Prop := x.calls = K ∧ x.inside = true

instance (K : ℕ) : DecidablePred (Arrived K) := fun _ => inferInstanceAs (Decidable (_ ∧ _))

def Placed (K : ℕ) (x : Thread) : Prop :=
  match x.pc with
  | .outside => x.calls = K
  | .add globalSense => x.calls = K ∧ globalSense = sense K
  | .store tmpSense => x.calls = K ∧ tmpSense = sense (K + 1)
  | .wait localSense =>
    (x.calls = K ∧ localSense = upper32 (sense (K + 1))) ∨
    (x.calls + 1 = K ∧ localSense = upper32 (sense K))

structure Inv {n : ℕ} (K : ℕ) (c : Config (Fin n) Word Thread) : Prop where
  placed : ∀ t, Placed K (c.loc t)
  word : c.shared = word K (c.count (Arrived K))
  unique : ∀ t u, (c.loc t).storing = true → (c.loc u).storing = true → t = u
  full : (∃ t, (c.loc t).storing = true) ↔ c.count (Arrived K) = n

/-- How the events of a run mirror its state. -/
structure Log {n : ℕ} (K : ℕ) (tr : List (Event n)) (c : Config (Fin n) Word Thread) : Prop where
  added : ∀ t k, Added tr t k ↔ k < (c.loc t).adds
  returned : ∀ t k, Returned tr t k ↔ k < (c.loc t).calls
  stored : ∀ t k, .stored t k ∈ tr → k < K
  branch : ∀ k, (∃ t, .added t k true ∈ tr) ↔ k < K ∨ (k = K ∧ ∃ t, (c.loc t).storing = true)
  branch_unique : ∀ t u k, .added t k true ∈ tr → .added u k true ∈ tr → t = u
  branch_current : ∀ t, .added t K true ∈ tr → (c.loc t).storing = true

lemma start_inv {n : ℕ} (h1 : 1 ≤ n) : Inv 0 (start n) := by
  have hc : (start n).count (Arrived 0) = 0 := by
    rw [Config.count_eq_zero_iff]
    simp [start, Arrived, Thread.inside]
  refine ⟨fun t => rfl, ?_, by simp [start, Thread.storing], ?_⟩
  · rw [hc, word_zero]
    rfl
  · rw [hc]
    simpa [start, Thread.storing] using (by omega : ¬ 0 = n)

lemma start_log (n : ℕ) : Log 0 [] (start n) := by
  constructor <;> simp [Added, Returned, start, Thread.adds, Thread.inside, Thread.storing]

variable {n : ℕ} {K : ℕ} {c : Config (Fin n) Word Thread} {tr : List (Event n)}

lemma Inv.count_le (_h : Inv K c) : c.count (Arrived K) ≤ n := by
  simpa using c.count_le (Arrived K)

/-- The upper half of the word shows the sense of the round. -/
lemma Inv.upper32_shared (h : Inv K c) (hn : n < 2^31) : upper32 c.shared = upper32 (sense K) := by
  have ha := h.count_le
  rw [h.word, upper32_word (by omega)]

/-- A thread about to add is not yet counted, so the round is not full. -/
lemma Inv.count_lt (h : Inv K c) {t : Fin n} (ht : ¬ Arrived K (c.loc t)) :
    c.count (Arrived K) < n := by
  have hne : c.count (Arrived K) ≠ n := by
    intro he
    have hall := (c.count_eq_card_iff (Arrived K)).mp (by simpa using he)
    exact ht (hall t)
  have := h.count_le
  omega

/-- Nobody stores while the round is not full. -/
lemma Inv.not_storing (h : Inv K c) {t : Fin n} (ht : ¬ Arrived K (c.loc t)) (u : Fin n) :
    (c.loc u).storing = false := by
  have hlt := h.count_lt ht
  by_contra hu
  have := h.full.mp ⟨u, by simpa using hu⟩
  omega

/-- While one thread stores, all threads have arrived in its round. -/
lemma Inv.all_arrived (h : Inv K c) {t : Fin n} (ht : (c.loc t).storing = true) (u : Fin n) :
    Arrived K (c.loc u) := by
  have hall := (c.count_eq_card_iff (Arrived K)).mp (by simpa using h.full.mp ⟨t, ht⟩)
  exact hall u

/-! One step of thread `t`, by where it is. -/

lemma step_outside {w : Word} {x : Thread} (hpc : x.pc = .outside) :
    step (BitVec.ofNat 64 n) w x = (w, { x with pc := .add (w &&& senseBitMask) }) := by
  rw [step, hpc]

/-- Where the fetchadd takes a thread that arrives after `a` others of the `n`. -/
def branch (K n a : ℕ) : Pc :=
  if a + 1 = n then .store (sense (K + 1)) else .wait (upper32 (sense (K + 1)))

/-- The fetchadd of a thread that arrives when `a` others have. -/
lemma step_add (h1 : 1 ≤ n) (hn : n < 2^31) {a : ℕ} (ha : a ≤ n) {x : Thread}
    (hpc : x.pc = .add (sense K)) :
    step (BitVec.ofNat 64 n) (word K a) x = (word K (a + 1), { x with pc := branch K n a }) := by
  simp only [step, hpc, fetchadd64Acquire, fetchadd64, word_add_two, flip_sense,
    word_eq_last_iff h1 hn ha, branch]
  split <;> rfl

lemma step_store {w s : Word} {x : Thread} (hpc : x.pc = .store s) :
    step (BitVec.ofNat 64 n) w x = (s, ⟨.outside, x.calls + 1⟩) := by
  rw [step, hpc]

lemma step_wait {w : Word} {s : BitVec 32} {x : Thread} (hpc : x.pc = .wait s) :
    step (BitVec.ofNat 64 n) w x =
      if upper32 w = s then (w, ⟨.outside, x.calls + 1⟩) else (w, x) := by
  rw [step, hpc]

lemma observe_add (h1 : 1 ≤ n) (hn : n < 2^31) {a : ℕ} (ha : a ≤ n) {t : Fin n} {x : Thread}
    (hpc : x.pc = .add (sense K)) :
    observe t () (word K a) x = some (.added t x.calls (a + 1 = n)) := by
  simp only [observe, hpc, fetchadd64Acquire, fetchadd64, word_eq_last_iff h1 hn ha]

/-- A step that neither adds nor stores keeps the round. -/
lemma Inv.quiet (h : Inv K c) {t : Fin n} {x : Thread}
    (hs : step (BitVec.ofNat 64 n) c.shared (c.loc t) = (c.shared, x))
    (hold : (c.loc t).storing = false) (hnew : x.storing = false)
    (harr : Arrived K x ↔ Arrived K (c.loc t)) (hp : Placed K x) :
    Inv K ((machine n).fire t () c) := by
  have hloc := Machine.fire_loc_eq (machine n) (k := ()) hs
  have hcount : ((machine n).fire t () c).count (Arrived K) = c.count (Arrived K) := by
    have hc := (machine n).count_fire (Arrived K) t () c
    simpa [machine, hs, harr] using hc
  have hstoring (u : Fin n) :
      (((machine n).fire t () c).loc u).storing = (c.loc u).storing := by
    rw [hloc]
    split
    · subst u
      rw [hold, hnew]
    · rfl
  refine ⟨fun u => ?_, ?_, ?_, ?_⟩
  · rw [hloc]
    split
    · exact hp
    · exact h.placed u
  · rw [hcount, ← h.word]
    simp [machine, hs]
  · intro u v hu hv
    rw [hstoring] at hu hv
    exact h.unique u v hu hv
  · simp only [hstoring, hcount, h.full]

/-- The fetchadd: one more arrival, and the last one gets the store branch. -/
lemma Inv.arrive (h : Inv K c) (h1 : 1 ≤ n) (hn : n < 2^31) {t : Fin n}
    (hpc : (c.loc t).pc = .add (sense K)) (hcalls : (c.loc t).calls = K) :
    Inv K ((machine n).fire t () c) := by
  have hout : ¬ Arrived K (c.loc t) := by simp [Arrived, Thread.inside, hpc]
  have hs := step_add h1 hn h.count_le hpc
  rw [← h.word] at hs
  have hlt := h.count_lt hout
  have hloc := Machine.fire_loc_eq (machine n) (k := ()) hs
  have hcount : ((machine n).fire t () c).count (Arrived K) = c.count (Arrived K) + 1 := by
    have hc := (machine n).count_fire (Arrived K) t () c
    have hin : Arrived K ((machine n).step t () c.shared (c.loc t)).2 := by
      by_cases hlast : c.count (Arrived K) + 1 = n <;>
        simp [machine, hs, Arrived, hcalls, Thread.inside, branch, hlast]
    simpa [hout, hin] using hc
  have hstoring (u : Fin n) : (((machine n).fire t () c).loc u).storing =
      decide (u = t ∧ c.count (Arrived K) + 1 = n) := by
    rw [hloc]
    by_cases hu : u = t
    · by_cases hlast : c.count (Arrived K) + 1 = n <;>
        simp [hu, hlast, Thread.storing, branch]
    · simpa [hu] using h.not_storing hout u
  refine ⟨fun u => ?_, ?_, ?_, ?_⟩
  · rw [hloc]
    by_cases hu : u = t
    · by_cases hlast : c.count (Arrived K) + 1 = n <;>
        simp [hu, hlast, Placed, hcalls, branch]
    · simpa [hu] using h.placed u
  · rw [hcount]
    simp [machine, hs]
  · intro u v hu hv
    rw [hstoring] at hu hv
    simp only [decide_eq_true_eq] at hu hv
    rw [hu.1, hv.1]
  · rw [hcount]
    simp [hstoring]

/-- The store: everybody has arrived, so the next round starts from an empty count. -/
lemma Inv.flip (h : Inv K c) {t : Fin n} {s : Word} (hpc : (c.loc t).pc = .store s) (h1 : 1 ≤ n) :
    Inv (K + 1) ((machine n).fire t () c) := by
  have hstor : (c.loc t).storing = true := by simp [Thread.storing, hpc]
  have hs := step_store (n := n) (w := c.shared) hpc
  have hplace := h.placed t
  simp only [Placed, hpc] at hplace
  have hloc := Machine.fire_loc_eq (machine n) (k := ()) hs
  -- the others all wait for this flip
  have hother (u : Fin n) (hu : u ≠ t) :
      (c.loc u).calls = K ∧ (c.loc u).pc = .wait (upper32 (sense (K + 1))) := by
    have harr := h.all_arrived hstor u
    have hp := h.placed u
    cases hq : (c.loc u).pc with
    | outside => simp [Arrived, Thread.inside, hq] at harr
    | add g => simp [Arrived, Thread.inside, hq] at harr
    | store g => exact absurd (h.unique u t (by simp [Thread.storing, hq]) hstor) hu
    | wait g =>
      simp only [Placed, hq] at hp
      have hk := harr.1
      rcases hp with ⟨_, hg⟩ | ⟨hc, _⟩
      · exact ⟨hk, by rw [hg]⟩
      · omega
  have hcount : ((machine n).fire t () c).count (Arrived (K + 1)) = 0 := by
    rw [Config.count_eq_zero_iff]
    intro u
    rw [hloc]
    by_cases hu : u = t
    · simp [hu, Arrived, Thread.inside]
    · have := (hother u hu).1
      simp [hu, Arrived, this]
  have hstoring (u : Fin n) : (((machine n).fire t () c).loc u).storing = false := by
    rw [hloc]
    by_cases hu : u = t
    · simp [hu, Thread.storing]
    · simp [hu, Thread.storing, (hother u hu).2]
  refine ⟨fun u => ?_, ?_, ?_, ?_⟩
  · rw [hloc]
    by_cases hu : u = t
    · simp [hu, Placed, hplace.1]
    · obtain ⟨hk, hq⟩ := hother u hu
      simp [hu, Placed, hq, hk]
  · rw [hcount, word_zero]
    simp [machine, hs, hplace.2]
  · simp [hstoring]
  · rw [hcount]
    simpa [hstoring] using (by omega : ¬ 0 = n)

/-! The events follow the state. -/

lemma Log.silent (h : Log K tr c) {d : Config (Fin n) Word Thread}
    (hadds : ∀ u, (d.loc u).adds = (c.loc u).adds) (hcalls : ∀ u, (d.loc u).calls = (c.loc u).calls)
    (hstoring : ∀ u, (d.loc u).storing = (c.loc u).storing) : Log K tr d := by
  constructor
  · simpa only [hadds] using h.added
  · simpa only [hcalls] using h.returned
  · exact h.stored
  · simpa only [hstoring] using h.branch
  · exact h.branch_unique
  · simpa only [hstoring] using h.branch_current

/-- The fetchadd of call `K`; `last` tells whether it took the store branch. -/
lemma Log.arrive (h : Log K tr c) {d : Config (Fin n) Word Thread} {t : Fin n} {last : Bool}
    (hk : (c.loc t).calls = K) (hout : (c.loc t).inside = false)
    (hadds : ∀ u, (d.loc u).adds = (c.loc u).adds + if u = t then 1 else 0)
    (hcalls : ∀ u, (d.loc u).calls = (c.loc u).calls)
    (hbefore : ∀ u, (c.loc u).storing = false)
    (hstoring : ∀ u, (d.loc u).storing = decide (u = t ∧ last = true)) :
    Log K (tr ++ [.added t K last]) d := by
  have hnew : ∀ u, .added u K true ∉ tr := by
    intro u hu
    simpa [hbefore] using h.branch_current u hu
  have ht : (c.loc t).adds = K := by simp [Thread.adds, hk, hout]
  constructor
  · intro u k
    have hu := h.added u k
    simp only [Added, List.mem_append, List.mem_singleton, Event.added.injEq] at hu ⊢
    rw [exists_or, hu, hadds]
    by_cases he : u = t
    · subst he
      simp only [true_and, if_true, ht]
      constructor
      · rintro (hlt | ⟨b, rfl, -⟩) <;> omega
      · intro hlt
        rcases Nat.lt_succ_iff_lt_or_eq.mp hlt with hlt | rfl
        · exact Or.inl hlt
        · exact Or.inr ⟨last, rfl, rfl⟩
    · simp [he]
  · intro u k
    simpa [Returned, hcalls] using h.returned u k
  · intro u k hu
    exact h.stored u k (by simpa using hu)
  · intro k
    have hb := h.branch k
    simp only [List.mem_append, List.mem_singleton, Event.added.injEq, hstoring,
      decide_eq_true_eq] at hb ⊢
    rw [exists_or, hb]
    simp only [hbefore, Bool.false_eq_true, exists_false, and_false, or_false]
    constructor
    · rintro (hlt | ⟨u, rfl, rfl, hlast⟩)
      · exact Or.inl hlt
      · exact Or.inr ⟨rfl, u, rfl, hlast.symm⟩
    · rintro (hlt | ⟨rfl, u, rfl, hlast⟩)
      · exact Or.inl hlt
      · exact Or.inr ⟨u, rfl, rfl, hlast.symm⟩
  · intro u v k hu hv
    simp only [List.mem_append, List.mem_singleton, Event.added.injEq] at hu hv
    rcases hu with hu | ⟨rfl, rfl, -⟩ <;> rcases hv with hv | ⟨rfl, hk', -⟩
    · exact h.branch_unique u v k hu hv
    · subst hk'
      exact absurd hu (hnew u)
    · exact absurd hv (hnew v)
    · rfl
  · intro u hu
    simp only [List.mem_append, List.mem_singleton, Event.added.injEq] at hu
    rcases hu with hu | ⟨rfl, -, hlast⟩
    · exact absurd hu (hnew u)
    · simp [hstoring, ← hlast]

/-- A waiter of any round leaves. -/
lemma Log.leave (h : Log K tr c) {d : Config (Fin n) Word Thread} {t : Fin n}
    (hadds : ∀ u, (d.loc u).adds = (c.loc u).adds)
    (hcalls : ∀ u, (d.loc u).calls = (c.loc u).calls + if u = t then 1 else 0)
    (hstoring : ∀ u, (d.loc u).storing = (c.loc u).storing) :
    Log K (tr ++ [.left t (c.loc t).calls]) d := by
  constructor
  · simpa [Added, hadds] using h.added
  · intro u k
    have hu := h.returned u k
    simp only [Returned, List.mem_append, List.mem_singleton, reduceCtorEq, or_false,
      Event.left.injEq] at hu ⊢
    rw [← or_assoc, hu, hcalls]
    by_cases he : u = t
    · subst he
      simp only [true_and, if_true]
      omega
    · simp [he]
  · intro u k hu
    exact h.stored u k (by simpa using hu)
  · simpa [hstoring] using h.branch
  · intro u v k hu hv
    exact h.branch_unique u v k (by simpa using hu) (by simpa using hv)
  · intro u hu
    rw [hstoring]
    exact h.branch_current u (by simpa using hu)

/-- The store of round `K` ends it. -/
lemma Log.flip (h : Log K tr c) {d : Config (Fin n) Word Thread} {t : Fin n}
    (hk : (c.loc t).calls = K) (hstor : (c.loc t).storing = true)
    (hall : ∀ u, (c.loc u).adds = K + 1) (hadds : ∀ u, (d.loc u).adds = (c.loc u).adds)
    (hcalls : ∀ u, (d.loc u).calls = (c.loc u).calls + if u = t then 1 else 0)
    (hstoring : ∀ u, (d.loc u).storing = false) :
    Log (K + 1) (tr ++ [.stored t K]) d := by
  constructor
  · simpa [Added, hadds] using h.added
  · intro u k
    have hu := h.returned u k
    simp only [Returned, List.mem_append, List.mem_singleton, reduceCtorEq, or_false,
      Event.stored.injEq] at hu ⊢
    rw [or_right_comm, hu, hcalls]
    by_cases he : u = t
    · subst he
      simp only [true_and, if_true]
      omega
    · simp [he]
  · intro u k hu
    simp only [List.mem_append, List.mem_singleton, Event.stored.injEq] at hu
    rcases hu with hu | ⟨-, rfl⟩
    · have := h.stored u k hu
      omega
    · omega
  · intro k
    have hb := h.branch k
    have hex : ∃ u, (c.loc u).storing = true := ⟨t, hstor⟩
    simp only [List.mem_append, List.mem_singleton, reduceCtorEq, or_false, hb, hex, hstoring,
      and_true, Bool.false_eq_true, exists_false, and_false]
    omega
  · intro u v k hu hv
    exact h.branch_unique u v k (by simpa using hu) (by simpa using hv)
  · intro u hu
    have hadd := (h.added u (K + 1)).mp ⟨true, by simpa using hu⟩
    rw [hall] at hadd
    omega

/-- One step keeps the invariant and its log, in the same round or the next. -/
theorem step_inv (h1 : 1 ≤ n) (hn : n < 2^31) (h : Inv K c) (hl : Log K tr c) (t : Fin n) :
    ∃ K', Inv K' ((machine n).fire t () c) ∧
      Log K' (tr ++ (observe t () c.shared (c.loc t)).toList) ((machine n).fire t () c) := by
  have hplace := h.placed t
  cases hpc : (c.loc t).pc with
  | outside =>
    have hs := step_outside (n := n) (w := c.shared) hpc
    have hloc := Machine.fire_loc_eq (machine n) (k := ()) hs
    simp only [Placed, hpc] at hplace
    refine ⟨K, h.quiet hs (by simp [Thread.storing, hpc]) (by simp [Thread.storing])
      (by simp [Arrived, Thread.inside, hpc]) ?_, ?_⟩
    · refine ⟨hplace, ?_⟩
      rw [h.word, word_and_mask (by have := h.count_le; omega)]
    · simp only [observe, hpc, Option.toList_none, List.append_nil]
      apply hl.silent
      all_goals
        intro u
        simp only [hloc]
        split
        · next he => simp [he, Thread.adds, Thread.inside, Thread.storing, hpc]
        · rfl
  | add g =>
    simp only [Placed, hpc] at hplace
    obtain ⟨hk, rfl⟩ := hplace
    have hout : ¬ Arrived K (c.loc t) := by simp [Arrived, Thread.inside, hpc]
    have hs := step_add h1 hn h.count_le hpc
    have ho := observe_add (t := t) h1 hn h.count_le hpc
    rw [← h.word] at hs ho
    have hloc := Machine.fire_loc_eq (machine n) (k := ()) hs
    refine ⟨K, h.arrive h1 hn hpc hk, ?_⟩
    rw [ho, hk]
    apply hl.arrive hk (by simp [Thread.inside, hpc]) _ _ (h.not_storing hout)
    all_goals
      intro u
      simp only [hloc]
      by_cases he : u = t
      · by_cases hlast : c.count (Arrived K) + 1 = n <;>
          simp [he, hlast, branch, Thread.adds, Thread.inside, Thread.storing, hpc]
      · simp [he, h.not_storing hout u]
  | store g =>
    simp only [Placed, hpc] at hplace
    have hstor : (c.loc t).storing = true := by simp [Thread.storing, hpc]
    have hs := step_store (n := n) (w := c.shared) hpc
    have hloc := Machine.fire_loc_eq (machine n) (k := ()) hs
    have hinv := h.flip hpc h1
    refine ⟨K + 1, hinv, ?_⟩
    simp only [observe, hpc, hplace.1, Option.toList_some]
    apply hl.flip hplace.1 hstor
    · intro u
      obtain ⟨hk, hin⟩ := h.all_arrived hstor u
      simp [Thread.adds, hk, hin]
    · intro u
      simp only [hloc]
      split
      · next he => simp [he, Thread.adds, Thread.inside, hpc]
      · rfl
    · intro u
      simp only [hloc]
      split
      · next he => simp [he]
      · rfl
    · intro u
      by_contra hu
      have hall := hinv.all_arrived (t := u) (by simpa using hu) t
      rw [hloc, if_pos rfl] at hall
      simp [Arrived, Thread.inside] at hall
  | wait g =>
    simp only [Placed, hpc] at hplace
    have hs := step_wait (n := n) (w := c.shared) hpc
    have hup := h.upper32_shared hn
    by_cases hgo : upper32 c.shared = g
    · -- only a waiter of the previous round can see the sense it waits for
      have hk : (c.loc t).calls + 1 = K := by
        rcases hplace with ⟨-, hg⟩ | ⟨hk, -⟩
        · exact absurd (hup.symm.trans (hgo.trans hg)) (upper32_sense_ne K)
        · exact hk
      rw [if_pos hgo] at hs
      have hloc := Machine.fire_loc_eq (machine n) (k := ()) hs
      refine ⟨K, h.quiet hs (by simp [Thread.storing, hpc]) (by simp [Thread.storing]) ?_ ?_, ?_⟩
      · simp only [Arrived, Thread.inside, hpc]
        simp
        omega
      · simpa [Placed] using hk
      · simp only [observe, hpc, hgo, if_true, Option.toList_some]
        apply hl.leave
        all_goals
          intro u
          simp only [hloc]
          split
          · next he => simp [he, Thread.adds, Thread.inside, Thread.storing, hpc]
          · simp [*]
    · rw [if_neg hgo] at hs
      have hfire : (machine n).fire t () c = c := by
        simp [Machine.fire, machine, hs, Function.update_eq_self]
      rw [hfire]
      simp only [observe, hpc, hgo, if_false, Option.toList_none, List.append_nil]
      exact ⟨K, h, hl⟩

/-- Along every run there is a current round. -/
theorem history_inv (h1 : 1 ≤ n) (hn : n < 2^31)
    (h : (machine n).History observe (start n) tr c) : ∃ K, Inv K c ∧ Log K tr c := by
  refine h.invariant (machine n) (P := fun tr c => ∃ K, Inv K c ∧ Log K tr c)
    ⟨0, start_inv h1, start_log n⟩ ?_
  rintro tr c t ⟨⟩ ⟨K, hi, hl⟩
  exact step_inv h1 hn hi hl t

lemma Inv.calls_le (h : Inv K c) (t : Fin n) : (c.loc t).calls ≤ K ∧ K ≤ (c.loc t).adds := by
  have hp := h.placed t
  cases hpc : (c.loc t).pc <;> simp only [Placed, hpc] at hp <;>
    simp [Thread.adds, Thread.inside, hpc] <;> omega

/-- A round with all arrivals is over, or its last arrival is about to store. -/
lemma Log.branch_exists (hl : Log K tr c) (hi : Inv K c) {k : ℕ} (hall : ∀ t, Added tr t k) :
    ∃ t, .added t k true ∈ tr := by
  rw [hl.branch]
  by_contra hno
  push Not at hno
  -- otherwise round `k` is not over and nobody stores, so someone has not arrived
  have hfull : c.count (Arrived K) = n := by
    have hcard : c.count (Arrived K) = Fintype.card (Fin n) := by
      rw [Config.count_eq_card_iff]
      intro t
      have hadd := (hl.added t k).mp (hall t)
      have hc := (hi.calls_le t).1
      simp only [Thread.adds] at hadd
      split at hadd
      · next hin => exact ⟨by omega, hin⟩
      · omega
    simpa using hcard
  obtain ⟨t, ht⟩ := hi.full.mpr hfull
  have hk : k = K := by
    have hadd := (hl.added t k).mp (hall t)
    obtain ⟨hcalls, hin⟩ := hi.all_arrived ht t
    simp only [Thread.adds, hcalls, hin, if_true] at hadd
    omega
  exact hno.2 hk t ht

/-- At the store the lower half of the word counts all arrivals. -/
lemma Inv.lower32_at_store (hi : Inv K c) (hn : n < 2^31) {t : Fin n}
    (ht : (c.loc t).storing = true) : c.shared.setWidth 32 = BitVec.ofNat 32 (2 * n) := by
  rw [hi.word, hi.full.mp ⟨t, ht⟩]
  apply BitVec.eq_of_toNat_eq
  rw [BitVec.toNat_setWidth, word_toNat hn, BitVec.toNat_ofNat]
  omega

/-- The barrier is reusable. In every history of `n` threads: a return from call `k`
comes after all `n` fetchadds of call `k`, and no two threads are more than one call
apart; each completed round has exactly one store branch, no round has two, and at the
store no thread has added for the next round while the word counts all `n` arrivals of
this one; and after the store of round `k` every thread still waiting in it sees its
wait condition true. -/
theorem synchronizeThreads_reusable (h1 : 1 ≤ n) (hn : n < 2^31)
    (h : (machine n).History observe (start n) tr c) :
    (∀ t u k, Returned tr t k → Added tr u k) ∧
    (∀ t u, (c.loc t).calls ≤ (c.loc u).calls + 1) ∧
    (∀ k, (∀ t, Added tr t k) → ∃! t, .added t k true ∈ tr) ∧
    (∀ t u k, .added t k true ∈ tr → .added u k true ∈ tr → t = u) ∧
    (∀ t s, (c.loc t).pc = .store s →
      (∀ u, Added tr u (c.loc t).calls ∧ ¬ Added tr u ((c.loc t).calls + 1)) ∧
      c.shared.setWidth 32 = BitVec.ofNat 32 (2 * n)) ∧
    (∀ t u k s, .stored t k ∈ tr → (c.loc u).calls = k → (c.loc u).pc = .wait s →
      upper32 c.shared = s) := by
  obtain ⟨K, hi, hl⟩ := history_inv h1 hn h
  refine ⟨?_, ?_, ?_, hl.branch_unique, ?_, ?_⟩
  · intro t u k hr
    rw [hl.returned] at hr
    rw [hl.added]
    have ht := (hi.calls_le t).1
    have hu := (hi.calls_le u).2
    omega
  · intro t u
    have ht := (hi.calls_le t).1
    have hu := (hi.calls_le u).2
    simp only [Thread.adds] at hu
    split at hu <;> omega
  · intro k hall
    obtain ⟨t, ht⟩ := hl.branch_exists hi hall
    exact ⟨t, ht, fun u hu => hl.branch_unique u t k hu ht⟩
  · intro t s hpc
    have hstor : (c.loc t).storing = true := by simp [Thread.storing, hpc]
    have hk := (hi.all_arrived hstor t).1
    refine ⟨fun u => ?_, ?_⟩
    · obtain ⟨hu, hin⟩ := hi.all_arrived hstor u
      rw [hl.added, hl.added, hk]
      simp [Thread.adds, hu, hin]
    · exact hi.lower32_at_store hn hstor
  · intro t u k s hst hk hpc
    have hlt := hl.stored t k hst
    have hp := hi.placed u
    simp only [Placed, hpc] at hp
    rcases hp with ⟨hc, -⟩ | ⟨-, hs⟩
    · omega
    · rw [hi.upper32_shared hn, hs]

/-- Two threads through one round: the second arrival stores, the first then leaves. -/
def twoThreadRound (a b : Fin n) : List (Fin n × Unit) :=
  [a, a, b, b, b, a].map fun t => (t, ())

theorem synchronizeThreads_reusable_two :
    Returned ((machine 2).trace observe (start 2) (twoThreadRound 0 1)) 0 0 ∧
    Added ((machine 2).trace observe (start 2) (twoThreadRound 0 1)) 1 0 := by
  have hr : Returned ((machine 2).trace observe (start 2) (twoThreadRound 0 1)) 0 0 := by
    unfold Returned
    decide
  exact ⟨hr, (synchronizeThreads_reusable (by decide) (by decide)
    ((machine 2).history_run observe (start 2) (twoThreadRound 0 1))).1 0 1 0 hr⟩

end Lockhammer.Barrier
