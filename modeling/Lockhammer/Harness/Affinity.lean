import Lockhammer.Harness.Args
import Mathlib.Data.List.Perm.Subperm
import Mathlib.Tactic.Ring

/-!
# Interleaved placement (lockhammer.c)

`calculate_affinity` sweeps over the CPUs in steps of the interleave, one sweep after the
other, each one CPU further on. With `q` steps to a sweep, thread `i` is in step `i % q` of
sweep `i / q`.
-/
namespace Lockhammer.Args

/-- Why a CPU list cannot be made. -/
inductive PlaceError
  | threadNum
  | noCpu (assigned : ℕ)
  /-- A write behind the end of `cpu_order`. -/
  | orderOverwrite
  /-- A read behind the end of `cpu_order`. -/
  | orderOverread
  deriving DecidableEq

def PlaceError.message : PlaceError → String
  | .threadNum => "ERROR: unexpectedly thread_num >= num_cores in calculate_affinity().\n"
  | .noCpu assigned => "ERROR: no CPU is available after assigning " ++ toString assigned ++ " CPUs\n"
  | .orderOverwrite => ""
  | .orderOverread => ""

structure Sweep where
  baseCore : BitVec 64
  threadOffset : BitVec 64

/-- The body of the loop in `calculate_affinity`. -/
def Sweep.advance (numCores : ℕ) (ileave : BitVec 64) (s : Sweep) : Sweep :=
  let baseCore := s.baseCore + ileave
  if numCores ≤ baseCore.toNat then ⟨0, s.threadOffset + 1⟩ else ⟨baseCore, s.threadOffset⟩

/-- The loop after `i` rounds. -/
def sweep (numCores : ℕ) (ileave : BitVec 64) : (i : ℕ) → Sweep
  | 0 => ⟨0, 0⟩
  | i + 1 => (sweep numCores ileave i).advance numCores ileave

def calculateAffinity (threadNum : ℕ) (sys : SystemInfo) (ileave : BitVec 64) :
    Except PlaceError (BitVec 64) :=
  if sys.numCores ≤ threadNum then .error .threadNum
  else
    let s := sweep sys.numCores ileave threadNum
    .ok (s.baseCore + s.threadOffset)

section Strides
variable {n k q i j : ℕ}

/-- The number of steps of size `k` that start below `n`. -/
def stepsBelow (n k : ℕ) : ℕ := (n + k - 1) / k

lemma stepsBelow_spec (hn : 0 < n) (hk : 0 < k) :
    0 < stepsBelow n k ∧ n ≤ stepsBelow n k * k ∧ stepsBelow n k * k < n + k := by
  have hdiv := Nat.div_add_mod (n + k - 1) k
  have hmod := Nat.mod_lt (n + k - 1) hk
  have hcomm : k * ((n + k - 1) / k) = stepsBelow n k * k := Nat.mul_comm _ _
  refine ⟨Nat.div_pos (by omega) hk, by omega, by omega⟩

/-- Step `i % q` of size `k`, in sweep `i / q`. -/
def strided (q k i : ℕ) : ℕ := i % q * k + i / q

lemma strided_lt (hq : 0 < q) (hi : i < q * k) : strided q k i < q * k := by
  have hstep := Nat.mod_lt i hq
  have hsweep := Nat.div_lt_of_lt_mul hi
  calc i % q * k + i / q < i % q * k + k := by omega
    _ = (i % q + 1) * k := by ring
    _ ≤ q * k := Nat.mul_le_mul_right k hstep

/-- The step and the sweep of a thread can be told from its CPU. -/
lemma strided_injOn (hi : i < q * k) (hj : j < q * k) (h : strided q k i = strided q k j) : i = j := by
  have hkpos : 0 < k := Nat.pos_of_mul_pos_left (Nat.zero_lt_of_lt hi)
  have hmod (m : ℕ) (hm : m < q * k) : strided q k m % k = m / q := by
    rw [strided, Nat.mul_add_mod_self_right, Nat.mod_eq_of_lt (Nat.div_lt_of_lt_mul hm)]
  have hdiv (m : ℕ) (hm : m < q * k) : strided q k m / k = m % q := by
    rw [strided, Nat.mul_comm, Nat.mul_add_div hkpos, Nat.div_eq_of_lt (Nat.div_lt_of_lt_mul hm), Nat.add_zero]
  have hsweep : i / q = j / q := by rw [← hmod i hi, ← hmod j hj, h]
  have hstep : i % q = j % q := by rw [← hdiv i hi, ← hdiv j hj, h]
  rw [← Nat.div_add_mod i q, ← Nat.div_add_mod j q, hsweep, hstep]

lemma stepsBelow_mul_of_dvd (hn : 0 < n) (hk : 0 < k) (hdvd : k ∣ n) : stepsBelow n k * k = n := by
  obtain ⟨-, hle, hlt⟩ := stepsBelow_spec hn hk
  obtain ⟨m, rfl⟩ := hdvd
  have hge : m ≤ stepsBelow (k * m) k := by
    apply Nat.le_of_mul_le_mul_left _ hk
    rwa [Nat.mul_comm k (stepsBelow _ _)]
  have hsucc : stepsBelow (k * m) k < m + 1 := by
    apply Nat.lt_of_mul_lt_mul_left (a := k)
    rwa [Nat.mul_comm k (stepsBelow _ _), Nat.mul_add, Nat.mul_one]
  rw [show stepsBelow (k * m) k = m by omega, Nat.mul_comm]

/-- Only the last step of a sweep can pass `n`, and it does from some sweep on. -/
lemma strided_lt_iff (hq : 0 < q) (hle : n ≤ q * k) (hlt : q * k < n + k) (hi : i < n) :
    strided q k i < n ↔ (i % q = q - 1 → i / q < n - (q - 1) * k) := by
  have hsweep : i / q < k := Nat.div_lt_of_lt_mul (by omega)
  have hlast : (q - 1) * k = q * k - k := Nat.sub_one_mul q k
  have hmod := Nat.mod_lt i hq
  unfold strided
  by_cases hstep : i % q = q - 1
  · simp only [hstep, true_implies]
    omega
  · have hnext : (i % q + 1) * k ≤ (q - 1) * k := Nat.mul_le_mul_right k (by omega)
    rw [Nat.add_mul] at hnext
    simp only [hstep, false_implies, iff_true]
    omega

lemma forall_last_step_iff (hq : 0 < q) (b : ℕ) :
    (∀ i < n, i % q = q - 1 → i / q < b) ↔ n / q ≤ b := by
  constructor
  · intro hall
    by_contra hlt
    -- the last step of sweep `b`
    obtain ⟨hdiv, hmod⟩ := (Nat.div_mod_unique (a := q - 1 + q * b) (c := q - 1) (d := b) hq).mpr
      ⟨rfl, by omega⟩
    have hle : q * (b + 1) ≤ n := by
      rw [Nat.mul_comm]
      exact (Nat.le_div_iff_mul_le hq).mp (by omega)
    rw [Nat.mul_add] at hle
    have hb := hall (q - 1 + q * b) (by omega) hmod
    omega
  · intro hle i hi hmod
    have hdiv := Nat.div_add_mod i q
    have hmul : (i / q + 1) * q ≤ n := by
      rw [Nat.add_mul, Nat.mul_comm]
      omega
    have hsucc := (Nat.le_div_iff_mul_le hq).mpr hmul
    omega

/-- The next thread is in the next step, or in the first one of the next sweep. -/
lemma succ_step (hq : 0 < q) (i : ℕ) :
    if i % q + 1 = q then (i + 1) % q = 0 ∧ (i + 1) / q = i / q + 1
    else (i + 1) % q = i % q + 1 ∧ (i + 1) / q = i / q := by
  have hlt := Nat.mod_lt i hq
  have hdiv := Nat.div_add_mod i q
  split
  · next hlast =>
    have huniq := (Nat.div_mod_unique (a := i + 1) (c := 0) (d := i / q + 1) hq).mpr
      ⟨by rw [Nat.mul_add]; omega, hq⟩
    exact ⟨huniq.2, huniq.1⟩
  · have huniq := (Nat.div_mod_unique (a := i + 1) (c := i % q + 1) (d := i / q) hq).mpr
      ⟨by omega, by omega⟩
    exact ⟨huniq.2, huniq.1⟩

end Strides

section Sweeps
variable {sys : SystemInfo} {n i : ℕ} {ileave : BitVec 64}

/-- Without a wrap of `base_core` the loop is in the step and the sweep of the thread. -/
lemma sweep_eq (hn : 0 < n) (hk : 0 < ileave.toNat) (hwrap : stepsBelow n ileave.toNat * ileave.toNat < 2 ^ 64)
    (hi : i < 2 ^ 64) :
    (sweep n ileave i).baseCore.toNat = i % stepsBelow n ileave.toNat * ileave.toNat ∧
      (sweep n ileave i).threadOffset.toNat = i / stepsBelow n ileave.toNat := by
  obtain ⟨hq, hle, hlt⟩ := stepsBelow_spec hn hk
  generalize stepsBelow n ileave.toNat = q at *
  induction i with
  | zero => simp [sweep]
  | succ i ih =>
    obtain ⟨hbase, hoffset⟩ := ih (by omega)
    have hmod := Nat.mod_lt i hq
    have hnext : (i % q + 1) * ileave.toNat ≤ q * ileave.toNat := Nat.mul_le_mul_right _ hmod
    have hadd : ((sweep n ileave i).baseCore + ileave).toNat = (i % q + 1) * ileave.toNat := by
      rw [BitVec.toNat_add, hbase, Nat.mod_eq_of_lt] <;> rw [Nat.add_mul] at * <;> omega
    have hdiv := Nat.div_le_self i q
    have hsucc := succ_step hq i
    simp only [sweep, Sweep.advance]
    split at hsucc
    · next hlast =>
      rw [if_pos (by rw [hadd, hlast]; exact hle), hsucc.1, hsucc.2]
      refine ⟨by simp, ?_⟩
      rw [BitVec.toNat_add, hoffset, Nat.mod_eq_of_lt]
      · rfl
      · change i / q + 1 < 2 ^ 64
        omega
    · next hstep =>
      -- every step but the last one of a sweep starts below the number of CPUs
      have hmore : (i % q + 1) * ileave.toNat + ileave.toNat ≤ q * ileave.toNat := by
        rw [← Nat.succ_mul]
        exact Nat.mul_le_mul_right _ (by omega)
      rw [if_neg (by rw [hadd]; omega), hsucc.1, hsucc.2]
      exact ⟨hadd, hoffset⟩

/-- The value that `calculate_affinity` returns, with no wrap in its sum. -/
lemma calculateAffinity_eq (hk : 0 < ileave.toNat)
    (hwrap : stepsBelow sys.numCores ileave.toNat * ileave.toNat < 2 ^ 64) (hi : i < sys.numCores) :
    ∃ cpu, calculateAffinity i sys ileave = .ok cpu ∧
      cpu.toNat = strided (stepsBelow sys.numCores ileave.toNat) ileave.toNat i := by
  have hn : 0 < sys.numCores := by omega
  obtain ⟨hq, hle, -⟩ := stepsBelow_spec hn hk
  obtain ⟨hbase, hoffset⟩ := sweep_eq (i := i) hn hk hwrap (by omega)
  have hlt := strided_lt hq (by omega : i < stepsBelow sys.numCores ileave.toNat * ileave.toNat)
  refine ⟨_, if_neg (by omega), ?_⟩
  rw [BitVec.toNat_add, hbase, hoffset]
  exact Nat.mod_eq_of_lt (by unfold strided at hlt; omega)

lemma calculateAffinity_inj {j : ℕ} (hk : 0 < ileave.toNat)
    (hwrap : stepsBelow sys.numCores ileave.toNat * ileave.toNat < 2 ^ 64) (hi : i < sys.numCores)
    (hj : j < sys.numCores) (h : calculateAffinity i sys ileave = calculateAffinity j sys ileave) : i = j := by
  obtain ⟨-, hle, -⟩ := stepsBelow_spec (by omega : 0 < sys.numCores) hk
  obtain ⟨cpu, hcpu, hval⟩ := calculateAffinity_eq hk hwrap hi
  obtain ⟨cpu', hcpu', hval'⟩ := calculateAffinity_eq hk hwrap hj
  obtain rfl : cpu = cpu' := Except.ok.inj (hcpu.symm.trans (h.trans hcpu'))
  exact strided_injOn (by omega) (by omega) (hval.symm.trans hval')

/-- As long as a whole sweep can be counted in an `unsigned long`, `base_core` does not wrap and
thread `i` gets CPU `(i % q) * k + i / q`; no CPU is given twice, and none is left out when the
interleave divides the number of CPUs. -/
theorem calculateAffinity_interleaves (sys : SystemInfo) (ileave : BitVec 64) (hn : 1 ≤ sys.numCores)
    (hk : 1 ≤ ileave.toNat) (hwrap : stepsBelow sys.numCores ileave.toNat * ileave.toNat < 2 ^ 64) :
    (∀ i < sys.numCores, (sweep sys.numCores ileave i).baseCore.toNat + ileave.toNat < 2 ^ 64) ∧
    (∀ i < sys.numCores, ∃ cpu, calculateAffinity i sys ileave = .ok cpu ∧
      cpu.toNat = i % stepsBelow sys.numCores ileave.toNat * ileave.toNat +
        i / stepsBelow sys.numCores ileave.toNat) ∧
    (∀ i < sys.numCores, ∀ j < sys.numCores,
      calculateAffinity i sys ileave = calculateAffinity j sys ileave → i = j) ∧
    (ileave.toNat ∣ sys.numCores →
      ((List.range sys.numCores).map fun i => calculateAffinity i sys ileave).Perm
        ((List.range sys.numCores).map fun cpu => .ok (BitVec.ofNat 64 cpu))) := by
  obtain ⟨hq, hle, -⟩ := stepsBelow_spec hn hk
  refine ⟨?_, ?_, ?_, ?_⟩
  · intro i hi
    have hmod : i % stepsBelow sys.numCores ileave.toNat + 1 ≤ stepsBelow sys.numCores ileave.toNat :=
      Nat.mod_lt i hq
    have hnext := Nat.mul_le_mul_right ileave.toNat hmod
    rw [Nat.succ_mul] at hnext
    rw [(sweep_eq hn hk hwrap (by omega)).1]
    omega
  · intro i hi
    exact calculateAffinity_eq hk hwrap hi
  · intro i hi j hj h
    exact calculateAffinity_inj hk hwrap hi hj h
  · intro hdvd
    have hnodup : ((List.range sys.numCores).map fun i => calculateAffinity i sys ileave).Nodup := by
      apply List.Nodup.map_on _ List.nodup_range
      intro i hi j hj h
      exact calculateAffinity_inj hk hwrap (List.mem_range.mp hi) (List.mem_range.mp hj) h
    have hsub : ((List.range sys.numCores).map fun i => calculateAffinity i sys ileave) ⊆
        (List.range sys.numCores).map fun cpu => .ok (BitVec.ofNat 64 cpu) := by
      intro x hx
      obtain ⟨i, hi, rfl⟩ := List.mem_map.mp hx
      obtain ⟨cpu, hcpu, hval⟩ := calculateAffinity_eq hk hwrap (List.mem_range.mp hi)
      have hlt := strided_lt (i := i) (k := ileave.toNat) hq (by have := List.mem_range.mp hi; omega)
      rw [stepsBelow_mul_of_dvd hn hk hdvd, ← hval] at hlt
      exact List.mem_map.mpr ⟨cpu.toNat, List.mem_range.mpr hlt, by simp [hcpu]⟩
    exact (hnodup.subperm hsub).perm_of_length_le (by simp)

/-- Thread 5 of eight, four apart -/
theorem calculateAffinity_interleaves_eight :
    ∃ cpu, calculateAffinity 5 ⟨8, 8, 8⟩ 4 = .ok cpu ∧ cpu.toNat = 5 % 2 * 4 + 5 / 2 :=
  (calculateAffinity_interleaves ⟨8, 8, 8⟩ 4 (by decide) (by decide) (by decide)).2.1 5 (by decide)

/-- With `ULONG_MAX` CPUs, `2 ^ 62` apart, `base_core` wraps to 0 at the fifth thread and the sweep is
not counted. -/
theorem calculateAffinity_wraps :
    ¬ ∀ (sys : SystemInfo) (ileave : BitVec 64), 1 ≤ sys.numCores → sys.numCores < 2 ^ 64 →
      1 ≤ ileave.toNat → ileave.toNat < 2 ^ 63 → ∀ i < sys.numCores,
      ∃ cpu, calculateAffinity i sys ileave = .ok cpu ∧
        cpu.toNat = i % stepsBelow sys.numCores ileave.toNat * ileave.toNat +
          i / stepsBelow sys.numCores ileave.toNat := by
  intro hall
  obtain ⟨cpu, hcpu, hval⟩ := hall ⟨2 ^ 64 - 1, 1, 1⟩ 0x4000000000000000 (by decide) (by decide) (by decide) (by decide)
    4 (by decide)
  have hsteps : stepsBelow (2 ^ 64 - 1) (BitVec.toNat (0x4000000000000000 : BitVec 64)) = 4 := by decide
  have hcode : calculateAffinity 4 ⟨2 ^ 64 - 1, 1, 1⟩ 0x4000000000000000 = .ok 0 := by decide
  obtain rfl : 0 = cpu := Except.ok.inj (hcode.symm.trans hcpu)
  rw [hsteps] at hval
  exact absurd hval (by decide)

/-- A sweep can be counted in an `unsigned long`, and there are no more whole rounds of threads
than CPUs left in its last step. -/
structure StaysOnMachine (numCores ileave : ℕ) : Prop where
  counts : stepsBelow numCores ileave * ileave < 2 ^ 64
  lastStep : numCores / stepsBelow numCores ileave ≤ numCores - (stepsBelow numCores ileave - 1) * ileave

/-- Where no sum wraps, the interleaved CPUs are CPUs of the machine just under this condition. -/
theorem calculateAffinity_lt_iff (sys : SystemInfo) (ileave : BitVec 64) (hn : 1 ≤ sys.numCores)
    (hk : 1 ≤ ileave.toNat) :
    (StaysOnMachine sys.numCores ileave.toNat → ∀ i < sys.numCores,
      ∃ cpu, calculateAffinity i sys ileave = .ok cpu ∧ cpu.toNat < sys.numCores) ∧
    (stepsBelow sys.numCores ileave.toNat * ileave.toNat < 2 ^ 64 →
      ((∀ i < sys.numCores, ∃ cpu, calculateAffinity i sys ileave = .ok cpu ∧ cpu.toNat < sys.numCores) ↔
        StaysOnMachine sys.numCores ileave.toNat)) := by
  obtain ⟨hq, hle, hlt⟩ := stepsBelow_spec hn hk
  have hiff (hwrap : stepsBelow sys.numCores ileave.toNat * ileave.toNat < 2 ^ 64) :
      (∀ i < sys.numCores, ∃ cpu, calculateAffinity i sys ileave = .ok cpu ∧ cpu.toNat < sys.numCores) ↔
        StaysOnMachine sys.numCores ileave.toNat := by
    constructor
    · intro hall
      refine ⟨hwrap, (forall_last_step_iff hq _).mp ?_⟩
      intro i hi
      apply (strided_lt_iff hq hle hlt hi).mp
      obtain ⟨cpu, hcpu, hlow⟩ := hall i hi
      obtain ⟨cpu', hcpu', hval⟩ := calculateAffinity_eq hk hwrap hi
      obtain rfl : cpu = cpu' := Except.ok.inj (hcpu.symm.trans hcpu')
      rwa [← hval]
    · intro hstays i hi
      obtain ⟨cpu, hcpu, hval⟩ := calculateAffinity_eq hk hwrap hi
      refine ⟨cpu, hcpu, ?_⟩
      rw [hval]
      exact (strided_lt_iff hq hle hlt hi).mpr ((forall_last_step_iff hq _).mpr hstays.lastStep i hi)
  exact ⟨fun hstays => (hiff hstays.counts).mpr hstays, hiff⟩

/-- The last of eight, four apart: four rounds, and four CPUs in the last step -/
theorem calculateAffinity_lt_eight :
    ∃ cpu, calculateAffinity 7 ⟨8, 8, 8⟩ 4 = .ok cpu ∧ cpu.toNat < 8 :=
  (calculateAffinity_lt_iff ⟨8, 8, 8⟩ 4 (by decide) (by decide)).1 ⟨by decide, by decide⟩ 7 (by decide)

/-- Thread 3 of four, three apart, is sent to CPU 4. -/
theorem calculateAffinity_leaves_machine :
    ¬ ∀ (sys : SystemInfo) (ileave : BitVec 64), 1 ≤ sys.numCores → sys.numCores < 2 ^ 64 →
      1 ≤ ileave.toNat → ileave.toNat < 2 ^ 63 → ∀ i < sys.numCores,
      ∃ cpu, calculateAffinity i sys ileave = .ok cpu ∧ cpu.toNat < sys.numCores := by
  intro hall
  obtain ⟨cpu, hcpu, hlt⟩ := hall ⟨4, 4, 4⟩ 3 (by decide) (by decide) (by decide) (by decide) 3 (by decide)
  have hcode : calculateAffinity 3 ⟨4, 4, 4⟩ 3 = .ok 4 := rfl
  obtain rfl : 4 = cpu := Except.ok.inj (hcode.symm.trans hcpu)
  exact absurd hlt (by decide)

end Sweeps

end Lockhammer.Args
