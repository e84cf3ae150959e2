import Lockhammer.CLib.IntLoop
import Lockhammer.Harness.Args
import Mathlib.Data.List.Perm.Subperm
import Mathlib.Tactic.Positivity

/-!
# CPU ranges of a pinning order (args.c)

The two loops of `parse_args` that write the CPUs of a range `m[-n[:s]]`. The loop variable
is an `int`, so a range is written as it reads only while it stays among the numbers of that
type, and a downward range has to stop before the variable turns negative.
-/
namespace Lockhammer.Args
open CLib

/-- `cpu_range`, with the defaults of a range that leaves out its end or its skip. -/
structure CpuRange where
  first : BitVec 64
  last : BitVec 64
  skip : BitVec 64
  deriving DecidableEq

def cpuRange (csv : List Char) : Option CpuRange :=
  match parseCpulistRange csv with
  | [first] => some ⟨first, first, 1⟩
  | [first, last] => some ⟨first, last, 1⟩
  | [first, last, skip] => some ⟨first, last, skip⟩
  | _ => none

namespace CpuRange

/-- The checks between the reading and the loops. -/
def Passes (sys : SystemInfo) (r : CpuRange) : Prop := r.last.toNat < sys.numCores ∧ 1 ≤ r.skip.toInt

instance (sys : SystemInfo) (r : CpuRange) : Decidable (r.Passes sys) := inferInstanceAs (Decidable (_ ∧ _))

/-- The `k`-th number that the range names, first to last. -/
def number (r : CpuRange) (k : ℕ) : ℤ :=
  if r.first.toNat ≤ r.last.toNat then r.first.toNat + k * r.skip.toNat
  else r.first.toNat - k * r.skip.toNat

/-- How many numbers the range names. -/
def count (r : CpuRange) : ℕ :=
  (if r.first.toNat ≤ r.last.toNat then r.last.toNat - r.first.toNat
    else r.first.toNat - r.last.toNat) / r.skip.toNat + 1

def wanted (r : CpuRange) : List ℤ := (List.range r.count).map r.number

/-- The numbers of the range are of type `int`, and the first one behind them, converted to
that type and compared as an `unsigned long`, lies behind the end. -/
structure StaysInt (r : CpuRange) : Prop where
  fits : ∀ v ∈ r.wanted, v < 2 ^ 31
  ends : if r.first.toNat ≤ r.last.toNat then r.last.toNat < intToUlong (r.number r.count)
    else intToUlong (r.number r.count) < r.last.toNat

instance (r : CpuRange) : Decidable r.StaysInt :=
  decidable_of_iff ((∀ v ∈ r.wanted, v < 2 ^ 31) ∧ if r.first.toNat ≤ r.last.toNat then
      r.last.toNat < intToUlong (r.number r.count) else intToUlong (r.number r.count) < r.last.toNat)
    ⟨fun h => ⟨h.1, h.2⟩, fun h => ⟨h.fits, h.ends⟩⟩

/-- The test of the loop that the range takes. -/
def more (r : CpuRange) (cpu : BitVec 32) : Bool :=
  if r.first.ule r.last then intLe cpu r.last else intGe cpu r.last

/-- The step of that loop, with its sign. -/
def step (r : CpuRange) : BitVec 64 := if r.first.ule r.last then r.skip else -r.skip

/-- The CPUs that the loop writes when it ends. -/
def Expands (r : CpuRange) (cpus : List (BitVec 32)) : Prop :=
  Visits r.more r.step (r.first.setWidth 32) cpus

section Numbers
variable {sys : SystemInfo} {r : CpuRange}

lemma Passes.skip_toNat (h : r.Passes sys) : 0 < r.skip.toNat ∧ r.skip.toInt = r.skip.toNat := by
  have hskip := h.2
  have hcond := BitVec.toInt_eq_toNat_cond r.skip
  have hlt := r.skip.isLt
  split at hcond <;> omega

/-- The numbers of a range are those on this side of its end. -/
lemma Passes.lt_count_iff (h : r.Passes sys) (k : ℕ) :
    k < r.count ↔ if r.first.toNat ≤ r.last.toNat then r.number k ≤ r.last.toNat
      else (r.last.toNat : ℤ) ≤ r.number k := by
  obtain ⟨hpos, -⟩ := h.skip_toNat
  unfold count number
  rw [Nat.lt_succ_iff, Nat.le_div_iff_mul_le hpos]
  have hmul : ((k * r.skip.toNat : ℕ) : ℤ) = k * r.skip.toNat := Nat.cast_mul _ _
  split <;> omega

lemma Passes.number_nonneg (h : r.Passes sys) {k : ℕ} (hk : k < r.count) : 0 ≤ r.number k := by
  have hlt := (h.lt_count_iff k).mp hk
  split at hlt
  · next hup =>
    rw [number, if_pos hup]
    positivity
  · omega

/-- The ranges read as `m, m + s, …` up to `n`, and as `m, m - s, …` down to `n`. -/
theorem mem_wanted (h : r.Passes sys) (v : ℤ) :
    v ∈ r.wanted ↔ ∃ k : ℕ, v = r.number k ∧
      if r.first.toNat ≤ r.last.toNat then v ≤ r.last.toNat else (r.last.toNat : ℤ) ≤ v := by
  unfold wanted
  rw [List.mem_map]
  constructor
  · intro hv
    obtain ⟨k, hk, rfl⟩ := hv
    exact ⟨k, rfl, (h.lt_count_iff k).mp (List.mem_range.mp hk)⟩
  · intro hv
    obtain ⟨k, rfl, hk⟩ := hv
    exact ⟨k, List.mem_range.mpr ((h.lt_count_iff k).mpr hk), rfl⟩

lemma Passes.step_toInt (h : r.Passes sys) :
    r.step.toInt = if r.first.toNat ≤ r.last.toNat then (r.skip.toNat : ℤ) else -r.skip.toNat := by
  obtain ⟨hpos, hskip⟩ := h.skip_toNat
  simp only [step, BitVec.ule, decide_eq_true_eq]
  split
  · exact hskip
  · have hmin : r.skip ≠ BitVec.intMin 64 := by
      intro heq
      rw [heq] at hskip
      have hneg : (BitVec.intMin 64).toInt < 0 := by decide
      omega
    rw [BitVec.toInt_neg_of_ne_intMin hmin, hskip]

/-- The value of the loop in pass `k` is the `k`-th number. -/
lemma Passes.passValue_eq (h : r.Passes sys) (k : ℕ) : passValue r.first.toNat r.step k = r.number k := by
  unfold passValue number
  rw [h.step_toInt]
  split
  · rfl
  · ring

lemma more_ofInt (r : CpuRange) (v : ℤ) : r.more (BitVec.ofInt 32 v) = true ↔
    if r.first.toNat ≤ r.last.toNat then intToUlong v ≤ r.last.toNat else r.last.toNat ≤ intToUlong v := by
  simp only [more, BitVec.ule, decide_eq_true_eq]
  split
  · simp [intLe, BitVec.ule, intToUlong]
  · simp [intGe, BitVec.ule, intToUlong]

end Numbers

section Expansion
variable {sys : SystemInfo} {r : CpuRange} {cpus : List (BitVec 32)}

/-- The test behind the last number, as the end of the range states it. -/
lemma more_eq_false (v : ℤ) : r.more (BitVec.ofInt 32 v) = false ↔
    if r.first.toNat ≤ r.last.toNat then r.last.toNat < intToUlong v else intToUlong v < r.last.toNat := by
  rw [← Bool.not_eq_true, more_ofInt]
  split <;> omega

lemma number_mem_wanted {k : ℕ} (hk : k < r.count) : r.number k ∈ r.wanted :=
  List.mem_map.mpr ⟨k, List.mem_range.mpr hk, rfl⟩

lemma Passes.more_number (h : r.Passes sys) {k : ℕ} (hk : k < r.count) (hfits : r.number k < 2 ^ 31) :
    r.more (BitVec.ofInt 32 (r.number k)) = true := by
  have hval := intToUlong_of_nonneg (h.number_nonneg hk) hfits
  have hend := (h.lt_count_iff k).mp hk
  rw [more_ofInt]
  split at hend
  · next hup =>
    rw [if_pos hup]
    omega
  · next hdown =>
    rw [if_neg hdown]
    omega

/-- The loop of a range comes through its first numbers as long as they are `int`s. -/
lemma Passes.reaches (h : r.Passes sys) {k : ℕ} (hk : k ≤ r.count) (hfits : ∀ i < k, r.number i < 2 ^ 31) :
    ∃ cpus, cpus.map BitVec.toInt = (List.range k).map r.number ∧
      Reaches r.more r.step (r.first.setWidth 32) cpus (BitVec.ofInt 32 (r.number k)) := by
  refine ⟨(List.range k).map fun i => BitVec.ofInt 32 (r.number i), ?_, ?_⟩
  · rw [List.map_map]
    apply List.map_congr_left
    intro i hi
    have hlt := List.mem_range.mp hi
    have hnonneg := h.number_nonneg (lt_of_lt_of_le hlt hk)
    exact toInt_ofInt_of_int (by omega) (hfits i hlt)
  · have hreaches : Reaches r.more r.step (BitVec.ofInt 32 r.first.toNat)
        ((List.range k).map fun i => BitVec.ofInt 32 (passValue r.first.toNat r.step i))
        (BitVec.ofInt 32 (passValue r.first.toNat r.step k)) := by
      apply reaches_of_tests
      intro i hi
      rw [h.passValue_eq]
      exact h.more_number (lt_of_lt_of_le hi hk) (hfits i hi)
    rw [setWidth_eq_ofInt_toNat]
    simpa only [h.passValue_eq] using hreaches

/-- A range that stays among the `int`s is expanded to what it reads. -/
theorem StaysInt.expands (hs : r.StaysInt) (h : r.Passes sys) :
    ∃ cpus, r.Expands cpus ∧ cpus.map BitVec.toInt = r.wanted := by
  obtain ⟨cpus, hints, hreaches⟩ := h.reaches le_rfl fun i hi => hs.fits _ (number_mem_wanted hi)
  exact ⟨cpus, hreaches.visits ((more_eq_false _).mpr hs.ends), hints⟩

/-- And no other range is. -/
theorem Expands.staysInt (hx : r.Expands cpus) (h : r.Passes sys) (hcpus : cpus.map BitVec.toInt = r.wanted) :
    r.StaysInt := by
  have hlen : cpus.length = r.count := by simpa [wanted] using congrArg List.length hcpus
  constructor
  · intro v hv
    rw [← hcpus] at hv
    obtain ⟨cpu, -, rfl⟩ := List.mem_map.mp hv
    have hlt := BitVec.two_mul_toInt_lt (x := cpu)
    omega
  · unfold Expands at hx
    rw [setWidth_eq_ofInt_toNat] at hx
    have hstop := hx.tests.2.1
    rwa [h.passValue_eq, hlen, more_eq_false] at hstop

end Expansion

end CpuRange

section Writes
variable {more : BitVec 32 → Bool} {step : BitVec 64} {cpu : BitVec 32} {cpus : List (BitVec 32)}
  {room : ℕ} {sp sp' : Specified}

/-- The bodies of an expansion loop over the CPUs that it visits. -/
def fill : (cpus : List (BitVec 32)) → (room : ℕ) → Specified → Except ArgError Specified
  | [], _, sp => .ok sp
  | cpu :: cpus, room, sp =>
    match specify cpu sp, room with
    | .error e, _ => .error e
    | .ok _, 0 => .error .cpusOverflow
    | .ok sp, room + 1 => fill cpus room sp

lemma specify_cases (cpu : BitVec 32) (sp : Specified) :
    (cpuIsset cpu sp.cores = true ∧ specify cpu sp = .error (.duplicateCpu cpu)) ∨
      (cpuIsset cpu sp.cores = false ∧ specify cpu sp = .ok ⟨cpuSet cpu sp.cores, sp.cpus ++ [cpu]⟩) := by
  unfold specify
  cases h : cpuIsset cpu sp.cores with
  | true => simp
  | false => simp

lemma specify_ok (h : specify cpu sp = .ok sp') :
    cpuIsset cpu sp.cores = false ∧ sp' = ⟨cpuSet cpu sp.cores, sp.cpus ++ [cpu]⟩ := by
  obtain ⟨-, herr⟩ | ⟨hset, hok⟩ := specify_cases cpu sp
  · simp [herr] at h
  · exact ⟨hset, by simpa [hok] using h.symm⟩

/-- A loop that comes to `j` has written what it saw before. -/
lemma expand_of_reaches {j : BitVec 32} (h : Reaches more step cpu cpus j) :
    expand more step room cpu sp = match fill cpus room sp with
      | .error e => .error e
      | .ok sp' => expand more step (room - cpus.length) j sp' := by
  induction h generalizing room sp with
  | here => simp [fill]
  | @next cpu j cpus hmore _ ih =>
    conv_lhs => unfold expand
    unfold fill
    rw [if_pos hmore]
    obtain ⟨-, herr⟩ | ⟨-, hok⟩ := specify_cases cpu sp
    · simp only [herr]
    · cases room with
      | zero => simp only [hok]
      | succ room =>
        simp only [hok, List.length_cons, Nat.add_sub_add_right]
        exact ih

/-- A loop that ends writes the CPUs that it visits. -/
lemma expand_of_visits (h : Visits more step cpu cpus) : expand more step room cpu sp = fill cpus room sp := by
  obtain ⟨j, hreaches, hstop⟩ := h.reaches
  rw [expand_of_reaches hreaches]
  cases fill cpus room sp with
  | error e => rfl
  | ok sp' =>
    dsimp only
    unfold expand
    simp [hstop]

/-- A loop that leaves its array intact ends. -/
lemma visits_of_expand (h : expand more step room cpu sp = .ok sp') :
    ∃ cpus, Visits more step cpu cpus ∧ fill cpus room sp = .ok sp' := by
  suffices hends : ∃ cpus, Visits more step cpu cpus by
    obtain ⟨cpus, hv⟩ := hends
    exact ⟨cpus, hv, by rw [← expand_of_visits hv, h]⟩
  induction room generalizing cpu sp with
  | zero =>
    unfold expand at h
    split at h
    · obtain ⟨-, herr⟩ | ⟨-, hok⟩ := specify_cases cpu sp
      · simp [herr] at h
      · simp [hok] at h
    · next hstop => exact ⟨[], .stop (by simpa using hstop)⟩
  | succ room ih =>
    unfold expand at h
    split at h
    · next hmore =>
      obtain ⟨-, herr⟩ | ⟨-, hok⟩ := specify_cases cpu sp
      · simp [herr] at h
      · simp only [hok] at h
        obtain ⟨cpus, hv⟩ := ih h
        exact ⟨cpu :: cpus, .next hmore hv⟩
    · next hstop => exact ⟨[], .stop (by simpa using hstop)⟩

lemma fill_ok (h : fill cpus room sp = .ok sp') : sp'.cpus = sp.cpus ++ cpus ∧ cpus.length ≤ room := by
  induction cpus generalizing room sp with
  | nil =>
    obtain rfl : sp = sp' := by simpa [fill] using h
    simp
  | cons cpu cpus ih =>
    unfold fill at h
    split at h
    · simp at h
    · simp at h
    · next hok =>
      obtain ⟨hcpus, hlen⟩ := ih h
      rw [(specify_ok hok).2] at hcpus
      refine ⟨by simpa using hcpus, ?_⟩
      simp only [List.length_cons]
      omega

/-- With enough room the only other outcome is a CPU that was named before. -/
lemma fill_of_length_le (sp : Specified) (hlen : cpus.length ≤ room) :
    (∃ sp', fill cpus room sp = .ok sp') ∨ ∃ cpu, fill cpus room sp = .error (.duplicateCpu cpu) := by
  induction cpus generalizing room sp with
  | nil => exact Or.inl ⟨sp, rfl⟩
  | cons cpu cpus ih =>
    cases room with
    | zero => simp at hlen
    | succ room =>
      obtain ⟨-, herr⟩ | ⟨-, hok⟩ := specify_cases cpu sp
      · exact Or.inr ⟨cpu, by simp [fill, herr]⟩
      · simp only [fill, hok]
        exact ih _ (by simpa using hlen)

end Writes

section Tokens
variable {sys : SystemInfo} {csv : List Char} {r : CpuRange} {sp sp' : Specified}

lemma parseCsv_of_none (h : cpuRange csv = none) : parseCsv sys csv sp = .error (.cpuRange csv) := by
  unfold cpuRange at h
  unfold parseCsv
  split at h <;> simp_all

/-- A range that can be read is checked and then expanded. -/
lemma parseCsv_of_range (h : cpuRange csv = some r) :
    parseCsv sys csv sp = if sys.numCores ≤ r.last.toNat then .error (.cpuNumber csv r.last)
      else if r.skip.slt 1 then .error (.cpuSkip csv)
      else expand r.more r.step (sys.numCores - sp.cpus.length) (r.first.setWidth 32) sp := by
  have hloop : expand r.more r.step (sys.numCores - sp.cpus.length) (r.first.setWidth 32) sp =
      if r.first.ule r.last then
        expand (intLe · r.last) r.skip (sys.numCores - sp.cpus.length) (r.first.setWidth 32) sp
      else expand (intGe · r.last) (-r.skip) (sys.numCores - sp.cpus.length) (r.first.setWidth 32) sp := by
    unfold CpuRange.more CpuRange.step
    split <;> rfl
  rw [hloop]
  unfold cpuRange at h
  unfold parseCsv
  split at h
  · obtain rfl := (Option.some.inj h).symm
    simp [*]
  · obtain rfl := (Option.some.inj h).symm
    simp [*]
  · obtain rfl := (Option.some.inj h).symm
    simp [*]
  · simp at h

lemma slt_one_eq_false (h : r.Passes sys) : r.skip.slt 1 = false := by
  have hone : (1 : BitVec 64).toInt = 1 := by decide
  have hskip := h.2
  rw [BitVec.slt_eq_decide, decide_eq_false_iff_not, hone]
  omega

lemma parseCsv_of_passes (h : cpuRange csv = some r) (hp : r.Passes sys) :
    parseCsv sys csv sp = expand r.more r.step (sys.numCores - sp.cpus.length) (r.first.setWidth 32) sp := by
  have hlast := hp.1
  rw [parseCsv_of_range h, if_neg (by omega), slt_one_eq_false hp]
  simp

/-- What an accepted range appended. -/
lemma parseCsv_ok (h : cpuRange csv = some r) (hp : r.Passes sys) (hok : parseCsv sys csv sp = .ok sp') :
    ∃ cpus, r.Expands cpus ∧ sp'.cpus = sp.cpus ++ cpus ∧ cpus.length ≤ sys.numCores - sp.cpus.length := by
  rw [parseCsv_of_passes h hp] at hok
  obtain ⟨cpus, hv, hfill⟩ := visits_of_expand hok
  exact ⟨cpus, hv, fill_ok hfill⟩

/-- A range is written as it reads just when it stays among the `int`s and there is room for it
in the array. -/
theorem parseCsv_expands_iff (hr : cpuRange csv = some r) (hp : r.Passes sys)
    (hdup : ∀ cpu, parseCsv sys csv sp ≠ .error (.duplicateCpu cpu)) :
    (∃ sp' cpus, parseCsv sys csv sp = .ok sp' ∧ sp'.cpus = sp.cpus ++ cpus ∧
      cpus.map BitVec.toInt = r.wanted) ↔
      r.StaysInt ∧ r.count ≤ sys.numCores - sp.cpus.length := by
  have hcount : r.wanted.length = r.count := by simp [CpuRange.wanted]
  constructor
  · intro hw
    obtain ⟨sp', cpus, hok, hcpus, hwanted⟩ := hw
    obtain ⟨cpus', hx, hcpus', hroom⟩ := parseCsv_ok hr hp hok
    obtain rfl : cpus' = cpus := List.append_cancel_left (hcpus'.symm.trans hcpus)
    refine ⟨hx.staysInt hp hwanted, ?_⟩
    rw [← hcount, ← hwanted, List.length_map]
    exact hroom
  · intro hcond
    obtain ⟨hs, hroom⟩ := hcond
    obtain ⟨cpus, hx, hwanted⟩ := hs.expands hp
    have hfill : parseCsv sys csv sp = fill cpus (sys.numCores - sp.cpus.length) sp := by
      rw [parseCsv_of_passes hr hp]
      exact expand_of_visits hx
    have hlen : cpus.length ≤ sys.numCores - sp.cpus.length := by
      rw [← hcount, ← hwanted, List.length_map] at hroom
      exact hroom
    obtain ⟨sp', hok⟩ | ⟨cpu, herr⟩ := fill_of_length_le sp hlen
    · exact ⟨sp', cpus, hfill.trans hok, (fill_ok hok).1, hwanted⟩
    · exact absurd (hfill.trans herr) (hdup cpu)

/-- `1-5:2` on eight CPUs -/
theorem parseCsv_expands_one_to_five :
    ∃ sp' cpus, parseCsv ⟨8, 8, 8⟩ "1-5:2".toList {} = .ok sp' ∧ sp'.cpus = [] ++ cpus ∧
      cpus.map BitVec.toInt = [1, 3, 5] := by
  have hr : cpuRange "1-5:2".toList = some ⟨1, 5, 2⟩ := by decide
  have hp : CpuRange.Passes ⟨8, 8, 8⟩ ⟨1, 5, 2⟩ := by decide
  have hx : CpuRange.Expands ⟨1, 5, 2⟩ [1, 3, 5] := .next rfl (.next rfl (.next rfl (.stop rfl)))
  have hparse : parseCsv ⟨8, 8, 8⟩ "1-5:2".toList {} = .ok ⟨[5, 3, 1], [1, 3, 5]⟩ := by
    rw [parseCsv_of_passes hr hp]
    exact expand_of_visits hx
  refine (parseCsv_expands_iff hr hp ?_).mpr ⟨hx.staysInt hp (by decide), by decide⟩
  intro cpu
  rw [hparse]
  simp

/-- The loop of `2-0` goes on behind CPU 0: below zero its variable compares as a large number. -/
theorem parseCsv_two_to_zero_overflows :
    ¬ ∀ (sys : SystemInfo) (csv : List Char) (r : CpuRange) (sp : Specified),
      cpuRange csv = some r → r.Passes sys → (∀ cpu, parseCsv sys csv sp ≠ .error (.duplicateCpu cpu)) →
      ∃ sp' cpus, parseCsv sys csv sp = .ok sp' ∧ sp'.cpus = sp.cpus ++ cpus ∧
        cpus.map BitVec.toInt = r.wanted := by
  have hparse : parseCsv ⟨4, 4, 4⟩ "2-0".toList {} = .error .cpusOverflow := rfl
  intro hall
  obtain ⟨sp', cpus, hok, -⟩ := hall ⟨4, 4, 4⟩ "2-0".toList ⟨2, 0, 1⟩ {} (by decide) (by decide)
    (by intro cpu; rw [hparse]; simp)
  rw [hparse] at hok
  simp at hok

end Tokens

end Lockhammer.Args
