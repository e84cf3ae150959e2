import Lockhammer.Harness.Affinity
import Lockhammer.Harness.Rerun
import Mathlib.Data.List.GetD

/-!
# Frequency scaling of the CPUs (cpufreq-scaling-detect.c)

The check of the cpufreq driver and governor of a CPU, of its frequency limits and of the boost,
from the files below `/sys/devices/system/cpu/cpufreq`. The diagnostics that the checks print
are left out.
-/
namespace Lockhammer.Cpufreq
open CLib Args

/-- The contents of the files that can be opened. -/
abbrev Files := (filename : List Char) → Option (List Char)

/-- The string that `get_proc_file_first_line` returns. A file that cannot be opened or read has
an empty one. -/
def getProcFileFirstLine (files : Files) (filename : List Char) : List Char :=
  ((files filename).getD []).takeWhile fun c => c ≠ '\n' && c ≠ '\x00'

def policyPath : List Char := "/sys/devices/system/cpu/cpufreq/policy".toList

/-- `/sys/devices/system/cpu/cpufreq/policy%lu/%s` -/
def scalingPath (cpunum : BitVec 64) (filename : List Char) : List Char :=
  policyPath ++ (Nat.toDigits 10 cpunum.toNat ++ '/' :: filename)

/-- The exit for a path that is too long is `scalingPath_fits`. -/
def getScalingString (files : Files) (cpunum : BitVec 64) (filename : List Char) : List Char :=
  getProcFileFirstLine files (scalingPath cpunum filename)

def getScalingGovernor (files : Files) (cpunum : BitVec 64) : List Char :=
  getScalingString files cpunum "scaling_governor".toList

def getScalingDriver (files : Files) (cpunum : BitVec 64) : List Char :=
  getScalingString files cpunum "scaling_driver".toList

def getScalingMaxFreq (files : Files) (cpunum : BitVec 64) : List Char :=
  getScalingString files cpunum "scaling_max_freq".toList

def getScalingMinFreq (files : Files) (cpunum : BitVec 64) : List Char :=
  getScalingString files cpunum "scaling_min_freq".toList

/-- A `long` returned as an `int`. -/
def getBoostValue (files : Files) : BitVec 32 :=
  (strtol (getProcFileFirstLine files "/sys/devices/system/cpu/cpufreq/boost".toList) 0).1.setWidth 32

/-- `scaling_t`; `none` is `NULL`. -/
structure Scaling where
  scalingDriver : Option (List Char)
  scalingGovernor : Option (List Char)

def knownGoodCpufreqScalers : List Scaling :=
  [⟨some [], some []⟩, ⟨some "cppc_cpufreq".toList, some "performance".toList⟩,
    ⟨some "acpi-cpufreq".toList, some "performance".toList⟩]

def knownBadCpufreqScalers : List Scaling :=
  [⟨none, some "conservative".toList⟩, ⟨none, some "ondemand".toList⟩]

def searchCpufreqList : List Scaling → (scalingDriver scalingGovernor : List Char) → Bool
  | [], _, _ => false
  | s :: scalingList, driver, governor =>
    if s.scalingDriver.any (· ≠ driver) then searchCpufreqList scalingList driver governor
    else if s.scalingGovernor.any (· ≠ governor) then searchCpufreqList scalingList driver governor
    else true

def checkScalingMinMaxFreqAreEqual (files : Files) (cpunum : BitVec 64) : Bool :=
  getScalingMinFreq files cpunum = getScalingMaxFreq files cpunum

def checkCpufreqBoostIsOK (files : Files) (ignore : Bool) : Bool :=
  if getBoostValue files = 0 then true else ignore

def checkCpufreqGovernorIsOKOnCpunum (files : Files) (ignore : Bool) (cpunum : BitVec 64) : Bool :=
  let scalingDriver := getScalingDriver files cpunum
  let scalingGovernor := getScalingGovernor files cpunum
  if searchCpufreqList knownGoodCpufreqScalers scalingDriver scalingGovernor then
    checkScalingMinMaxFreqAreEqual files cpunum || ignore
  else if searchCpufreqList knownBadCpufreqScalers scalingDriver scalingGovernor then false
  else if scalingDriver = "intel_pstate".toList then ignore
  else false

/-- The loop over the CPUs of a pinorder, which passes an `int` for an `unsigned long`. -/
def checkIfCpufreqGovernorsOfPinorderAreOk (files : Files) (ignore : Bool) (po : Pinorder) : Bool :=
  (List.range po.numThreads).all fun i =>
    checkCpufreqGovernorIsOKOnCpunum files ignore (((po.cpuList.getD []).getD i 0).signExtend 64)

section Checks
variable {files : Files} {cpunum : BitVec 64}

/-- The names of the files are short enough for `full_path`. -/
lemma scalingPath_fits (cpunum : BitVec 64) {filename : List Char} (hname : filename.length ≤ 16) :
    (scalingPath cpunum filename).length < 200 := by
  have hdigits : (Nat.toDigits 10 cpunum.toNat).length ≤ 20 :=
    (Nat.length_toDigits_le_iff (by omega) (by omega)).mpr (cpunum.isLt.trans_le (by decide))
  have hpolicy : policyPath.length = 38 := rfl
  simp only [scalingPath, List.length_append, List.length_cons, hpolicy]
  omega

lemma searchCpufreqList_iff (scalingList : List Scaling) (driver governor : List Char) :
    searchCpufreqList scalingList driver governor = true ↔ ∃ s ∈ scalingList,
      (∀ d ∈ s.scalingDriver, d = driver) ∧ ∀ g ∈ s.scalingGovernor, g = governor := by
  induction scalingList with
  | nil => simp [searchCpufreqList]
  | cons s scalingList ih =>
    have hany (o : Option (List Char)) (v : List Char) : o.any (· ≠ v) = true ↔ ¬ ∀ x ∈ o, x = v := by
      cases o <;> simp
    rw [List.exists_mem_cons_iff, ← ih, searchCpufreqList]
    by_cases hd : ∀ d ∈ s.scalingDriver, d = driver
    · rw [if_neg fun h => (hany _ _).mp h hd]
      by_cases hg : ∀ g ∈ s.scalingGovernor, g = governor
      · rw [if_neg fun h => (hany _ _).mp h hg]
        exact iff_of_true rfl (Or.inl ⟨hd, hg⟩)
      · rw [if_pos ((hany _ _).mpr hg)]
        exact ⟨Or.inr, fun h => h.resolve_left fun h => hg h.2⟩
    · rw [if_pos ((hany _ _).mpr hd)]
      exact ⟨Or.inr, fun h => h.resolve_left fun h => hd h.1⟩

/-- The drivers and governors that are known to be good, and what is read where there are no files. -/
def goodScalers : List (List Char × List Char) :=
  [([], []), ("cppc_cpufreq".toList, "performance".toList), ("acpi-cpufreq".toList, "performance".toList)]

lemma searchCpufreqList_pairs (pairs : List (List Char × List Char)) (driver governor : List Char) :
    searchCpufreqList (pairs.map fun p => ⟨some p.1, some p.2⟩) driver governor = true ↔ (driver, governor) ∈ pairs := by
  rw [searchCpufreqList_iff]
  constructor
  · rintro ⟨s, hs, hdriver, hgovernor⟩
    obtain ⟨p, hp, rfl⟩ := List.mem_map.mp hs
    obtain rfl : p = (driver, governor) := Prod.ext (hdriver _ rfl) (hgovernor _ rfl)
    exact hp
  · intro hp
    exact ⟨_, List.mem_map_of_mem hp, fun _ hd => (Option.mem_some.mp hd).symm, fun _ hg => (Option.mem_some.mp hg).symm⟩

/-- The `policy` files of this number read as good: a driver and governor that are known to be good
or neither of them, and equal limits. -/
structure Steady (files : Files) (cpunum : BitVec 64) : Prop where
  scaler : (getScalingDriver files cpunum, getScalingGovernor files cpunum) ∈ goodScalers
  limits : getScalingMinFreq files cpunum = getScalingMaxFreq files cpunum

/-- Drivers that are not known are not believed, and `intel_pstate` is not either. -/
lemma checkCpufreqGovernor_iff (files : Files) (cpunum : BitVec 64) :
    checkCpufreqGovernorIsOKOnCpunum files false cpunum = true ↔ Steady files cpunum := by
  have hgood := searchCpufreqList_pairs goodScalers (getScalingDriver files cpunum) (getScalingGovernor files cpunum)
  change searchCpufreqList knownGoodCpufreqScalers _ _ = true ↔ _ at hgood
  unfold checkCpufreqGovernorIsOKOnCpunum
  dsimp only
  split
  · next hs =>
    rw [Bool.or_false, checkScalingMinMaxFreqAreEqual, decide_eq_true_iff]
    exact ⟨fun hlimits => ⟨hgood.mp hs, hlimits⟩, Steady.limits⟩
  · next hs =>
    refine iff_of_false ?_ fun hsteady => hs (hgood.mpr hsteady.scaler)
    split
    · exact Bool.false_ne_true
    · split <;> exact Bool.false_ne_true

lemma checkPinorder_iff {po : Pinorder} {cpus : List (BitVec 32)} (hcpus : po.cpuList = some cpus)
    (hlen : cpus.length = po.numThreads) : checkIfCpufreqGovernorsOfPinorderAreOk files false po = true ↔
      ∀ cpu ∈ cpus, Steady files (cpu.signExtend 64) := by
  simp only [checkIfCpufreqGovernorsOfPinorderAreOk, List.all_eq_true, List.mem_range, checkCpufreqGovernor_iff, hcpus,
    Option.getD_some, ← hlen]
  rw [List.forall_mem_iff_getElem]
  constructor
  · intro h i hi
    have hsteady := h i hi
    rwa [List.getD_eq_getElem _ _ hi] at hsteady
  · intro h i hi
    rw [List.getD_eq_getElem _ _ hi]
    exact h i hi

end Checks
end Lockhammer.Cpufreq
