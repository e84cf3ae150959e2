import Lockhammer.Harness.CpuRanges
import Mathlib.Data.List.TakeWhile

/-!
# What an accepted pinning order is worth (args.c)

The CPU list of `-o`: which lists have distinct CPUs of the machine in them, and which of
them are written inside `cpus_specified`. Of a range `m-n` only `n` is compared with the
number of CPUs, and only CPUs below `CPU_SETSIZE` are looked up among those already named.
-/
namespace Lockhammer.Args
open CLib

/-- Distinct CPUs of the machine. -/
structure ValidCpus (sys : SystemInfo) (cpus : List (BitVec 32)) : Prop where
  nodup : cpus.Nodup
  range : ∀ cpu ∈ cpus, 0 ≤ cpu.toInt ∧ cpu.toInt < sys.numCores

/-- A pinorder with such a CPU list, one CPU for each thread. -/
def Pinorder.Valid (sys : SystemInfo) (po : Pinorder) : Prop :=
  ∃ cpus, po.cpuList = some cpus ∧ ValidCpus sys cpus ∧ cpus.length = po.numThreads ∧
    cpus.length ≤ sys.numCores

/-- The ranges of a list that pass the checks. -/
def checkedRanges (sys : SystemInfo) (tokens : List (List Char)) : List CpuRange :=
  (tokens.filterMap cpuRange).filter (·.Passes sys)

/-- The number is one that the code finds among those named before: behind `CPU_SETSIZE` it
finds none. -/
def Repeats (named : List ℤ) (v : ℤ) : Prop := v < cpuSetsize ∧ v ∈ named

instance (named : List ℤ) (v : ℤ) : Decidable (Repeats named v) := inferInstanceAs (Decidable (_ ∧ _))

/-- The numbers of a range that are written behind the ones named before: the code stops at a
repeated one. -/
def CpuRange.written (named : List ℤ) (r : CpuRange) : List ℤ :=
  r.wanted.takeWhile fun v => ¬ Repeats named v

/-- The range starts inside the machine, what is written of it are `int`s, no number too large
for a `cpu_set_t` is named again, and unless the code stops in it the range stays among the
`int`s. -/
structure CpuRange.Orderly (sys : SystemInfo) (named : List ℤ) (r : CpuRange) : Prop where
  first : r.first.toNat < sys.numCores
  fits : ∀ v ∈ r.written named, v < 2 ^ 31
  large : ∀ v ∈ r.written named, (cpuSetsize : ℤ) ≤ v → v ∉ named
  stays : (∀ v ∈ r.wanted, ¬ Repeats named v) → r.StaysInt

instance (sys : SystemInfo) (named : List ℤ) (r : CpuRange) : Decidable (r.Orderly sys named) :=
  decidable_of_iff (r.first.toNat < sys.numCores ∧ (∀ v ∈ r.written named, v < 2 ^ 31) ∧
      (∀ v ∈ r.written named, (cpuSetsize : ℤ) ≤ v → v ∉ named) ∧
      ((∀ v ∈ r.wanted, ¬ Repeats named v) → r.StaysInt))
    ⟨fun h => ⟨h.1, h.2.1, h.2.2.1, h.2.2.2⟩, fun h => ⟨h.first, h.fits, h.large, h.stays⟩⟩

/-- Every range that gets as far as an expansion loop is orderly, up to the token at which the
code stops: one that is no range, one that does not pass the checks, or one that repeats a
number. -/
def OrderlyTokens (sys : SystemInfo) : (named : List ℤ) → List (List Char) → Prop
  | _, [] => True
  | named, csv :: tokens => ∀ r ∈ cpuRange csv, r.Passes sys → r.Orderly sys named ∧
      ((∀ v ∈ r.wanted, ¬ Repeats named v) → OrderlyTokens sys (named ++ r.wanted) tokens)

instance decidableOrderlyTokens (sys : SystemInfo) :
    ∀ named tokens, Decidable (OrderlyTokens sys named tokens)
  | _, [] => isTrue trivial
  | named, csv :: tokens =>
    have (r : CpuRange) := decidableOrderlyTokens sys (named ++ r.wanted) tokens
    inferInstanceAs (Decidable (∀ r ∈ cpuRange csv, r.Passes sys → r.Orderly sys named ∧
      ((∀ v ∈ r.wanted, ¬ Repeats named v) → OrderlyTokens sys (named ++ r.wanted) tokens)))

abbrev Orderly (sys : SystemInfo) (optarg : List Char) : Prop := OrderlyTokens sys [] (optarg.splitOn ',')

section Ranges
variable {sys : SystemInfo} {r : CpuRange} {cpus : List (BitVec 32)}

/-- The numbers of the range are `int`s as they stand in the text. -/
structure CpuRange.Ints (r : CpuRange) : Prop where
  first : r.first.toNat < 2 ^ 31
  last : r.last.toNat < 2 ^ 31
  skip : r.skip.toNat < 2 ^ 31

lemma CpuRange.number_le (r : CpuRange) (k : ℕ) (hdown : ¬ r.first.toNat ≤ r.last.toNat) :
    r.number k ≤ r.first.toNat := by
  rw [number, if_neg hdown]
  have hmul : (0 : ℤ) ≤ k * r.skip.toNat := by positivity
  omega

/-- A range inside the machine names CPUs of the machine only. -/
lemma CpuRange.Passes.wanted_range (hp : r.Passes sys) (hfirst : r.first.toNat < sys.numCores) {v : ℤ}
    (hv : v ∈ r.wanted) : 0 ≤ v ∧ v < sys.numCores := by
  obtain ⟨k, hk, rfl⟩ := List.mem_map.mp hv
  have hlt := List.mem_range.mp hk
  have hend := (hp.lt_count_iff k).mp hlt
  have hlast := hp.1
  refine ⟨hp.number_nonneg hlt, ?_⟩
  split at hend
  · omega
  · next hdown =>
    have hle := r.number_le k hdown
    omega

lemma CpuRange.Ints.fits (hi : r.Ints) (hp : r.Passes sys) : ∀ v ∈ r.wanted, v < 2 ^ 31 := by
  intro v hv
  obtain ⟨k, hk, rfl⟩ := List.mem_map.mp hv
  have hend := (hp.lt_count_iff k).mp (List.mem_range.mp hk)
  have hfirst := hi.first
  have hlast := hi.last
  split at hend
  · omega
  · next hdown =>
    have hle := r.number_le k hdown
    omega

lemma CpuRange.number_succ (r : CpuRange) (k : ℕ) : r.number (k + 1) =
    if r.first.toNat ≤ r.last.toNat then r.number k + r.skip.toNat else r.number k - r.skip.toNat := by
  unfold number
  push_cast
  split <;> ring

/-- The first number behind a range is at most than one step away from its end. -/
lemma CpuRange.Passes.number_count (hp : r.Passes sys) :
    if r.first.toNat ≤ r.last.toNat then
      (r.last.toNat : ℤ) < r.number r.count ∧ r.number r.count ≤ r.last.toNat + r.skip.toNat
    else r.number r.count < r.last.toNat ∧ (r.last.toNat : ℤ) - r.skip.toNat ≤ r.number r.count := by
  have hbehind := (hp.lt_count_iff r.count).not.mp (lt_irrefl _)
  obtain ⟨k, hk⟩ : ∃ k, r.count = k + 1 := ⟨_, rfl⟩
  have hend := (hp.lt_count_iff k).mp (by omega)
  have hsucc := r.number_succ k
  rw [← hk] at hsucc
  split
  · next hup =>
    rw [if_pos hup] at hbehind hend hsucc
    omega
  · next hdown =>
    rw [if_neg hdown] at hbehind hend hsucc
    omega

/-- An upward range of `int`s ends: behind the largest `int` the variable turns negative, which
compares as a large number. -/
lemma CpuRange.Ints.ends_upward (hi : r.Ints) (hp : r.Passes sys) (hup : r.first.toNat ≤ r.last.toNat) :
    r.last.toNat < intToUlong (r.number r.count) := by
  have hcount := hp.number_count
  rw [if_pos hup] at hcount
  have hlast := hi.last
  have hskip := hi.skip
  by_cases hint : r.number r.count < 2 ^ 31
  · have hval := intToUlong_of_nonneg (by omega) hint
    omega
  · have hval := intToUlong_of_neg (v := r.number r.count - 2 ^ 32) (by omega) (by omega)
    rw [intToUlong_sub_turn] at hval
    omega

/-- The loop of a downward range that writes no negative CPU ends with the range. -/
lemma CpuRange.Expands.ends_downward (hx : r.Expands cpus) (hp : r.Passes sys) (hi : r.Ints)
    (hnonneg : ∀ cpu ∈ cpus, 0 ≤ cpu.toInt) (hdown : ¬ r.first.toNat ≤ r.last.toNat) :
    intToUlong (r.number r.count) < r.last.toNat := by
  have hcount := hp.number_count
  rw [if_neg hdown] at hcount
  have hlast := hi.last
  have hskip := hi.skip
  by_cases hneg : 0 ≤ r.number r.count
  · have hval := intToUlong_of_nonneg hneg (by omega)
    omega
  · have hval := intToUlong_of_neg (v := r.number r.count) (by omega) (by omega)
    -- a negative number passes the test and is written
    have hmore : ∀ k ≤ r.count, r.more (BitVec.ofInt 32 (passValue r.first.toNat r.step k)) = true := by
      intro k hk
      rw [hp.passValue_eq]
      obtain hlt | rfl := Nat.lt_or_eq_of_le hk
      · exact hp.more_number hlt (hi.fits hp _ (number_mem_wanted hlt))
      · rw [more_ofInt, if_neg hdown]
        omega
    unfold Expands at hx
    rw [setWidth_eq_ofInt_toNat] at hx
    have hcpu := hnonneg _ (hx.mem_of_tests hmore)
    rw [hp.passValue_eq, toInt_ofInt_of_int (by omega) (by omega)] at hcpu
    omega

/-- A range of `int`s that is expanded to CPUs of the machine is inside the machine and is
expanded to what it reads. -/
theorem CpuRange.Expands.orderly (hx : r.Expands cpus) (hp : r.Passes sys) (hi : r.Ints)
    (hrange : ∀ cpu ∈ cpus, 0 ≤ cpu.toInt ∧ cpu.toInt < sys.numCores) :
    r.StaysInt ∧ r.first.toNat < sys.numCores ∧ cpus.map BitVec.toInt = r.wanted := by
  have hs : r.StaysInt := by
    refine ⟨hi.fits hp, ?_⟩
    split
    · next hup => exact hi.ends_upward hp hup
    · next hdown => exact hx.ends_downward hp hi (fun cpu hcpu => (hrange cpu hcpu).1) hdown
  obtain ⟨cpus', hx', hwanted⟩ := hs.expands hp
  obtain rfl := Visits.unique hx hx'
  refine ⟨hs, ?_, hwanted⟩
  have hmem : (r.first.toNat : ℤ) ∈ cpus.map BitVec.toInt := by
    rw [hwanted]
    exact List.mem_map.mpr ⟨0, List.mem_range.mpr (Nat.succ_pos _), by simp [number]⟩
  obtain ⟨cpu, hcpu, hval⟩ := List.mem_map.mp hmem
  have hlt := (hrange cpu hcpu).2
  omega

/-- A range names no number twice. -/
lemma CpuRange.Passes.wanted_nodup (hp : r.Passes sys) : r.wanted.Nodup := by
  obtain ⟨hpos, -⟩ := hp.skip_toNat
  refine List.nodup_range.map fun k l hkl => ?_
  have hmul : (k : ℤ) * r.skip.toNat = l * r.skip.toNat := by
    unfold number at hkl
    split at hkl <;> omega
  exact_mod_cast mul_right_cancel₀ (by omega : (r.skip.toNat : ℤ) ≠ 0) hmul

/-- The numbers written are the first ones of the range; where some are left, the next one is
repeated. -/
lemma CpuRange.written_eq (r : CpuRange) (named : List ℤ) :
    ∃ k ≤ r.count, r.written named = (List.range k).map r.number ∧
      (k < r.count → Repeats named (r.number k)) := by
  have happ : r.written named ++ r.wanted.dropWhile (fun v => ¬ Repeats named v) = r.wanted :=
    List.takeWhile_append_dropWhile
  have hget (k : ℕ) (hk : k < r.count) : r.wanted[k]? = some (r.number k) := by
    simp [wanted, hk]
  have hlen : (r.written named).length ≤ r.count := by
    have hwanted : r.wanted.length = r.count := by simp [wanted]
    rw [← hwanted, ← happ, List.length_append]
    omega
  refine ⟨(r.written named).length, hlen, ?_, fun hk => ?_⟩
  · apply List.ext_getElem?
    intro k
    by_cases hk : k < (r.written named).length
    · have hw := hget k (lt_of_lt_of_le hk hlen)
      rw [← happ, List.getElem?_append_left hk] at hw
      simp only [hw, List.getElem?_map, List.getElem?_range hk, Option.map_some]
    · simp [hk]
  · have hw := hget _ hk
    rw [← happ, List.getElem?_append_right le_rfl, Nat.sub_self, ← List.head?_eq_getElem?] at hw
    have hhead := List.head?_dropWhile_not (fun v => decide (¬ Repeats named v)) r.wanted
    rw [hw] at hhead
    simpa using hhead

end Ranges

section Writes
variable {sys : SystemInfo} {sp sp' : Specified} {cpu cpu' : BitVec 32} {cpus : List (BitVec 32)} {room : ℕ}

lemma cpuIndex_inj (h : cpuIndex cpu = cpuIndex cpu') : cpu = cpu' := by
  have hext : cpu.signExtend 64 = cpu'.signExtend 64 := BitVec.eq_of_toNat_eq h
  apply BitVec.eq_of_toInt_eq
  rw [← BitVec.toInt_signExtend_of_le (show 32 ≤ 64 by omega), hext, BitVec.toInt_signExtend_of_le (by omega)]

lemma cpuIndex_of_nonneg (h : 0 ≤ cpu.toInt) : (cpuIndex cpu : ℤ) = cpu.toInt := toNat_signExtend_of_nonneg h

lemma cpuIsset_cpuSet (cores : List ℕ) : cpuIsset cpu (cpuSet cpu' cores) = true ↔
    (cpu = cpu' ∧ cpuIndex cpu < cpuSetsize) ∨ cpuIsset cpu cores = true := by
  have hinj : cpuIndex cpu = cpuIndex cpu' ↔ cpu = cpu' := ⟨cpuIndex_inj, congrArg cpuIndex⟩
  unfold cpuIsset cpuSet
  split
  · simp [hinj]
    tauto
  · next hlarge =>
    have hne : ¬ (cpu = cpu' ∧ cpuIndex cpu < cpuSetsize) := by
      intro h
      rw [h.1] at h
      exact hlarge h.2
    simp [hne]

lemma ValidCpus.length_le (h : ValidCpus sys cpus) : cpus.length ≤ sys.numCores := by
  have hnodup : (cpus.map BitVec.toInt).Nodup := h.nodup.map fun _ _ heq => BitVec.eq_of_toInt_eq heq
  have hsub : cpus.map BitVec.toInt ⊆ (List.range sys.numCores).map fun k : ℕ => (k : ℤ) := by
    intro v hv
    obtain ⟨cpu, hcpu, rfl⟩ := List.mem_map.mp hv
    obtain ⟨hlo, hhi⟩ := h.range cpu hcpu
    exact List.mem_map.mpr ⟨cpu.toInt.toNat, List.mem_range.mpr (by omega), by omega⟩
  simpa using (hnodup.subperm hsub).length_le

/-- The CPUs written so far are valid, and the set holds those of them that it can. -/
structure Kept (sys : SystemInfo) (sp : Specified) : Prop where
  valid : ValidCpus sys sp.cpus
  isset : ∀ cpu, cpuIsset cpu sp.cores = true ↔ cpu ∈ sp.cpus ∧ cpuIndex cpu < cpuSetsize

lemma kept_empty (sys : SystemInfo) : Kept sys ⟨[], []⟩ := by
  refine ⟨⟨List.nodup_nil, by simp⟩, ?_⟩
  simp [cpuIsset]

lemma Kept.specify (h : Kept sys sp) (hrange : 0 ≤ cpu.toInt ∧ cpu.toInt < sys.numCores)
    (hlarge : (cpuSetsize : ℤ) ≤ cpu.toInt → cpu ∉ sp.cpus) (hok : specify cpu sp = .ok sp') : Kept sys sp' := by
  obtain ⟨hset, rfl⟩ := specify_ok hok
  have hnew : cpu ∉ sp.cpus := by
    by_cases hsmall : cpuIndex cpu < cpuSetsize
    · intro hmem
      have hisset := (h.isset cpu).mpr ⟨hmem, hsmall⟩
      simp [hset] at hisset
    · apply hlarge
      have hidx := cpuIndex_of_nonneg hrange.1
      omega
  refine ⟨⟨?_, ?_⟩, ?_⟩
  · exact h.valid.nodup.append (List.nodup_singleton cpu) (by simpa using hnew)
  · intro c hc
    obtain hc | hc := List.mem_append.mp hc
    · exact h.valid.range c hc
    · rw [List.mem_singleton.mp hc]
      exact hrange
  · intro c
    rw [cpuIsset_cpuSet, h.isset, List.mem_append, List.mem_singleton]
    tauto

/-- Different CPUs of the machine find room, and the set misses none of those too large for it
when they are new. -/
lemma Kept.fill (h : Kept sys sp) (hrange : ∀ cpu ∈ cpus, 0 ≤ cpu.toInt ∧ cpu.toInt < sys.numCores)
    (hnodup : cpus.Nodup) (hlarge : ∀ cpu ∈ cpus, (cpuSetsize : ℤ) ≤ cpu.toInt → cpu ∉ sp.cpus)
    (hroom : sp.cpus.length + room = sys.numCores) :
    fill cpus room sp ≠ .error .cpusOverflow ∧ ∀ sp', fill cpus room sp = .ok sp' → Kept sys sp' := by
  induction cpus generalizing sp room with
  | nil =>
    refine ⟨by simp [Args.fill], ?_⟩
    intro sp' hok
    obtain rfl : sp = sp' := by simpa [Args.fill] using hok
    exact h
  | cons cpu cpus ih =>
    obtain ⟨-, herr⟩ | ⟨-, hok⟩ := specify_cases cpu sp
    · simp [Args.fill, herr]
    · obtain ⟨hnot, hrest⟩ := List.nodup_cons.mp hnodup
      have hnext := h.specify (hrange cpu List.mem_cons_self) (hlarge cpu List.mem_cons_self) hok
      -- one more CPU of the machine, so there was room for it
      have hlen := hnext.valid.length_le
      simp only [List.length_append, List.length_singleton] at hlen
      cases room with
      | zero => omega
      | succ room =>
        simp only [Args.fill, hok]
        apply ih hnext
        · exact fun c hc => hrange c (List.mem_cons_of_mem _ hc)
        · exact hrest
        · intro c hc hle hmem
          obtain hmem | hmem := List.mem_append.mp hmem
          · exact hlarge c (List.mem_cons_of_mem _ hc) hle hmem
          · rw [List.mem_singleton.mp hmem] at hc
            exact hnot hc
        · simp only [List.length_append, List.length_singleton]
          omega

end Writes

section Tokens
variable {sys : SystemInfo} {sp sp' : Specified} {csv : List Char} {tokens : List (List Char)} {r : CpuRange}

/-- The ranges of a list one after the other. -/
def parseTokens (sys : SystemInfo) : List (List Char) → Specified → Except ArgError Specified
  | [], sp => .ok sp
  | csv :: tokens, sp =>
    match parseCsv sys csv sp with
    | .error e => .error e
    | .ok sp => parseTokens sys tokens sp

/-- The loop of `strsep` goes through the parts between the commas. -/
lemma parseCsvs_eq {fuel : ℕ} {s : List Char} (hfuel : s.length < fuel) :
    parseCsvs sys fuel s sp = parseTokens sys (s.splitOn ',') sp := by
  induction fuel generalizing s sp with
  | zero => omega
  | succ fuel ih =>
    obtain ⟨hmem, hs⟩ | ⟨token, rest, hmem, rfl, hs⟩ := strsep_cases s ','
    · rw [List.splitOn_eq_singleton hmem]
      unfold parseCsvs parseTokens
      rw [hs]
      cases parseCsv sys s sp <;> rfl
    · rw [List.splitOn_append_cons_self, List.splitOn_eq_singleton hmem]
      have hlen : rest.length < fuel := by
        simp only [List.length_append, List.length_cons] at hfuel
        omega
      rw [List.singleton_append]
      unfold parseCsvs parseTokens
      rw [hs]
      cases parseCsv sys token sp with
      | error e => rfl
      | ok sp => exact ih hlen

/-- A refused range is refused before the loops. -/
lemma parseCsv_of_not_passes (sp : Specified) (hr : cpuRange csv = some r) (hp : ¬ r.Passes sys) :
    ∃ e, parseCsv sys csv sp = .error e ∧ e ≠ .cpusOverflow := by
  rw [parseCsv_of_range hr]
  by_cases hlast : sys.numCores ≤ r.last.toNat
  · rw [if_pos hlast]
    exact ⟨_, rfl, by simp⟩
  · have hone : (1 : BitVec 64).toInt = 1 := by decide
    have hskip : r.skip.slt 1 = true := by
      rw [BitVec.slt_eq_decide, decide_eq_true_eq, hone]
      unfold CpuRange.Passes at hp
      omega
    rw [if_neg hlast, if_pos hskip]
    exact ⟨_, rfl, by simp⟩

lemma checkedRanges_of_passes (hr : cpuRange csv = some r) (hp : r.Passes sys) :
    checkedRanges sys (csv :: tokens) = r :: checkedRanges sys tokens := by
  simp [checkedRanges, hr, hp]

/-- The loop of an orderly range comes through the numbers written. -/
lemma CpuRange.Orderly.reaches {named : List ℤ} (ho : r.Orderly sys named) (hp : r.Passes sys) :
    ∃ cpus k, k ≤ r.count ∧ (k < r.count → Repeats named (r.number k)) ∧
      (k = r.count → ∀ v ∈ r.wanted, ¬ Repeats named v) ∧ cpus.map BitVec.toInt = r.written named ∧
      Reaches r.more r.step (r.first.setWidth 32) cpus (BitVec.ofInt 32 (r.number k)) := by
  obtain ⟨k, hk, hwritten, hrep⟩ := r.written_eq named
  have hfits : ∀ i < k, r.number i < 2 ^ 31 := by
    intro i hi
    apply ho.fits
    rw [hwritten]
    exact List.mem_map_of_mem (List.mem_range.mpr hi)
  obtain ⟨cpus, hints, hreaches⟩ := hp.reaches hk hfits
  refine ⟨cpus, k, hk, hrep, ?_, hints.trans hwritten.symm, hreaches⟩
  rintro rfl v hv
  have hall : r.written named = r.wanted := hwritten
  rw [← hall] at hv
  simpa using List.mem_takeWhile_imp hv

/-- A CPU named before is refused. -/
lemma Kept.specify_repeated (h : Kept sys sp) {v : ℤ} (hv : 0 ≤ v) (hrep : Repeats (sp.cpus.map BitVec.toInt) v) :
    Args.specify (BitVec.ofInt 32 v) sp = .error (.duplicateCpu (BitVec.ofInt 32 v)) := by
  obtain ⟨hsmall, hmem⟩ := hrep
  have hsize : (cpuSetsize : ℤ) = 1024 := rfl
  obtain ⟨cpu, hcpu, rfl⟩ := List.mem_map.mp hmem
  have hidx := cpuIndex_of_nonneg hv
  rw [BitVec.ofInt_toInt]
  obtain ⟨-, herr⟩ | ⟨hset, -⟩ := specify_cases cpu sp
  · exact herr
  · rw [(h.isset cpu).mpr ⟨hcpu, by omega⟩] at hset
    contradiction

/-- An orderly range is written inside the array and keeps its CPUs valid. -/
lemma Kept.parseCsv (h : Kept sys sp) (hr : cpuRange csv = some r) (hp : r.Passes sys)
    (ho : r.Orderly sys (sp.cpus.map BitVec.toInt)) :
    parseCsv sys csv sp ≠ .error .cpusOverflow ∧
      ∀ sp', parseCsv sys csv sp = .ok sp' → Kept sys sp' ∧
        (∀ v ∈ r.wanted, ¬ Repeats (sp.cpus.map BitVec.toInt) v) ∧
        sp'.cpus.map BitVec.toInt = sp.cpus.map BitVec.toInt ++ r.wanted := by
  obtain ⟨cpus, k, hk, hrep, hall, hints, hreaches⟩ := ho.reaches hp
  have hsub : ∀ cpu ∈ cpus, cpu.toInt ∈ r.written (sp.cpus.map BitVec.toInt) := by
    intro cpu hcpu
    rw [← hints]
    exact List.mem_map_of_mem hcpu
  have hroom := h.valid.length_le
  obtain ⟨hfits, hkept⟩ :
      Args.fill cpus (sys.numCores - sp.cpus.length) sp ≠ .error .cpusOverflow ∧
        ∀ sp', Args.fill cpus (sys.numCores - sp.cpus.length) sp = .ok sp' → Kept sys sp' := h.fill
    (fun cpu hcpu => hp.wanted_range ho.first ((List.takeWhile_sublist _).subset (hsub cpu hcpu)))
    (List.Nodup.of_map BitVec.toInt (by
      rw [hints]
      exact hp.wanted_nodup.sublist (List.takeWhile_sublist _)))
    (fun cpu hcpu hle hmem => ho.large _ (hsub cpu hcpu) hle (List.mem_map_of_mem hmem)) (by omega)
  rw [parseCsv_of_passes hr hp, expand_of_reaches hreaches]
  cases hfill : Args.fill cpus (sys.numCores - sp.cpus.length) sp with
  | error e =>
    rw [hfill] at hfits
    simpa using hfits
  | ok mid =>
    have hmid := hkept mid hfill
    have hcpus := congrArg (List.map BitVec.toInt) (fill_ok hfill).1
    rw [List.map_append, hints] at hcpus
    dsimp only
    unfold expand
    by_cases hlt : k < r.count
    · -- the next number was named before, and the code stops
      have hnamed := hrep hlt
      have hsize : (cpuSetsize : ℤ) = 1024 := rfl
      have hsmall := hnamed.1
      have hagain : Repeats (mid.cpus.map BitVec.toInt) (r.number k) := by
        refine ⟨hnamed.1, ?_⟩
        rw [hcpus]
        exact List.mem_append_left _ hnamed.2
      rw [if_pos (hp.more_number hlt (by omega)), hmid.specify_repeated (hp.number_nonneg hlt) hagain]
      simp
    · obtain rfl : k = r.count := by omega
      have hnone := hall rfl
      have hwritten : r.written (sp.cpus.map BitVec.toInt) = r.wanted := by
        rw [CpuRange.written, List.takeWhile_eq_self_iff]
        simpa using hnone
      have hstop : r.more (BitVec.ofInt 32 (r.number r.count)) = false :=
        (CpuRange.more_eq_false _).mpr (ho.stays hnone).ends
      rw [hstop]
      refine ⟨by simp, fun sp' hok => ?_⟩
      obtain rfl : mid = sp' := by simpa using hok
      rw [hwritten] at hcpus
      exact ⟨hmid, hnone, hcpus⟩

theorem parseTokens_kept (h : Kept sys sp) (ho : OrderlyTokens sys (sp.cpus.map BitVec.toInt) tokens) :
    parseTokens sys tokens sp ≠ .error .cpusOverflow ∧
      ∀ sp', parseTokens sys tokens sp = .ok sp' → Kept sys sp' := by
  induction tokens generalizing sp with
  | nil =>
    refine ⟨by simp [parseTokens], ?_⟩
    intro sp' hok
    obtain rfl : sp = sp' := by simpa [parseTokens] using hok
    exact h
  | cons csv tokens ih =>
    cases hr : cpuRange csv with
    | none => simp [parseTokens, parseCsv_of_none hr]
    | some r =>
      by_cases hp : r.Passes sys
      · obtain ⟨hrange, hrest⟩ := ho r hr hp
        obtain ⟨hfits, hkept⟩ := h.parseCsv hr hp hrange
        unfold parseTokens
        cases hcsv : parseCsv sys csv sp with
        | error e =>
          rw [hcsv] at hfits
          simpa using hfits
        | ok next =>
          obtain ⟨hnext, hnone, hcpus⟩ := hkept next hcsv
          apply ih hnext
          rw [hcpus]
          exact hrest hnone
      · obtain ⟨e, he, hne⟩ := parseCsv_of_not_passes sp hr hp
        simp [parseTokens, he, hne]

lemma parseTokens_cons (hok : parseTokens sys (csv :: tokens) sp = .ok sp') :
    ∃ r next, cpuRange csv = some r ∧ r.Passes sys ∧ parseCsv sys csv sp = .ok next ∧
      parseTokens sys tokens next = .ok sp' := by
  unfold parseTokens at hok
  cases hcsv : parseCsv sys csv sp with
  | error e => simp [hcsv] at hok
  | ok next =>
    rw [hcsv] at hok
    cases hr : cpuRange csv with
    | none => simp [parseCsv_of_none hr] at hcsv
    | some r =>
      refine ⟨r, next, rfl, ?_, rfl, hok⟩
      by_contra hp
      obtain ⟨e, he, -⟩ := parseCsv_of_not_passes sp hr hp
      simp [he] at hcsv

/-- An accepted list of `int` ranges that gives distinct CPUs of the machine. -/
theorem parseTokens_orderly (hints : ∀ r ∈ checkedRanges sys tokens, r.Ints)
    (hok : parseTokens sys tokens sp = .ok sp')
    (hrange : ∀ cpu ∈ sp'.cpus, 0 ≤ cpu.toInt ∧ cpu.toInt < sys.numCores)
    (hnodup : (sp'.cpus.map BitVec.toInt).Nodup) :
    OrderlyTokens sys (sp.cpus.map BitVec.toInt) tokens ∧
      sp'.cpus.map BitVec.toInt =
        sp.cpus.map BitVec.toInt ++ (checkedRanges sys tokens).flatMap CpuRange.wanted := by
  induction tokens generalizing sp with
  | nil =>
    obtain rfl : sp = sp' := by simpa [parseTokens] using hok
    exact ⟨trivial, by simp [checkedRanges]⟩
  | cons csv tokens ih =>
    obtain ⟨r, next, hr, hp, hcsv, hrest⟩ := parseTokens_cons hok
    rw [checkedRanges_of_passes hr hp] at hints ⊢
    obtain ⟨cpus, hx, hcpus, -⟩ := parseCsv_ok hr hp hcsv
    obtain ⟨horderly, hall⟩ := ih (fun r hr => hints r (List.mem_cons_of_mem _ hr)) hrest
    -- what the first range wrote is still there in the end
    have hmem : ∀ cpu ∈ cpus, 0 ≤ cpu.toInt ∧ cpu.toInt < sys.numCores := by
      intro cpu hcpu
      have hint : cpu.toInt ∈ sp'.cpus.map BitVec.toInt := by
        rw [hall, hcpus, List.map_append]
        exact List.mem_append_left _ (List.mem_append_right _ (List.mem_map_of_mem hcpu))
      obtain ⟨cpu', hcpu', heq⟩ := List.mem_map.mp hint
      rw [← heq]
      exact hrange cpu' hcpu'
    obtain ⟨hs, hfirst, hwanted⟩ := hx.orderly hp (hints r List.mem_cons_self) hmem
    have hnext : next.cpus.map BitVec.toInt = sp.cpus.map BitVec.toInt ++ r.wanted := by
      rw [hcpus, List.map_append, hwanted]
    rw [hall, hnext] at hnodup
    have hfresh : ∀ v ∈ r.wanted, v ∉ sp.cpus.map BitVec.toInt := fun v hv hnamed =>
      List.disjoint_of_nodup_append hnodup.of_append_left hnamed hv
    have hsub : ∀ v ∈ r.written (sp.cpus.map BitVec.toInt), v ∈ r.wanted :=
      fun v hv => (List.takeWhile_sublist _).subset hv
    refine ⟨?_, by rw [hall, hnext, List.flatMap_cons, List.append_assoc]⟩
    intro r' hr' _
    obtain rfl : r = r' := Option.some.inj (hr.symm.trans hr')
    refine ⟨⟨hfirst, fun v hv => hs.fits v (hsub v hv), fun v hv _ => hfresh v (hsub v hv),
      fun _ => hs⟩, fun _ => ?_⟩
    rw [← hnext]
    exact horderly

end Tokens

section Pinorders
variable {sys : SystemInfo} {optarg : List Char} {po : Pinorder}

lemma parsePinningOrder_accepts (h : parsePinningOrder sys optarg = .ok po) :
    ∃ sp, parseTokens sys (optarg.splitOn ',') ⟨[], []⟩ = .ok sp ∧
      po = ⟨some sp.cpus, sp.cpus.length, optarg, 0⟩ := by
  unfold parsePinningOrder at h
  rw [parseCsvs_eq (Nat.lt_succ_self _)] at h
  split at h
  · simp at h
  · next sp hsp =>
    split at h
    · simp at h
    · exact ⟨sp, hsp, by simpa using h.symm⟩

/-- An orderly list is written inside the array, and if it is accepted it is valid. -/
lemma parsePinningOrder_safe (h : Orderly sys optarg) : parsePinningOrder sys optarg ≠ .error .cpusOverflow ∧
    ∀ po, parsePinningOrder sys optarg = .ok po → po.Valid sys := by
  obtain ⟨hfits, hkept⟩ := parseTokens_kept (kept_empty sys) h
  constructor
  · unfold parsePinningOrder
    rw [parseCsvs_eq (Nat.lt_succ_self _)]
    split
    · next e he =>
      rw [he] at hfits
      simpa using hfits
    · split <;> simp
  · intro po hpo
    obtain ⟨sp, hsp, rfl⟩ := parsePinningOrder_accepts hpo
    have hvalid := (hkept sp hsp).valid
    exact ⟨sp.cpus, rfl, hvalid, rfl, hvalid.length_le⟩

/-- A valid list of `int` ranges is orderly. -/
lemma Pinorder.Valid.orderly (h : po.Valid sys) (hpo : parsePinningOrder sys optarg = .ok po)
    (hints : ∀ r ∈ checkedRanges sys (optarg.splitOn ','), r.Ints) : Orderly sys optarg := by
  obtain ⟨sp, hsp, rfl⟩ := parsePinningOrder_accepts hpo
  obtain ⟨cpus, hcpus, hvalid, -, -⟩ := h
  obtain rfl : sp.cpus = cpus := Option.some.inj hcpus
  exact (parseTokens_orderly hints hsp hvalid.range
    (hvalid.nodup.map fun _ _ heq => BitVec.eq_of_toInt_eq heq)).1

/-- An orderly list keeps the writes inside `cpus_specified` and gives distinct CPUs of the
machine, one for each thread. Of the lists of `int` ranges that are not refused with a message
no others do. -/
theorem parsePinningOrder_valid (sys : SystemInfo) (optarg : List Char) :
    (Orderly sys optarg → parsePinningOrder sys optarg ≠ .error .cpusOverflow ∧
      ∀ po, parsePinningOrder sys optarg = .ok po → po.Valid sys) ∧
    ((∀ r ∈ checkedRanges sys (optarg.splitOn ','), r.Ints) →
      (∀ e, parsePinningOrder sys optarg = .error e → e = .cpusOverflow) →
      ((parsePinningOrder sys optarg ≠ .error .cpusOverflow ∧
        ∀ po, parsePinningOrder sys optarg = .ok po → po.Valid sys) ↔ Orderly sys optarg)) := by
  refine ⟨parsePinningOrder_safe, ?_⟩
  intro hints haccept
  refine ⟨?_, parsePinningOrder_safe⟩
  intro hsafe
  cases hpo : parsePinningOrder sys optarg with
  | error e => exact absurd (haccept e hpo ▸ hpo) hsafe.1
  | ok po => exact (hsafe.2 po hpo).orderly hpo hints

/-- On four CPUs `3-1,0` is accepted; `x,5-3` and `2,3-0` are refused where they name no range
and where they name CPU 2 again. -/
theorem parsePinningOrder_valid_four :
    (∃ po, parsePinningOrder ⟨4, 4, 4⟩ "3-1,0".toList = .ok po ∧ po.Valid ⟨4, 4, 4⟩) ∧
    parsePinningOrder ⟨4, 4, 4⟩ "x,5-3".toList ≠ .error .cpusOverflow ∧
    parsePinningOrder ⟨4, 4, 4⟩ "2,3-0".toList ≠ .error .cpusOverflow := by
  have hparse : parsePinningOrder ⟨4, 4, 4⟩ "3-1,0".toList = .ok ⟨some [3, 2, 1, 0], 4, "3-1,0".toList, 0⟩ := by
    decide +kernel
  exact ⟨⟨_, hparse, ((parsePinningOrder_valid ⟨4, 4, 4⟩ "3-1,0".toList).1 (by decide +kernel)).2 _ hparse⟩,
    ((parsePinningOrder_valid ⟨4, 4, 4⟩ "x,5-3".toList).1 (by decide +kernel)).1,
    ((parsePinningOrder_valid ⟨4, 4, 4⟩ "2,3-0".toList).1 (by decide +kernel)).1⟩

/-- Of `5-3` only the 3 is compared with the number of CPUs. -/
theorem parsePinningOrder_accepts_five_to_three :
    ¬ ∀ (sys : SystemInfo) (optarg : List Char), 1 ≤ sys.numCores →
      parsePinningOrder sys optarg ≠ .error .cpusOverflow ∧
        ∀ po, parsePinningOrder sys optarg = .ok po → po.Valid sys := by
  have hparse : parsePinningOrder ⟨4, 4, 4⟩ "5-3".toList = .ok ⟨some [5, 4, 3], 3, "5-3".toList, 0⟩ := by
    decide
  intro hall
  obtain ⟨cpus, hcpus, hvalid, -⟩ := (hall ⟨4, 4, 4⟩ "5-3".toList (by decide)).2 _ hparse
  obtain rfl : [5, 4, 3] = cpus := Option.some.inj hcpus
  have hfive := (hvalid.range 5 (by decide)).2
  exact absurd hfive (by decide)

end Pinorders

end Lockhammer.Args
