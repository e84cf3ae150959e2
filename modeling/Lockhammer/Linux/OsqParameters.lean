import Lockhammer.Harness.Grammar
import Lockhammer.Search.Table
import Mathlib.Data.List.Induction

/-!
# Per-CPU parameters of osq_lock.h

The flags `-S cpu:us` and `-D cpu:i0[,i1[,i2[,i3]]]` (the latter in builds with
`CPU_RELAX_PARAMETERIZED_DELAY`) fill one table of CPUs, and each `osq_lock_init` looks up in
it the CPUs of its pinorder. The meaning of a sequence of flags is told without the table:
the value given last for a CPU and a position.
-/
namespace Lockhammer.OsqParameters
open CLib Search

inductive Opt
  | D
  | S
  deriving DecidableEq

/-- `max_params` -/
def Opt.maxParams : Opt → ℕ
  | .D => 4
  | .S => 1

/-- `param_name` -/
def Opt.paramName : Opt → String
  | .D => "cpu_relax_iters"
  | .S => "sleep_time_us"

def Opt.letter : Opt → String
  | .D => "D"
  | .S => "S"

/-- The exit on an argument without a CPU. -/
structure FormError where
  opt : Opt
  optarg : List Char

def FormError.message (e : FormError) : String :=
  "expected -" ++ e.opt.letter ++ " " ++ String.ofList e.optarg ++ " to be in the form cpu:" ++
    e.opt.paramName ++ "\n"

/-- An entry of `osq_per_cpu_parameters.params`. -/
structure Params where
  cpu : BitVec 64
  sleepTimeUs : BitVec 64
  iters : Fin 4 → BitVec 64
  deriving DecidableEq

section Parser

/-- What a CPU starts with when the table lacks it. -/
def Params.new (cpu : BitVec 64) : Params := ⟨cpu, -1, fun _ => 1⟩

/-- The assignment of the `j`-th value. -/
def Params.assign (opt : Opt) (j : ℕ) (val : BitVec 64) (p : Params) : Params :=
  match opt with
  | .D => { p with iters := fun k => if k = j then val else p.iters k }
  | .S => { p with sleepTimeUs := val }

/-- The loop over the values from the `j`-th on, of which at most `k` are read. -/
def parseValues (opt : Opt) : (k j : ℕ) → (saveptr : List Char) → Params → Params
  | 0, _, _, p => p
  | k + 1, j, saveptr, p =>
    match strtokR saveptr [','] with
    | none => p
    | some (pc, saveptr) => parseValues opt k (j + 1) saveptr (p.assign opt j (strtoul pc 0).1)

/-- `osq_parse_multicpu_parameter`. The comparison of the CPU, a `size_t`, with that of an
entry, a `long`, is one of words. -/
def osqParseMulticpuParameter (opt : Opt) (optarg : List Char) (params : List Params) :
    Except FormError (List Params) :=
  match strtokR optarg [':'] with
  | none => .error ⟨opt, optarg⟩
  | some (pc, saveptr) =>
    let cpu := (strtol pc 0).1
    let i := params.findIdx fun p => p.cpu = cpu
    let params := if i < params.length then params else params ++ [.new cpu]
    .ok (params.modify i (parseValues opt opt.maxParams 0 saveptr))

/-- The flags `-S` and `-D` of `osq_parse_args`, one after the other. -/
def osqParseArgs (flags : List (Opt × List Char)) (params : List Params) : Except FormError (List Params) :=
  flags.foldlM (fun params f => osqParseMulticpuParameter f.1 f.2 params) params

end Parser

section Init

/-- `thread_to_sleep_time_us[t]` and `thread_to_relax[t]`. -/
structure ThreadParameters where
  sleepTimeUs : BitVec 64
  relax : Fin 4 → BitVec 64
  deriving DecidableEq

def OSQ_DEFAULT_SLEEP_TIME : BitVec 64 := -1
def OSQ_DEFAULT_RELAX_ITER : BitVec 64 := 1

/-- The body of the loop over the threads, for a thread on `cpu`. -/
def initThread (params : List Params) (cpu : BitVec 64) (thread : ThreadParameters) : ThreadParameters :=
  let thread := { thread with sleepTimeUs := OSQ_DEFAULT_SLEEP_TIME }
  let thread := { thread with relax := fun _ => OSQ_DEFAULT_RELAX_ITER }
  params.foldl (fun thread p => if p.cpu = cpu then ⟨p.sleepTimeUs, p.iters⟩ else thread) thread

/-- The CPU list and the number of threads of an experiment. -/
structure Experiment where
  pinorder : ℕ → BitVec 32
  numThreads : ℕ

/-- `osq_lock_init` behind the arrays that an earlier one has `stored`: they are freed, and
what the new ones hold before the loop may depend on them. -/
def osqLockInit (params : List Params) (malloc : List ThreadParameters → ℕ → ThreadParameters)
    (stored : List ThreadParameters) (e : Experiment) : List ThreadParameters :=
  (List.range e.numThreads).map fun t =>
    initThread params ((e.pinorder t).signExtend 64) (malloc stored t)

end Init

/-- A place of an entry. -/
inductive Position
  | sleep
  | iter (j : Fin 4)

section Meaning

def Params.get (p : Params) : Position → BitVec 64
  | .sleep => p.sleepTimeUs
  | .iter j => p.iters j

def Position.default : Position → BitVec 64
  | .sleep => OSQ_DEFAULT_SLEEP_TIME
  | .iter _ => OSQ_DEFAULT_RELAX_ITER

/-- A well-formed flag: a number for the CPU, and at least one and not too many for the
values. -/
structure Flag where
  opt : Opt
  cpu : List Char
  values : List (List Char)
  cpu_field : ∃ v, Args.Field cpu v
  values_field : ∀ value ∈ values, ∃ v, Args.Field value v
  values_ne_nil : values ≠ []
  values_le : values.length ≤ opt.maxParams

/-- The argument as it is written. -/
def Flag.optarg (f : Flag) : List Char := f.cpu ++ ':' :: [','].intercalate f.values

/-- The CPU that a flag is for, as a signed number. -/
def Flag.cpuNumber (f : Flag) : ℤ := (strtol f.cpu 0).1.toInt

/-- The value that a flag gives to a place, if it does. -/
def Flag.value? (f : Flag) (pos : Position) : Option (BitVec 64) :=
  match f.opt, pos with
  | .S, .sleep => f.values[0]?.map fun value => (strtoul value 0).1
  | .D, .iter j => f.values[j]?.map fun value => (strtoul value 0).1
  | _, _ => none

/-- The value given last for a CPU and a place. -/
def lastGiven (flags : List Flag) (cpu : ℤ) (pos : Position) : Option (BitVec 64) :=
  ((flags.filter fun f => f.cpuNumber = cpu).filterMap (·.value? pos)).getLast?

end Meaning

/-- It is the number as written, clamped to a `long`. -/
lemma Flag.cpuNumber_eq (f : Flag) : f.cpuNumber = max (-2 ^ 63) (min (2 ^ 63 - 1) (strtoulNumber f.cpu 0)) := by
  rw [Flag.cpuNumber, strtol, BitVec.toInt_ofInt]
  exact Int.bmod_eq_of_le (by omega) (by omega)

section Flags
variable {opt : Opt} {p : Params} {f : Flag} {flags : List Flag}

@[simp] lemma assign_cpu (j : ℕ) (val : BitVec 64) : (p.assign opt j val).cpu = p.cpu := by
  cases opt <;> rfl

@[simp] lemma new_cpu (cpu : BitVec 64) : (Params.new cpu).cpu = cpu := rfl

@[simp] lemma new_get (cpu : BitVec 64) (pos : Position) : (Params.new cpu).get pos = pos.default := by
  cases pos <;> rfl

/-- The loop assigns the values of the list in turn. -/
lemma parseValues_intercalate {values : List (List Char)} (hfield : ∀ value ∈ values, ∃ v, Args.Field value v)
    {k : ℕ} (hk : values.length ≤ k) (j : ℕ) (p : Params) :
    parseValues opt k j ([','].intercalate values) p =
      (values.zipIdx j).foldl (fun p value => p.assign opt value.2 (strtoul value.1 0).1) p := by
  induction values generalizing k j p with
  | nil => cases k <;> rfl
  | cons value values ih =>
    obtain ⟨k, rfl⟩ : ∃ m, k = m + 1 := ⟨k - 1, by rw [List.length_cons] at hk; omega⟩
    obtain ⟨v, hv⟩ := hfield value List.mem_cons_self
    have htoken := strtokR_intercalate hv.ne_nil (hv.not_mem (c := ',') (by decide)) values
    rw [parseValues, htoken, List.zipIdx_cons, List.foldl_cons]
    exact ih (fun value hmem => hfield value (List.mem_cons_of_mem _ hmem)) (Nat.le_of_succ_le_succ hk) _ _

/-- The iterations from the `j`-th on are those of the list, as far as it goes. -/
lemma assign_iters (values : List (List Char)) (j : ℕ) (p : Params) (i : Fin 4) :
    ((values.zipIdx j).foldl (fun p value => p.assign .D value.2 (strtoul value.1 0).1) p).iters i =
      if j ≤ i then (values[i - j]?.map fun value => (strtoul value 0).1).getD (p.iters i) else p.iters i := by
  induction values generalizing j p with
  | nil => simp
  | cons value values ih =>
    rw [List.zipIdx_cons, List.foldl_cons, ih]
    obtain hlt | heq | hgt := lt_trichotomy (i : ℕ) j
    · rw [if_neg (by omega), if_neg (by omega)]
      exact if_neg hlt.ne
    · rw [if_neg (by omega), if_pos heq.ge, heq, Nat.sub_self]
      exact if_pos heq
    · have hsub : (i : ℕ) - j = i - (j + 1) + 1 := by omega
      have hval : (p.assign .D j (strtoul value 0).1).iters i = p.iters i := if_neg hgt.ne'
      rw [if_pos (by omega), if_pos hgt.le, hsub, List.getElem?_cons_succ, hval]

lemma assign_sleep (values : List (List Char)) (j : ℕ) (p : Params) :
    ((values.zipIdx j).foldl (fun p value => p.assign .D value.2 (strtoul value.1 0).1) p).sleepTimeUs =
      p.sleepTimeUs := by
  induction values generalizing j p with
  | nil => rfl
  | cons value values ih => exact ih (j + 1) _

/-- What a flag does to the entry of its CPU. -/
def Flag.update (f : Flag) : Params → Params :=
  parseValues f.opt f.opt.maxParams 0 ([','].intercalate f.values)

lemma update_get (f : Flag) (p : Params) (pos : Position) :
    (f.update p).get pos = (f.value? pos).getD (p.get pos) := by
  obtain ⟨opt, cpu, values, -, hfield, hne, hle⟩ := f
  unfold Flag.update
  rw [parseValues_intercalate hfield hle]
  cases opt with
  | D =>
    cases pos with
    | sleep => exact assign_sleep values 0 p
    | iter i => exact assign_iters values 0 p i
  | S =>
    obtain ⟨value, rfl⟩ := List.length_eq_one_iff.mp (Nat.le_antisymm hle (List.length_pos_of_ne_nil hne))
    cases pos with
    | sleep => rfl
    | iter i => rfl

lemma update_cpu (f : Flag) (p : Params) : (f.update p).cpu = p.cpu := by
  unfold Flag.update
  rw [parseValues_intercalate f.values_field f.values_le]
  generalize f.values.zipIdx 0 = values
  induction values generalizing p with
  | nil => rfl
  | cons value values ih => rw [List.foldl_cons, ih, assign_cpu]

/-- A well-formed flag updates the table at its CPU. -/
lemma osqParseMulticpuParameter_eq (f : Flag) (params : List Params) :
    osqParseMulticpuParameter f.opt f.optarg params =
      .ok (upsert Params.cpu .new f.update (strtol f.cpu 0).1 params) := by
  obtain ⟨v, hv⟩ := f.cpu_field
  have hcpu : ':' ∉ f.cpu := hv.not_mem (by decide)
  have htoken : strtokR f.optarg [':'] = some (f.cpu, [','].intercalate f.values) := by
    rw [Flag.optarg, strtokR_eq hv.ne_nil hcpu, strsep_append hcpu]
    rfl
  rw [osqParseMulticpuParameter, htoken]
  rfl

end Flags

section Table
variable {flags : List Flag} {params : List Params}

/-- The table holds what the flags have given. -/
structure Holds (flags : List Flag) (params : List Params) : Prop where
  nodup : (params.map Params.cpu).Nodup
  cpus : ∀ cpu, cpu ∈ params.map Params.cpu ↔ ∃ f ∈ flags, f.cpuNumber = cpu.toInt
  values : ∀ cpu pos, ((entry Params.cpu params cpu).getD (.new cpu)).get pos =
    (lastGiven flags cpu.toInt pos).getD pos.default

lemma lastGiven_append (f : Flag) (cpu : ℤ) (pos : Position) :
    lastGiven (flags ++ [f]) cpu pos =
      if f.cpuNumber = cpu then (f.value? pos).or (lastGiven flags cpu pos) else lastGiven flags cpu pos := by
  unfold lastGiven
  rw [List.filter_append, List.filterMap_append]
  by_cases hf : f.cpuNumber = cpu
  · cases hv : f.value? pos with
    | none => simp [hf, hv]
    | some v => simp [hf, hv]
  · simp [hf]

lemma holds_nil : Holds [] [] := by
  refine ⟨List.nodup_nil, by simp, fun cpu pos => ?_⟩
  cases pos <;> rfl

/-- One flag more. -/
lemma Holds.snoc (h : Holds flags params) (f : Flag) :
    Holds (flags ++ [f]) (upsert Params.cpu .new f.update (strtol f.cpu 0).1 params) := by
  refine ⟨nodup_upsert new_cpu (update_cpu f) h.nodup, fun cpu => ?_, fun cpu pos => ?_⟩
  · have hcpus : (∃ g ∈ flags ++ [f], g.cpuNumber = cpu.toInt) ↔
        (∃ g ∈ flags, g.cpuNumber = cpu.toInt) ∨ f.cpuNumber = cpu.toInt := by
      simp [or_and_right, exists_or]
    rw [hcpus, ← h.cpus, keys_upsert new_cpu (update_cpu f), Flag.cpuNumber, BitVec.toInt_inj]
    split
    · next hmem =>
      refine (or_iff_left_of_imp ?_).symm
      rintro rfl
      exact hmem
    · rw [List.mem_append, List.mem_singleton, eq_comm (a := cpu)]
  · rw [entry_upsert new_cpu (update_cpu f), lastGiven_append, Flag.cpuNumber]
    by_cases hcpu : cpu = (strtol f.cpu 0).1
    · subst hcpu
      rw [if_pos rfl, if_pos rfl, Option.getD_some, update_get, h.values, Option.getD_or]
    · have hne : (strtol f.cpu 0).1.toInt ≠ cpu.toInt := mt BitVec.toInt_inj.mp (Ne.symm hcpu)
      rw [if_neg hcpu, if_neg hne, h.values]

/-- The table of a sequence of flags. -/
def tableOf (flags : List Flag) : List Params :=
  flags.foldl (fun params f => upsert Params.cpu .new f.update (strtol f.cpu 0).1 params) []

lemma holds_tableOf (flags : List Flag) : Holds flags (tableOf flags) := by
  induction flags using List.reverseRecOn with
  | nil => exact holds_nil
  | append_singleton flags f ih =>
    rw [tableOf, List.foldl_append]
    exact ih.snoc f

lemma osqParseArgs_eq (flags : List Flag) (params : List Params) :
    osqParseArgs (flags.map fun f => (f.opt, f.optarg)) params =
      .ok (flags.foldl (fun params f => upsert Params.cpu .new f.update (strtol f.cpu 0).1 params) params) := by
  induction flags generalizing params with
  | nil => rfl
  | cons f flags ih =>
    have hnext := ih (upsert Params.cpu .new f.update (strtol f.cpu 0).1 params)
    rw [osqParseArgs] at hnext ⊢
    rw [List.map_cons, List.foldlM_cons, osqParseMulticpuParameter_eq]
    exact hnext

/-- An entry of the table holds the values of its CPU. -/
lemma Holds.get (h : Holds flags params) {p : Params} (hp : p ∈ params) (pos : Position) :
    p.get pos = (lastGiven flags p.cpu.toInt pos).getD pos.default := by
  have hv := h.values p.cpu pos
  rwa [entry_of_mem h.nodup hp] at hv

/-- What a thread takes over from an entry. -/
def Params.thread (p : Params) : ThreadParameters := ⟨p.sleepTimeUs, p.iters⟩

/-- A thread gets the values of its CPU. -/
lemma Holds.initThread (h : Holds flags params) (cpu : BitVec 64) (thread : ThreadParameters) :
    initThread params cpu thread = ⟨(lastGiven flags cpu.toInt .sleep).getD OSQ_DEFAULT_SLEEP_TIME,
      fun j => (lastGiven flags cpu.toInt (.iter j)).getD OSQ_DEFAULT_RELAX_ITER⟩ :=
  calc OsqParameters.initThread params cpu thread
    _ = ((entry Params.cpu params cpu).map Params.thread).getD (Params.new cpu).thread :=
      foldl_key Params.thread (Params.new cpu).thread h.nodup
    _ = ((entry Params.cpu params cpu).getD (.new cpu)).thread := Option.getD_map _ _ _
    _ = _ := congrArg₂ ThreadParameters.mk (h.values cpu .sleep) (funext fun j => h.values cpu (.iter j))

end Table

/-- Every flag is accepted; the table has one entry for each CPU that a flag names, with the
values given last for it; and behind any experiments the next one gives each of its threads
the values of the CPU that the thread is pinned on. -/
theorem osq_parameters_last_given (flags : List Flag) :
    ∃ params, osqParseArgs (flags.map fun f => (f.opt, f.optarg)) [] = .ok params ∧
      (params.map Params.cpu).Nodup ∧
      (∀ cpu : ℤ, (∃ p ∈ params, p.cpu.toInt = cpu) ↔ ∃ f ∈ flags, f.cpuNumber = cpu) ∧
      (∀ p ∈ params, ∀ pos, p.get pos = (lastGiven flags p.cpu.toInt pos).getD pos.default) ∧
      ∀ (malloc : List ThreadParameters → ℕ → ThreadParameters) (stored : List ThreadParameters)
        (earlier : List Experiment) (e : Experiment),
        (earlier ++ [e]).foldl (osqLockInit params malloc) stored = (List.range e.numThreads).map fun t =>
          ⟨(lastGiven flags (e.pinorder t).toInt .sleep).getD OSQ_DEFAULT_SLEEP_TIME,
            fun j => (lastGiven flags (e.pinorder t).toInt (.iter j)).getD OSQ_DEFAULT_RELAX_ITER⟩ := by
  have h := holds_tableOf flags
  refine ⟨tableOf flags, osqParseArgs_eq flags [], h.nodup, fun cpu => ?_, fun p hp => h.get hp, ?_⟩
  · constructor
    · rintro ⟨p, hp, rfl⟩
      exact (h.cpus p.cpu).mp (List.mem_map_of_mem hp)
    · rintro ⟨f, hf, rfl⟩
      obtain ⟨p, hp, hcpu⟩ := List.mem_map.mp ((h.cpus (strtol f.cpu 0).1).mpr ⟨f, hf, rfl⟩)
      exact ⟨p, hp, congrArg BitVec.toInt hcpu⟩
  · intro malloc stored earlier e
    rw [List.foldl_append, List.foldl_cons, List.foldl_nil, osqLockInit]
    refine List.map_congr_left fun t _ => ?_
    rw [h.initThread, BitVec.toInt_signExtend_of_le (by decide)]

/-- `-D 3:5,6` -/
def delayOfThree : Flag where
  opt := .D
  cpu := "3".toList
  values := ["5".toList, "6".toList]
  cpu_field := ⟨3, by decide, by decide⟩
  values_field := by
    intro value hvalue
    obtain rfl | rfl : value = "5".toList ∨ value = "6".toList := by simpa using hvalue
    · exact ⟨5, by decide, by decide⟩
    · exact ⟨6, by decide, by decide⟩
  values_ne_nil := by decide
  values_le := by decide

/-- `-S 3:100` -/
def sleepOfThree : Flag where
  opt := .S
  cpu := "3".toList
  values := ["100".toList]
  cpu_field := ⟨3, by decide, by decide⟩
  values_field := by
    intro value hvalue
    obtain rfl : value = "100".toList := by simpa using hvalue
    exact ⟨100, by decide, by decide⟩
  values_ne_nil := by decide
  values_le := by decide

/-- One thread on CPU 3. -/
def oneThread : Experiment := ⟨fun _ => 3, 1⟩

/-- A thread on CPU 3 and one on CPU 0. -/
def twoThreads : Experiment := ⟨fun t => if t = 0 then 3 else 0, 2⟩

theorem osq_parameters_last_given_three :
    ∃ params, osqParseArgs [(.D, "3:5,6".toList), (.S, "3:100".toList)] [] = .ok params ∧
      (params.map Params.cpu).Nodup ∧ (∃ p ∈ params, p.cpu.toInt = 3) ∧
      (∀ p ∈ params, p.cpu.toInt = 3 ∧ p.get .sleep = 100) ∧
      ([oneThread] ++ [twoThreads]).foldl (osqLockInit params fun _ _ => ⟨0, fun _ => 0⟩) [] =
        [⟨100, fun j => [5, 6, 1, 1].get j⟩, ⟨-1, fun _ => 1⟩] := by
  obtain ⟨params, hparse, hnodup, hcpus, hvalues, hinit⟩ :=
    osq_parameters_last_given [delayOfThree, sleepOfThree]
  refine ⟨params, hparse, hnodup, (hcpus 3).mpr ⟨delayOfThree, by simp, by decide⟩, fun p hp => ?_, ?_⟩
  · have hcpu : p.cpu.toInt = 3 := by
      obtain ⟨f, hf, hnumber⟩ := (hcpus p.cpu.toInt).mp ⟨p, hp, rfl⟩
      obtain rfl | rfl : f = delayOfThree ∨ f = sleepOfThree := by simpa using hf
      · exact hnumber.symm.trans (by decide)
      · exact hnumber.symm.trans (by decide)
    have hsleep := hvalues p hp .sleep
    rw [hcpu] at hsleep
    exact ⟨hcpu, hsleep.trans (by decide)⟩
  · have hthree : ∀ j : Fin 4, (lastGiven [delayOfThree, sleepOfThree] 3 (.iter j)).getD
        OSQ_DEFAULT_RELAX_ITER = [5, 6, 1, 1].get j := by decide
    have hzero : ∀ j : Fin 4, (lastGiven [delayOfThree, sleepOfThree] 0 (.iter j)).getD
        OSQ_DEFAULT_RELAX_ITER = 1 := by decide
    refine (hinit _ [] [oneThread] twoThreads).trans ?_
    exact congrArg₂ (fun a b => [a, b]) (congrArg₂ ThreadParameters.mk (by decide) (funext hthree))
      (congrArg₂ ThreadParameters.mk (by decide) (funext hzero))

/-- Flags for a CPU in another notation, for a negative CPU, and again. -/
example : (osqParseArgs [(.D, "3:5,6".toList), (.S, "0x3:100".toList), (.S, "-1:20".toList), (.D, "3:7".toList)]
    []).toOption.map (fun params => params.map fun p => (p.cpu, p.sleepTimeUs, List.ofFn p.iters)) =
    some [(3, 100, [7, 6, 1, 1]), (-1, 20, [1, 1, 1, 1])] := by decide

end Lockhammer.OsqParameters
