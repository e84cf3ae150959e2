import Lockhammer.CLib.Strtoul
import Mathlib.Data.List.Forall2

/-!
# Durations and pinning orders on the command line (args.c)

The part of `parse_args` that reads the critical and parallel durations (`-c`, `-p` and
their long forms) and the pinning orders (`-t`, `-o`). Machine types are those of the
source: `unsigned long` and `long` are 64-bit words, `cpu` is a 32-bit `int`, and the array
`cpus_specified` has `num_cores` entries, so a write behind its end is an error of its own.
-/
namespace Lockhammer.Args
open CLib

inductive Units
  | ns
  | insts
  deriving DecidableEq, Repr

structure Duration where
  t : BitVec 64
  unit : Units
  deriving DecidableEq

/-- `pinorder_t`; `cpuList` is `none` for `NULL`, which leaves the CPUs to `main`. -/
structure Pinorder where
  cpuList : Option (List (BitVec 32))
  numThreads : ℕ
  pinorderString : List Char
  ileave : BitVec 64
  deriving DecidableEq

/-- The counts of `system_info_t`. -/
structure SystemInfo where
  numCores : ℕ
  numOnlineCores : ℕ
  numAvailCores : ℕ

/-- The fields of `test_args_t` that the options below write. -/
structure TestArgs where
  crits : List Duration := []
  pars : List Duration := []
  pinorders : List Pinorder := []
  deriving DecidableEq

/-- Why `parse_args` or `main` gives up. -/
inductive ArgError
  | criticalDuration (optarg : List Char)
  | parallelDuration (optarg : List Char)
  | cpuRange (csv : List Char)
  | cpuNumber (csv : List Char) (cpu : BitVec 64)
  | cpuSkip (csv : List Char)
  | duplicateCpu (cpu : BitVec 32)
  | cpuCount (pinorder : List Char) (count numCores : ℕ)
  | numThreads (pinorder : List Char)
  | negativeInterleave (pinorder : List Char)
  | threadCount (pinorder : List Char) (numOnlineCores : ℕ)
  | maxThreads (threads : ℕ)
  /-- The assertion of `main` that `-t 0` comes without a CPU list. -/
  | cpuListAssertion
  /-- A write behind the end of `cpus_specified`. -/
  | cpusOverflow
  deriving DecidableEq

/-- The text printed before the exit. -/
def ArgError.message : ArgError → String
  | .criticalDuration optarg =>
    "ERROR: could not parse critical duration \"" ++ String.ofList optarg ++ "\" correctly\n"
  | .parallelDuration optarg =>
    "ERROR: could not parse parallel duration \"" ++ String.ofList optarg ++ "\" correctly\n"
  | .cpuRange csv =>
    "ERROR: could not parse the -o pinorder CPU range " ++ String.ofList csv ++
      " as m[-n[:s]], or one of them is not a non-negative number or ends with an unexpected character.\n"
  | .cpuNumber csv cpu =>
    "ERROR: in pinorder CPU range " ++ String.ofList csv ++ ", the specified CPU " ++
      toString cpu.toNat ++ " is higher than the number of logical CPUs.\n"
  | .cpuSkip csv =>
    "ERROR: in pinorder CPU range " ++ String.ofList csv ++
      ", the CPU interleave skip is less than 1.\n"
  | .duplicateCpu cpu =>
    "ERROR: CPU number " ++ toString cpu.toInt ++
      " was previously specified in --pinning-order/-o pinorder list.  It must be specified only once.\n"
  | .cpuCount pinorder count numCores =>
    "ERROR: the pinorder " ++ String.ofList pinorder ++ " specifies " ++ toString count ++
      " CPUs, but only " ++ toString numCores ++ " CPUs are configured.\n"
  | .numThreads pinorder =>
    "ERROR: could not parse -t " ++ String.ofList pinorder ++
      " as m[:i], or one of them is not a number or ends in an unexpected character\n"
  | .negativeInterleave pinorder =>
    "ERROR: in -t " ++ String.ofList pinorder ++
      ", interleave is negative, which is not supported\n"
  | .threadCount pinorder numOnlineCores =>
    "ERROR: in -t " ++ String.ofList pinorder ++
      ", the thread count must not be more than the number of online cores, " ++
      toString numOnlineCores ++ ".\n"
  | .maxThreads threads =>
    "ERROR: po->num_threads=" ++ toString threads ++ " is greater than MAXTHREADS=513\n" ++
      "Increase the value of MAXTHREADS in lockhammer.c and recompile.\n"
  | .cpuListAssertion => ""
  | .cpusOverflow => ""

section Numbers

/-- What a round of `parse_helper` touches. -/
inductive Access
  | delimits (j : ℕ)
  | strtoul (token : Option (List Char))
  | pNumbers (j : ℕ)
  deriving DecidableEq

/-- `strsep` on a cursor that may be `NULL`. -/
def strsepCursor : Option (List Char) → List Char → Option (List Char) × Option (List Char)
  | none, _ => (none, none)
  | some s, delim => (some (strsep s delim).1, (strsep s delim).2)

/-- The three accesses of a round with a token. -/
def touched (j : ℕ) (token : List Char) : List Access := [.delimits j, .strtoul (some token), .pNumbers j]

/-- The loop of `parse_helper` from the `j`-th number on, `k` numbers before the end, on a cursor
that is `none` for `NULL`: what it touches, and the numbers stored so far, none when the source
returns 0. -/
def parseHelperAccesses (delimits : List (List Char)) :
    (k j : ℕ) → (s : Option (List Char)) → (numbers : List (BitVec 64)) → List Access × List (BitVec 64)
  | 0, _, _, numbers => ([], numbers)
  | k + 1, j, s, numbers =>
    let delim := delimits[j]?.getD []
    let notLastIter : Bool := k ≠ 0
    let sep := if notLastIter then strsepCursor s delim else (s, s)
    match sep.1 with
    | none => ([.delimits j, .strtoul none], [])
    | some token =>
      let r := strtoul token 0
      let endptr := r.2
      if endptr = token then (touched j token, [])
      else if endptr.head?.any (fun c => !notLastIter || c ∉ delim) then (touched j token, [])
      else if notLastIter && sep.2 = none then (touched j token, numbers ++ [r.1])
      else
        let rest := parseHelperAccesses delimits k (j + 1) sep.2 (numbers ++ [r.1])
        (touched j token ++ rest.1, rest.2)

/-- The numbers alone. -/
def parseHelperFrom (delimits : List (List Char)) (k j : ℕ) (s : List Char) (numbers : List (BitVec 64)) :
    List (BitVec 64) := (parseHelperAccesses delimits k j (some s) numbers).2

section Rounds
variable {delimits : List (List Char)} {k j : ℕ} {s token : List Char} {rest : Option (List Char)}
  {numbers : List (BitVec 64)}

/-- One round on a cursor that is not `NULL`. -/
lemma parseHelperAccesses_succ
    (hsep : (if k ≠ 0 then strsep s (delimits[j]?.getD []) else (s, some s)) = (token, rest)) :
    parseHelperAccesses delimits (k + 1) j (some s) numbers =
      if (strtoul token 0).2 = token then (touched j token, [])
      else if (strtoul token 0).2.head?.any (fun c => k = 0 || c ∉ delimits[j]?.getD []) then (touched j token, [])
      else rest.elim (touched j token, numbers ++ [(strtoul token 0).1]) fun s =>
        (touched j token ++ (parseHelperAccesses delimits k (j + 1) (some s) (numbers ++ [(strtoul token 0).1])).1,
          (parseHelperAccesses delimits k (j + 1) (some s) (numbers ++ [(strtoul token 0).1])).2) := by
  rw [parseHelperAccesses]
  by_cases hk : k = 0
  · subst hk
    rw [if_neg (by simp)] at hsep
    obtain ⟨rfl, rfl⟩ := Prod.mk.inj hsep
    simp
  · rw [if_pos hk] at hsep
    simp only [hk, ne_eq, not_false_eq_true, decide_true, if_true, strsepCursor, hsep]
    cases rest with
    | none => simp
    | some s => simp

lemma parseHelperFrom_succ
    (hsep : (if k ≠ 0 then strsep s (delimits[j]?.getD []) else (s, some s)) = (token, rest)) :
    parseHelperFrom delimits (k + 1) j s numbers =
      if (strtoul token 0).2 = token then []
      else if (strtoul token 0).2.head?.any (fun c => k = 0 || c ∉ delimits[j]?.getD []) then []
      else rest.elim (numbers ++ [(strtoul token 0).1]) fun s =>
        parseHelperFrom delimits k (j + 1) s (numbers ++ [(strtoul token 0).1]) := by
  rw [parseHelperFrom, parseHelperAccesses_succ hsep, apply_ite Prod.snd, apply_ite Prod.snd]
  cases rest <;> rfl

end Rounds

def parseHelper (s : List Char) (delimits : List (List Char)) (numsToParseMax : ℕ) :
    List (BitVec 64) := parseHelperFrom delimits numsToParseMax 0 s []

def numThreadsDelimits : List (List Char) := [[':']]

/-- `-t m[:n]` -/
def parseNumThreads (s : List Char) : List (BitVec 64) :=
  parseHelper s numThreadsDelimits (numThreadsDelimits.length + 1)

def cpuRangeDelimits : List (List Char) := [['-'], [':']]

/-- `-o m[-n[:s]]` -/
def parseCpulistRange (s : List Char) : List (BitVec 64) :=
  parseHelper s cpuRangeDelimits (cpuRangeDelimits.length + 1)

end Numbers

section Pinorders

/-- `CPU_SETSIZE` of glibc's `cpu_set_t`. -/
def cpuSetsize : ℕ := 1024

/-- The index of a CPU in the set: an `int` converted to `size_t`. -/
def cpuIndex (cpu : BitVec 32) : ℕ := (cpu.signExtend 64).toNat

/-- `CPU_ISSET`, false outside the set. -/
def cpuIsset (cpu : BitVec 32) (set : List ℕ) : Bool :=
  cpuIndex cpu < cpuSetsize && cpuIndex cpu ∈ set

/-- `CPU_SET`, without effect outside the set. -/
def cpuSet (cpu : BitVec 32) (set : List ℕ) : List ℕ :=
  if cpuIndex cpu < cpuSetsize then set.insert (cpuIndex cpu) else set

/-- `pinorder_specified_cores` and the filled part of `cpus_specified`. -/
structure Specified where
  cores : List ℕ := []
  cpus : List (BitVec 32) := []

/-- One pass of the body of an expansion loop. -/
def specify (cpu : BitVec 32) (sp : Specified) : Except ArgError Specified :=
  if cpuIsset cpu sp.cores then .error (.duplicateCpu cpu)
  else .ok ⟨cpuSet cpu sp.cores, sp.cpus ++ [cpu]⟩

/-- An expansion loop with `room` entries of `cpus_specified` left: while `more cpu`, then
`cpu += step`. -/
def expand (more : BitVec 32 → Bool) (step : BitVec 64) :
    (room : ℕ) → (cpu : BitVec 32) → Specified → Except ArgError Specified
  | room, cpu, sp =>
    if more cpu then
      match specify cpu sp, room with
      | .error e, _ => .error e
      | .ok _, 0 => .error .cpusOverflow
      | .ok sp, room + 1 => expand more step room ((cpu.signExtend 64 + step).setWidth 32) sp
    else .ok sp

/-- The comparison of an `int` with an `unsigned long`. -/
def intLe (cpu : BitVec 32) (bound : BitVec 64) : Bool := (cpu.signExtend 64).ule bound

def intGe (cpu : BitVec 32) (bound : BitVec 64) : Bool := bound.ule (cpu.signExtend 64)

/-- One CPU range of a `-o` list. -/
def parseCsv (sys : SystemInfo) (csv : List Char) (sp : Specified) : Except ArgError Specified :=
  let expandRange (first last skip : BitVec 64) : Except ArgError Specified :=
    let room := sys.numCores - sp.cpus.length
    if sys.numCores ≤ last.toNat then .error (.cpuNumber csv last)
    else if skip.slt 1 then .error (.cpuSkip csv)
    else if first.ule last then expand (intLe · last) skip room (first.setWidth 32) sp
    else expand (intGe · last) (-skip) room (first.setWidth 32) sp
  match parseCpulistRange csv with
  | [first] => expandRange first first 1
  | [first, last] => expandRange first last 1
  | [first, last, skip] => expandRange first last skip
  | _ => .error (.cpuRange csv)

/-- The loop over the comma-separated ranges; the fuel is the length of the list, of which
every round takes at least the comma. -/
def parseCsvs (sys : SystemInfo) : (fuel : ℕ) → List Char → Specified → Except ArgError Specified
  | 0, _, sp => .ok sp
  | fuel + 1, s, sp =>
    match parseCsv sys (strsep s [',']).1 sp with
    | .error e => .error e
    | .ok sp =>
      match (strsep s [',']).2 with
      | none => .ok sp
      | some s => parseCsvs sys fuel s sp

/-- `-o pinorder` -/
def parsePinningOrder (sys : SystemInfo) (optarg : List Char) : Except ArgError Pinorder :=
  match parseCsvs sys (optarg.length + 1) optarg ⟨[], []⟩ with
  | .error e => .error e
  | .ok sp =>
    if sys.numCores < sp.cores.length then .error (.cpuCount optarg sp.cores.length sys.numCores)
    else .ok ⟨some sp.cpus, sp.cpus.length, optarg, 0⟩

/-- `-t num_threads[:interleave]` -/
def parseThreads (sys : SystemInfo) (optarg : List Char) : Except ArgError Pinorder :=
  let thisPinorder := 't' :: optarg
  let pinorder (threads ileave : BitVec 64) : Except ArgError Pinorder :=
    if ileave.slt 0 then .error (.negativeInterleave thisPinorder)
    else if sys.numOnlineCores < threads.toNat then
      .error (.threadCount thisPinorder sys.numOnlineCores)
    else .ok ⟨none, threads.toNat, thisPinorder, ileave⟩
  match parseNumThreads optarg with
  | [threads] => pinorder threads 0
  | [threads, ileave] => pinorder threads ileave
  | _ => .error (.numThreads thisPinorder)

end Pinorders

section Durations

/-- `duration_parse_error` -/
def durationParseError (endptr optarg : List Char) : Bool :=
  if endptr ≠ [] then
    if endptr = "ns".toList ∨ endptr = "in".toList then endptr = optarg else true
  else false

/-- The argument of `-c` or `-p`. -/
def parseDuration (error : List Char → ArgError) (optarg : List Char) : Except ArgError Duration :=
  let r := strtoul optarg 10
  if durationParseError r.2 optarg then .error (error optarg)
  else .ok ⟨r.1, if r.2 = "ns".toList then .ns else .insts⟩

end Durations

/-- The options of `getopt_long` that are modelled. -/
inductive Opt
  | critical
  | criticalNanoseconds
  | criticalInstructions
  | parallel
  | parallelNanoseconds
  | parallelInstructions
  | numThreads
  | pinningOrder
  deriving DecidableEq

structure Flag where
  opt : Opt
  optarg : List Char

/-- The duration of a duration flag. -/
def Flag.duration (f : Flag) : Except ArgError Duration :=
  match f.opt with
  | .criticalNanoseconds | .parallelNanoseconds => .ok ⟨(strtoul f.optarg 10).1, .ns⟩
  | .criticalInstructions | .parallelInstructions => .ok ⟨(strtoul f.optarg 10).1, .insts⟩
  | .parallel => parseDuration .parallelDuration f.optarg
  | _ => parseDuration .criticalDuration f.optarg

/-- The pinorder of `-t` or `-o`. -/
def Flag.pinorder (sys : SystemInfo) (f : Flag) : Except ArgError Pinorder :=
  match f.opt with
  | .numThreads => parseThreads sys f.optarg
  | _ => parsePinningOrder sys f.optarg

/-- The array that a flag appends to. -/
inductive Target
  | crits
  | pars
  | pinorders
  deriving DecidableEq

def Opt.target : Opt → Target
  | .critical | .criticalNanoseconds | .criticalInstructions => .crits
  | .parallel | .parallelNanoseconds | .parallelInstructions => .pars
  | .numThreads | .pinningOrder => .pinorders

/-- One round of the `getopt_long` loop. -/
def parseFlag (sys : SystemInfo) (args : TestArgs) (f : Flag) : Except ArgError TestArgs :=
  match f.opt.target with
  | .crits => f.duration.map fun d => { args with crits := args.crits ++ [d] }
  | .pars => f.duration.map fun d => { args with pars := args.pars ++ [d] }
  | .pinorders => (f.pinorder sys).map fun po => { args with pinorders := args.pinorders ++ [po] }

def parseArgsFrom (sys : SystemInfo) (args : TestArgs) : List Flag → Except ArgError TestArgs
  | [] => .ok args
  | f :: flags =>
    match parseFlag sys args f with
    | .error e => .error e
    | .ok args => parseArgsFrom sys args flags

def parseArgs (sys : SystemInfo) (flags : List Flag) : Except ArgError TestArgs :=
  parseArgsFrom sys {} flags

section Accepted
variable {sys : SystemInfo} {args args' : TestArgs} {flags : List Flag}

/-- Accepted arguments have one entry for each flag, in the order of the flags. -/
structure Entries (sys : SystemInfo) (flags : List Flag) (args : TestArgs) : Prop where
  crits : List.Forall₂ (fun f d => f.duration = .ok d) (flags.filter (·.opt.target = .crits)) args.crits
  pars : List.Forall₂ (fun f d => f.duration = .ok d) (flags.filter (·.opt.target = .pars)) args.pars
  pinorders : List.Forall₂ (fun f po => f.pinorder sys = .ok po)
    (flags.filter (·.opt.target = .pinorders)) args.pinorders

lemma except_map_ok {α β : Type} {x : Except ArgError α} {g : α → β} {b : β}
    (h : x.map g = .ok b) : ∃ a, x = .ok a ∧ b = g a := by
  cases x with
  | error e => simp [Except.map] at h
  | ok a => exact ⟨a, rfl, by simpa [Except.map] using h.symm⟩

lemma Entries.snoc {f : Flag} (h : Entries sys flags args) (hf : parseFlag sys args f = .ok args') :
    Entries sys (flags ++ [f]) args' := by
  unfold parseFlag at hf
  cases ht : f.opt.target with
  | crits =>
    rw [ht] at hf
    obtain ⟨d, hd, rfl⟩ := except_map_ok hf
    refine ⟨?_, ?_, ?_⟩
    · simpa [ht] using List.rel_append h.crits (List.Forall₂.cons hd .nil)
    · simpa [ht] using h.pars
    · simpa [ht] using h.pinorders
  | pars =>
    rw [ht] at hf
    obtain ⟨d, hd, rfl⟩ := except_map_ok hf
    refine ⟨?_, ?_, ?_⟩
    · simpa [ht] using h.crits
    · simpa [ht] using List.rel_append h.pars (List.Forall₂.cons hd .nil)
    · simpa [ht] using h.pinorders
  | pinorders =>
    rw [ht] at hf
    obtain ⟨po, hpo, rfl⟩ := except_map_ok hf
    refine ⟨?_, ?_, ?_⟩
    · simpa [ht] using h.crits
    · simpa [ht] using h.pars
    · simpa [ht] using List.rel_append h.pinorders (List.Forall₂.cons hpo .nil)

theorem parseArgs_entries (h : parseArgs sys flags = .ok args) : Entries sys flags args := by
  suffices hall : ∀ flags done start, Entries sys done start →
      parseArgsFrom sys start flags = .ok args → Entries sys (done ++ flags) args from
    hall flags [] {} ⟨.nil, .nil, .nil⟩ h
  intro flags
  induction flags with
  | nil =>
    intro done start hs hp
    obtain rfl : start = args := by simpa [parseArgsFrom] using hp
    simpa using hs
  | cons f flags ih =>
    intro done start hs hp
    unfold parseArgsFrom at hp
    split at hp
    · simp at hp
    · next next hf =>
      have hnext := ih (done ++ [f]) next (hs.snoc hf) hp
      simpa using hnext

end Accepted

section Texts

/-- What does not begin with a number is refused as a range. -/
lemma parseHelperFrom_t (delimits : List (List Char)) (k j : ℕ) (s : List Char)
    (numbers : List (BitVec 64)) (ht : 't' ∉ delimits[j]?.getD []) :
    parseHelperFrom delimits (k + 1) j ('t' :: s) numbers = [] := by
  have hnum (r : List Char) : (strtoul ('t' :: r) 0).2 = 't' :: r := rfl
  by_cases hk : k = 0
  · rw [parseHelperFrom_succ (if_neg (not_not.mpr hk)), if_pos (hnum s)]
  · have hsep : strsep ('t' :: s) (delimits[j]?.getD []) = ('t' :: (strsep s (delimits[j]?.getD [])).1,
        (strsep s (delimits[j]?.getD [])).2) := by simp [strsep, ht]
    rw [parseHelperFrom_succ ((if_pos hk).trans hsep), if_pos (hnum _)]

lemma parseThreads_t (sys : SystemInfo) (s : List Char) :
    parseThreads sys ('t' :: s) = .error (.numThreads ('t' :: 't' :: s)) := by
  have hnum : parseNumThreads ('t' :: s) = [] := parseHelperFrom_t _ 1 0 s [] (by decide)
  simp [parseThreads, hnum]

lemma parsePinningOrder_t (sys : SystemInfo) (s : List Char) (po : Pinorder) :
    parsePinningOrder sys ('t' :: s) ≠ .ok po := by
  obtain ⟨r, hr⟩ : ∃ r, (strsep ('t' :: s) [',']).1 = 't' :: r := ⟨s.takeWhile (· ∉ [',']), by simp [strsep]⟩
  have hrange : parseCpulistRange ('t' :: r) = [] := parseHelperFrom_t _ 2 0 r [] (by decide)
  simp [parsePinningOrder, parseCsvs, hr, parseCsv, hrange]

/-- The pinorder keeps its text and, unlike `-t`, has a CPU list. -/
lemma parsePinningOrder_ok {sys : SystemInfo} {s : List Char} {po : Pinorder}
    (h : parsePinningOrder sys s = .ok po) : po.pinorderString = s ∧ po.cpuList ≠ none := by
  unfold parsePinningOrder at h
  split at h
  · simp at h
  · split at h
    · simp at h
    · obtain rfl := (Except.ok.inj h).symm
      simp

lemma parseThreads_ok {sys : SystemInfo} {s : List Char} {po : Pinorder}
    (h : parseThreads sys s = .ok po) : po.pinorderString = 't' :: s ∧ po.cpuList = none := by
  unfold parseThreads at h
  dsimp only at h
  split at h
  · split at h
    · simp at h
    · split at h
      · simp at h
      · obtain rfl := (Except.ok.inj h).symm
        simp
  · split at h
    · simp at h
    · split at h
      · simp at h
      · obtain rfl := (Except.ok.inj h).symm
        simp
  · simp at h

end Texts

end Lockhammer.Args
