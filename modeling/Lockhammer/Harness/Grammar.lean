import Lockhammer.Harness.Args

/-!
# Grammars of the command line (args.c)

`parse_helper` reads both the CPU ranges of `-o` and the thread counts of `-t`, by a table
of the delimiters between the numbers; `duration_parse_error` decides on `-c` and `-p`, and
the long forms of these go without it.
-/
namespace Lockhammer.Args
open CLib

/-- A field that `strtoul` in base 0 consumes as a whole, with at least one digit. -/
structure Field (f : List Char) (v : BitVec 64) : Prop where
  digits : strtoulDigits f 0 ≠ []
  reads : strtoul f 0 = (v, [])

/-- A string split at the first of each delimiter in turn, with the values of its fields. -/
inductive Fields : List Char → List Char → List (BitVec 64) → Prop
  | last {f v} : Field f v → Fields [] f [v]
  | stop {d ds f v} : d ∉ f → Field f v → Fields (d :: ds) f [v]
  | more {d ds f v s vs} : d ∉ f → Field f v → Fields ds s vs → Fields (d :: ds) (f ++ d :: s) (v :: vs)

section Fields
variable {d : Char} {ds f s : List Char} {v : BitVec 64} {vs : List (BitVec 64)}

lemma Fields.ne_nil (h : Fields ds s vs) : vs ≠ [] := by
  cases h <;> simp

lemma Field.ne_nil (h : Field f v) : f ≠ [] := by
  rintro rfl
  exact h.digits rfl

lemma Field.not_mem {c : Char} (h : Field f v)
    (hc : ¬ (isspace c = true ∨ c = '-' ∨ c = '+' ∨ isDigitOf 36 c = true)) : c ∉ f :=
  fun hmem => hc (strtoul_consumed (by decide) h.digits (congrArg Prod.snd h.reads) hmem)

/-- The two tests that `parse_helper` makes on a token. -/
lemma field_iff : Field f v ↔ (strtoul f 0).2 ≠ f ∧ (strtoul f 0).2 = [] ∧ v = (strtoul f 0).1 := by
  constructor
  · intro h
    rw [ne_eq, strtoul_rest_eq_iff, h.reads]
    exact ⟨h.digits, rfl, rfl⟩
  · rintro ⟨hne, hrest, rfl⟩
    exact ⟨mt strtoul_rest_eq_iff.mpr hne, Prod.ext rfl hrest⟩

/-- One round of the loop: the token is a field, and the string goes on or ends there. -/
lemma parseHelperFrom_field {delimits : List (List Char)} {k j : ℕ} {delim token : List Char}
    {rest : Option (List Char)} (numbers : List (BitVec 64)) (hd : delimits[j]?.getD [] = delim)
    (hsep : (if k ≠ 0 then strsep s delim else (s, some s)) = (token, rest)) (hf : Field token v) :
    parseHelperFrom delimits (k + 1) j s numbers =
      rest.elim (numbers ++ [v]) fun s => parseHelperFrom delimits k (j + 1) s (numbers ++ [v]) := by
  have hne : (strtoul token 0).2 ≠ token := (field_iff.mp hf).1
  have hv : strtoul token 0 = (v, []) := hf.reads
  rw [hv] at hne
  subst hd
  rw [parseHelperFrom_succ hsep, hv, if_neg hne, if_neg (by simp)]

/-- Text behind the number of a token that is no field: it cannot begin with the delimiter, at
which the token has been cut. -/
lemma text_behind_number {k : ℕ} {delim token : List Char} (hcut : k = 0 ∨ ∀ c ∈ token, c ∉ delim)
    (hf : ∀ v, ¬ Field token v) (hne : (strtoul token 0).2 ≠ token) :
    ∃ c r, (strtoul token 0).2 = c :: r ∧ (k = 0 ∨ c ∉ delim) := by
  cases hr : (strtoul token 0).2 with
  | nil => exact absurd (field_iff.mpr ⟨hne, hr, rfl⟩) (hf _)
  | cons c r =>
    have hc : c ∈ token := (strtoul_suffix token 0).subset (hr ▸ List.mem_cons_self)
    exact ⟨c, r, rfl, hcut.imp_right fun hcut => hcut c hc⟩

/-- A token that is no field is refused. -/
lemma parseHelperFrom_refused {delimits : List (List Char)} {k j : ℕ} {delim token : List Char}
    {rest : Option (List Char)} (numbers : List (BitVec 64)) (hd : delimits[j]?.getD [] = delim)
    (hsep : (if k ≠ 0 then strsep s delim else (s, some s)) = (token, rest))
    (hcut : k = 0 ∨ ∀ c ∈ token, c ∉ delim) (hf : ∀ v, ¬ Field token v) :
    parseHelperFrom delimits (k + 1) j s numbers = [] := by
  subst hd
  rw [parseHelperFrom_succ hsep]
  by_cases hne : (strtoul token 0).2 = token
  · rw [if_pos hne]
  · obtain ⟨c, r, hr, hc⟩ := text_behind_number hcut hf hne
    rw [if_neg hne, if_pos]
    rw [hr]
    obtain hk | hc := hc
    · simp [hk]
    · simp [hc]

lemma not_mem_delim (hd : d ∉ f) : ∀ c ∈ f, c ∉ [d] := fun _ hc hcd => hd (List.mem_singleton.mp hcd ▸ hc)

lemma delimits_getD (before ds : List Char) (d : Char) :
    ((before ++ d :: ds).map fun d => [d])[before.length]?.getD [] = [d] := by simp

/-- What splits into fields is read as their values. -/
lemma Fields.parseHelperFrom_eq (h : Fields ds s vs) (before : List Char) (numbers : List (BitVec 64)) :
    parseHelperFrom ((before ++ ds).map fun d => [d]) (ds.length + 1) before.length s numbers =
      numbers ++ vs := by
  induction h generalizing before numbers with
  | last hf => exact parseHelperFrom_field numbers rfl (if_neg (by simp)) hf
  | stop hd hf =>
    rw [List.length_cons, parseHelperFrom_field numbers (delimits_getD before _ _)
      (by rw [if_pos (by simp), strsep_of_not_mem hd]) hf]
    rfl
  | @more d ds f v s vs hd hf _ ih =>
    rw [List.length_cons, parseHelperFrom_field numbers (delimits_getD before ds d)
      (by rw [if_pos (by simp), strsep_append hd]) hf]
    have hnext := ih (before ++ [d]) (numbers ++ [v])
    simpa using hnext

/-- What is read as numbers splits into fields. -/
lemma fields_of_parseHelperFrom (before : List Char) (numbers : List (BitVec 64))
    (h : parseHelperFrom ((before ++ ds).map fun d => [d]) (ds.length + 1) before.length s numbers ≠ []) :
    ∃ vs, Fields ds s vs := by
  induction ds generalizing before s numbers with
  | nil =>
    by_contra hno
    exact h (parseHelperFrom_refused numbers rfl (if_neg (by simp)) (Or.inl rfl) fun v hf => hno ⟨_, .last hf⟩)
  | cons d ds ih =>
    by_contra hno
    have hdelim := delimits_getD before ds d
    obtain ⟨hd, hs⟩ | ⟨token, rest, hd, rfl, hs⟩ := strsep_cases s d
    · exact h (parseHelperFrom_refused numbers hdelim (by rw [if_pos (by simp), hs]) (Or.inr (not_mem_delim hd))
        fun v hf => hno ⟨_, .stop hd hf⟩)
    · by_cases hf : ∃ v, Field token v
      · obtain ⟨v, hf⟩ := hf
        rw [List.length_cons, parseHelperFrom_field numbers hdelim (by rw [if_pos (by simp), hs]) hf] at h
        obtain ⟨vs, hvs⟩ := ih (before ++ [d]) (numbers ++ [v]) (by simpa using h)
        exact hno ⟨_, .more hd hf hvs⟩
      · exact h (parseHelperFrom_refused numbers hdelim (by rw [if_pos (by simp), hs]) (Or.inr (not_mem_delim hd))
          fun v hv => hf ⟨v, hv⟩)

/-- `parse_helper` decides the grammar of its delimiters. -/
theorem parseHelper_fields :
    parseHelper s (ds.map fun d => [d]) (ds.length + 1) = vs ∧ vs ≠ [] ↔ Fields ds s vs := by
  constructor
  · rintro ⟨rfl, hne⟩
    obtain ⟨vs, hvs⟩ := fields_of_parseHelperFrom [] [] hne
    have hread : parseHelper s (ds.map fun d => [d]) (ds.length + 1) = vs := hvs.parseHelperFrom_eq [] []
    rw [hread]
    exact hvs
  · intro h
    exact ⟨h.parseHelperFrom_eq [] [], h.ne_nil⟩

end Fields

section Ranges
variable {s : List Char} {vs : List (BitVec 64)}

/-- `F1`, `F1-F2` or `F1-F2:F3`, split at the first `-` and behind it at the first `:`. -/
inductive CpulistRange : List Char → List (BitVec 64) → Prop
  | one {f₁ v₁} : '-' ∉ f₁ → Field f₁ v₁ → CpulistRange f₁ [v₁]
  | two {f₁ f₂ v₁ v₂} : '-' ∉ f₁ → ':' ∉ f₂ → Field f₁ v₁ → Field f₂ v₂ →
      CpulistRange (f₁ ++ '-' :: f₂) [v₁, v₂]
  | three {f₁ f₂ f₃ v₁ v₂ v₃} : '-' ∉ f₁ → ':' ∉ f₂ → Field f₁ v₁ → Field f₂ v₂ → Field f₃ v₃ →
      CpulistRange (f₁ ++ '-' :: (f₂ ++ ':' :: f₃)) [v₁, v₂, v₃]

/-- `F1` or `F1:F2`, split at the first `:`. -/
inductive NumThreads : List Char → List (BitVec 64) → Prop
  | one {f₁ v₁} : ':' ∉ f₁ → Field f₁ v₁ → NumThreads f₁ [v₁]
  | two {f₁ f₂ v₁ v₂} : ':' ∉ f₁ → Field f₁ v₁ → Field f₂ v₂ → NumThreads (f₁ ++ ':' :: f₂) [v₁, v₂]

lemma fields_cpulistRange : Fields ['-', ':'] s vs ↔ CpulistRange s vs := by
  constructor
  · intro h
    cases h with
    | stop hd hf => exact .one hd hf
    | more hd₁ hf₁ h =>
      cases h with
      | stop hd₂ hf₂ => exact .two hd₁ hd₂ hf₁ hf₂
      | more hd₂ hf₂ h =>
        cases h with
        | last hf₃ => exact .three hd₁ hd₂ hf₁ hf₂ hf₃
  · intro h
    cases h with
    | one hd hf => exact .stop hd hf
    | two hd₁ hd₂ hf₁ hf₂ => exact .more hd₁ hf₁ (.stop hd₂ hf₂)
    | three hd₁ hd₂ hf₁ hf₂ hf₃ => exact .more hd₁ hf₁ (.more hd₂ hf₂ (.last hf₃))

lemma fields_numThreads : Fields [':'] s vs ↔ NumThreads s vs := by
  constructor
  · intro h
    cases h with
    | stop hd hf => exact .one hd hf
    | more hd₁ hf₁ h =>
      cases h with
      | last hf₂ => exact .two hd₁ hf₁ hf₂
  · intro h
    cases h with
    | one hd hf => exact .stop hd hf
    | two hd hf₁ hf₂ => exact .more hd hf₁ (.last hf₂)

/-- For every string: the numbers that are returned, if any, are those of its fields, and
without fields there are none. -/
theorem parse_ranges_grammar (s : List Char) :
    (∀ vs, parseCpulistRange s = vs ∧ vs ≠ [] ↔ CpulistRange s vs) ∧
      ((∀ vs, ¬ CpulistRange s vs) → parseCpulistRange s = []) ∧
      (∀ vs, parseNumThreads s = vs ∧ vs ≠ [] ↔ NumThreads s vs) ∧
      ((∀ vs, ¬ NumThreads s vs) → parseNumThreads s = []) := by
  have hrange (vs : List (BitVec 64)) : parseCpulistRange s = vs ∧ vs ≠ [] ↔ CpulistRange s vs :=
    (@parseHelper_fields ['-', ':'] s vs).trans fields_cpulistRange
  have hthreads (vs : List (BitVec 64)) : parseNumThreads s = vs ∧ vs ≠ [] ↔ NumThreads s vs :=
    (@parseHelper_fields [':'] s vs).trans fields_numThreads
  refine ⟨hrange, ?_, hthreads, ?_⟩
  · intro hno
    by_contra hne
    exact hno _ ((hrange _).mp ⟨rfl, hne⟩)
  · intro hno
    by_contra hne
    exact hno _ ((hthreads _).mp ⟨rfl, hne⟩)

end Ranges

section Durations
variable {args : TestArgs} {s : List Char}

/-- The case of a duration flag: the state behind it, and the error if it returns -1. The
array is written after the check. -/
def durationCase (error : List Char → ArgError) (append : TestArgs → Duration → TestArgs)
    (args : TestArgs) (optarg : List Char) : TestArgs × Option ArgError :=
  match parseDuration error optarg with
  | .error e => (args, some e)
  | .ok d => (append args d, none)

def appendCrit (args : TestArgs) (d : Duration) : TestArgs := { args with crits := args.crits ++ [d] }

def appendPar (args : TestArgs) (d : Duration) : TestArgs := { args with pars := args.pars ++ [d] }

/-- `-c` -/
def caseCritical : TestArgs → List Char → TestArgs × Option ArgError :=
  durationCase .criticalDuration appendCrit

/-- `-p` -/
def caseParallel : TestArgs → List Char → TestArgs × Option ArgError :=
  durationCase .parallelDuration appendPar

/-- The round of `parse_args` is that case. -/
lemma parseFlag_critical (sys : SystemInfo) :
    parseFlag sys args ⟨.critical, s⟩ =
      match caseCritical args s with
      | (_, some e) => .error e
      | (args', none) => .ok args' := by
  change (parseDuration .criticalDuration s).map (appendCrit args) = _
  unfold caseCritical durationCase
  cases parseDuration .criticalDuration s <;> rfl

lemma parseFlag_parallel (sys : SystemInfo) :
    parseFlag sys args ⟨.parallel, s⟩ =
      match caseParallel args s with
      | (_, some e) => .error e
      | (args', none) => .ok args' := by
  change (parseDuration .parallelDuration s).map (appendPar args) = _
  unfold caseParallel durationCase
  cases parseDuration .parallelDuration s <;> rfl

/-- A number with at least one digit, and behind it nothing, `ns` or `in`. -/
structure IsDuration (s : List Char) : Prop where
  digits : strtoulDigits s 10 ≠ []
  unit : (strtoul s 10).2 = [] ∨ (strtoul s 10).2 = "ns".toList ∨ (strtoul s 10).2 = "in".toList

/-- The value with its unit, nanoseconds for `ns` and instructions otherwise. -/
def durationOf (s : List Char) : Duration :=
  ⟨(strtoul s 10).1, if (strtoul s 10).2 = "ns".toList then .ns else .insts⟩

/-- A flag accepts exactly the durations, appends the one it accepts, and leaves the
arguments alone when it refuses. -/
structure ReadsDuration (flag : TestArgs → List Char → TestArgs × Option ArgError)
    (append : TestArgs → Duration → TestArgs) (args : TestArgs) (s : List Char) : Prop where
  accepts : (flag args s).2 = none ↔ IsDuration s
  appends : (flag args s).2 = none → (flag args s).1 = append args (durationOf s)
  keeps : (flag args s).2 ≠ none → (flag args s).1 = args

/-- The check asks for digits only where a unit follows. -/
lemma durationParseError_iff :
    durationParseError (strtoul s 10).2 s = false ↔ IsDuration s ∨ s = [] := by
  have hdigits := @strtoul_rest_eq_iff s 10
  unfold durationParseError
  split
  · next hne =>
    split
    · next hunit =>
      have hs : s ≠ [] := by
        rintro rfl
        exact hne rfl
      rw [decide_eq_false_iff_not, hdigits]
      constructor
      · exact fun hd => Or.inl ⟨hd, Or.inr hunit⟩
      · rintro (h | h)
        · exact h.digits
        · exact absurd h hs
    · next hunit =>
      refine iff_of_false (by decide) ?_
      rintro (h | rfl)
      · exact h.unit.elim hne hunit
      · exact hne rfl
  · next hnil =>
    rw [not_not] at hnil
    refine iff_of_true rfl ?_
    by_cases hd : strtoulDigits s 10 = []
    · exact Or.inr ((hdigits.mpr hd).symm.trans hnil)
    · exact Or.inl ⟨hd, Or.inl hnil⟩

lemma durationCase_eq (error : List Char → ArgError) (append : TestArgs → Duration → TestArgs) :
    durationCase error append args s =
      if durationParseError (strtoul s 10).2 s = true then (args, some (error s))
      else (append args (durationOf s), none) := by
  unfold durationCase parseDuration
  dsimp only
  split
  · next h =>
    split at h
    · next herr =>
      rw [if_pos herr, Except.error.inj h]
    · cases h
  · next h =>
    split at h
    · cases h
    · next herr =>
      rw [if_neg herr, ← Except.ok.inj h]
      rfl

lemma durationCase_reads_iff (error : List Char → ArgError) (append : TestArgs → Duration → TestArgs) :
    ReadsDuration (durationCase error append) append args s ↔ s ≠ [] := by
  have haccept : (durationCase error append args s).2 = none ↔ IsDuration s ∨ s = [] := by
    rw [← durationParseError_iff, durationCase_eq]
    cases durationParseError (strtoul s 10).2 s <;> simp
  constructor
  · rintro h rfl
    exact (h.accepts.mp (haccept.mpr (Or.inr rfl))).digits rfl
  · intro hs
    refine ⟨?_, ?_, ?_⟩
    · rw [haccept]
      exact or_iff_left hs
    · rw [durationCase_eq]
      split <;> simp
    · rw [durationCase_eq]
      split <;> simp

/-- `-c` and `-p` read durations as they should on every string but the empty one. -/
theorem duration_flags_read_iff (args : TestArgs) (s : List Char) :
    (ReadsDuration caseCritical appendCrit args s ↔ s ≠ []) ∧
      (ReadsDuration caseParallel appendPar args s ↔ s ≠ []) :=
  ⟨durationCase_reads_iff _ _, durationCase_reads_iff _ _⟩

theorem empty_duration_accepted :
    caseCritical {} [] = ({ crits := [⟨0, .insts⟩] }, none) ∧ ¬ ReadsDuration caseCritical appendCrit {} [] := by
  refine ⟨by decide, fun h => ?_⟩
  exact (h.accepts.mp (by decide)).digits rfl

end Durations

section LongFlags
variable {sys : SystemInfo} {args : TestArgs} {x : List Char}

/-- Two flags accept together, and then leave the same arguments behind. -/
def SameEffect (sys : SystemInfo) (args : TestArgs) (f g : Flag) : Prop :=
  ∀ args', parseFlag sys args f = .ok args' ↔ parseFlag sys args g = .ok args'

/-- A decimal number and nothing behind it. -/
structure IsNumber (x : List Char) : Prop where
  digits : strtoulDigits x 10 ≠ []
  rest : (strtoul x 10).2 = []

/-- A unit is no part of a number. -/
lemma strtoul_append_unit {u : List Char} (hu : u = "ns".toList ∨ u = "in".toList) :
    strtoul (x ++ u) 10 = ((strtoul x 10).1, (strtoul x 10).2 ++ u) := by
  obtain rfl | rfl := hu
  · exact strtoul_append (by decide) (by decide) (by decide) (by decide) x ['s']
  · exact strtoul_append (by decide) (by decide) (by decide) (by decide) x ['n']

/-- Behind a unit nothing is cut off: the whole of what stands before it has to be a number. -/
lemma isDuration_append_iff {u : List Char} (hu : u = "ns".toList ∨ u = "in".toList) :
    IsDuration (x ++ u) ↔ IsNumber x := by
  have hread : (strtoul (x ++ u) 10).2 = (strtoul x 10).2 ++ u := congrArg Prod.snd (strtoul_append_unit hu)
  have hdigits : strtoulDigits (x ++ u) 10 = [] ↔ strtoulDigits x 10 = [] := by
    rw [← strtoul_rest_eq_iff, ← strtoul_rest_eq_iff, hread, List.append_left_inj]
  have hunit : (strtoul (x ++ u) 10).2 = [] ∨ (strtoul (x ++ u) 10).2 = "ns".toList ∨
      (strtoul (x ++ u) 10).2 = "in".toList ↔ (strtoul x 10).2 = [] := by
    rw [hread]
    constructor
    · intro h
      have hlen : ((strtoul x 10).2 ++ u).length ≤ 2 := by
        obtain h | h | h := h <;> rw [h] <;> decide
      have htwo : u.length = 2 := by
        obtain rfl | rfl := hu <;> rfl
      rw [List.length_append] at hlen
      exact List.length_eq_zero_iff.mp (by omega)
    · intro h
      rw [h]
      exact Or.inr hu
  exact ⟨fun h => ⟨mt hdigits.mpr h.digits, hunit.mp h.unit⟩, fun h => ⟨mt hdigits.mp h.digits, hunit.mpr h.rest⟩⟩

lemma parseDuration_ok_iff {error : List Char → ArgError} {s : List Char} (hs : s ≠ []) {d : Duration} :
    parseDuration error s = .ok d ↔ IsDuration s ∧ d = durationOf s := by
  have hcheck : durationParseError (strtoul s 10).2 s = false ↔ IsDuration s :=
    durationParseError_iff.trans (or_iff_left hs)
  have hparse : parseDuration error s =
      if durationParseError (strtoul s 10).2 s = true then .error (error s) else .ok (durationOf s) := rfl
  rw [hparse, ← hcheck]
  cases durationParseError (strtoul s 10).2 s with
  | false =>
    rw [if_neg Bool.false_ne_true]
    exact ⟨fun h => ⟨rfl, (Except.ok.inj h).symm⟩, fun h => congrArg Except.ok h.2.symm⟩
  | true =>
    rw [if_pos rfl]
    constructor
    · rintro ⟨⟩
    · rintro ⟨⟨⟩, -⟩

/-- With its unit behind it a number is the duration that the long flag takes it for. -/
lemma durationOf_append (hx : IsNumber x) :
    durationOf (x ++ "ns".toList) = ⟨(strtoul x 10).1, .ns⟩ ∧
      durationOf (x ++ "in".toList) = ⟨(strtoul x 10).1, .insts⟩ := by
  constructor
  · rw [durationOf, strtoul_append_unit (Or.inl rfl), hx.rest]
    rfl
  · rw [durationOf, strtoul_append_unit (Or.inr rfl), hx.rest]
    rfl

/-- The long flag never refuses, and the short one refuses all but numbers. -/
lemma sameEffect_iff (error : List Char → ArgError) (append : TestArgs → Duration → TestArgs)
    {f g : Flag} {u : List Char} {d : Duration} (hu : u = "ns".toList ∨ u = "in".toList)
    (hd : IsNumber x → durationOf (x ++ u) = d) (hf : parseFlag sys args f = .ok (append args d))
    (hg : parseFlag sys args g = (parseDuration error (x ++ u)).map (append args)) :
    SameEffect sys args f g ↔ IsNumber x := by
  have hne : x ++ u ≠ [] := by
    obtain rfl | rfl := hu <;> simp
  constructor
  · intro h
    obtain ⟨d', hok, -⟩ := except_map_ok (hg.symm.trans ((h _).mp hf))
    exact (isDuration_append_iff hu).mp ((parseDuration_ok_iff hne).mp hok).1
  · intro hx args'
    have hok : parseDuration error (x ++ u) = .ok d :=
      (parseDuration_ok_iff hne).mpr ⟨(isDuration_append_iff hu).mpr hx, (hd hx).symm⟩
    rw [hf, hg, hok]
    rfl

/-- Each of the four long flags does what its documented short form does on the numbers, and
on no other string. -/
theorem long_flags_same_effect_iff (sys : SystemInfo) (args : TestArgs) (x : List Char) :
    (SameEffect sys args ⟨.criticalNanoseconds, x⟩ ⟨.critical, x ++ "ns".toList⟩ ↔ IsNumber x) ∧
      (SameEffect sys args ⟨.criticalInstructions, x⟩ ⟨.critical, x ++ "in".toList⟩ ↔ IsNumber x) ∧
      (SameEffect sys args ⟨.parallelNanoseconds, x⟩ ⟨.parallel, x ++ "ns".toList⟩ ↔ IsNumber x) ∧
      (SameEffect sys args ⟨.parallelInstructions, x⟩ ⟨.parallel, x ++ "in".toList⟩ ↔ IsNumber x) := by
  refine ⟨?_, ?_, ?_, ?_⟩
  · exact sameEffect_iff .criticalDuration appendCrit (Or.inl rfl) (fun hx => (durationOf_append hx).1) rfl rfl
  · exact sameEffect_iff .criticalDuration appendCrit (Or.inr rfl) (fun hx => (durationOf_append hx).2) rfl rfl
  · exact sameEffect_iff .parallelDuration appendPar (Or.inl rfl) (fun hx => (durationOf_append hx).1) rfl rfl
  · exact sameEffect_iff .parallelDuration appendPar (Or.inr rfl) (fun hx => (durationOf_append hx).2) rfl rfl

/-- A hundred microseconds are refused by `-c` and taken for a hundred nanoseconds by `--cn`. -/
theorem long_flag_microseconds :
    parseFlag ⟨1, 1, 1⟩ {} ⟨.criticalNanoseconds, "100us".toList⟩ = .ok { crits := [⟨100, .ns⟩] } ∧
      parseFlag ⟨1, 1, 1⟩ {} ⟨.critical, "100us".toList ++ "ns".toList⟩ =
        .error (.criticalDuration "100usns".toList) ∧
      ¬ SameEffect ⟨1, 1, 1⟩ {} ⟨.criticalNanoseconds, "100us".toList⟩
        ⟨.critical, "100us".toList ++ "ns".toList⟩ := by
  have hlong : parseFlag ⟨1, 1, 1⟩ {} ⟨.criticalNanoseconds, "100us".toList⟩ =
      .ok { crits := [⟨100, .ns⟩] } := rfl
  have hshort : parseFlag ⟨1, 1, 1⟩ {} ⟨.critical, "100us".toList ++ "ns".toList⟩ =
      .error (.criticalDuration "100usns".toList) := rfl
  refine ⟨hlong, hshort, fun h => ?_⟩
  have hok := (h _).mp hlong
  rw [hshort] at hok
  cases hok

end LongFlags
end Lockhammer.Args
