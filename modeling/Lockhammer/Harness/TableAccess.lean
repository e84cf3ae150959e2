import Lockhammer.Harness.Grammar

/-!
# The tables of parse_helper (args.c)

The loop of `parse_helper` runs over the numbers, of which there is one more than there are
delimiters between them. The delimiter of a round is loaded before the last round is told
from the others, so a string that reaches the last round is read with an entry too far.
-/
namespace Lockhammer.Args
open CLib

/-- Below the lengths of the two tables, and not `NULL`. -/
def Access.InTables (delimiters numbers : ℕ) : Access → Prop
  | .delimits j => j < delimiters
  | .strtoul token => token ≠ none
  | .pNumbers j => j < numbers

section Rounds
variable {delimits : List (List Char)} {k j : ℕ} {s token : List Char} {rest : Option (List Char)}
  {numbers : List (BitVec 64)}

/-- Behind a field the loop goes on where the string does. -/
lemma accesses_field (hsep : (if k ≠ 0 then strsep s (delimits[j]?.getD []) else (s, some s)) = (token, rest))
    {v : BitVec 64} (hf : Field token v) :
    (parseHelperAccesses delimits (k + 1) j (some s) numbers).1 = touched j token ++
      rest.elim [] fun s => (parseHelperAccesses delimits k (j + 1) (some s) (numbers ++ [v])).1 := by
  obtain ⟨hne, hend, rfl⟩ := field_iff.mp hf
  rw [parseHelperAccesses_succ hsep, if_neg hne, hend, if_neg (by simp)]
  cases rest with
  | none => simp only [Option.elim_none, List.append_nil]
  | some s => rfl

/-- A token that is no field ends it. -/
lemma accesses_refused (hsep : (if k ≠ 0 then strsep s (delimits[j]?.getD []) else (s, some s)) = (token, rest))
    (hcut : k = 0 ∨ ∀ c ∈ token, c ∉ delimits[j]?.getD []) (hf : ∀ v, ¬ Field token v) :
    (parseHelperAccesses delimits (k + 1) j (some s) numbers).1 = touched j token := by
  rw [parseHelperAccesses_succ hsep]
  by_cases hne : (strtoul token 0).2 = token
  · rw [if_pos hne]
  · obtain ⟨c, r, hr, hc⟩ := text_behind_number hcut hf hne
    rw [if_neg hne, hr, if_pos (by simpa using hc)]

/-- Nor does the loop go on where the string ends. -/
lemma accesses_end (hsep : (if k ≠ 0 then strsep s (delimits[j]?.getD []) else (s, some s)) = (token, none)) :
    (parseHelperAccesses delimits (k + 1) j (some s) numbers).1 = touched j token := by
  rw [parseHelperAccesses_succ hsep]
  split
  · rfl
  · split <;> rfl

/-- The last round has no other behind it. -/
lemma accesses_last : (parseHelperAccesses delimits 1 j (some s) numbers).1 = touched j s := by
  by_cases hf : ∃ v, Field s v
  · obtain ⟨v, hf⟩ := hf
    rw [accesses_field (if_neg (by simp)) hf]
    exact List.append_nil _
  · exact accesses_refused (if_neg (by simp)) (Or.inl rfl) fun v hv => hf ⟨v, hv⟩

@[simp] lemma forall_touched {m n : ℕ} : (∀ a ∈ touched j token, a.InTables m n) ↔ j < m ∧ j < n := by
  simp [touched, Access.InTables]

end Rounds

/-- The string has all the delimiters in turn, with a field in front of each. -/
inductive Reaches : List Char → List Char → Prop
  | last {s} : Reaches [] s
  | more {d ds f v s} : d ∉ f → Field f v → Reaches ds s → Reaches (d :: ds) (f ++ d :: s)

section Bounds
variable {ds s : List Char}

/-- It is cut at the first of each. -/
lemma reaches_append_iff {d : Char} {f : List Char} (hd : d ∉ f) :
    Reaches (d :: ds) (f ++ d :: s) ↔ (∃ v, Field f v) ∧ Reaches ds s := by
  constructor
  · intro h
    generalize ht : f ++ d :: s = t at h
    cases h with
    | @more _ _ f' v s' hd' hf hs =>
      have hcut : (f, some s) = (f', some s') := by rw [← strsep_append hd, ht, strsep_append hd']
      obtain ⟨rfl, hrest⟩ := Prod.mk.inj hcut
      obtain rfl := Option.some.inj hrest
      exact ⟨⟨v, hf⟩, hs⟩
  · rintro ⟨⟨v, hf⟩, hs⟩
    exact .more hd hf hs

lemma not_reaches_of_not_mem {d : Char} (hd : d ∉ s) : ¬ Reaches (d :: ds) s := by
  intro h
  cases h with
  | more => simp at hd

/-- A round too many is begun exactly on the strings with all the delimiters. -/
theorem accesses_inTables_iff (before : List Char) (numbers : List (BitVec 64)) :
    (∀ a ∈ (parseHelperAccesses ((before ++ ds).map fun d => [d]) (ds.length + 1) before.length (some s) numbers).1,
      a.InTables (before.length + ds.length) (before.length + ds.length + 1)) ↔ ¬ Reaches ds s := by
  induction ds generalizing before s numbers with
  | nil =>
    rw [List.length_nil, accesses_last, forall_touched]
    exact iff_of_false (by omega) (not_not.mpr .last)
  | cons d ds ih =>
    have hdelim := delimits_getD before ds d
    have hin : before.length < before.length + (ds.length + 1) ∧
        before.length < before.length + (ds.length + 1) + 1 := by omega
    have hsep {s token : List Char} {rest : Option (List Char)} (hs : strsep s [d] = (token, rest)) :
        (if ds.length + 1 ≠ 0 then strsep s (((before ++ d :: ds).map fun d => [d])[before.length]?.getD [])
          else (s, some s)) = (token, rest) := by
      rw [if_pos (by omega), hdelim, hs]
    rw [List.length_cons]
    obtain ⟨hd, hs⟩ | ⟨token, rest, hd, rfl, hs⟩ := strsep_cases s d
    · refine iff_of_true ?_ (not_reaches_of_not_mem hd)
      rw [accesses_end (hsep hs), forall_touched]
      exact hin
    · rw [reaches_append_iff hd]
      by_cases hf : ∃ v, Field token v
      · obtain ⟨v, hv⟩ := hf
        have hnext := ih (s := rest) (before ++ [d]) (numbers ++ [v])
        rw [List.append_assoc, List.singleton_append, List.length_append, List.length_singleton,
          Nat.add_assoc before.length, Nat.add_comm 1] at hnext
        rw [accesses_field (hsep hs) hv, Option.elim_some, List.forall_mem_append, forall_touched, hnext]
        exact ⟨fun h hr => h.2 hr.2, fun h => ⟨hin, fun hr => h ⟨⟨v, hv⟩, hr⟩⟩⟩
      · rw [accesses_refused (hsep hs) (Or.inr (hdelim ▸ not_mem_delim hd)) fun v hv => hf ⟨v, hv⟩, forall_touched]
        exact iff_of_true hin fun h => hf h.1

/-- Every round stays within tables that have an entry for it. -/
lemma accesses_inTables (delimits : List (List Char)) (k j : ℕ) (s : List Char) (numbers : List (BitVec 64)) :
    ∀ a ∈ (parseHelperAccesses delimits k j (some s) numbers).1, a.InTables (j + k) (j + k) := by
  induction k generalizing j s numbers with
  | zero => simp [parseHelperAccesses]
  | succ k ih =>
    obtain ⟨⟨token, rest⟩, hsep⟩ : ∃ r, (if k ≠ 0 then strsep s (delimits[j]?.getD []) else (s, some s)) = r :=
      ⟨_, rfl⟩
    have hround : ∀ a ∈ touched j token, a.InTables (j + (k + 1)) (j + (k + 1)) := forall_touched.mpr (by omega)
    rw [parseHelperAccesses_succ hsep]
    split
    · exact hround
    split
    · exact hround
    cases rest with
    | none => exact hround
    | some s =>
      have hnext := ih (j + 1) s (numbers ++ [(strtoul token 0).1])
      rw [Nat.add_assoc, Nat.add_comm 1] at hnext
      exact List.forall_mem_append.mpr ⟨hround, hnext⟩

end Bounds

section Callers
variable {s : List Char}

def parseNumThreadsAccesses (s : List Char) : List Access :=
  (parseHelperAccesses numThreadsDelimits (numThreadsDelimits.length + 1) 0 (some s) []).1

/-- `long numbers[2]` in `parse_args` -/
def numbersLength : ℕ := 2

def parseCpulistRangeAccesses (s : List Char) : List Access :=
  (parseHelperAccesses cpuRangeDelimits (cpuRangeDelimits.length + 1) 0 (some s) []).1

/-- `unsigned long cpu_range[3]` in `parse_args` -/
def cpuRangeLength : ℕ := 3

lemma reaches_numThreads :
    Reaches [':'] s ↔ ∃ f₁ v₁ rest, s = f₁ ++ ':' :: rest ∧ ':' ∉ f₁ ∧ Field f₁ v₁ := by
  constructor
  · intro h
    cases h with
    | more hd hf _ => exact ⟨_, _, _, rfl, hd, hf⟩
  · rintro ⟨f₁, v₁, rest, rfl, hd, hf⟩
    exact .more hd hf .last

lemma reaches_cpulistRange :
    Reaches ['-', ':'] s ↔ ∃ f₁ v₁ f₂ v₂ rest, s = f₁ ++ '-' :: (f₂ ++ ':' :: rest) ∧
      '-' ∉ f₁ ∧ Field f₁ v₁ ∧ ':' ∉ f₂ ∧ Field f₂ v₂ := by
  constructor
  · intro h
    cases h with
    | more hd₁ hf₁ h =>
      cases h with
      | more hd₂ hf₂ _ => exact ⟨_, _, _, _, _, rfl, hd₁, hf₁, hd₂, hf₂⟩
  · rintro ⟨f₁, v₁, f₂, v₂, rest, rfl, hd₁, hf₁, hd₂, hf₂⟩
    exact .more hd₁ hf₁ (.more hd₂ hf₂ .last)

/-- On every string the numbers are written within the arrays of `parse_args` and `strtoul`
gets a string, and one entry more would do for the delimiters. -/
theorem numbers_in_range (s : List Char) :
    (∀ a ∈ parseNumThreadsAccesses s, a.InTables (numThreadsDelimits.length + 1) numbersLength) ∧
      ∀ a ∈ parseCpulistRangeAccesses s, a.InTables (cpuRangeDelimits.length + 1) cpuRangeLength :=
  ⟨accesses_inTables _ 2 0 s [], accesses_inTables _ 3 0 s []⟩

/-- `parse_helper` stays inside its tables on exactly the strings that lack one of the
delimiters, or a number in front of one. -/
theorem parse_helper_in_tables_iff (s : List Char) :
    ((∀ a ∈ parseNumThreadsAccesses s, a.InTables numThreadsDelimits.length numbersLength) ↔
      ¬ ∃ f₁ v₁ rest, s = f₁ ++ ':' :: rest ∧ ':' ∉ f₁ ∧ Field f₁ v₁) ∧
    ((∀ a ∈ parseCpulistRangeAccesses s, a.InTables cpuRangeDelimits.length cpuRangeLength) ↔
      ¬ ∃ f₁ v₁ f₂ v₂ rest, s = f₁ ++ '-' :: (f₂ ++ ':' :: rest) ∧
        '-' ∉ f₁ ∧ Field f₁ v₁ ∧ ':' ∉ f₂ ∧ Field f₂ v₂) := by
  rw [← reaches_numThreads, ← reaches_cpulistRange]
  exact ⟨@accesses_inTables_iff [':'] s [] [], @accesses_inTables_iff ['-', ':'] s [] []⟩

/-- Three threads interleaved by two, and every second CPU of a range. -/
theorem interleave_reads_past_delimits :
    (¬ ∀ a ∈ parseNumThreadsAccesses "3:2".toList, a.InTables numThreadsDelimits.length numbersLength) ∧
      ¬ ∀ a ∈ parseCpulistRangeAccesses "0-6:2".toList, a.InTables cpuRangeDelimits.length cpuRangeLength := by
  have hthreads : .delimits 1 ∈ parseNumThreadsAccesses "3:2".toList := by decide
  have hrange : .delimits 2 ∈ parseCpulistRangeAccesses "0-6:2".toList := by decide
  exact ⟨fun h => absurd (h _ hthreads) (Nat.lt_irrefl 1), fun h => absurd (h _ hrange) (Nat.lt_irrefl 2)⟩

end Callers
end Lockhammer.Args
