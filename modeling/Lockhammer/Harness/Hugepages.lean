import Lockhammer.CLib.Strcasecmp
import Lockhammer.CLib.Strtoul

/-!
# The huge page parameter (alloc.c)

`parse_hugepage_parameter` looks its argument up in the table of size names and, when it is
not there, takes what `strtoul` reads from it for the number of an enumerator.
-/
namespace Lockhammer.Alloc
open CLib

/-- The enumerators below `HUGEPAGES_MAX_ENUM`. -/
inductive Hugepages
  | none
  | default
  | size64K
  | size2M
  | size32M
  | size512M
  | size1G
  | size16G
  deriving DecidableEq, Repr

def Hugepages.value : Hugepages → ℤ
  | .none => 0
  | .default => 1
  | .size64K => 2
  | .size2M => 3
  | .size32M => 4
  | .size512M => 5
  | .size1G => 6
  | .size16G => 7

/-- `HUGEPAGES_MAX_ENUM` -/
def hugepagesMaxEnum : ℤ := 8

def hugepageMapping : List (String × Hugepages) :=
  [("none", .none), ("0", .none), ("default", .default), ("1", .default),
    ("64K", .size64K), ("64KB", .size64K), ("2M", .size2M), ("2MB", .size2M),
    ("32M", .size32M), ("32MB", .size32M), ("512M", .size512M), ("512MB", .size512M),
    ("1G", .size1G), ("1GB", .size1G), ("16G", .size16G), ("16GB", .size16G)]

/-- Why `parse_hugepage_parameter` exits. -/
inductive ParameterExit
  | help
  | unknown (optarg : List Char)
  deriving DecidableEq

/-- The table that is printed before the exit. -/
def hugepageTable : String :=
  "param  hugepage size (may not be supported by the system!)\n" ++
    String.join (hugepageMapping.map fun e =>
      String.ofList (List.rightpad 5 ' ' (toString e.2.value).toList) ++ "  " ++ e.1 ++ "\n")

def ParameterExit.message : ParameterExit → String
  | .help => hugepageTable
  | .unknown optarg => "Error: unknown hugepage parameter " ++ String.ofList optarg ++ "\n" ++ hugepageTable

/-- The table entry of a size name, ignoring case. -/
def lookupSize (optarg : List Char) : Option (String × Hugepages) :=
  hugepageMapping.find? fun e => strcasecmp optarg e.1.toList

def parseHugepageParameter (optarg : List Char) : Except ParameterExit ℤ :=
  if strcasecmp optarg "help".toList then .error .help
  else
    let useHugepages := match lookupSize optarg with
      | some e => e.2.value
      | none => ((strtoul optarg 0).1.setWidth 32).toInt
    if useHugepages ≥ hugepagesMaxEnum ∨ useHugepages < Hugepages.none.value then .error (.unknown optarg)
    else .ok useHugepages

section Grammar
variable {s : List Char} {v : ℤ}

/-- A size name of the table, in any case of letters. -/
def Named (s : List Char) (v : ℤ) : Prop :=
  ∃ e ∈ hugepageMapping, strcasecmp s e.1.toList = true ∧ v = e.2.value

/-- A whole string that is a number, with the number it stands for. -/
structure Numeral (s : List Char) (v : ℤ) : Prop where
  digits : strtoulDigits s 0 ≠ []
  whole : (strtoul s 0).2 = []
  number : v = strtoulNumber s 0

/-- The parameter stands for `v`. -/
def Denotes (s : List Char) (v : ℤ) : Prop :=
  Named s v ∨ Numeral s v ∧ Hugepages.none.value ≤ v ∧ v < hugepagesMaxEnum

/-- The parameter is taken for what it stands for, and refused when it stands for nothing. -/
def ReadsParameter (s : List Char) : Prop := ∀ v, parseHugepageParameter s = .ok v ↔ Denotes s v

/-- The number at the front of the string, or 0 without one, passes for an enumerator after
it has been cut to 32 bits, although the string is not that enumerator's number. -/
def Misread (s : List Char) : Prop :=
  strtoulDigits s 0 = [] ∨
    (strtoulNumber s 0).natAbs < 2 ^ 64 ∧ strtoulNumber s 0 % 2 ^ 32 < 8 ∧
      ((strtoul s 0).2 ≠ [] ∨ ¬ (0 ≤ strtoulNumber s 0 ∧ strtoulNumber s 0 < 8))

lemma Hugepages.value_bounds (h : Hugepages) : Hugepages.none.value ≤ h.value ∧ h.value < hugepagesMaxEnum := by
  cases h <;> decide

lemma Named.mem_variants (h : Named s v) :
    ∃ e ∈ hugepageMapping, s ∈ caseVariants e.1.toList ∧ v = e.2.value := by
  obtain ⟨e, he, hs, rfl⟩ := h
  exact ⟨e, he, mem_caseVariants hs, rfl⟩

/-- Names of the table that are equal up to case stand for the same size. -/
lemma Named.unique {w : ℤ} (hv : Named s v) (hw : Named s w) : v = w := by
  obtain ⟨e, he, hse, rfl⟩ := hv
  obtain ⟨f, hf, hsf, rfl⟩ := hw
  have hall : ∀ e ∈ hugepageMapping, ∀ f ∈ hugepageMapping,
      strcasecmp e.1.toList f.1.toList = true → e.2.value = f.2.value := by decide +kernel
  exact hall e he f hf (strcasecmp_trans hse hsf)

/-- A name that is a number is the number of its enumerator. -/
lemma Named.numeral {w : ℤ} (hv : Named s v) (hw : Numeral s w) : w = v := by
  obtain ⟨e, he, hs, rfl⟩ := hv.mem_variants
  have hall : ∀ e ∈ hugepageMapping, ∀ t ∈ caseVariants e.1.toList, strtoulDigits t 0 ≠ [] →
      (strtoul t 0).2 = [] → strtoulNumber t 0 = e.2.value := by decide +kernel
  rw [hw.number]
  exact hall e he s hs hw.digits hw.whole

lemma Named.not_help (h : Named s v) : strcasecmp s "help".toList = false := by
  obtain ⟨e, he, hs, rfl⟩ := h.mem_variants
  have hall : ∀ e ∈ hugepageMapping, ∀ t ∈ caseVariants e.1.toList,
      strcasecmp t "help".toList = false := by decide +kernel
  exact hall e he s hs

lemma lookupSize_some {e : String × Hugepages} (h : lookupSize s = some e) : Named s e.2.value := by
  unfold lookupSize at h
  have hs := List.find?_some h
  exact ⟨e, List.mem_of_find?_eq_some h, hs, rfl⟩

lemma lookupSize_none (h : lookupSize s = none) : ¬ Named s v := by
  rintro ⟨e, he, hs, -⟩
  exact List.find?_eq_none.mp h e he hs

/-- A name is read as its size. -/
lemma Named.parse (h : Named s v) : parseHugepageParameter s = .ok v := by
  have hhelp := h.not_help
  cases hl : lookupSize s with
  | none => exact absurd h (lookupSize_none hl)
  | some e =>
    obtain rfl := h.unique (lookupSize_some hl)
    obtain ⟨hlo, hhi⟩ := e.2.value_bounds
    unfold parseHugepageParameter
    rw [if_neg (by rw [hhelp]; decide), hl]
    dsimp only
    rw [if_neg (not_or.mpr ⟨not_le.mpr hhi, not_lt.mpr hlo⟩)]

lemma Named.reads (h : Named s v) : ReadsParameter s := by
  intro w
  rw [h.parse]
  constructor
  · intro hw
    exact Or.inl (Except.ok.inj hw ▸ h)
  · rintro (hw | ⟨hw, -⟩)
    · rw [h.unique hw]
    · rw [h.numeral hw]

/-- What is no name is read as the low 32 bits of its number, if these are an enumerator. -/
lemma parse_of_not_named (hhelp : strcasecmp s "help".toList = false) (hl : lookupSize s = none) :
    parseHugepageParameter s = .ok v ↔
      v = ((strtoul s 0).1.setWidth 32).toInt ∧ Hugepages.none.value ≤ v ∧ v < hugepagesMaxEnum := by
  unfold parseHugepageParameter
  rw [if_neg (by rw [hhelp]; decide), hl]
  dsimp only
  split
  · next hout =>
    refine iff_of_false (by simp) ?_
    rintro ⟨rfl, hlo, hhi⟩
    omega
  · next hin =>
    rw [not_or, not_le, not_lt] at hin
    constructor
    · intro h
      obtain rfl := Except.ok.inj h
      exact ⟨rfl, hin.2, hin.1⟩
    · rintro ⟨rfl, -⟩
      rfl

/-- The low 32 bits pass for an enumerator. -/
lemma narrow_iff : (0 ≤ ((strtoul s 0).1.setWidth 32).toInt ∧ ((strtoul s 0).1.setWidth 32).toInt < 8) ↔
    (strtoulNumber s 0).natAbs < 2 ^ 64 ∧ strtoulNumber s 0 % 2 ^ 32 < 8 := by
  rw [strtoul_narrow]
  split
  · omega
  · rw [Int.bmod_def]
    split <;> omega

/-- Of the strings that are no names, those are read rightly that are not misread. -/
lemma readsParameter_of_not_named (hhelp : strcasecmp s "help".toList = false)
    (hl : lookupSize s = none) : ReadsParameter s ↔ ¬ Misread s := by
  have hnone : Hugepages.none.value = 0 := rfl
  have hmax : hugepagesMaxEnum = 8 := rfl
  have hparse (v : ℤ) := parse_of_not_named (v := v) hhelp hl
  have hdenotes (v : ℤ) : Denotes s v ↔ Numeral s v ∧ 0 ≤ v ∧ v < 8 := by
    unfold Denotes
    rw [hnone, hmax]
    exact or_iff_right (lookupSize_none hl)
  rw [hnone, hmax] at hparse
  constructor
  · intro h hm
    have hin : 0 ≤ ((strtoul s 0).1.setWidth 32).toInt ∧ ((strtoul s 0).1.setWidth 32).toInt < 8 := by
      rcases hm with hd | ⟨habs, hmod, -⟩
      · have hzero : ((0 : BitVec 64).setWidth 32).toInt = 0 := by decide
        rw [strtoul_of_no_digits hd, hzero]
        decide
      · exact narrow_iff.mpr ⟨habs, hmod⟩
    obtain ⟨hnum, hlo, hhi⟩ := (hdenotes _).mp ((h _).mp ((hparse _).mpr ⟨rfl, hin⟩))
    rcases hm with hd | ⟨-, -, hrest | hrange⟩
    · exact hnum.digits hd
    · exact hrest hnum.whole
    · rw [hnum.number] at hlo hhi
      exact hrange ⟨hlo, hhi⟩
  · intro hm v
    rw [hparse, hdenotes]
    unfold Misread at hm
    rw [not_or] at hm
    constructor
    · rintro ⟨rfl, hin⟩
      obtain ⟨habs, hmod⟩ := narrow_iff.mp hin
      have hgood : (strtoul s 0).2 = [] ∧ 0 ≤ strtoulNumber s 0 ∧ strtoulNumber s 0 < 8 := by
        by_contra hbad
        exact hm.2 ⟨habs, hmod, not_and_or.mp hbad⟩
      have hnarrow : ((strtoul s 0).1.setWidth 32).toInt = strtoulNumber s 0 := by
        rw [strtoul_narrow, if_neg (by omega), Int.bmod_def]
        split <;> omega
      exact ⟨⟨hm.1, hgood.1, hnarrow⟩, hin⟩
    · rintro ⟨hnum, hlo, hhi⟩
      have hv := hnum.number
      refine ⟨?_, hlo, hhi⟩
      rw [strtoul_narrow, if_neg (by omega), Int.bmod_def]
      split <;> omega

/-- The parameter is read as the number or name that it is, and refused when it is neither,
exactly on the names, on `help`, and on the strings that are not misread. -/
theorem readsParameter_iff (s : List Char) : ReadsParameter s ↔
    (∃ e ∈ hugepageMapping, strcasecmp s e.1.toList = true) ∨ strcasecmp s "help".toList = true ∨ ¬ Misread s := by
  cases hl : lookupSize s with
  | some e =>
    have hn := lookupSize_some hl
    obtain ⟨f, hf, hs, -⟩ := id hn
    exact iff_of_true hn.reads (Or.inl ⟨f, hf, hs⟩)
  | none =>
    have hno : ¬ ∃ e ∈ hugepageMapping, strcasecmp s e.1.toList = true := by
      rintro ⟨e, he, hs⟩
      exact lookupSize_none hl ⟨e, he, hs, rfl⟩
    rw [or_iff_right hno]
    cases hhelp : strcasecmp s "help".toList with
    | false =>
      rw [readsParameter_of_not_named hhelp hl]
      simp
    | true =>
      refine iff_of_true ?_ (Or.inl rfl)
      intro v
      refine iff_of_false ?_ ?_
      · unfold parseHugepageParameter
        rw [if_pos hhelp]
        simp
      · rintro (hn | ⟨hn, -⟩)
        · exact lookupSize_none hl hn
        · have hall : ∀ t ∈ caseVariants "help".toList, strtoulDigits t 0 = [] := by decide +kernel
          exact hn.digits (hall s (mem_caseVariants hhelp))

theorem parameter_4M_read_as_32M :
    parseHugepageParameter "4M".toList = .ok Hugepages.size32M.value ∧ ¬ ReadsParameter "4M".toList := by
  have hparse : parseHugepageParameter "4M".toList = .ok Hugepages.size32M.value := by decide +kernel
  refine ⟨hparse, fun h => ?_⟩
  have hnames : ∀ e ∈ hugepageMapping, strcasecmp "4M".toList e.1.toList = false := by decide +kernel
  rcases (h _).mp hparse with ⟨e, he, hs, -⟩ | ⟨hn, -⟩
  · rw [hnames e he] at hs
    exact Bool.false_ne_true hs
  · have hrest : (strtoul "4M".toList 0).2 ≠ [] := by decide +kernel
    exact hrest hn.whole

end Grammar
end Lockhammer.Alloc
