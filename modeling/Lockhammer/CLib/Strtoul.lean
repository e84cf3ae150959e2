import Mathlib.Data.BitVec
import Mathlib.Data.List.Basic

/-!
# Reading numbers from C strings

`strtoul` and `strsep` with their C library meaning, over a string as the list of its
characters up to the terminating null. A pointer into a string is the rest of the string
from there, so `endptr == s` is equality of the two rests.
-/
namespace CLib

/-- White space of the C locale. -/
def isspace (c : Char) : Bool := c == ' ' || (9 ≤ c.toNat && c.toNat ≤ 13)

/-- The value of a digit or letter in bases up to 36. -/
def digitValue (c : Char) : ℕ :=
  if '0' ≤ c ∧ c ≤ '9' then c.toNat - '0'.toNat
  else if 'a' ≤ c ∧ c ≤ 'z' then c.toNat - 'a'.toNat + 10
  else if 'A' ≤ c ∧ c ≤ 'Z' then c.toNat - 'A'.toNat + 10
  else 36

def isDigitOf (base : ℕ) (c : Char) : Bool := digitValue c < base

def ofDigits (base : ℕ) (ds : List Char) : ℕ := ds.foldl (fun v c => base * v + digitValue c) 0

/-- An optional sign, and what follows it. -/
def takeSign : List Char → Bool × List Char
  | '-' :: s => (true, s)
  | '+' :: s => (false, s)
  | s => (false, s)

/-- The base of a number and its digits on: base 0 is told by a `0x` or `0` at the front. The
`0x` counts only before a hexadecimal digit. -/
def takeBase (base : ℕ) (s : List Char) : ℕ × List Char :=
  match s with
  | '0' :: x :: d :: r =>
    if (base = 0 ∨ base = 16) ∧ (x = 'x' ∨ x = 'X') ∧ isDigitOf 16 d then (16, d :: r)
    else if base = 0 then (8, s) else (base, s)
  | '0' :: _ => if base = 0 then (8, s) else (base, s)
  | _ => if base = 0 then (10, s) else (base, s)

/-- The value as an `unsigned long` and `endptr`. Without a digit nothing is consumed; too
large a number is `ULONG_MAX`. -/
def strtoul (s : List Char) (base : ℕ) : BitVec 64 × List Char :=
  let sign := takeSign (s.dropWhile isspace)
  let start := takeBase base sign.2
  let digits := start.2.takeWhile (isDigitOf start.1)
  if digits = [] then (0, s)
  else
    let v := ofDigits start.1 digits
    (if 2 ^ 64 ≤ v then BitVec.allOnes 64 else if sign.1 then -BitVec.ofNat 64 v else BitVec.ofNat 64 v,
      start.2.dropWhile (isDigitOf start.1))

/-- The token up to the first delimiter, and the string behind it (`NULL` at the end). -/
def strsep (s : List Char) (delim : List Char) : List Char × Option (List Char) :=
  (s.takeWhile (· ∉ delim), (s.dropWhile (· ∉ delim)).tail?)

/-- `strtok_r`: delimiters at the front are skipped; the token ends at the next one, and the
saved pointer stands behind it. -/
def strtokR (saveptr : List Char) (delim : List Char) : Option (List Char × List Char) :=
  match saveptr.dropWhile (· ∈ delim) with
  | [] => none
  | c :: s => some ((c :: s).takeWhile (· ∉ delim), ((c :: s).dropWhile (· ∉ delim)).tail)

section Strsep

lemma strsep_cons_of_ne {c d : Char} (h : c ≠ d) (s : List Char) :
    strsep (c :: s) [d] = (c :: (strsep s [d]).1, (strsep s [d]).2) := by
  simp [strsep, h]

/-- A string without the delimiter is one token; any other is split at its first one. -/
theorem strsep_cases (s : List Char) (d : Char) :
    (d ∉ s ∧ strsep s [d] = (s, none)) ∨
      ∃ token rest, d ∉ token ∧ s = token ++ d :: rest ∧ strsep s [d] = (token, some rest) := by
  induction s with
  | nil => simp [strsep]
  | cons c s ih =>
    by_cases hc : c = d
    · right
      exact ⟨[], s, by simp, by simp [hc], by simp [strsep, hc]⟩
    · have hd : d ≠ c := fun h => hc h.symm
      rw [strsep_cons_of_ne hc]
      obtain ⟨hmem, hs⟩ | ⟨token, rest, hmem, rfl, hs⟩ := ih
      · left
        simp [hmem, hs, hd]
      · right
        exact ⟨c :: token, rest, by simp [hmem, hd], by simp, by simp [hs]⟩

lemma strsep_of_not_mem {s : List Char} {d : Char} (h : d ∉ s) : strsep s [d] = (s, none) := by
  obtain ⟨-, hs⟩ | ⟨token, rest, -, rfl, -⟩ := strsep_cases s d
  · exact hs
  · simp at h

lemma strsep_append {token rest : List Char} {d : Char} (h : d ∉ token) :
    strsep (token ++ d :: rest) [d] = (token, some rest) := by
  induction token with
  | nil => simp [strsep]
  | cons c token ih =>
    rw [List.mem_cons, not_or] at h
    rw [List.cons_append, strsep_cons_of_ne (Ne.symm h.1), ih h.2]

end Strsep

section StrtokR
variable {token : List Char} {d : Char}

/-- Where there is no delimiter to skip it does what `strsep` does. -/
lemma strtokR_eq (hne : token ≠ []) (hd : d ∉ token) (s : List Char) : strtokR (token ++ s) [d] =
    some ((strsep (token ++ s) [d]).1, (strsep (token ++ s) [d]).2.getD []) := by
  cases token with
  | nil => exact absurd rfl hne
  | cons c token =>
    have hc : c ≠ d := fun h => hd (h ▸ List.mem_cons_self)
    have hskip : (c :: (token ++ s)).dropWhile (· ∈ [d]) = c :: (token ++ s) :=
      List.dropWhile_cons_of_neg (by simpa using hc)
    rw [strtokR, List.cons_append, hskip, strsep]
    dsimp only
    cases (c :: (token ++ s)).dropWhile (· ∉ [d]) with
    | nil => rfl
    | cons a r => rfl

/-- The tokens of a list with delimiters between them come one after the other. -/
lemma strtokR_intercalate (hne : token ≠ []) (hd : d ∉ token) (tokens : List (List Char)) :
    strtokR ([d].intercalate (token :: tokens)) [d] = some (token, [d].intercalate tokens) := by
  cases tokens with
  | nil =>
    have h := strtokR_eq hne hd []
    rw [List.append_nil, strsep_of_not_mem hd] at h
    simpa using h
  | cons t tokens =>
    rw [List.intercalate_cons_cons, List.append_assoc, strtokR_eq hne hd, List.singleton_append, strsep_append hd]
    rfl

end StrtokR

section Strtoul
variable {s : List Char} {base : ℕ}

lemma takeSign_suffix (s : List Char) : (takeSign s).2 <:+ s := by
  unfold takeSign
  split
  · exact List.suffix_cons _ _
  · exact List.suffix_cons _ _
  · exact List.suffix_rfl

lemma takeBase_suffix (base : ℕ) (s : List Char) : (takeBase base s).2 <:+ s := by
  unfold takeBase
  split
  · split
    · exact (List.suffix_cons _ _).trans (List.suffix_cons _ _)
    · split <;> exact List.suffix_rfl
  · split <;> exact List.suffix_rfl
  · split <;> exact List.suffix_rfl

/-- What `strtoul` consumes ends in a digit. -/
theorem strtoul_rest (s : List Char) (base : ℕ) :
    (strtoul s base).2 = s ∨
      ∃ p d, s = p ++ d :: (strtoul s base).2 ∧
        isDigitOf (takeBase base (takeSign (s.dropWhile isspace)).2).1 d = true := by
  unfold strtoul
  dsimp only
  split
  · exact Or.inl rfl
  · next hne =>
    right
    obtain ⟨p₁, hp₁⟩ := List.dropWhile_suffix isspace (l := s)
    obtain ⟨p₂, hp₂⟩ := takeSign_suffix (s.dropWhile isspace)
    obtain ⟨p₃, hp₃⟩ := takeBase_suffix base (takeSign (s.dropWhile isspace)).2
    generalize takeBase base (takeSign (s.dropWhile isspace)).2 = start at hne hp₃ ⊢
    obtain ⟨ds, d, hds⟩ := (List.eq_nil_or_concat _).resolve_left hne
    refine ⟨p₁ ++ p₂ ++ p₃ ++ ds, d, ?_, ?_⟩
    · have hsplit : start.2 = ds ++ d :: start.2.dropWhile (isDigitOf start.1) := by
        conv_lhs => rw [← List.takeWhile_append_dropWhile (p := isDigitOf start.1) (l := start.2), hds]
        simp
      rw [← hp₁, ← hp₂, ← hp₃]
      conv_lhs => rw [hsplit]
      simp
    · have hmem : d ∈ start.2.takeWhile (isDigitOf start.1) := by simp [hds]
      exact List.all_eq_true.mp (List.all_takeWhile (l := start.2)) d hmem

end Strtoul

section Consumed
variable {s : List Char} {base : ℕ}

/-- The base and what stands behind white space, sign and prefix. -/
def strtoulStart (s : List Char) (base : ℕ) : ℕ × List Char :=
  takeBase base (takeSign (s.dropWhile isspace)).2

/-- The digits that `strtoul` converts. -/
def strtoulDigits (s : List Char) (base : ℕ) : List Char :=
  (strtoulStart s base).2.takeWhile (isDigitOf (strtoulStart s base).1)

lemma strtoul_suffix (s : List Char) (base : ℕ) : (strtoul s base).2 <:+ s := by
  obtain hs | ⟨p, d, hs, -⟩ := strtoul_rest s base
  · rw [hs]
  · exact ⟨p ++ [d], by rw [List.append_assoc]; exact hs.symm⟩

lemma strtoul_of_no_digits (h : strtoulDigits s base = []) : strtoul s base = (0, s) := if_pos h

lemma strtoul_rest_of_digits (h : strtoulDigits s base ≠ []) :
    (strtoul s base).2 = (strtoulStart s base).2.dropWhile (isDigitOf (strtoulStart s base).1) :=
  congrArg Prod.snd (if_neg h)

/-- `endptr` stays at the front of the string exactly when there is no digit. -/
theorem strtoul_rest_eq_iff : (strtoul s base).2 = s ↔ strtoulDigits s base = [] := by
  constructor
  · intro hs
    by_contra hd
    have hsplit := List.takeWhile_append_dropWhile (p := isDigitOf (strtoulStart s base).1)
      (l := (strtoulStart s base).2)
    have hlen := congrArg List.length hsplit
    rw [List.length_append, ← strtoul_rest_of_digits hd, hs] at hlen
    have hstart : (strtoulStart s base).2.length ≤ s.length :=
      ((takeBase_suffix base _).trans ((takeSign_suffix _).trans (List.dropWhile_suffix isspace))).length_le
    have hpos : 0 < (strtoulDigits s base).length := List.length_pos_of_ne_nil hd
    rw [strtoulDigits] at hpos
    omega
  · intro hd
    rw [strtoul_of_no_digits hd]

/-- The number with its sign, before it is put into a word. -/
def strtoulNumber (s : List Char) (base : ℕ) : ℤ :=
  if (takeSign (s.dropWhile isspace)).1 then -(ofDigits (strtoulStart s base).1 (strtoulDigits s base) : ℤ)
  else ofDigits (strtoulStart s base).1 (strtoulDigits s base)

lemma strtoulNumber_of_no_digits (h : strtoulDigits s base = []) : strtoulNumber s base = 0 := by
  rw [strtoulNumber, h]
  split <;> rfl

/-- The value is the number modulo `2 ^ 64`, or `ULONG_MAX` when its digits are too many. -/
theorem strtoul_value (s : List Char) (base : ℕ) : (strtoul s base).1 =
    if 2 ^ 64 ≤ (strtoulNumber s base).natAbs then BitVec.allOnes 64 else BitVec.ofInt 64 (strtoulNumber s base) := by
  by_cases hd : strtoulDigits s base = []
  · rw [strtoul_of_no_digits hd, strtoulNumber_of_no_digits hd]
    rfl
  · have hval : (strtoul s base).1 =
        if 2 ^ 64 ≤ ofDigits (strtoulStart s base).1 (strtoulDigits s base) then BitVec.allOnes 64
        else if (takeSign (s.dropWhile isspace)).1 then
          -BitVec.ofNat 64 (ofDigits (strtoulStart s base).1 (strtoulDigits s base))
        else BitVec.ofNat 64 (ofDigits (strtoulStart s base).1 (strtoulDigits s base)) :=
      congrArg Prod.fst (if_neg hd)
    rw [hval]
    unfold strtoulNumber
    generalize ofDigits (strtoulStart s base).1 (strtoulDigits s base) = v
    cases (takeSign (s.dropWhile isspace)).1 with
    | false => simp only [Bool.false_eq_true, if_false, Int.natAbs_natCast, BitVec.ofInt_natCast]
    | true => simp only [if_true, Int.natAbs_neg, Int.natAbs_natCast, BitVec.ofInt_neg, BitVec.ofInt_natCast]

/-- The number clamped to a `long`, and `endptr`. -/
def strtol (s : List Char) (base : ℕ) : BitVec 64 × List Char :=
  (BitVec.ofInt 64 (max (-2 ^ 63) (min (2 ^ 63 - 1) (strtoulNumber s base))), (strtoul s base).2)

lemma takeSign_mem {c : Char} (hc : c ∈ s) : c = '-' ∨ c = '+' ∨ c ∈ (takeSign s).2 := by
  unfold takeSign
  split
  · exact (List.mem_cons.mp hc).imp_right Or.inr
  · exact Or.inr (List.mem_cons.mp hc)
  · exact Or.inr (Or.inr hc)

lemma takeBase_le (hbase : base ≤ 36) (s : List Char) : (takeBase base s).1 ≤ 36 := by
  unfold takeBase
  split
  · split
    · simp
    · split <;> simp [hbase]
  · split <;> simp [hbase]
  · split <;> simp [hbase]

lemma takeBase_mem {c : Char} (base : ℕ) (hc : c ∈ s) :
    isDigitOf 36 c = true ∨ c ∈ (takeBase base s).2 := by
  unfold takeBase
  split
  · next x d r =>
    split
    · next hx =>
      rw [List.mem_cons, List.mem_cons] at hc
      obtain rfl | rfl | hc := hc
      · exact Or.inl (by decide)
      · obtain rfl | rfl := hx.2.1 <;> exact Or.inl (by decide)
      · exact Or.inr hc
    · split <;> exact Or.inr hc
  · split <;> exact Or.inr hc
  · split <;> exact Or.inr hc

/-- A string that is a number as a whole is made of white space, signs, digits and letters. -/
theorem strtoul_consumed (hbase : base ≤ 36) (hd : strtoulDigits s base ≠ []) (hend : (strtoul s base).2 = [])
    {c : Char} (hc : c ∈ s) : isspace c = true ∨ c = '-' ∨ c = '+' ∨ isDigitOf 36 c = true := by
  rw [← List.takeWhile_append_dropWhile (p := isspace) (l := s), List.mem_append] at hc
  obtain hc | hc := hc
  · exact Or.inl (List.all_eq_true.mp List.all_takeWhile c hc)
  right
  obtain hc | hc | hc := takeSign_mem hc
  · exact Or.inl hc
  · exact Or.inr (Or.inl hc)
  right
  right
  obtain hc | hc := takeBase_mem base hc
  · exact hc
  · change c ∈ (strtoulStart s base).2 at hc
    rw [strtoul_rest_of_digits hd] at hend
    rw [← List.takeWhile_append_dropWhile (p := isDigitOf (strtoulStart s base).1) (l := (strtoulStart s base).2),
      hend, List.append_nil] at hc
    have hdigit := List.all_eq_true.mp List.all_takeWhile c hc
    exact decide_eq_true ((of_decide_eq_true hdigit).trans_le (takeBase_le hbase _))

/-- The value narrowed to an `int`. -/
lemma strtoul_narrow (s : List Char) (base : ℕ) : ((strtoul s base).1.setWidth 32).toInt =
    if 2 ^ 64 ≤ (strtoulNumber s base).natAbs then -1 else (strtoulNumber s base).bmod (2 ^ 32) := by
  rw [strtoul_value]
  split
  · decide
  · rw [BitVec.toInt_setWidth, BitVec.toNat_ofInt, Int.toNat_of_nonneg (Int.emod_nonneg _ (by decide))]
    rw [← Int.emod_bmod, Int.emod_emod_of_dvd _ (by decide), Int.emod_bmod]

end Consumed

section Decimal

lemma digitValue_of_isDigit {c : Char} (h : c.isDigit = true) : digitValue c = c.toNat - '0'.toNat := by
  have hc : '0' ≤ c ∧ c ≤ '9' := by simpa [Char.isDigit, Char.le_def] using h
  rw [digitValue, if_pos hc]

lemma isDigitOf_ten {c : Char} (h : c.isDigit = true) : isDigitOf 10 c = true := by
  have hle : c.toNat ≤ '9'.toNat := by
    have hc : '0' ≤ c ∧ c ≤ '9' := by simpa [Char.isDigit, Char.le_def] using h
    exact hc.2
  rw [isDigitOf, digitValue_of_isDigit h, decide_eq_true_eq]
  have h0 : '0'.toNat = 48 := rfl
  have h9 : '9'.toNat = 57 := rfl
  omega

lemma ofDigits_ten {ds : List Char} (h : ∀ c ∈ ds, c.isDigit = true) :
    ofDigits 10 ds = Nat.ofDigitChars 10 ds 0 := by
  unfold ofDigits
  rw [Nat.ofDigitChars_eq_foldl]
  apply List.foldl_ext
  intro v c hc
  rw [digitValue_of_isDigit (h c hc)]

lemma ofDigits_toDigits (v : ℕ) : ofDigits 10 (Nat.toDigits 10 v) = v := by
  rw [ofDigits_ten fun c hc => Nat.isDigit_of_mem_toDigits (by decide) (by decide) hc]
  exact Nat.ofDigitChars_ten_toDigits

lemma takeBase_ten (s : List Char) : takeBase 10 s = (10, s) := by
  unfold takeBase
  split <;> simp

/-- A decimal numeral is read back up to the first character that is no digit. -/
lemma digits_toDigits_append (v : ℕ) {rest : List Char} (hrest : rest.takeWhile (isDigitOf 10) = []) :
    (Nat.toDigits 10 v ++ rest).takeWhile (isDigitOf 10) = Nat.toDigits 10 v ∧
      (Nat.toDigits 10 v ++ rest).dropWhile (isDigitOf 10) = rest := by
  have hall : ∀ c ∈ Nat.toDigits 10 v, isDigitOf 10 c = true := fun c hc =>
    isDigitOf_ten (Nat.isDigit_of_mem_toDigits (by decide) (by decide) hc)
  refine ⟨?_, ?_⟩
  · rw [List.takeWhile_append_of_pos hall, hrest, List.append_nil]
  rw [List.dropWhile_append_of_pos hall]
  have hsplit := List.takeWhile_append_dropWhile (p := isDigitOf 10) (l := rest)
  rwa [hrest, List.nil_append] at hsplit

/-- A character outside the class ends what is taken, and all behind it is left over. -/
lemma span_append_cons {p : Char → Bool} {c : Char} (hc : p c = false) (s u : List Char) :
    (s ++ c :: u).takeWhile p = s.takeWhile p ∧ (s ++ c :: u).dropWhile p = s.dropWhile p ++ c :: u := by
  induction s with
  | nil => simp [hc]
  | cons a s ih =>
    obtain ⟨htake, hdrop⟩ := ih
    cases ha : p a with
    | false => simp [ha]
    | true => simp [ha, htake, hdrop]

lemma takeSign_append {c : Char} (hminus : c ≠ '-') (hplus : c ≠ '+') (s u : List Char) :
    takeSign (s ++ c :: u) = ((takeSign s).1, (takeSign s).2 ++ c :: u) := by
  cases s with
  | nil => simp [takeSign, hminus, hplus]
  | cons a s =>
    by_cases hneg : a = '-'
    · subst hneg
      rfl
    by_cases hpos : a = '+'
    · subst hpos
      rfl
    simp [takeSign, hneg, hpos]

/-- Text that begins with a letter or punctuation leaves the decimal number in front of it
as it is. -/
theorem strtoul_append {c : Char} (hspace : isspace c = false) (hminus : c ≠ '-') (hplus : c ≠ '+')
    (hdigit : isDigitOf 10 c = false) (s u : List Char) :
    strtoul (s ++ c :: u) 10 = ((strtoul s 10).1, (strtoul s 10).2 ++ c :: u) := by
  obtain ⟨-, hskip⟩ := span_append_cons hspace s u
  have hsign := takeSign_append hminus hplus (s.dropWhile isspace) u
  obtain ⟨htake, hdrop⟩ := span_append_cons hdigit (takeSign (s.dropWhile isspace)).2 u
  unfold strtoul
  simp only [hskip, hsign, takeBase_ten, htake, hdrop]
  split
  · rfl
  · rfl

lemma isspace_of_isDigit {c : Char} (h : c.isDigit = true) : isspace c = false := by
  have hc : '0' ≤ c ∧ c ≤ '9' := by simpa [Char.isDigit, Char.le_def] using h
  have h1 : '0'.toNat ≤ c.toNat := hc.1
  have h0 : '0'.toNat = 48 := rfl
  have hne : c ≠ ' ' := by
    rintro rfl
    exact absurd h (by decide)
  simp only [isspace, Bool.or_eq_false_iff, beq_eq_false_iff_ne, Bool.and_eq_false_iff,
    decide_eq_false_iff_not]
  refine ⟨hne, Or.inr ?_⟩
  omega

/-- A numeral begins with neither white space nor a sign. -/
lemma takeSign_toDigits (v : ℕ) (rest : List Char) :
    (Nat.toDigits 10 v ++ rest).dropWhile isspace = Nat.toDigits 10 v ++ rest ∧
      takeSign (Nat.toDigits 10 v ++ rest) = (false, Nat.toDigits 10 v ++ rest) := by
  cases hd : Nat.toDigits 10 v with
  | nil => exact absurd hd Nat.toDigits_ne_nil
  | cons c cs =>
    have hdigit : c.isDigit = true :=
      Nat.isDigit_of_mem_toDigits (b := 10) (n := v) (by decide) (by decide) (by simp [hd])
    refine ⟨by simp [isspace_of_isDigit hdigit], ?_⟩
    rw [List.cons_append]
    unfold takeSign
    split
    · next h =>
      obtain ⟨rfl, -⟩ := List.cons.inj h
      exact absurd hdigit (by decide)
    · next h =>
      obtain ⟨rfl, -⟩ := List.cons.inj h
      exact absurd hdigit (by decide)
    · rfl

/-- `strtoul` of a decimal numeral with an optional minus sign. -/
lemma strtoul_numeral {v : ℕ} (hv : v < 2 ^ 64) (neg : Bool) {rest : List Char}
    (hrest : rest.takeWhile (isDigitOf 10) = []) :
    strtoul ((if neg then ['-'] else []) ++ (Nat.toDigits 10 v ++ rest)) 10 =
      (if neg then -BitVec.ofNat 64 v else BitVec.ofNat 64 v, rest) := by
  obtain ⟨hspace, hsign⟩ := takeSign_toDigits v rest
  obtain ⟨htake, hdrop⟩ := digits_toDigits_append v hrest
  have hread : takeSign (((if neg then ['-'] else []) ++ (Nat.toDigits 10 v ++ rest)).dropWhile isspace) =
      (neg, Nat.toDigits 10 v ++ rest) := by
    cases neg with
    | false => simpa [hspace] using hsign
    | true =>
      have hminus : isspace '-' = false := by decide
      simp [hminus, takeSign]
  unfold strtoul
  simp only [hread, takeBase_ten, htake, hdrop, ofDigits_toDigits]
  rw [if_neg Nat.toDigits_ne_nil, if_neg (Nat.not_le.mpr hv)]

lemma toList_toString_ofNat (v : ℕ) : (toString (Int.ofNat v)).toList = Nat.toDigits 10 v :=
  Nat.toList_repr

lemma toList_toString_negSucc (v : ℕ) :
    (toString (Int.negSucc v)).toList = '-' :: Nat.toDigits 10 (v + 1) := by
  change ("-" ++ Nat.repr (v + 1)).toList = _
  rw [String.toList_append, Nat.toList_repr]
  rfl

lemma toList_toString_ne_nil (v : ℤ) : (toString v).toList ≠ [] := by
  cases v with
  | ofNat v =>
    rw [toList_toString_ofNat]
    exact Nat.toDigits_ne_nil
  | negSucc v =>
    rw [toList_toString_negSucc]
    exact List.cons_ne_nil _ _

/-- An `unsigned long` printed as a signed decimal is read back. -/
theorem strtoul_toString_toInt (t : BitVec 64) {rest : List Char}
    (hrest : rest.takeWhile (isDigitOf 10) = []) :
    strtoul ((toString t.toInt).toList ++ rest) 10 = (t, rest) := by
  have hlt := t.isLt
  cases hi : t.toInt with
  | ofNat v =>
    have ht : BitVec.ofNat 64 v = t := by
      rw [← BitVec.ofInt_toInt (x := t), hi]
      rfl
    have hv : v < 2 ^ 64 := by
      have := BitVec.toInt_lt (x := t)
      rw [hi, Int.ofNat_eq_natCast] at this
      omega
    have hread := strtoul_numeral hv false hrest
    rw [ht] at hread
    rw [toList_toString_ofNat]
    simpa using hread
  | negSucc v =>
    have ht : -BitVec.ofNat 64 (v + 1) = t := by
      rw [← BitVec.ofInt_toInt (x := t), hi, Int.negSucc_eq, BitVec.ofInt_neg]
      rfl
    have hv : v + 1 < 2 ^ 64 := by
      have := BitVec.le_toInt (x := t)
      rw [hi, Int.negSucc_eq] at this
      omega
    have hread := strtoul_numeral hv true hrest
    rw [toList_toString_negSucc]
    simpa [ht] using hread

end Decimal
end CLib
