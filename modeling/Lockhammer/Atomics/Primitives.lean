import Mathlib.Data.BitVec

/-!
# The 64-bit atomic primitives of atomics.h

Each primitive is a function of the word it is applied to. Compare-and-swap has one
body per build variant; what the hardware or the C11 built-in may still decide in a
call is an explicit outcome. Memory orders select the instruction, not its result.
-/
namespace Lockhammer

abbrev Word := BitVec 64

/-- The four bodies the preprocessor can choose. -/
inductive Variant
  | x86
  | lse
  | llsc
  | builtin
  deriving DecidableEq, Repr

/-- Returns the word before the addition and the word left behind. -/
def fetchadd64 (mem addend : Word) : Word × Word := (mem, mem + addend)
def fetchadd64Acquire (mem addend : Word) : Word × Word := fetchadd64 mem addend
def fetchadd64Release (mem addend : Word) : Word × Word := fetchadd64 mem addend

/-- Returns the word before the subtraction and the word left behind. -/
def fetchsub64 (mem addend : Word) : Word × Word := (mem, mem - addend)

/-- Returns the word before the exchange and the word left behind. -/
def swap64 (mem val : Word) : Word × Word := (mem, val)

/-- What one compare-and-swap did: the value it returns, the word it leaves, the word
at the load that decided it, and whether it stored. -/
structure CasResult where
  old : Word
  mem : Word
  seen : Word
  stored : Bool
  deriving DecidableEq, Repr

/-- `lock cmpxchgq`: compare RAX with memory, store on a match, else load RAX. -/
def lockCmpxchgq (rax newval mem : Word) : CasResult :=
  if rax = mem then ⟨rax, newval, mem, true⟩ else ⟨mem, mem, mem, false⟩

/-- LSE `cas`: the compare register always receives the old word. -/
def lseCas (exp newval mem : Word) : CasResult :=
  ⟨mem, if mem = exp then newval else mem, mem, decide (mem = exp)⟩

/-- The ldxr/eor/cbnz/stxr/cbnz loop. Each entry of the list is one failing
store-exclusive: `some v` when another observer wrote `v` since the load, `none` when
the reservation was lost without a write. -/
def llscCas (exp val : Word) : List (Option Word) → Word → CasResult
  | [], mem =>
    if mem ^^^ exp ≠ 0 then ⟨mem, mem, mem, false⟩ else ⟨mem, val, mem, true⟩
  | write :: fails, mem =>
    if mem ^^^ exp ≠ 0 then ⟨mem, mem, mem, false⟩
    else llscCas exp val fails (write.getD mem)

/-- `__atomic_compare_exchange_n` with weak = true. On failure, spurious or not, the
current word is loaded into the expected argument. -/
def atomicCompareExchangeN (expected desired mem : Word) (spurious : Bool) : CasResult :=
  if mem = expected ∧ spurious = false then ⟨expected, desired, mem, true⟩
  else ⟨mem, mem, mem, false⟩

/-- What the environment decides in one call. -/
structure Outcome where
  lostStores : List (Option Word) := []
  spurious : Bool := false
  deriving DecidableEq, Repr

/-- The shared shape of the ordered compare-and-swaps. -/
def cas64Ordered (v : Variant) (o : Outcome) (mem val exp : Word) : CasResult :=
  match v with
  | .x86 => lockCmpxchgq exp val mem
  | .lse => lseCas exp val mem
  | .llsc => llscCas exp val o.lostStores mem
  | .builtin => atomicCompareExchangeN exp val mem o.spurious

def cas64Acquire (v : Variant) (o : Outcome) (mem val exp : Word) : CasResult :=
  cas64Ordered v o mem val exp
def cas64Release (v : Variant) (o : Outcome) (mem val exp : Word) : CasResult :=
  cas64Ordered v o mem val exp
def cas64AcquireRelease (v : Variant) (o : Outcome) (mem val exp : Word) : CasResult :=
  cas64Ordered v o mem val exp

/-- The unordered `cas64` keeps its own body: its built-in branch passes `expected`
as the desired value. -/
def cas64 (v : Variant) (o : Outcome) (mem newval expected : Word) : CasResult :=
  match v with
  | .x86 => lockCmpxchgq expected newval mem
  | .lse => lseCas expected newval mem
  | .llsc => llscCas expected newval o.lostStores mem
  | .builtin => atomicCompareExchangeN expected expected mem o.spurious

/-- The word after the writes of other observers. -/
def wordAfter (mem : Word) (writes : List (Option Word)) : Word :=
  writes.foldl (fun w write => write.getD w) mem

@[simp] lemma wordAfter_cons (mem : Word) (write : Option Word) (writes : List (Option Word)) :
    wordAfter mem (write :: writes) = wordAfter (write.getD mem) writes := rfl

/-- `w` is the word at the load that decides: every load before it found the expected
value, and it is the last one because no store-exclusive fails behind it or because it
finds another value. -/
def SeenAt (mem exp : Word) (writes : List (Option Word)) (w : Word) : Prop :=
  ∃ before after, writes = before ++ after ∧ w = wordAfter mem before ∧
    (∀ l r, before = l ++ r → r ≠ [] → wordAfter mem l = exp) ∧ (after = [] ∨ w ≠ exp)

/-- What other observers do to the word during the call: only a body that loads and
stores by separate instructions lets them in. -/
def Outcome.writes (o : Outcome) : Variant → List (Option Word)
  | .llsc => o.lostStores
  | .x86 | .lse | .builtin => []

/-- A compare-and-swap of the word `mem`. The returned value is the only sign of
success: it equals `exp` exactly when the word is replaced by `val`, and otherwise the
word is the one the call met and is returned. -/
structure ReportsSuccess (writes : List (Option Word)) (mem val exp : Word) (r : CasResult) :
    Prop where
  old_eq_iff : r.old = exp ↔ r.stored = true
  seen : SeenAt mem exp writes r.seen
  stored_mem : r.stored = true → r.seen = exp ∧ r.mem = val
  failed_mem : r.stored = false → r.mem = r.seen
  failed_old : r.stored = false → r.old = r.seen

/-- With nobody in between, the word seen is the word given. -/
lemma seenAt_nil_iff (mem exp w : Word) : SeenAt mem exp [] w ↔ w = mem := by
  constructor
  · rintro ⟨before, after, h, rfl, -, -⟩
    obtain ⟨rfl, rfl⟩ := List.append_eq_nil_iff.mp h.symm
    rfl
  · rintro rfl
    exact ⟨[], [], rfl, rfl, fun _ _ h hr => absurd (List.append_eq_nil_iff.mp h.symm).2 hr,
      Or.inl rfl⟩

/-- A load that finds another value decides, whatever is written behind it. -/
lemma seenAt_of_ne {mem exp : Word} (h : mem ≠ exp) (writes : List (Option Word)) :
    SeenAt mem exp writes mem :=
  ⟨[], writes, rfl, rfl, fun _ _ he hr => absurd (List.append_eq_nil_iff.mp he.symm).2 hr,
    Or.inr h⟩

/-- A load that finds the expected value and loses its store is followed by another. -/
lemma seenAt_cons {mem exp w : Word} {write : Option Word} {writes : List (Option Word)}
    (h : mem = exp) (hw : SeenAt (write.getD mem) exp writes w) :
    SeenAt mem exp (write :: writes) w := by
  obtain ⟨before, after, rfl, hw, hloads, hlast⟩ := hw
  refine ⟨write :: before, after, rfl, hw, ?_, hlast⟩
  intro l r he hr
  cases l with
  | nil => exact h
  | cons x l =>
    obtain ⟨rfl, hb⟩ := List.cons.inj he
    exact hloads l r hb hr

lemma lockCmpxchgq_reportsSuccess (mem val exp : Word) :
    ReportsSuccess [] mem val exp (lockCmpxchgq exp val mem) := by
  unfold lockCmpxchgq
  by_cases h : exp = mem
  · rw [if_pos h]
    exact ⟨by simp, (seenAt_nil_iff _ _ _).mpr rfl, fun _ => ⟨h.symm, rfl⟩, by simp, by simp⟩
  · rw [if_neg h]
    exact ⟨by simpa using Ne.symm h, (seenAt_nil_iff _ _ _).mpr rfl, by simp, fun _ => rfl,
      fun _ => rfl⟩

lemma lseCas_reportsSuccess (mem val exp : Word) :
    ReportsSuccess [] mem val exp (lseCas exp val mem) := by
  have hs : SeenAt mem exp [] (lseCas exp val mem).seen := (seenAt_nil_iff _ _ _).mpr rfl
  by_cases h : mem = exp
  · exact ⟨by simp [lseCas, h], hs, by simp [lseCas, h], by simp [lseCas, h], by simp [lseCas, h]⟩
  · exact ⟨by simp [lseCas, h], hs, by simp [lseCas, h], by simp [lseCas, h], by simp [lseCas]⟩

/-- However many store-exclusives fail, the loop ends in one honest attempt. -/
lemma llscCas_reportsSuccess (val exp : Word) (fails : List (Option Word)) (mem : Word) :
    ReportsSuccess fails mem val exp (llscCas exp val fails mem) := by
  have hx (m : Word) : m ^^^ exp = 0 ↔ m = exp := BitVec.xor_eq_zero_iff
  induction fails generalizing mem with
  | nil =>
    by_cases h : mem = exp
    · simp only [llscCas, ne_eq, hx, h, not_true_eq_false, if_false]
      exact ⟨by simp, (seenAt_nil_iff _ _ _).mpr rfl, fun _ => ⟨rfl, rfl⟩, by simp, by simp⟩
    · simp only [llscCas, ne_eq, hx, h, not_false_eq_true, if_true]
      exact ⟨by simpa using h, seenAt_of_ne h [], by simp, fun _ => rfl, fun _ => rfl⟩
  | cons write fails ih =>
    by_cases h : mem = exp
    · simp only [llscCas, ne_eq, hx, h, not_true_eq_false, if_false]
      -- the loop goes on with the word the lost store left
      have hr := ih (write.getD exp)
      exact ⟨hr.old_eq_iff, seenAt_cons rfl hr.seen, hr.stored_mem, hr.failed_mem, hr.failed_old⟩
    · simp only [llscCas, ne_eq, hx, h, not_false_eq_true, if_true]
      exact ⟨by simpa using h, seenAt_of_ne h _, by simp, fun _ => rfl, fun _ => rfl⟩

/-- The weak built-in is honest unless it fails although the values match. -/
lemma atomicCompareExchangeN_reportsSuccess_iff (mem val exp : Word) (spurious : Bool) :
    ReportsSuccess [] mem val exp (atomicCompareExchangeN exp val mem spurious) ↔
      ¬ (mem = exp ∧ spurious = true) := by
  unfold atomicCompareExchangeN
  by_cases h : mem = exp
  · cases spurious with
    | false =>
      simp only [h, and_self, if_true, Bool.false_eq_true, and_false, not_false_eq_true, iff_true]
      exact ⟨by simp, (seenAt_nil_iff _ _ _).mpr rfl, fun _ => ⟨rfl, rfl⟩, by simp, by simp⟩
    | true =>
      simp only [h, Bool.true_eq_false, and_false, if_false, and_self, not_true_eq_false, iff_false]
      intro hr
      simpa using hr.old_eq_iff
  · simp only [h, false_and, if_false, not_false_eq_true, iff_true]
    exact ⟨by simpa using h, seenAt_of_ne h [], by simp, fun _ => rfl, fun _ => rfl⟩

lemma cas64Ordered_reportsSuccess_iff (v : Variant) (o : Outcome) (mem val exp : Word) :
    ReportsSuccess (o.writes v) mem val exp (cas64Ordered v o mem val exp) ↔
      ¬ (v = .builtin ∧ mem = exp ∧ o.spurious = true) := by
  cases v with
  | x86 => simpa [cas64Ordered, Outcome.writes] using lockCmpxchgq_reportsSuccess mem val exp
  | lse => simpa [cas64Ordered, Outcome.writes] using lseCas_reportsSuccess mem val exp
  | llsc =>
    simpa [cas64Ordered, Outcome.writes] using llscCas_reportsSuccess val exp o.lostStores mem
  | builtin =>
    simpa [cas64Ordered, Outcome.writes] using
      atomicCompareExchangeN_reportsSuccess_iff mem val exp o.spurious

/-- Exactly the spurious failure of the weak built-in on a matching word is reported
as a success; every other outcome of every body is reported truthfully. -/
theorem ordered_cas64_reportsSuccess_iff (v : Variant) (o : Outcome) (mem val exp : Word) :
    (ReportsSuccess (o.writes v) mem val exp (cas64Acquire v o mem val exp) ↔
      ¬ (v = .builtin ∧ mem = exp ∧ o.spurious = true)) ∧
    (ReportsSuccess (o.writes v) mem val exp (cas64Release v o mem val exp) ↔
      ¬ (v = .builtin ∧ mem = exp ∧ o.spurious = true)) ∧
    (ReportsSuccess (o.writes v) mem val exp (cas64AcquireRelease v o mem val exp) ↔
      ¬ (v = .builtin ∧ mem = exp ∧ o.spurious = true)) :=
  ⟨cas64Ordered_reportsSuccess_iff v o mem val exp, cas64Ordered_reportsSuccess_iff v o mem val exp,
    cas64Ordered_reportsSuccess_iff v o mem val exp⟩

/-- A free lock word 0, new value 1: the weak exchange fails spuriously, the word stays
0, and the caller is told that it won. -/
theorem cas64Acquire_spurious_reported_as_success :
    (cas64Acquire .builtin ⟨[], true⟩ 0 1 0).old = 0 ∧
    (cas64Acquire .builtin ⟨[], true⟩ 0 1 0).mem = 0 ∧
    (cas64Acquire .builtin ⟨[], true⟩ 0 1 0).stored = false ∧
    ¬ ReportsSuccess [] 0 1 0 (cas64Acquire .builtin ⟨[], true⟩ 0 1 0) := by
  refine ⟨by decide, by decide, by decide, fun h => ?_⟩
  have hs : (cas64Acquire .builtin ⟨[], true⟩ 0 1 0).stored = true := h.old_eq_iff.mp (by decide)
  exact absurd hs (by decide)

end Lockhammer
