import Lockhammer.Atomics.Primitives

/-!
# cas_lockref over the four bodies of cas64

The lock counts holders in the upper half of one word. A call runs alone here, so the
word changes only through its own compare-and-swap; loops carry fuel, and a call that
no fuel finishes is one that never returns.
-/
namespace Lockhammer.CasLockref

/-- One holder more or less in the upper 32 bits. -/
def unit : Word := 0x100000000

/-- A compare-and-swap as its caller sees it: (returned value, word left behind). -/
abbrev Cas := Word → Word → Word → Word × Word

/-- `cas64` of one build variant when nothing fails spuriously. -/
def cas (v : Variant) : Cas := fun mem newval expected =>
  ((cas64 v {} mem newval expected).old, (cas64 v {} mem newval expected).mem)

/-- The test of the inner loop of lock_acquire. -/
def acquireBusy (old : Word) : Bool :=
  old &&& 0xFFFFFFFF ≠ 0 && (old + unit) >>> 32 ≤ 32

/-- The test of the inner loop of lock_release. -/
def releaseBusy (old : Word) : Bool :=
  old &&& 0xFFFFFFFF ≠ 0 && (old - unit) >>> 32 > 0

/-- `while (busy(old)) old = *lock;` -/
def reread (busy : Word → Bool) (lock : Word) : ℕ → Word → Option Word
  | 0, _ => none
  | fuel + 1, old => if busy old then reread busy lock fuel lock else some old

/-- Returns the depth and the word left behind. -/
def lockAcquire (cas : Cas) : ℕ → Word → Option (Word × Word)
  | 0, _ => none
  | fuel + 1, lock => do
    let old ← reread acquireBusy lock (fuel + 1) lock
    let r := cas lock (old + unit) old
    if r.1 = old then some (r.1 >>> 32, r.2) else lockAcquire cas fuel r.2

def lockRelease (cas : Cas) : ℕ → Word → Option Word
  | 0, _ => none
  | fuel + 1, lock => do
    let old ← reread releaseBusy lock (fuel + 1) lock
    let r := cas lock (old - unit) old
    if r.1 = old then some r.2 else lockRelease cas fuel r.2

inductive Call
  | acquire
  | release
  deriving DecidableEq, Repr

/-- A sequence of calls: the depths returned by the acquires and the final word. -/
def runCalls (cas : Cas) (fuel : ℕ) : List Call → Word → Option (List Word × Word)
  | [], lock => some ([], lock)
  | .acquire :: rest, lock => do
    let r ← lockAcquire cas fuel lock
    let s ← runCalls cas fuel rest r.2
    some (r.1 :: s.1, s.2)
  | .release :: rest, lock => do
    let lock' ← lockRelease cas fuel lock
    runCalls cas fuel rest lock'

/-- The calls all return, with these depths and this final word. -/
def Leaves (v : Variant) (calls : List Call) (lock : Word) (r : List Word × Word) : Prop :=
  ∃ fuel, runCalls (cas v) fuel calls lock = some r

/-- The documented contract: store exactly on a match, always return the old word. -/
def casContract (mem newval expected : Word) : Word × Word :=
  (mem, if mem = expected then newval else mem)

/-! The inner loop only rereads an unchanging word: it ends at once or never. -/

lemma reread_eq (busy : Word → Bool) (lock : Word) (fuel : ℕ) :
    reread busy lock (fuel + 1) lock = if busy lock then none else some lock := by
  induction fuel with
  | zero => simp [reread]
  | succ fuel ih =>
    rw [reread, ih]
    split <;> rfl

lemma cas_contract (v : Variant) (hv : v ≠ .builtin) (mem newval expected : Word) :
    cas v mem newval expected = casContract mem newval expected := by
  cases v with
  | x86 =>
    by_cases h : expected = mem
    · simp [cas, cas64, lockCmpxchgq, casContract, h]
    · simp [cas, cas64, lockCmpxchgq, casContract, h, Ne.symm h]
  | lse => simp [cas, cas64, lseCas, casContract]
  | llsc =>
    by_cases h : mem = expected
    · simp [cas, cas64, llscCas, casContract, h]
    · simp [cas, cas64, llscCas, casContract, h, BitVec.xor_eq_zero_iff]
  | builtin => exact absurd rfl hv

/-- The built-in body puts the expected value back: the word never changes. -/
lemma cas_builtin (mem newval expected : Word) :
    cas .builtin mem newval expected = (mem, mem) := by
  by_cases h : mem = expected <;> simp [cas, cas64, atomicCompareExchangeN, h]

/-- How far one call moves the word in a build variant. -/
def shift (v : Variant) (c : Call) : Word :=
  if v = .builtin then 0 else match c with
    | .acquire => unit
    | .release => -unit

/-- The test of the inner loop of a call. -/
def busy : Call → Word → Bool
  | .acquire => acquireBusy
  | .release => releaseBusy

lemma cas_match (v : Variant) (c : Call) (mem : Word) :
    cas v mem (mem + shift .x86 c) mem = (mem, mem + shift v c) := by
  by_cases hv : v = .builtin
  · subst hv
    simp [cas_builtin, shift]
  · rw [cas_contract v hv]
    simp [casContract, shift, hv]

lemma lockAcquire_eq (v : Variant) (fuel : ℕ) (lock : Word) :
    lockAcquire (cas v) (fuel + 1) lock =
      if busy .acquire lock then none else some (lock >>> 32, lock + shift v .acquire) := by
  have hc := cas_match v .acquire lock
  simp only [shift, reduceCtorEq, if_false] at hc
  rw [lockAcquire, reread_eq]
  by_cases h : acquireBusy lock <;> simp [h, hc, busy, shift]

lemma lockRelease_eq (v : Variant) (fuel : ℕ) (lock : Word) :
    lockRelease (cas v) (fuel + 1) lock =
      if busy .release lock then none else some (lock + shift v .release) := by
  have hc := cas_match v .release lock
  simp only [shift, reduceCtorEq, if_false, ← sub_eq_add_neg] at hc
  rw [lockRelease, reread_eq]
  by_cases h : releaseBusy lock <;> simp [h, hc, busy, shift]

/-- How far a sequence of calls moves the word. -/
def moved (v : Variant) (calls : List Call) : Word := (calls.map (shift v)).sum

/-- Some call finds the test of its inner loop true and never returns. -/
def Spins (v : Variant) (calls : List Call) (lock : Word) : Prop :=
  ∃ before c after, calls = before ++ c :: after ∧ busy c (lock + moved v before) = true

/-- The depths the acquires of a sequence return. -/
def depths (v : Variant) : List Call → Word → List Word
  | [], _ => []
  | .acquire :: rest, lock => lock >>> 32 :: depths v rest (lock + shift v .acquire)
  | .release :: rest, lock => depths v rest (lock + shift v .release)

lemma spins_nil (v : Variant) (lock : Word) : ¬ Spins v [] lock := by
  rintro ⟨before, c, after, h, -⟩
  simp at h

lemma spins_cons (v : Variant) (c : Call) (rest : List Call) (lock : Word) :
    Spins v (c :: rest) lock ↔ busy c lock = true ∨ Spins v rest (lock + shift v c) := by
  constructor
  · rintro ⟨before, d, after, h, hb⟩
    cases before with
    | nil =>
      obtain ⟨rfl, rfl⟩ := List.cons.inj h
      exact Or.inl (by simpa [moved] using hb)
    | cons e before =>
      obtain ⟨rfl, rfl⟩ := List.cons.inj h
      exact Or.inr ⟨before, d, after, rfl, by simpa [moved, add_assoc] using hb⟩
  · rintro (hb | ⟨before, d, after, rfl, hb⟩)
    · exact ⟨[], c, rest, rfl, by simpa [moved] using hb⟩
    · exact ⟨c :: before, d, after, rfl, by simpa [moved, add_assoc] using hb⟩

/-- A sequence returns exactly when no call of it spins, and then its depths and the
final word are those of the running sum. -/
theorem runCalls_eq_some_iff (v : Variant) (fuel : ℕ) (calls : List Call) (lock : Word)
    (r : List Word × Word) :
    runCalls (cas v) (fuel + 1) calls lock = some r ↔
      ¬ Spins v calls lock ∧ r = (depths v calls lock, lock + moved v calls) := by
  induction calls generalizing lock r with
  | nil =>
    have hs : ¬ Spins v [] lock := spins_nil v lock
    have he : ([], lock) = (depths v [] lock, lock + moved v []) := by simp [depths, moved]
    rw [runCalls, ← he, Option.some.injEq, eq_comm]
    exact ⟨fun h => ⟨hs, h⟩, And.right⟩
  | cons c rest ih =>
    cases c with
    | acquire =>
      rw [spins_cons]
      by_cases hb : busy .acquire lock = true
      · simp [runCalls, lockAcquire_eq, hb]
      · simp [runCalls, lockAcquire_eq, hb, ih, depths, moved, add_assoc, Option.bind_eq_some_iff]
        tauto
    | release =>
      rw [spins_cons]
      by_cases hb : busy .release lock = true
      · simp [runCalls, lockRelease_eq, hb]
      · simp [runCalls, lockRelease_eq, hb, ih, depths, moved, add_assoc]

theorem leaves_iff (v : Variant) (calls : List Call) (lock : Word) (r : List Word × Word) :
    Leaves v calls lock r ↔
      ¬ Spins v calls lock ∧ r = (depths v calls lock, lock + moved v calls) := by
  constructor
  · rintro ⟨fuel, h⟩
    cases fuel with
    | zero =>
      cases calls with
      | nil => exact (runCalls_eq_some_iff v 0 [] lock r).mp (by simpa [runCalls] using h)
      | cons c rest => cases c <;> simp [runCalls, lockAcquire, lockRelease] at h
    | succ fuel => exact (runCalls_eq_some_iff v fuel calls lock r).mp h
  · exact fun h => ⟨1, (runCalls_eq_some_iff v 0 calls lock r).mpr h⟩

/-- Acquires and releases cancel at the end, and before every acquire. -/
structure Balanced (calls : List Call) : Prop where
  total : moved .x86 calls = 0
  beforeAcquire : ∀ before after, calls = before ++ .acquire :: after → moved .x86 before = 0

lemma moved_builtin (calls : List Call) : moved .builtin calls = 0 := by
  induction calls with
  | nil => rfl
  | cons c rest ih => simpa [moved, shift] using ih

lemma shift_low (c : Call) : (shift .x86 c).toNat % 2^32 = 0 := by
  cases c <;> decide

/-- The depth tells a moved word from the original one. -/
lemma depth_eq_iff (lock d : Word) (hd : d.toNat % 2^32 = 0) :
    (lock + d) >>> 32 = lock >>> 32 ↔ d = 0 := by
  constructor
  · intro h
    have hn := congrArg BitVec.toNat h
    simp only [BitVec.toNat_ushiftRight, BitVec.toNat_add, Nat.shiftRight_eq_div_pow] at hn
    apply BitVec.eq_of_toNat_eq
    have hl := lock.isLt
    have hd' := d.isLt
    change d.toNat = 0
    omega
  · rintro rfl
    rw [add_zero]

lemma depths_eq_iff (calls : List Call) (lock d : Word) (hd : d.toNat % 2^32 = 0) :
    depths .x86 calls (lock + d) = depths .builtin calls lock ↔
      ∀ before after, calls = before ++ .acquire :: after → d + moved .x86 before = 0 := by
  have hb (c : Call) : lock + shift .builtin c = lock := by simp [shift]
  induction calls generalizing d with
  | nil => simp [depths]
  | cons c rest ih =>
    have hd' : (d + shift .x86 c).toNat % 2^32 = 0 := by
      have hc := shift_low c
      rw [BitVec.toNat_add]
      omega
    have hm (before : List Call) : d + shift .x86 c + moved .x86 before =
        d + moved .x86 (c :: before) := by simp [moved, add_assoc]
    have htail := ih (d + shift .x86 c) hd'
    rw [← add_assoc] at htail
    simp only [hm] at htail
    cases c with
    | acquire =>
      rw [depths, depths, List.cons.injEq, depth_eq_iff lock d hd, hb]
      refine (and_congr_right fun _ => htail).trans ?_
      constructor
      · rintro ⟨h0, ht⟩ before after h
        cases before with
        | nil => rw [h0]; exact zero_add _
        | cons e before =>
          obtain ⟨rfl, hr⟩ := List.cons.inj h
          exact ht before after hr
      · intro h
        refine ⟨?_, fun before after he => h (.acquire :: before) after (by rw [he]; rfl)⟩
        simpa [moved] using h [] rest rfl
    | release =>
      rw [depths, depths, hb]
      refine htail.trans ?_
      constructor
      · intro ht before after h
        cases before with
        | nil => simp at h
        | cons e before =>
          obtain ⟨rfl, hr⟩ := List.cons.inj h
          exact ht before after hr
      · exact fun h before after he => h (.release :: before) after (by rw [he]; rfl)

lemma leaves_eq_of_ne_builtin {v : Variant} (hv : v ≠ .builtin) (calls : List Call) (lock : Word)
    (r : List Word × Word) : Leaves v calls lock r ↔ Leaves .x86 calls lock r := by
  have h : ∀ mem newval expected, cas v mem newval expected = cas .x86 mem newval expected := by
    intro mem newval expected
    rw [cas_contract v hv, cas_contract .x86 (by decide)]
  have he : cas v = cas .x86 := by
    funext mem newval expected
    exact h mem newval expected
  rw [Leaves, Leaves, he]

/-- The x86 and the built-in bodies give one result exactly when either both never
return, or both return and the calls are balanced. -/
lemma leaves_agree_iff (calls : List Call) (lock : Word) :
    (∀ r, Leaves .x86 calls lock r ↔ Leaves .builtin calls lock r) ↔
      (Spins .x86 calls lock ∧ Spins .builtin calls lock) ∨
      (¬ Spins .x86 calls lock ∧ ¬ Spins .builtin calls lock ∧ Balanced calls) := by
  have hres : (depths .x86 calls lock, lock + moved .x86 calls) =
      (depths .builtin calls lock, lock + moved .builtin calls) ↔ Balanced calls := by
    have hd := depths_eq_iff calls lock 0 (by simp)
    simp only [add_zero, zero_add] at hd
    rw [Prod.mk.injEq, hd, moved_builtin, add_zero, add_eq_left]
    exact ⟨fun h => ⟨h.2, h.1⟩, fun h => ⟨h.2, h.1⟩⟩
  simp only [leaves_iff]
  by_cases hx : Spins .x86 calls lock <;> by_cases hb : Spins .builtin calls lock
  · simp [hx, hb]
  · simp [hx, hb]
  · simp [hx, hb]
  · simp only [hx, hb, not_false_eq_true, true_and, false_and, false_or, ← hres]
    exact ⟨fun h => (h _).mp rfl, fun h r => by rw [h]⟩

/-- Where the word never moves, only the tests on the initial word matter. -/
lemma spins_builtin_iff (calls : List Call) (lock : Word) :
    Spins .builtin calls lock ↔ ∃ c ∈ calls, busy c lock = true := by
  constructor
  · rintro ⟨before, c, after, rfl, hb⟩
    rw [moved_builtin, add_zero] at hb
    exact ⟨c, by simp, hb⟩
  · rintro ⟨c, hc, hb⟩
    obtain ⟨before, after, rfl⟩ := List.append_of_mem hc
    exact ⟨before, c, after, rfl, by rw [moved_builtin, add_zero]; exact hb⟩

lemma cas_contract_iff (v : Variant) (mem newval expected : Word) :
    cas v mem newval expected = casContract mem newval expected ↔
      ¬ (v = .builtin ∧ mem = expected ∧ newval ≠ expected) := by
  by_cases hv : v = .builtin
  · subst hv
    rw [cas_builtin]
    by_cases h : mem = expected
    · subst h
      simp [casContract, eq_comm]
    · simp [casContract, h]
  · simp [cas_contract v hv, hv]

/-- Only the built-in body needs to be compared with the others. -/
lemma agree_iff_x86_builtin (calls : List Call) (lock : Word) (r : List Word × Word) :
    (∀ v v', Leaves v calls lock r ↔ Leaves v' calls lock r) ↔
      (Leaves .x86 calls lock r ↔ Leaves .builtin calls lock r) := by
  constructor
  · exact fun h => h .x86 .builtin
  · intro h v v'
    have hx (v : Variant) : Leaves v calls lock r ↔ Leaves .x86 calls lock r := by
      by_cases hv : v = .builtin
      · rw [hv, h]
      · exact leaves_eq_of_ne_builtin hv calls lock r
    rw [hx v, hx v']

/-- The wrong desired value of the built-in body does not show in the result of a whole
sequence exactly when some call spins forever in both, or none does and the sequence is
balanced. -/
theorem casLockref_results_agree_iff (calls : List Call) (lock : Word) :
    (∀ v v' r, Leaves v calls lock r ↔ Leaves v' calls lock r) ↔
      (Spins .x86 calls lock ∧ ∃ c ∈ calls, busy c lock = true) ∨
      (¬ Spins .x86 calls lock ∧ (∀ c ∈ calls, busy c lock = false) ∧ Balanced calls) := by
  have hall : (∀ v v' r, Leaves v calls lock r ↔ Leaves v' calls lock r) ↔
      ∀ r, Leaves .x86 calls lock r ↔ Leaves .builtin calls lock r := by
    constructor
    · exact fun h r => h .x86 .builtin r
    · exact fun h v v' r => (agree_iff_x86_builtin calls lock r).mpr (h r) v v'
  have hn : (∀ c ∈ calls, busy c lock = false) ↔ ¬ ∃ c ∈ calls, busy c lock = true := by
    simp
  rw [hall, leaves_agree_iff, spins_builtin_iff, hn]

/-- The four bodies mean the same for a sequence of calls: after each call of it they
have left the same word and returned the same depths, or none has come that far. -/
def Agree (calls : List Call) (lock : Word) : Prop :=
  ∀ before after, calls = before ++ after →
    ∀ v v' r, Leaves v before lock r ↔ Leaves v' before lock r

lemma shift_ne_zero (c : Call) : shift .x86 c ≠ 0 := by
  cases c <;> decide

/-- A call that returns moves the word in three bodies and not in the fourth. -/
lemma not_agree_of_returns (c : Call) (rest : List Call) (lock : Word)
    (hb : busy c lock = false) : ¬ Agree (c :: rest) lock := by
  intro h
  have hns (v : Variant) : ¬ Spins v [c] lock := by
    rw [spins_cons, hb]
    exact fun hs => hs.elim Bool.false_ne_true (spins_nil v _)
  have hx := (leaves_iff .x86 [c] lock _).mpr ⟨hns .x86, rfl⟩
  have he := ((leaves_iff .builtin [c] lock _).mp ((h [c] rest rfl .x86 .builtin _).mp hx)).2
  have hm : moved .x86 [c] = moved .builtin [c] := add_left_cancel (congrArg Prod.snd he)
  rw [moved_builtin] at hm
  exact shift_ne_zero c (by simpa [moved] using hm)

/-- Where the first call never returns, no body gets past it. -/
lemma agree_of_spins (c : Call) (rest : List Call) (lock : Word) (hb : busy c lock = true) :
    Agree (c :: rest) lock := by
  intro before after h v v' r
  cases before with
  | nil => simp [leaves_iff, spins_nil, depths, moved]
  | cons d before =>
    obtain ⟨rfl, -⟩ := List.cons.inj h
    have hs (v : Variant) : Spins v (c :: before) lock := (spins_cons v c before lock).mpr (Or.inl hb)
    simp [leaves_iff, hs]

/-- The four bodies mean the same for a sequence of calls exactly when the first call
spins forever in all of them, or there is none: any call that returns shows the wrong
desired value of the built-in body. The body itself meets its contract except on a
match whose new value differs. -/
theorem casLockref_variants_agree_iff (calls : List Call) (lock : Word) (v : Variant)
    (mem newval expected : Word) :
    (Agree calls lock ↔ ∀ c ∈ calls.head?, busy c lock = true) ∧
    (cas v mem newval expected = casContract mem newval expected ↔
      ¬ (v = .builtin ∧ mem = expected ∧ newval ≠ expected)) := by
  refine ⟨?_, cas_contract_iff v mem newval expected⟩
  cases calls with
  | nil =>
    have hnil : Agree [] lock := by
      intro before after h v v' r
      obtain ⟨rfl, -⟩ := List.append_eq_nil_iff.mp h.symm
      simp [leaves_iff, spins_nil, depths, moved]
    exact iff_of_true hnil (by simp)
  | cons c rest =>
    simp only [List.head?_cons, Option.mem_some_iff, forall_eq']
    cases hb : busy c lock with
    | false => exact iff_of_false (not_agree_of_returns c rest lock hb) Bool.false_ne_true
    | true => exact iff_of_true (agree_of_spins c rest lock hb) rfl

/-- One acquire of a free lock: three bodies leave one holder, the built-in body
returns the same depth and leaves none. -/
theorem casLockref_builtin_loses_acquire :
    Leaves .x86 [.acquire] 0 ([0], 0x100000000) ∧ Leaves .lse [.acquire] 0 ([0], 0x100000000) ∧
    Leaves .llsc [.acquire] 0 ([0], 0x100000000) ∧ Leaves .builtin [.acquire] 0 ([0], 0) ∧
    ¬ Leaves .builtin [.acquire] 0 ([0], 0x100000000) ∧
    cas .builtin 0 0x100000000 0 ≠ casContract 0 0x100000000 0 := by
  refine ⟨⟨1, by decide⟩, ⟨1, by decide⟩, ⟨1, by decide⟩, ⟨1, by decide⟩, fun h => ?_, by decide⟩
  have hr := congrArg Prod.snd ((leaves_iff _ _ _ _).mp h).2
  simp [moved_builtin] at hr

end Lockhammer.CasLockref
