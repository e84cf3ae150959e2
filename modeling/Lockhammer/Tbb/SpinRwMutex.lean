import Lockhammer.Interleaving.Count
import Lockhammer.Atomics.Primitives
import Mathlib.Data.Nat.Bitwise

/-!
# The reader-writer spin mutex of tbb_spin_rw_mutex.h

Bit 0 of the word is the writer, bit 1 a pending writer, and the bits from 2 on count
readers. A reader adds itself first and looks at bit 0 of what it got back; when a writer
was there it takes the addition back.
-/
namespace Lockhammer.SpinRwMutex
open Interleaving

def writer : Word := 1
def writerPending : Word := 2
def readers : Word := ~~~(writer ||| writerPending)
def oneReader : Word := 4
def busy : Word := writer ||| readers

/-- How a thread chooses its mode. `call x val` is `is_writer(i, val)` on the thread's own
counters: `lock_acquire` calls it with 1 and `lock_release` again with 0, so the second
answer must repeat the first. -/
structure IsWriter (χ : Type*) where
  call : χ → BitVec 8 → χ × Bool
  repeats : ∀ x, call (call x 1).1 0 = call x 1

/-- One entry of `rw_counts`. -/
structure RwCount where
  c : Word
  pureReader : Bool
  deriving DecidableEq, Repr

/-- The choice of the source, for a given `rw_mask`. -/
def isWriter (rwMask : Word) : IsWriter RwCount where
  call x val :=
    if x.pureReader then (x, false)
    else ({ x with c := x.c + val.setWidth 64 }, x.c + val.setWidth 64 &&& rwMask == 0)
  repeats x := by
    cases hp : x.pureReader <;> simp [hp]

/-- Where a thread is: the loops of `internal_acquire_writer` and `internal_acquire_reader`,
the critical section (and which of the two led there), and the two releases. -/
inductive Pc
  | idle
  | writerLoad
  | writerCas (s : Word)
  | writerOr
  | readerLoad
  | readerAdd
  | readerUndo
  | assertReaders
  | assertFailed
  | critical (writer : Bool)
  | releaseWriter
  | releaseReader
  deriving DecidableEq, Repr

/-- A thread and its counters. -/
structure Thread (χ : Type*) where
  pc : Pc
  counts : χ

/-- One atomic step of a thread. `fails` lets the compare-and-swap fail, and say so,
although the word is the expected one. The back-off between two rounds of a loop touches
nothing shared. -/
def step {χ : Type*} (choose : IsWriter χ) (fails : Bool) (word : Word) (x : Thread χ) :
    Word × Thread χ :=
  match x.pc with
  | .idle =>
    let r := choose.call x.counts 1
    (word, ⟨if r.2 then .writerLoad else .readerLoad, r.1⟩)
  | .writerLoad =>
    if word &&& busy = 0 then (word, { x with pc := .writerCas word })
    else if word &&& writerPending = 0 then (word, { x with pc := .writerOr })
    else (word, x)
  | .writerCas s =>
    if word = s ∧ fails = false then (writer, { x with pc := .critical true })
    else (word, { x with pc := .writerLoad })
  | .writerOr => (word ||| writerPending, { x with pc := .writerLoad })
  | .readerLoad =>
    if word &&& (writer ||| writerPending) = 0 then (word, { x with pc := .readerAdd })
    else (word, x)
  | .readerAdd =>
    let t := fetchadd64 word oneReader
    (t.2, { x with pc := if t.1 &&& writer = 0 then .assertReaders else .readerUndo })
  | .readerUndo => ((fetchadd64 word (-oneReader)).2, { x with pc := .readerLoad })
  | .assertReaders =>
    (word, { x with pc := if word &&& readers ≠ 0 then .critical false else .assertFailed })
  | .assertFailed => (word, x)
  | .critical _ =>
    let r := choose.call x.counts 0
    (word, ⟨if r.2 then .releaseWriter else .releaseReader, r.1⟩)
  | .releaseWriter => (word &&& readers, { x with pc := .idle })
  | .releaseReader => ((fetchadd64Release word (-oneReader)).2, { x with pc := .idle })

def machine {χ : Type*} (choose : IsWriter χ) (n : ℕ) : Machine (Fin n) Bool Word (Thread χ) where
  step _ := step choose

/-- State 0; the counters may start anywhere. -/
def start {χ : Type*} {n : ℕ} (counts : Fin n → χ) : Config (Fin n) Word (Thread χ) :=
  ⟨0, fun t => ⟨.idle, counts t⟩⟩

/-- From the successful compare-and-swap to the release. -/
def Pc.holdsWriter : Pc → Bool
  | .critical true | .releaseWriter => true
  | _ => false

/-- From the fetchadd that met no writer to the release. -/
def Pc.holdsReader : Pc → Bool
  | .assertReaders | .assertFailed | .critical false | .releaseReader => true
  | _ => false

/-- Holding as a reader, or with an addition not yet taken back. -/
def Pc.counted : Pc → Bool
  | .readerUndo => true
  | p => p.holdsReader

/-! The word in terms of its three parts. -/

def state (readers : ℕ) (pending writer : Bool) : Word :=
  BitVec.ofNat 64 (2^2 * readers + (2 * pending.toNat + writer.toNat))

lemma state_getLsbD_zero (r : ℕ) (p w : Bool) : (state r p w).getLsbD 0 = w := by
  rw [state, BitVec.getLsbD_ofNat, Nat.testBit_two_pow_mul_add _ (by cases p <;> cases w <;> decide)]
  cases p <;> cases w <;> rfl

lemma state_getLsbD_one (r : ℕ) (p w : Bool) : (state r p w).getLsbD 1 = p := by
  rw [state, BitVec.getLsbD_ofNat, Nat.testBit_two_pow_mul_add _ (by cases p <;> cases w <;> decide)]
  cases p <;> cases w <;> rfl

lemma state_getLsbD_add_two (r : ℕ) (p w : Bool) (i : ℕ) :
    (state r p w).getLsbD (i + 2) = (decide (i + 2 < 64) && r.testBit i) := by
  rw [state, BitVec.getLsbD_ofNat, Nat.testBit_two_pow_mul_add _ (by cases p <;> cases w <;> decide),
    if_neg (by omega), Nat.add_sub_cancel]

lemma readers_getLsbD (i : ℕ) : readers.getLsbD i = (decide (i < 64) && decide (2 ≤ i)) := by
  rw [readers, show writer ||| writerPending = BitVec.ofNat 64 (2 ^ 2 - 1) from rfl,
    BitVec.getLsbD_not, BitVec.getLsbD_ofNat, Nat.testBit_two_pow_sub_one]
  by_cases h : i < 2
  · have h' : ¬ 2 ≤ i := by omega
    simp [h, h']
  · have h' : 2 ≤ i := by omega
    simp [h, h']

/-- Two words agree when their low two bits and the bits above them do. -/
lemma ext_low_two {x y : Word} (h0 : x.getLsbD 0 = y.getLsbD 0) (h1 : x.getLsbD 1 = y.getLsbD 1)
    (h2 : ∀ i, i + 2 < 64 → x.getLsbD (i + 2) = y.getLsbD (i + 2)) : x = y := by
  apply BitVec.eq_of_getLsbD_eq
  intro i hi
  match i with
  | 0 => exact h0
  | 1 => exact h1
  | i + 2 => exact h2 i hi

lemma state_or_pending (r : ℕ) (p w : Bool) : state r p w ||| writerPending = state r true w := by
  apply ext_low_two
  · rw [BitVec.getLsbD_or, state_getLsbD_zero, state_getLsbD_zero]
    exact Bool.or_false w
  · rw [BitVec.getLsbD_or, state_getLsbD_one, state_getLsbD_one]
    exact Bool.or_true p
  · intro i hi
    have hm : writerPending.getLsbD (i + 2) = false := by
      rw [show writerPending = BitVec.twoPow 64 1 from rfl, BitVec.getLsbD_twoPow]
      simp
    rw [BitVec.getLsbD_or, state_getLsbD_add_two, state_getLsbD_add_two, hm, Bool.or_false]

lemma state_and_readers (r : ℕ) (p w : Bool) : state r p w &&& readers = state r false false := by
  apply ext_low_two
  · rw [BitVec.getLsbD_and, readers_getLsbD, state_getLsbD_zero, state_getLsbD_zero]
    exact Bool.and_false w
  · rw [BitVec.getLsbD_and, readers_getLsbD, state_getLsbD_one, state_getLsbD_one]
    exact Bool.and_false p
  · intro i hi
    rw [BitVec.getLsbD_and, readers_getLsbD, state_getLsbD_add_two, state_getLsbD_add_two]
    simp [hi]

lemma state_and_writer (r : ℕ) (p w : Bool) : state r p w &&& writer = state 0 false w := by
  apply ext_low_two
  · rw [BitVec.getLsbD_and, state_getLsbD_zero, state_getLsbD_zero]
    exact Bool.and_true w
  · rw [BitVec.getLsbD_and, state_getLsbD_one, state_getLsbD_one]
    exact Bool.and_false p
  · intro i hi
    have hm : writer.getLsbD (i + 2) = false := by
      rw [show writer = BitVec.twoPow 64 0 from rfl, BitVec.getLsbD_twoPow]
      simp
    rw [BitVec.getLsbD_and, state_getLsbD_add_two, state_getLsbD_add_two, hm]
    simp

lemma state_and_busy (r : ℕ) (p w : Bool) : state r p w &&& busy = state r false w := by
  have hb : busy = readers ||| writer := by decide
  rw [hb, BitVec.and_or_distrib_left, state_and_readers, state_and_writer]
  apply ext_low_two
  · simp only [BitVec.getLsbD_or, state_getLsbD_zero, Bool.false_or]
  · simp only [BitVec.getLsbD_or, state_getLsbD_one, Bool.or_false]
  · intro i hi
    simp [BitVec.getLsbD_or, state_getLsbD_add_two]

lemma state_add_oneReader (r : ℕ) (p w : Bool) : state r p w + oneReader = state (r + 1) p w := by
  rw [state, state, show oneReader = BitVec.ofNat 64 4 from rfl, ← BitVec.ofNat_add]
  congr 1
  omega

lemma state_sub_oneReader (r : ℕ) (p w : Bool) : state (r + 1) p w + -oneReader = state r p w := by
  rw [← state_add_oneReader, BitVec.add_neg_eq_sub, BitVec.add_sub_cancel]

lemma state_toNat {r : ℕ} (hr : r < 2^60) (p w : Bool) :
    (state r p w).toNat = 4 * r + (2 * p.toNat + w.toNat) := by
  have hp := p.toNat_le
  have hw := w.toNat_le
  rw [state, BitVec.toNat_ofNat]
  omega

lemma state_eq_zero_iff {r : ℕ} (hr : r < 2^60) {p w : Bool} :
    state r p w = 0 ↔ r = 0 ∧ p = false ∧ w = false := by
  constructor
  · intro h
    have he := congrArg BitVec.toNat h
    rw [state_toNat hr] at he
    cases p <;> cases w <;> simp at he ⊢
    exact he
  · rintro ⟨rfl, rfl, rfl⟩
    rfl

/-! The invariant. -/

/-- The mode in which a thread inside its acquire or its hold is. -/
def Pc.mode : Pc → Option Bool
  | .idle => none
  | .writerLoad | .writerCas _ | .writerOr | .releaseWriter => some true
  | .critical w => some w
  | .readerLoad | .readerAdd | .readerUndo | .assertReaders | .assertFailed | .releaseReader => some false

/-- What a thread knows by itself: `is_writer(.., 0)` would repeat its mode, and a word it
goes to swap was not busy. -/
structure ThreadOk {χ : Type*} (choose : IsWriter χ) (x : Thread χ) : Prop where
  mode : ∀ w, x.pc.mode = some w → choose.call x.counts 0 = (x.counts, w)
  seen : ∀ s, x.pc = .writerCas s → s &&& busy = 0
  asserted : x.pc ≠ .assertFailed

structure Inv {χ : Type*} {n : ℕ} (choose : IsWriter χ) (p w : Bool)
    (c : Config (Fin n) Word (Thread χ)) : Prop where
  threads : ∀ t, ThreadOk choose (c.loc t)
  word : c.shared = state (c.count (·.pc.counted = true)) p w
  held : w = true ↔ ∃ t, (c.loc t).pc.holdsWriter = true
  unique : ∀ t u, (c.loc t).pc.holdsWriter = true → (c.loc u).pc.holdsWriter = true → t = u
  alone : ∀ t u, (c.loc t).pc.holdsWriter = true → (c.loc u).pc.holdsReader = false

variable {χ : Type*} {choose : IsWriter χ} {n : ℕ} {p w : Bool} {c : Config (Fin n) Word (Thread χ)}

lemma start_inv (counts : Fin n → χ) : Inv choose false false (start counts) := by
  have hc : (start counts).count (·.pc.counted = true) = 0 := by
    rw [Config.count_eq_zero_iff]
    simp [start, Pc.counted, Pc.holdsReader]
  refine ⟨fun t => ⟨by simp [start, Pc.mode], by simp [start], by simp [start]⟩, ?_, ?_, ?_, ?_⟩
  · rw [hc]
    rfl
  all_goals simp [start, Pc.holdsWriter]

lemma Inv.count_lt (_h : Inv choose p w c) (hn : n < 2^60) :
    c.count (·.pc.counted = true) < 2^60 := by
  have hle := c.count_le (·.pc.counted = true)
  rw [Fintype.card_fin] at hle
  omega

/-- Nobody writes while the writer bit is clear. -/
lemma Inv.not_holdsWriter (h : Inv choose p false c) (t : Fin n) :
    (c.loc t).pc.holdsWriter = false := by
  by_contra ht
  simpa using h.held.mpr ⟨t, Bool.not_eq_false _ ▸ ht⟩

/-- A step that keeps the word up to its pending bit and the thread's hold. -/
lemma Inv.quiet (h : Inv choose p w c) {p' fails : Bool} {t : Fin n} {word : Word} {y : Thread χ}
    (hs : (machine choose n).step t fails c.shared (c.loc t) = (word, y))
    (hy : ThreadOk choose y) (hword : word = state (c.count (·.pc.counted = true)) p' w)
    (hc : y.pc.counted = (c.loc t).pc.counted)
    (hr : y.pc.holdsReader = (c.loc t).pc.holdsReader)
    (hw : y.pc.holdsWriter = (c.loc t).pc.holdsWriter) :
    Inv choose p' w ((machine choose n).fire t fails c) := by
  have hloc := Machine.fire_loc_eq (machine choose n) hs
  have hcount := (machine choose n).count_fire_toNat (fun x => x.pc.counted) hs
  rw [hc] at hcount
  have hw' (u : Fin n) : (((machine choose n).fire t fails c).loc u).pc.holdsWriter =
      (c.loc u).pc.holdsWriter := by
    rw [hloc]
    split
    · next hu => rw [hu, hw]
    · rfl
  have hr' (u : Fin n) : (((machine choose n).fire t fails c).loc u).pc.holdsReader =
      (c.loc u).pc.holdsReader := by
    rw [hloc]
    split
    · next hu => rw [hu, hr]
    · rfl
  refine ⟨fun u => ?_, ?_, ?_, ?_, ?_⟩
  · rw [hloc]
    split
    · exact hy
    · exact h.threads u
  · rw [Machine.fire_shared_eq _ hs, Nat.add_right_cancel hcount]
    exact hword
  · simpa only [hw'] using h.held
  · simpa only [hw'] using h.unique
  · simpa only [hw', hr'] using h.alone

/-- A reader that met no writer holds the lock; one that met a writer is only counted. -/
lemma Inv.addReader (h : Inv choose p w c) {fails : Bool} {t : Fin n}
    (hpc : (c.loc t).pc = .readerAdd) : Inv choose p w ((machine choose n).fire t fails c) := by
  have hand : c.shared &&& writer = 0 ↔ w = false := by
    rw [h.word, state_and_writer, state_eq_zero_iff (by omega)]
    simp
  have hs : (machine choose n).step t fails c.shared (c.loc t) = (c.shared + oneReader,
      ⟨if w = false then .assertReaders else .readerUndo, (c.loc t).counts⟩) := by
    simp only [machine, step, hpc, fetchadd64, hand]
  have hloc := Machine.fire_loc_eq (machine choose n) hs
  have hcount := (machine choose n).count_fire_toNat (fun x => x.pc.counted) hs
  have hth := h.threads t
  have hw' (u : Fin n) : (((machine choose n).fire t fails c).loc u).pc.holdsWriter =
      (c.loc u).pc.holdsWriter := by
    rw [hloc]
    split
    · next hu => rw [hu, hpc]; cases w <;> rfl
    · rfl
  refine ⟨fun u => ?_, ?_, ?_, ?_, ?_⟩
  · rw [hloc]
    split
    · refine ⟨?_, ?_, ?_⟩
      · have hm := hth.mode false (by rw [hpc]; rfl)
        cases w <;> simpa [Pc.mode] using hm
      · cases w <;> simp
      · cases w <;> simp
    · exact h.threads u
  · have hc : ((machine choose n).fire t fails c).count (·.pc.counted = true) =
        c.count (·.pc.counted = true) + 1 := by
      rw [hpc] at hcount
      cases w <;> exact hcount
    rw [Machine.fire_shared_eq _ hs, hc, h.word, state_add_oneReader]
  · simpa only [hw'] using h.held
  · simpa only [hw'] using h.unique
  · intro u v hu
    rw [hw'] at hu
    have hwt : w = true := h.held.mpr ⟨u, hu⟩
    rw [hloc]
    split
    · simp [hwt, Pc.holdsReader]
    · exact h.alone u v hu

/-- A reader takes its one back, in the undo or in the release. -/
lemma Inv.subReader (h : Inv choose p w c) {fails : Bool} {t : Fin n} {pc : Pc}
    (hcounted : (c.loc t).pc.counted = true)
    (hs : (machine choose n).step t fails c.shared (c.loc t) =
      (c.shared + -oneReader, ⟨pc, (c.loc t).counts⟩))
    (hpc : pc = .readerLoad ∧ (c.loc t).pc = .readerUndo ∨ pc = .idle ∧ (c.loc t).pc = .releaseReader) :
    Inv choose p w ((machine choose n).fire t fails c) := by
  have hloc := Machine.fire_loc_eq (machine choose n) hs
  have hcount := (machine choose n).count_fire_toNat (fun x => x.pc.counted) hs
  have hth := h.threads t
  have hw' (u : Fin n) : (((machine choose n).fire t fails c).loc u).pc.holdsWriter =
      (c.loc u).pc.holdsWriter := by
    rw [hloc]
    split
    · next hu => rcases hpc with ⟨rfl, hq⟩ | ⟨rfl, hq⟩ <;> rw [hu, hq] <;> rfl
    · rfl
  refine ⟨fun u => ?_, ?_, ?_, ?_, ?_⟩
  · rw [hloc]
    split
    · rcases hpc with ⟨rfl, hq⟩ | ⟨rfl, hq⟩
      · refine ⟨?_, by simp, by simp⟩
        have hm := hth.mode false (by rw [hq]; rfl)
        simpa [Pc.mode] using hm
      · exact ⟨by simp [Pc.mode], by simp, by simp⟩
    · exact h.threads u
  · have hc : ((machine choose n).fire t fails c).count (·.pc.counted = true) + 1 =
        c.count (·.pc.counted = true) := by
      rw [hcounted] at hcount
      rcases hpc with ⟨rfl, hq⟩ | ⟨rfl, hq⟩ <;> exact hcount
    rw [Machine.fire_shared_eq _ hs, h.word, ← hc, state_sub_oneReader]
  · simpa only [hw'] using h.held
  · simpa only [hw'] using h.unique
  · intro u v hu
    rw [hw'] at hu
    rw [hloc]
    split
    · rcases hpc with ⟨rfl, hq⟩ | ⟨rfl, hq⟩ <;> rfl
    · exact h.alone u v hu

/-- The compare-and-swap of a writer succeeds only on a word without holders. -/
lemma Inv.acquireWriter (h : Inv choose p w c) (hn : n < 2^60) {t : Fin n} {s : Word}
    (hpc : (c.loc t).pc = .writerCas s) (hw : c.shared = s) :
    Inv choose false true ((machine choose n).fire t false c) := by
  have hs : (machine choose n).step t false c.shared (c.loc t) =
      (writer, ⟨.critical true, (c.loc t).counts⟩) := by
    simp [machine, step, hpc, hw]
  have hth := h.threads t
  have hfree := hth.seen s hpc
  rw [← hw, h.word, state_and_busy, state_eq_zero_iff (h.count_lt hn)] at hfree
  obtain ⟨hnone, -, rfl⟩ := hfree
  have hloc := Machine.fire_loc_eq (machine choose n) hs
  have hcount := (machine choose n).count_fire_toNat (fun x => x.pc.counted) hs
  have hothers (u : Fin n) : (c.loc u).pc.counted = false := by
    have := (c.count_eq_zero_iff _).mp hnone u
    simpa using this
  refine ⟨fun u => ?_, ?_, ?_, ?_, ?_⟩
  · rw [hloc]
    split
    · refine ⟨?_, by simp, by simp⟩
      have hm := hth.mode true (by rw [hpc]; rfl)
      simpa [Pc.mode] using hm
    · exact h.threads u
  · have hc : ((machine choose n).fire t false c).count (·.pc.counted = true) = 0 := by
      rw [hpc] at hcount
      rw [hnone] at hcount
      exact hcount
    rw [Machine.fire_shared_eq _ hs, hc]
    rfl
  · simp only [true_iff]
    refine ⟨t, ?_⟩
    rw [hloc, if_pos rfl]
    rfl
  · intro u v hu hv
    rw [hloc] at hu hv
    split at hu <;> split at hv
    · next he hf => rw [he, hf]
    · next hv' => simp [h.not_holdsWriter v] at hv
    · simp [h.not_holdsWriter u] at hu
    · simp [h.not_holdsWriter u] at hu
  · intro u v _
    rw [hloc]
    split
    · rfl
    · have hv := hothers v
      revert hv
      cases (c.loc v).pc <;> simp [Pc.counted]

/-- The release of a writer clears the low bits and leaves the additions of readers. -/
lemma Inv.releaseWriter (h : Inv choose p w c) {fails : Bool} {t : Fin n}
    (hpc : (c.loc t).pc = .releaseWriter) :
    Inv choose false false ((machine choose n).fire t fails c) := by
  have hs : (machine choose n).step t fails c.shared (c.loc t) =
      (c.shared &&& readers, ⟨.idle, (c.loc t).counts⟩) := by
    simp only [machine, step, hpc]
  have hloc := Machine.fire_loc_eq (machine choose n) hs
  have hcount := (machine choose n).count_fire_toNat (fun x => x.pc.counted) hs
  rw [hpc] at hcount
  have hheld : (c.loc t).pc.holdsWriter = true := by rw [hpc]; rfl
  have hnone (u : Fin n) : (((machine choose n).fire t fails c).loc u).pc.holdsWriter = false := by
    rw [hloc]
    split
    · rfl
    · next hu =>
      by_contra hv
      exact hu (h.unique u t (Bool.not_eq_false _ ▸ hv) hheld)
  refine ⟨fun u => ?_, ?_, ?_, ?_, ?_⟩
  · rw [hloc]
    split
    · exact ⟨by simp [Pc.mode], by simp, by simp⟩
    · exact h.threads u
  · rw [Machine.fire_shared_eq _ hs, h.word, state_and_readers, Nat.add_right_cancel hcount]
  · simp [hnone]
  · simp [hnone]
  · simp [hnone]

/-- The counted readers show in the word. -/
lemma Inv.readers_ne_zero (h : Inv choose p w c) (hn : n < 2^60) {t : Fin n}
    (ht : (c.loc t).pc.counted = true) : c.shared &&& readers ≠ 0 := by
  rw [h.word, state_and_readers, Ne, state_eq_zero_iff (h.count_lt hn)]
  rintro ⟨hz, -⟩
  exact (c.count_eq_zero_iff _).mp hz t ht

/-- A thread moves on within its mode and changes nothing else. -/
lemma Inv.goto (h : Inv choose p w c) {fails : Bool} {t : Fin n} {q : Pc}
    (hs : (machine choose n).step t fails c.shared (c.loc t) = (c.shared, ⟨q, (c.loc t).counts⟩))
    (hmode : q.mode = (c.loc t).pc.mode) (hseen : ∀ s, q = .writerCas s → s &&& busy = 0)
    (hq : q ≠ .assertFailed) (hc : q.counted = (c.loc t).pc.counted)
    (hr : q.holdsReader = (c.loc t).pc.holdsReader)
    (hw : q.holdsWriter = (c.loc t).pc.holdsWriter) :
    ∃ p' w', Inv choose p' w' ((machine choose n).fire t fails c) := by
  refine ⟨p, w, h.quiet hs ⟨?_, hseen, hq⟩ h.word hc hr hw⟩
  intro m hm
  exact (h.threads t).mode m (hmode ▸ hm)

theorem step_inv (hn : n < 2^60) (h : Inv choose p w c) (t : Fin n) (fails : Bool) :
    ∃ p' w', Inv choose p' w' ((machine choose n).fire t fails c) := by
  have hth := h.threads t
  cases hpc : (c.loc t).pc with
  | idle =>
    have hrep := choose.repeats (c.loc t).counts
    have hs : (machine choose n).step t fails c.shared (c.loc t) =
        (c.shared, ⟨if (choose.call (c.loc t).counts 1).2 then .writerLoad else .readerLoad,
          (choose.call (c.loc t).counts 1).1⟩) := by
      simp only [machine, step, hpc]
    refine ⟨p, w, h.quiet hs ⟨?_, ?_, ?_⟩ h.word ?_ ?_ ?_⟩
    · intro m hm
      refine hrep.trans (Prod.ext rfl ?_)
      revert hm
      cases (choose.call (c.loc t).counts 1).2 <;> simp [Pc.mode]
    all_goals cases (choose.call (c.loc t).counts 1).2 <;> simp [hpc] <;> rfl
  | writerLoad =>
    by_cases hb : c.shared &&& busy = 0
    · refine h.goto (q := .writerCas c.shared) (by simp only [machine, step, hpc, if_pos hb]) ?_ ?_ ?_ ?_ ?_ ?_
      · rw [hpc]; rfl
      · rintro s ⟨⟩
        exact hb
      all_goals simp [hpc, Pc.counted, Pc.holdsReader, Pc.holdsWriter]
    · by_cases hp : c.shared &&& writerPending = 0
      · refine h.goto (q := .writerOr)
          (by simp only [machine, step, hpc, if_neg hb, if_pos hp]) ?_ ?_ ?_ ?_ ?_ ?_
        all_goals simp [hpc, Pc.mode, Pc.counted, Pc.holdsReader, Pc.holdsWriter]
      · have hs : (machine choose n).step t fails c.shared (c.loc t) = (c.shared, c.loc t) := by
          simp only [machine, step, hpc, if_neg hb, if_neg hp]
        exact ⟨p, w, h.quiet hs hth h.word rfl rfl rfl⟩
  | writerCas s =>
    by_cases hw : c.shared = s ∧ fails = false
    · obtain ⟨hw, rfl⟩ := hw
      exact ⟨false, true, h.acquireWriter hn hpc hw⟩
    · refine h.goto (q := .writerLoad) (by simp only [machine, step, hpc, if_neg hw]) ?_ ?_ ?_ ?_ ?_ ?_
      all_goals simp [hpc, Pc.mode, Pc.counted, Pc.holdsReader, Pc.holdsWriter]
  | writerOr =>
    have hs : (machine choose n).step t fails c.shared (c.loc t) =
        (c.shared ||| writerPending, ⟨.writerLoad, (c.loc t).counts⟩) := by
      simp only [machine, step, hpc]
    refine ⟨true, w, h.quiet hs ⟨?_, by simp, by simp⟩ (by rw [h.word, state_or_pending]) ?_ ?_ ?_⟩
    · intro m hm
      exact hth.mode m (by rw [hpc]; exact hm)
    all_goals simp [hpc, Pc.counted, Pc.holdsReader, Pc.holdsWriter]
  | readerLoad =>
    by_cases hf : c.shared &&& (writer ||| writerPending) = 0
    · refine h.goto (q := .readerAdd) (by simp only [machine, step, hpc, if_pos hf]) ?_ ?_ ?_ ?_ ?_ ?_
      all_goals simp [hpc, Pc.mode, Pc.counted, Pc.holdsReader, Pc.holdsWriter]
    · have hs : (machine choose n).step t fails c.shared (c.loc t) = (c.shared, c.loc t) := by
        simp only [machine, step, hpc, if_neg hf]
      exact ⟨p, w, h.quiet hs hth h.word rfl rfl rfl⟩
  | readerAdd => exact ⟨p, w, h.addReader hpc⟩
  | readerUndo =>
    exact ⟨p, w, h.subReader (by rw [hpc]; rfl) (by simp only [machine, step, hpc, fetchadd64])
      (Or.inl ⟨rfl, hpc⟩)⟩
  | assertReaders =>
    have hne := h.readers_ne_zero hn (t := t) (by rw [hpc]; rfl)
    refine h.goto (q := .critical false)
      (by simp only [machine, step, hpc, ne_eq, hne, not_false_eq_true, if_true]) ?_ ?_ ?_ ?_ ?_ ?_
    all_goals simp [hpc, Pc.mode, Pc.counted, Pc.holdsReader, Pc.holdsWriter]
  | assertFailed => exact absurd hpc hth.asserted
  | critical m =>
    have hm := hth.mode m (by rw [hpc]; rfl)
    refine h.goto (q := if m then .releaseWriter else .releaseReader)
      (by simp only [machine, step, hpc, hm]) ?_ ?_ ?_ ?_ ?_ ?_
    all_goals cases m <;> simp [hpc, Pc.mode, Pc.counted, Pc.holdsReader, Pc.holdsWriter]
  | releaseWriter => exact ⟨false, false, h.releaseWriter hpc⟩
  | releaseReader =>
    exact ⟨p, w, h.subReader (by rw [hpc]; rfl)
      (by simp only [machine, step, hpc, fetchadd64Release, fetchadd64]) (Or.inr ⟨rfl, hpc⟩)⟩

theorem reachable_inv (hn : n < 2^60) {counts : Fin n → χ}
    (h : (machine choose n).Reachable (start counts) c) : ∃ p w, Inv choose p w c := by
  refine h.invariant (machine choose n) (P := fun c => ∃ p w, Inv choose p w c)
    ⟨false, false, start_inv counts⟩ ?_
  rintro c t fails ⟨p, w, hi⟩
  exact step_inv hn hi t fails

/-- Exclusion and exact count. In every run of fewer than `2^60` threads with any choice of
modes: a writer excludes every other writer and all readers; bit 0 is set exactly while a
writer holds; the bits from 2 on are the number of readers holding or still to undo their
addition, so a subtraction never underflows; and the assertion of the reader's acquire
holds. -/
theorem spinRwMutex_exclusion (hn : n < 2^60) {counts : Fin n → χ}
    (h : (machine choose n).Reachable (start counts) c) :
    (∀ t u, (c.loc t).pc.holdsWriter = true → (c.loc u).pc.holdsWriter = true → t = u) ∧
    (∀ t u, (c.loc t).pc.holdsWriter = true → (c.loc u).pc.holdsReader = false) ∧
    (c.shared.getLsbD 0 = true ↔ ∃ t, (c.loc t).pc.holdsWriter = true) ∧
    (c.shared >>> 2).toNat = c.count (·.pc.counted = true) ∧
    (∀ t, (c.loc t).pc = .readerUndo ∨ (c.loc t).pc = .releaseReader →
      1 ≤ (c.shared >>> 2).toNat) ∧
    (∀ t, (c.loc t).pc = .assertReaders → c.shared &&& readers ≠ 0) ∧
    (∀ t, (c.loc t).pc ≠ .assertFailed) := by
  obtain ⟨p, w, hi⟩ := reachable_inv hn h
  have hcount : (c.shared >>> 2).toNat = c.count (·.pc.counted = true) := by
    have hp := p.toNat_le
    have hw := w.toNat_le
    rw [hi.word, BitVec.toNat_ushiftRight, state_toNat (hi.count_lt hn), Nat.shiftRight_eq_div_pow]
    omega
  refine ⟨hi.unique, hi.alone, ?_, hcount, ?_, ?_, fun t => (hi.threads t).asserted⟩
  · rw [hi.word, state_getLsbD_zero]
    exact hi.held
  · intro t ht
    rw [hcount]
    by_contra hz
    have hnone := (c.count_eq_zero_iff _).mp (Nat.lt_one_iff.mp (not_le.mp hz)) t
    apply hnone
    rcases ht with ht | ht <;> rw [ht] <;> rfl
  · intro t ht
    exact hi.readers_ne_zero hn (by rw [ht]; rfl)

/-- A reader sees the free word, a writer takes it, and the reader adds itself too late. -/
def lateReader (wr rd : Fin n) : List (Fin n × Bool) :=
  [rd, rd, wr, wr, wr, rd].map fun t => (t, false)

/-- Counters for which the next acquire of every thread but `rd` is a write. -/
def oneReaderCounts (rd : Fin n) (t : Fin n) : RwCount := ⟨0, t = rd⟩

theorem spinRwMutex_exclusion_two :
    (((machine (isWriter 0) 2).run (start (oneReaderCounts 1)) (lateReader 0 1)).loc 0).pc =
      .critical true ∧
    (((machine (isWriter 0) 2).run (start (oneReaderCounts 1)) (lateReader 0 1)).loc 1).pc =
      .readerUndo ∧
    ((machine (isWriter 0) 2).run (start (oneReaderCounts 1)) (lateReader 0 1)).shared.getLsbD 0 =
      true := by
  have hpc : (((machine (isWriter 0) 2).run (start (oneReaderCounts 1)) (lateReader 0 1)).loc 0).pc =
      .critical true := by decide
  refine ⟨hpc, by decide, ?_⟩
  exact (spinRwMutex_exclusion (by decide)
    ((machine (isWriter 0) 2).reachable_run (start (oneReaderCounts 1)) (lateReader 0 1))).2.2.1.mpr
    ⟨0, by rw [hpc]; rfl⟩

end Lockhammer.SpinRwMutex
