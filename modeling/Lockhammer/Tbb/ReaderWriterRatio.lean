import Lockhammer.Tbb.SpinRwMutex
import Lockhammer.Harness.Args
import Lockhammer.CLib.Bits
import Mathlib.Data.Int.CardIntervalMod

/-!
# Readers and writers of tbb_spin_rw_mutex.h

`lock_acquire` and `lock_release` do not store in which mode a thread holds the lock; both
compute it from the counter of the thread. A thread that is no pure reader writes once in
`2 ^ log2_ratio` acquires, whatever its counter starts with.
-/
namespace Lockhammer.SpinRwMutex
open Interleaving

/-- `rw_mask` as `tbb_init_locks` sets it. -/
def rwMask (log2Ratio : ℕ) : Word := ((1 : Word) <<< log2Ratio) - 1

/-- The entries of `rw_counts` that `tbb_init_locks` fills in. -/
def tbbInitLocks (pureReaderCpus : List ℕ) (cpulist : ℕ → BitVec 32) (threads : ℕ) (i : Fin threads) :
    RwCount :=
  ⟨BitVec.ofNat 64 i, Args.cpuIsset (cpulist i) pureReaderCpus⟩

inductive Call
  | acquire
  | release
  deriving DecidableEq

/-- What `lock_acquire` and `lock_release` add to the counter. -/
def Call.val : Call → BitVec 8
  | .acquire => 1
  | .release => 0

/-- A call of a thread, and whether it is made as a writer. -/
structure Event (n : ℕ) where
  thread : Fin n
  call : Call
  asWriter : Bool
  deriving DecidableEq

/-- The calls of all threads, one after the other. -/
def events {n : ℕ} (mask : Word) : (counts : Fin n → RwCount) → List (Fin n × Call) → List (Event n)
  | _, [] => []
  | counts, (t, call) :: calls =>
    let r := (isWriter mask).call (counts t) call.val
    ⟨t, call, r.2⟩ :: events mask (Function.update counts t r.1) calls

/-- The modes of the acquires or of the releases of a thread, in their order. -/
def modesOf {n : ℕ} (evs : List (Event n)) (t : Fin n) (call : Call) : List Bool :=
  (evs.filter fun e => e.thread = t ∧ e.call = call).map Event.asWriter

/-- Acquires and releases in turn, beginning with an acquire. -/
inductive Alternating : List Call → Prop
  | nil : Alternating []
  | held : Alternating [.acquire]
  | pair {calls} (h : Alternating calls) : Alternating (.acquire :: .release :: calls)

/-- How the modes of a thread are chosen: a release has that of its acquire; a pure reader
never writes; any other thread writes once in `2 ^ log2Ratio` acquires. -/
structure ChoosesModes (pureReader : Bool) (log2Ratio : ℕ) (acquires releases : List Bool) : Prop where
  releases : releases <+: acquires
  reader : pureReader = true → ∀ asWriter ∈ acquires, asWriter = false
  writer : pureReader = false → ∀ window, window <:+: acquires → window.length = 2 ^ log2Ratio →
    window.count true = 1

/-- Every call has its event. -/
lemma events_calls {n : ℕ} (mask : Word) (counts : Fin n → RwCount) (calls : List (Fin n × Call)) :
    (events mask counts calls).map (fun e => (e.thread, e.call)) = calls := by
  induction calls generalizing counts with
  | nil => rfl
  | cons c calls ih =>
    rw [events, List.map_cons, ih]

lemma modesOf_cons {n : ℕ} (e : Event n) (evs : List (Event n)) (t : Fin n) (call : Call) :
    modesOf (e :: evs) t call =
      if e.thread = t ∧ e.call = call then e.asWriter :: modesOf evs t call else modesOf evs t call := by
  unfold modesOf
  by_cases h : e.thread = t ∧ e.call = call
  · rw [if_pos h, List.filter_cons_of_pos (by simpa using h), List.map_cons]
  · rw [if_neg h, List.filter_cons_of_neg (by simpa using h)]

section Counter
variable {mask : Word} {x : RwCount}

/-- The counter behind an acquire. -/
def RwCount.next (x : RwCount) : RwCount := if x.pureReader then x else { x with c := x.c + 1 }

/-- Whether the `k`-th acquire from here is a write. -/
def RwCount.writes (x : RwCount) (mask : Word) (k : ℕ) : Bool :=
  !x.pureReader && (x.c + BitVec.ofNat 64 k &&& mask == 0)

lemma call_acquire : (isWriter mask).call x Call.acquire.val = (x.next, x.writes mask 1) := by
  obtain ⟨c, pureReader⟩ := x
  cases pureReader <;> rfl

/-- A release finds the counter as its acquire has left it. -/
lemma call_release : (isWriter mask).call x.next Call.release.val = (x.next, x.writes mask 1) := by
  have h := (isWriter mask).repeats x
  rw [← show Call.acquire.val = 1 from rfl, call_acquire] at h
  exact h

lemma next_writes (k : ℕ) : x.next.writes mask k = x.writes mask (k + 1) := by
  obtain ⟨c, pureReader⟩ := x
  cases pureReader with
  | true => rfl
  | false =>
    have hsum : c + 1 + BitVec.ofNat 64 k = c + BitVec.ofNat 64 (k + 1) := by
      rw [BitVec.ofNat_add, BitVec.add_assoc, BitVec.add_comm (BitVec.ofNat 64 k)]
      rfl
    exact congrArg (fun c => !false && (c &&& mask == 0)) hsum

/-- The calls of one thread on its own counter. -/
def threadEvents (mask : Word) : (x : RwCount) → List Call → List (Call × Bool)
  | _, [] => []
  | x, call :: calls =>
    let r := (isWriter mask).call x call.val
    (call, r.2) :: threadEvents mask r.1 calls

/-- The other threads leave the counter alone. -/
lemma events_thread {n : ℕ} (counts : Fin n → RwCount) (calls : List (Fin n × Call)) (t : Fin n) (call : Call) :
    modesOf (events mask counts calls) t call =
      ((threadEvents mask (counts t) ((calls.filter (·.1 = t)).map Prod.snd)).filter (·.1 = call)).map Prod.snd := by
  induction calls generalizing counts with
  | nil => rfl
  | cons c calls ih =>
    obtain ⟨u, c⟩ := c
    rw [events, modesOf_cons, ih]
    by_cases hu : u = t
    · subst hu
      by_cases hc : c = call
      · simp [hc, threadEvents]
      · simp [hc, threadEvents]
    · simp [hu, Function.update_of_ne (Ne.symm hu)]

/-- The mode of an acquire is told by its number, and a release repeats it. -/
lemma Alternating.modes {calls : List Call} (h : Alternating calls) (x : RwCount) (call : Call) :
    ((threadEvents mask x calls).filter (·.1 = call)).map Prod.snd =
      (List.range (calls.count call)).map fun k => x.writes mask (k + 1) := by
  induction h generalizing x with
  | nil => rfl
  | held => cases call <;> simp [threadEvents, call_acquire]
  | @pair calls _ ih =>
    have hnext := ih x.next
    cases call with
    | acquire =>
      simp [threadEvents, call_acquire, call_release, List.range_succ_eq_map, hnext, next_writes, Function.comp_def]
    | release =>
      simp [threadEvents, call_acquire, call_release, List.range_succ_eq_map, hnext, next_writes, Function.comp_def]

lemma Alternating.count_le {calls : List Call} (h : Alternating calls) :
    calls.count .release ≤ calls.count .acquire := by
  induction h with
  | nil => decide
  | held => decide
  | pair _ ih => simpa using ih

end Counter

section Ratio
variable {log2Ratio : ℕ} {x : RwCount}

lemma rwMask_toNat (h : log2Ratio < 64) : (rwMask log2Ratio).toNat = 2 ^ log2Ratio - 1 := by
  have hpow : 2 ^ log2Ratio < 2 ^ 64 := Nat.pow_lt_pow_right one_lt_two h
  have hpos : 0 < 2 ^ log2Ratio := Nat.two_pow_pos log2Ratio
  have hone : (1 : Word).toNat = 1 := rfl
  have hshift : ((1 : Word) <<< log2Ratio).toNat = 2 ^ log2Ratio := by
    rw [BitVec.toNat_shiftLeft, hone, Nat.shiftLeft_eq, Nat.one_mul, Nat.mod_eq_of_lt hpow]
  have hle : (1 : Word) ≤ (1 : Word) <<< log2Ratio := by
    rw [BitVec.le_def, hshift]
    exact hpos
  rw [rwMask, BitVec.toNat_sub_of_le hle, hshift, hone]

/-- The counter wraps at a multiple of the period. -/
lemma writes_eq (h : log2Ratio < 64) (hx : x.pureReader = false) (k : ℕ) :
    x.writes (rwMask log2Ratio) k = decide ((x.c.toNat + k) % 2 ^ log2Ratio = 0) := by
  have hdvd : 2 ^ log2Ratio ∣ 2 ^ 64 := Nat.pow_dvd_pow 2 h.le
  have hval : (x.c + BitVec.ofNat 64 k &&& rwMask log2Ratio).toNat = (x.c.toNat + k) % 2 ^ log2Ratio := by
    rw [CLib.and_mask_toNat (rwMask_toNat h), BitVec.toNat_add, BitVec.toNat_ofNat, Nat.add_mod_mod,
      Nat.mod_mod_of_dvd _ hdvd]
  have hzero : (x.c + BitVec.ofNat 64 k &&& rwMask log2Ratio == 0) =
      decide ((x.c + BitVec.ofNat 64 k &&& rwMask log2Ratio).toNat = 0) := by
    rw [Bool.eq_iff_iff, beq_iff_eq, decide_eq_true_eq]
    exact BitVec.toNat_inj.symm
  rw [RwCount.writes, hx, hzero]
  simp only [hval, Bool.not_false, Bool.true_and]

lemma count_map_range (p : ℕ → Prop) [DecidablePred p] (n : ℕ) :
    ((List.range n).map fun i => decide (p i)).count true = n.count p := by
  induction n with
  | zero => rfl
  | succ n ih =>
    rw [List.range_succ, List.map_append, List.count_append, ih, Nat.count_succ]
    by_cases hp : p n <;> simp [hp]

/-- As many numbers in a row as the period have one multiple of it among them. -/
lemma count_period (s : ℕ) {n : ℕ} (hn : 0 < n) :
    ((List.range n).map fun i => decide ((s + i) % n = 0)).count true = 1 := by
  have hsplit := Nat.count_add (· ≡ 0 [MOD n]) s n
  rw [Nat.count_modEq_card _ hn, Nat.count_modEq_card _ hn, Nat.add_div_right _ hn, Nat.add_mod_right] at hsplit
  have hone : n.count (fun i => s + i ≡ 0 [MOD n]) = 1 := by omega
  rw [← hone, ← count_map_range]
  refine congrArg (List.count true) (List.map_congr_left fun i _ => ?_)
  rw [decide_eq_decide, Nat.ModEq, Nat.zero_mod]

/-- A stretch of a list that is given by the places. -/
lemma window_eq {g : ℕ → Bool} {m : ℕ} {window : List Bool} (h : window <:+: (List.range m).map g) :
    ∃ a, window = (List.range window.length).map fun i => g (a + i) := by
  obtain ⟨before, behind, hsplit⟩ := h
  refine ⟨before.length, List.ext_getElem (by simp) fun i hi _ => ?_⟩
  have hget : ((List.range m).map g)[before.length + i]? = window[i]? := by
    rw [← hsplit, List.append_assoc, List.getElem?_append_right (Nat.le_add_right _ _), Nat.add_sub_cancel_left,
      List.getElem?_append_left hi]
  rw [List.getElem?_eq_getElem hi, List.getElem?_map] at hget
  obtain ⟨k, hk, hval⟩ := Option.map_eq_some_iff.mp hget
  obtain ⟨hlt, rfl⟩ := List.getElem?_eq_some_iff.mp hk
  rw [List.getElem_map, List.getElem_range, ← hval, List.getElem_range]

/-- The modes of any alternating calls of a thread. -/
lemma Alternating.choosesModes {calls : List Call} (hcalls : Alternating calls) (h : log2Ratio < 64) (x : RwCount)
    {acquires releases : List Bool}
    (hacq : acquires = (List.range (calls.count .acquire)).map fun k => x.writes (rwMask log2Ratio) (k + 1))
    (hrel : releases = (List.range (calls.count .release)).map fun k => x.writes (rwMask log2Ratio) (k + 1)) :
    ChoosesModes x.pureReader log2Ratio acquires releases := by
  refine ⟨?_, fun hx asWriter hmem => ?_, fun hx window hinfix hlen => ?_⟩
  · have htake : List.range (calls.count .release) =
        (List.range (calls.count .acquire)).take (calls.count .release) := by
      rw [List.take_range, Nat.min_eq_left hcalls.count_le]
    rw [hacq, hrel, htake, List.map_take]
    exact List.take_prefix _ _
  · rw [hacq] at hmem
    obtain ⟨k, -, rfl⟩ := List.mem_map.mp hmem
    simp [RwCount.writes, hx]
  · rw [hacq] at hinfix
    obtain ⟨a, ha⟩ := window_eq hinfix
    rw [ha, hlen]
    refine Eq.trans ?_ (count_period (x.c.toNat + a + 1) (Nat.two_pow_pos log2Ratio))
    refine congrArg (List.count true) (List.map_congr_left fun i _ => ?_)
    have hsum : x.c.toNat + (a + i + 1) = x.c.toNat + a + 1 + i := by omega
    rw [writes_eq h hx, hsum]

end Ratio

section Calls
variable {n log2Ratio : ℕ}

/-- The counters may start anywhere. -/
lemma events_choosesModes (h : log2Ratio < 64) (counts : Fin n → RwCount) {calls : List (Fin n × Call)} {t : Fin n}
    (hcalls : Alternating ((calls.filter (·.1 = t)).map Prod.snd)) :
    ChoosesModes (counts t).pureReader log2Ratio (modesOf (events (rwMask log2Ratio) counts calls) t .acquire)
      (modesOf (events (rwMask log2Ratio) counts calls) t .release) := by
  refine hcalls.choosesModes h (counts t) ?_ ?_
  · rw [events_thread, hcalls.modes]
  · rw [events_thread, hcalls.modes]

end Calls

section Machine
variable {n : ℕ} {mask : Word}

/-- A thread calls `is_writer` when it begins to acquire and when it begins to release. -/
def obsCall (t : Fin n) (_ : Bool) (_ : Word) (x : Thread RwCount) : Option (Fin n × Call) :=
  match x.pc with
  | .idle => some (t, .acquire)
  | .critical _ => some (t, .release)
  | _ => none

/-- The same with the answer. -/
def obsCalls (mask : Word) (t : Fin n) (_ : Bool) (_ : Word) (x : Thread RwCount) : Option (Event n) :=
  match x.pc with
  | .idle => some ⟨t, .acquire, ((isWriter mask).call x.counts Call.acquire.val).2⟩
  | .critical _ => some ⟨t, .release, ((isWriter mask).call x.counts Call.release.val).2⟩
  | _ => none

/-- Neither acquiring nor holding. -/
def Pc.outside : Pc → Bool
  | .idle | .releaseWriter | .releaseReader => true
  | _ => false

/-- What a step does to the counter, to the calls and to the place of its thread. -/
inductive StepCalls (mask : Word) (t : Fin n) (x x' : Thread RwCount) : Option (Event n) → Prop
  | quiet : x'.counts = x.counts → x'.pc.outside = x.pc.outside → StepCalls mask t x x' none
  | acquire : x'.counts = ((isWriter mask).call x.counts Call.acquire.val).1 → x.pc.outside = true →
      x'.pc.outside = false →
      StepCalls mask t x x' (some ⟨t, .acquire, ((isWriter mask).call x.counts Call.acquire.val).2⟩)
  | release : x'.counts = ((isWriter mask).call x.counts Call.release.val).1 → x.pc.outside = false →
      x'.pc.outside = true →
      StepCalls mask t x x' (some ⟨t, .release, ((isWriter mask).call x.counts Call.release.val).2⟩)

lemma step_calls (mask : Word) (t : Fin n) (fails : Bool) (word : Word) (x : Thread RwCount) :
    StepCalls mask t x (step (isWriter mask) fails word x).2 (obsCalls mask t fails word x) := by
  obtain ⟨pc, counts⟩ := x
  cases pc with
  | idle =>
    refine .acquire rfl rfl ?_
    simp only [step]
    split <;> rfl
  | critical w =>
    refine .release rfl rfl ?_
    simp only [step]
    split <;> rfl
  | writerLoad =>
    simp only [step]
    split
    · exact .quiet rfl rfl
    · split <;> exact .quiet rfl rfl
  | writerCas s =>
    simp only [step]
    split <;> exact .quiet rfl rfl
  | writerOr => exact .quiet rfl rfl
  | readerLoad =>
    simp only [step]
    split <;> exact .quiet rfl rfl
  | readerAdd =>
    simp only [step]
    split <;> exact .quiet rfl rfl
  | readerUndo => exact .quiet rfl rfl
  | assertReaders =>
    simp only [step]
    split <;> exact .quiet rfl rfl
  | assertFailed => exact .quiet rfl rfl
  | releaseWriter => exact .quiet rfl rfl
  | releaseReader => exact .quiet rfl rfl

/-- The calls that a schedule of the machine makes. -/
def callsOf (mask : Word) (c : Config (Fin n) Word (Thread RwCount)) (schedule : List (Fin n × Bool)) :
    List (Fin n × Call) := (machine (isWriter mask) n).trace obsCall c schedule

lemma callsOf_eq (c : Config (Fin n) Word (Thread RwCount)) (schedule : List (Fin n × Bool)) :
    callsOf mask c schedule =
      ((machine (isWriter mask) n).trace (obsCalls mask) c schedule).map fun e => (e.thread, e.call) := by
  have hobs : (obsCall : Fin n → Bool → Word → Thread RwCount → Option (Fin n × Call)) =
      fun t fails word x => (obsCalls mask t fails word x).map fun e => (e.thread, e.call) := by
    funext t fails word x
    unfold obsCall obsCalls
    cases x.pc <;> rfl
  rw [callsOf, hobs, Machine.trace_map]

lemma fire_counts (t : Fin n) (fails : Bool) (c : Config (Fin n) Word (Thread RwCount)) :
    (fun u => (((machine (isWriter mask) n).fire t fails c).loc u).counts) =
      Function.update (fun u => (c.loc u).counts) t (step (isWriter mask) fails c.shared (c.loc t)).2.counts := by
  funext u
  by_cases hu : u = t
  · subst hu
    rw [Machine.fire_loc_self, Function.update_self]
    rfl
  · rw [Machine.fire_loc_of_ne _ hu, Function.update_of_ne hu]

/-- The modes in a run of the machine are those of its calls. -/
lemma trace_eq_events (c : Config (Fin n) Word (Thread RwCount)) (schedule : List (Fin n × Bool)) :
    (machine (isWriter mask) n).trace (obsCalls mask) c schedule =
      events mask (fun u => (c.loc u).counts) (callsOf mask c schedule) := by
  rw [callsOf_eq]
  induction schedule generalizing c with
  | nil => rfl
  | cons s schedule ih =>
    obtain ⟨t, fails⟩ := s
    have hnext := ih ((machine (isWriter mask) n).fire t fails c)
    rw [fire_counts] at hnext
    have hstep := step_calls mask t fails c.shared (c.loc t)
    rw [Machine.trace]
    generalize obsCalls mask t fails c.shared (c.loc t) = o at hstep ⊢
    cases hstep with
    | quiet hcounts _ =>
      rw [hcounts, Function.update_eq_self] at hnext
      exact hnext
    | acquire hcounts _ _ =>
      rw [hcounts] at hnext
      exact congrArg (_ :: ·) hnext
    | release hcounts _ _ =>
      rw [hcounts] at hnext
      exact congrArg (_ :: ·) hnext

/-- Every thread acquires and releases in turn. -/
lemma callsOf_alternating (mask : Word) (t : Fin n) (c : Config (Fin n) Word (Thread RwCount))
    (schedule : List (Fin n × Bool)) :
    (if (c.loc t).pc.outside then Alternating (((callsOf mask c schedule).filter (·.1 = t)).map Prod.snd)
      else Alternating (.acquire :: ((callsOf mask c schedule).filter (·.1 = t)).map Prod.snd)) := by
  simp only [callsOf_eq]
  induction schedule generalizing c with
  | nil =>
    split
    · exact .nil
    · exact .held
  | cons s schedule ih =>
    obtain ⟨u, fails⟩ := s
    have hnext := ih ((machine (isWriter mask) n).fire u fails c)
    have hstep := step_calls mask u fails c.shared (c.loc u)
    rw [Machine.trace]
    generalize obsCalls mask u fails c.shared (c.loc u) = o at hstep ⊢
    by_cases hu : u = t
    · subst hu
      rw [Machine.fire_loc_self, show ((machine (isWriter mask) n).step u fails c.shared (c.loc u)) =
        step (isWriter mask) fails c.shared (c.loc u) from rfl] at hnext
      cases hstep with
      | quiet _ hpc =>
        rw [hpc] at hnext
        exact hnext
      | acquire _ hout hin =>
        rw [hin, if_neg Bool.false_ne_true] at hnext
        rw [hout, if_pos rfl]
        simpa using hnext
      | release _ hin hout =>
        rw [hout, if_pos rfl] at hnext
        rw [hin, if_neg Bool.false_ne_true]
        simpa using hnext.pair
    · rw [Machine.fire_loc_of_ne _ (Ne.symm hu)] at hnext
      cases hstep with
      | quiet _ _ => exact hnext
      | acquire _ _ _ => simpa [hu] using hnext
      | release _ _ _ => simpa [hu] using hnext

/-- Behind `tbb_init_locks`, in every order of the calls of all threads, each call has its
event, and a thread that acquires and releases in turn chooses its modes as it should. Every
run of the lock makes such calls, with these events. -/
theorem tbb_choosesModes {log2Ratio : ℕ} (h : log2Ratio < 64) (pureReaderCpus : List ℕ)
    (cpulist : ℕ → BitVec 32) :
    (∀ (calls : List (Fin n × Call)) (evs : List (Event n)),
      evs = events (rwMask log2Ratio) (tbbInitLocks pureReaderCpus cpulist n) calls →
        evs.map (fun e => (e.thread, e.call)) = calls ∧
        ∀ t : Fin n, Alternating ((calls.filter (·.1 = t)).map Prod.snd) →
          ChoosesModes (Args.cpuIsset (cpulist t) pureReaderCpus) log2Ratio (modesOf evs t .acquire)
            (modesOf evs t .release)) ∧
    ∀ (schedule : List (Fin n × Bool)) (calls : List (Fin n × Call)),
      calls = callsOf (rwMask log2Ratio) (start (tbbInitLocks pureReaderCpus cpulist n)) schedule →
        (∀ t : Fin n, Alternating ((calls.filter (·.1 = t)).map Prod.snd)) ∧
        (machine (isWriter (rwMask log2Ratio)) n).trace (obsCalls (rwMask log2Ratio))
            (start (tbbInitLocks pureReaderCpus cpulist n)) schedule =
          events (rwMask log2Ratio) (tbbInitLocks pureReaderCpus cpulist n) calls := by
  refine ⟨?_, ?_⟩
  · rintro calls evs rfl
    exact ⟨events_calls _ _ _, fun t ht => events_choosesModes h (tbbInitLocks pureReaderCpus cpulist n) ht⟩
  · rintro schedule calls rfl
    exact ⟨fun t => callsOf_alternating _ t (start (tbbInitLocks pureReaderCpus cpulist n)) schedule,
      trace_eq_events (start (tbbInitLocks pureReaderCpus cpulist n)) schedule⟩

/-- Thread 0 and the pure reader 1: of the first, every second acquire is a write. -/
def twoThreads : List (Fin 2 × Call) :=
  [(0, .acquire), (0, .release), (1, .acquire), (1, .release), (0, .acquire), (0, .release), (0, .acquire)]

theorem tbb_choosesModes_two :
    modesOf (events (rwMask 1) (tbbInitLocks [1] (fun t => BitVec.ofNat 32 t) 2) twoThreads) 0 .acquire =
      [false, true, false] ∧
    modesOf (events (rwMask 1) (tbbInitLocks [1] (fun t => BitVec.ofNat 32 t) 2) twoThreads) 1 .acquire =
      [false] ∧
    ChoosesModes (Args.cpuIsset 0 [1]) 1
      (modesOf (events (rwMask 1) (tbbInitLocks [1] (fun t => BitVec.ofNat 32 t) 2) twoThreads) 0 .acquire)
      (modesOf (events (rwMask 1) (tbbInitLocks [1] (fun t => BitVec.ofNat 32 t) 2) twoThreads) 0 .release) ∧
    ChoosesModes (Args.cpuIsset 1 [1]) 1
      (modesOf (events (rwMask 1) (tbbInitLocks [1] (fun t => BitVec.ofNat 32 t) 2) twoThreads) 1 .acquire)
      (modesOf (events (rwMask 1) (tbbInitLocks [1] (fun t => BitVec.ofNat 32 t) 2) twoThreads) 1 .release) :=
  have h := (tbb_choosesModes (n := 2) (by decide : 1 < 64) [1] (fun t => BitVec.ofNat 32 t)).1
    twoThreads _ rfl
  ⟨by decide, by decide, h.2 0 (.pair (.pair .held)), h.2 1 (.pair .nil)⟩

end Machine

end Lockhammer.SpinRwMutex
