import Lockhammer.CLib.IntLoop
import Lockhammer.Harness.Affinity
import Lockhammer.Harness.Rerun

/-!
# Placing the threads of -t (lockhammer.c)

`main` gives every thread of a `-t` pinorder a CPU: interleaved, in the order of the file of
`--cpuorder-file`, or in the order of their numbers. The file is read into the global array
`cpu_order`, which starts out as zeros and has `MAXTHREADS` entries; accesses behind its end
are errors of their own.
-/
namespace Lockhammer.Args
open CLib

section Main

/-- `cpu_order` and `cpu_order_count` -/
structure CpuOrder where
  cpuOrder : List (BitVec 64)
  count : ℕ

def CpuOrder.empty : CpuOrder := ⟨List.replicate maxThreads 0, 0⟩

/-- The loop that stores the numbers of the file. -/
def readNumbers : (numbers : List (BitVec 64)) → CpuOrder → Except PlaceError CpuOrder
  | [], o => .ok o
  | cpuNumber :: numbers, o =>
    if o.count < o.cpuOrder.length then
      readNumbers numbers ⟨o.cpuOrder.set o.count cpuNumber, o.count + 1⟩
    else .error .orderOverwrite

/-- The CPU list, and `cpu_order_index` after it: the entries below it were read. -/
structure Placement where
  cpuOrderIndex : ℕ
  cpuList : Except PlaceError (List (BitVec 32))

/-- The CPUs of `threads` more threads in the order of the file, `rest` being `cpu_order` from
`cpuOrderIndex` on. Thread `j` takes the first entry that is available. -/
def orderCpus (avail : List ℕ) (count : ℕ) :
    (rest : List (BitVec 64)) → (threads j cpuOrderIndex : ℕ) → Placement
  | _, 0, _, cpuOrderIndex => ⟨cpuOrderIndex, .ok []⟩
  | [], _ + 1, _, cpuOrderIndex => ⟨cpuOrderIndex + 1, .error .orderOverread⟩
  | entry :: rest, threads + 1, j, cpuOrderIndex =>
    let cpuCandidate : BitVec 32 := entry.setWidth 32
    if cpuIsset cpuCandidate avail then
      let r := orderCpus avail count rest threads (j + 1) (cpuOrderIndex + 1)
      ⟨r.cpuOrderIndex, r.cpuList.map (cpuCandidate :: ·)⟩
    else if count ≤ cpuOrderIndex + 1 then ⟨cpuOrderIndex + 1, .error (.noCpu j)⟩
    else orderCpus avail count rest (threads + 1) j (cpuOrderIndex + 1)

/-- The loop of `get_next_available_cpu`, with `left` CPUs up to `num_cores`. -/
def scanCpus (avail : List ℕ) : (left : ℕ) → (cpu : ℤ) → ℤ
  | 0, _ => -1
  | left + 1, cpu => if cpuIsset (BitVec.ofInt 32 cpu) avail then cpu else scanCpus avail left (cpu + 1)

def getNextAvailableCpu (avail : List ℕ) (numCores lastCpuSeen : ℤ) : ℤ :=
  scanCpus avail (numCores - (lastCpuSeen + 1)).toNat (lastCpuSeen + 1)

/-- The CPUs of `threads` more threads in the order of their numbers, behind `cpu`. -/
def numberedCpus (avail : List ℕ) (numCores : ℤ) :
    (threads j : ℕ) → (cpu : ℤ) → Except PlaceError (List (BitVec 32))
  | 0, _, _ => .ok []
  | threads + 1, j, cpu =>
    let cpu := getNextAvailableCpu avail numCores cpu
    if cpu = -1 then .error (.noCpu j)
    else (numberedCpus avail numCores threads (j + 1) cpu).map (BitVec.ofInt 32 cpu :: ·)

def interleavedCpus (sys : SystemInfo) (po : Pinorder) : Except PlaceError (List (BitVec 32)) :=
  (List.range po.numThreads).mapM fun j =>
    (calculateAffinity j sys po.ileave).map fun cpu => cpu.setWidth 32

/-- The CPU list of a pinorder. `num_cores` is an `int` in `get_next_available_cpu`. -/
def mainCpuList (sys : SystemInfo) (avail : List ℕ) (o : CpuOrder) (po : Pinorder) : Placement :=
  match po.cpuList with
  | some cpuList => ⟨0, .ok cpuList⟩
  | none =>
    if po.ileave ≠ 0 then ⟨0, interleavedCpus sys po⟩
    else if o.count ≠ 0 then orderCpus avail o.count o.cpuOrder po.numThreads 0 0
    else ⟨0, numberedCpus avail (BitVec.ofNat 32 sys.numCores).toInt po.numThreads 0 (-1)⟩

/-- `main` from the file to the CPU list of a pinorder. -/
def placeThreads (sys : SystemInfo) (avail : List ℕ) (file : List (BitVec 64)) (po : Pinorder) : Placement :=
  match readNumbers file .empty with
  | .error e => ⟨0, .error e⟩
  | .ok o => mainCpuList sys avail o po

end Main

section Order
variable {avail : List ℕ} {count idx threads : ℕ} {z : List (BitVec 64)}

/-- `CPU_ISSET` of an entry of `cpu_order`, which is converted to an `int` first. -/
def looksAvailable (avail : List ℕ) (entry : BitVec 64) : Bool := cpuIsset (entry.setWidth 32) avail

/-- The array after the file was read. -/
lemma readNumbers_append (numbers done free : List (BitVec 64)) :
    readNumbers numbers ⟨done ++ free, done.length⟩ =
      if numbers.length ≤ free.length then
        .ok ⟨done ++ numbers ++ free.drop numbers.length, done.length + numbers.length⟩
      else .error .orderOverwrite := by
  induction numbers generalizing done free with
  | nil => simp [readNumbers]
  | cons v numbers ih =>
    cases free with
    | nil => simp [readNumbers]
    | cons w free =>
      have hstep : (done ++ w :: free).set done.length v = (done ++ [v]) ++ free := by simp
      have hnext := ih (done ++ [v]) free
      rw [List.length_append, List.length_singleton] at hnext
      rw [readNumbers, if_pos (by simp), hstep, hnext]
      simp [Nat.add_assoc, Nat.add_comm 1]

lemma readNumbers_empty (file : List (BitVec 64)) :
    readNumbers file .empty =
      if file.length ≤ maxThreads then
        .ok ⟨file ++ List.replicate (maxThreads - file.length) 0, file.length⟩
      else .error .orderOverwrite := by
  have hread := readNumbers_append file [] (List.replicate maxThreads 0)
  simpa [CpuOrder.empty] using hread

/-- The index does not go back, and every further thread reads. -/
lemma le_orderCpus (rest : List (BitVec 64)) (threads j idx : ℕ) :
    idx ≤ (orderCpus avail count rest threads j idx).cpuOrderIndex := by
  induction rest generalizing threads j idx with
  | nil =>
    cases threads with
    | zero => simp [orderCpus]
    | succ threads => simp [orderCpus]
  | cons entry rest ih =>
    cases threads with
    | zero => simp [orderCpus]
    | succ threads =>
      simp only [orderCpus]
      split
      · exact (Nat.le_succ idx).trans (ih threads (j + 1) (idx + 1))
      · split
        · exact Nat.le_succ idx
        · exact (Nat.le_succ idx).trans (ih (threads + 1) j (idx + 1))

lemma lt_orderCpus (rest : List (BitVec 64)) (threads j idx : ℕ) :
    idx < (orderCpus avail count rest (threads + 1) j idx).cpuOrderIndex := by
  cases rest with
  | nil => simp [orderCpus]
  | cons entry rest =>
    simp only [orderCpus]
    split
    · exact le_orderCpus rest threads (j + 1) (idx + 1)
    · split
      · exact Nat.lt_succ_self idx
      · exact le_orderCpus rest (threads + 1) j (idx + 1)

/-- A file with enough CPUs that look available. -/
lemma orderCpus_of_enough (numbers : List (BitVec 64)) (j : ℕ) (hcount : idx + numbers.length = count)
    (henough : threads ≤ (numbers.filter (looksAvailable avail)).length) :
    (orderCpus avail count (numbers ++ z) threads j idx).cpuList =
        .ok (((numbers.filter (looksAvailable avail)).take threads).map (·.setWidth 32)) ∧
      (orderCpus avail count (numbers ++ z) threads j idx).cpuOrderIndex ≤ count := by
  induction numbers generalizing threads j idx with
  | nil =>
    obtain rfl : threads = 0 := by simpa using henough
    have hidx : idx ≤ count := by simp at hcount; omega
    simp [orderCpus, hidx]
  | cons entry numbers ih =>
    simp only [List.length_cons] at hcount
    cases threads with
    | zero =>
      simp only [orderCpus, List.take_zero, List.map_nil, true_and]
      omega
    | succ threads =>
      simp only [List.cons_append, orderCpus]
      cases hset : cpuIsset (entry.setWidth 32) avail with
      | true =>
        have hlooks : looksAvailable avail entry = true := hset
        rw [List.filter_cons_of_pos hlooks] at henough ⊢
        have hrest : idx + 1 + numbers.length = count := by omega
        obtain ⟨hlist, hidx⟩ := ih (j + 1) hrest (Nat.le_of_succ_le_succ henough)
        simp only [if_true, hlist, Except.map]
        exact ⟨by simp, hidx⟩
      | false =>
        have hlooks : ¬ looksAvailable avail entry = true := by simp [looksAvailable, hset]
        rw [List.filter_cons_of_neg hlooks] at henough ⊢
        -- an available number is still to come, so the end of the file is not reached
        have hmore := List.length_filter_le (looksAvailable avail) numbers
        simp only [Bool.false_eq_true, if_false]
        rw [if_neg (by omega)]
        exact ih j (by omega) henough

/-- The walk over numbers that are not enough, short of the end of the file. -/
lemma orderCpus_append (body rest : List (BitVec 64)) (k j : ℕ) (hcount : idx + body.length < count) :
    (orderCpus avail count (body ++ rest) ((body.filter (looksAvailable avail)).length + (k + 1)) j idx) =
      ⟨(orderCpus avail count rest (k + 1) (j + (body.filter (looksAvailable avail)).length)
          (idx + body.length)).cpuOrderIndex,
        (orderCpus avail count rest (k + 1) (j + (body.filter (looksAvailable avail)).length)
          (idx + body.length)).cpuList.map
            ((body.filter (looksAvailable avail)).map (·.setWidth 32) ++ ·)⟩ := by
  have hid (x : Except PlaceError (List (BitVec 32))) : (x.map fun cpus => cpus) = x := by
    cases x <;> rfl
  induction body generalizing j idx with
  | nil => simp [hid]
  | cons entry body ih =>
    simp only [List.length_cons] at hcount
    have hidx : idx + (body.length + 1) = idx + 1 + body.length := by omega
    rw [List.cons_append, List.length_cons, hidx]
    cases hset : cpuIsset (entry.setWidth 32) avail with
    | true =>
      have hlooks : looksAvailable avail entry = true := hset
      have hthreads (f : ℕ) : f + 1 + (k + 1) = f + (k + 1) + 1 := by omega
      have hj (f : ℕ) : j + (f + 1) = j + 1 + f := by omega
      rw [List.filter_cons_of_pos hlooks, List.length_cons, hthreads, hj]
      simp only [orderCpus, hset, if_true]
      rw [ih (j + 1) (by omega)]
      generalize orderCpus avail count rest (k + 1) _ _ = r
      cases r.cpuList <;> rfl
    | false =>
      have hlooks : ¬ looksAvailable avail entry = true := by simp [looksAvailable, hset]
      rw [List.filter_cons_of_neg hlooks, ← ih j (by omega)]
      simp only [← Nat.add_assoc, orderCpus, hset, Bool.false_eq_true, if_false]
      rw [if_neg (by omega)]
      rfl

/-- A file with too few of them whose last number looks available is read behind its end. -/
lemma orderCpus_overreads (body : List (BitVec 64)) (last : BitVec 64) (j : ℕ)
    (hcount : idx + (body.length + 1) = count) (hlast : looksAvailable avail last = true)
    (hshort : (body.filter (looksAvailable avail)).length + 1 < threads) :
    count < (orderCpus avail count (body ++ last :: z) threads j idx).cpuOrderIndex := by
  obtain ⟨k, rfl⟩ : ∃ k, threads = (body.filter (looksAvailable avail)).length + (k + 1 + 1) :=
    ⟨threads - (body.filter (looksAvailable avail)).length - 2, by omega⟩
  have hset : cpuIsset (last.setWidth 32) avail = true := hlast
  rw [orderCpus_append body (last :: z) (k + 1) j (by omega)]
  simp only [orderCpus, hset, if_true]
  rw [← hcount]
  exact lt_orderCpus z k _ (idx + body.length + 1)

/-- One whose last number looks unavailable is left with the error. -/
lemma orderCpus_stops (body : List (BitVec 64)) (last : BitVec 64) (j : ℕ)
    (hcount : idx + (body.length + 1) = count) (hlast : looksAvailable avail last = false)
    (hshort : (body.filter (looksAvailable avail)).length < threads) :
    orderCpus avail count (body ++ last :: z) threads j idx =
      ⟨count, .error (.noCpu (j + (body.filter (looksAvailable avail)).length))⟩ := by
  obtain ⟨k, rfl⟩ : ∃ k, threads = (body.filter (looksAvailable avail)).length + (k + 1) :=
    ⟨threads - (body.filter (looksAvailable avail)).length - 1, by omega⟩
  have hset : cpuIsset (last.setWidth 32) avail = false := hlast
  rw [orderCpus_append body (last :: z) k j (by omega)]
  simp only [orderCpus, hset, Bool.false_eq_true, if_false]
  rw [if_pos (by omega)]
  simp only [Except.map]
  congr 1

end Order

section Numbers
variable {avail : List ℕ} {numCores : ℤ}

/-- A CPU of the mask. -/
def available (avail : List ℕ) (cpu : ℕ) : Bool := cpu < cpuSetsize && cpu ∈ avail

lemma cpuIndex_ofInt {cpu : ℕ} (hcpu : cpu < 2 ^ 31) : cpuIndex (BitVec.ofInt 32 cpu) = cpu := by
  have hval := intToUlong_of_nonneg (v := cpu) (by omega) (by omega)
  unfold intToUlong at hval
  unfold cpuIndex
  omega

lemma cpuIsset_ofInt {cpu : ℕ} (hcpu : cpu < 2 ^ 31) :
    cpuIsset (BitVec.ofInt 32 cpu) avail = available avail cpu := by
  unfold cpuIsset available
  rw [cpuIndex_ofInt hcpu]

/-- The CPUs in the order of their numbers, from `start` on. -/
lemma numberedCpus_eq (avail : List ℕ) (hint : numCores < 2 ^ 31) (left start threads j : ℕ)
    (hleft : (numCores - start).toNat = left) :
    numberedCpus avail numCores threads j (start - 1) =
      if threads ≤ ((List.range' start left).filter (available avail)).length then
        .ok ((((List.range' start left).filter (available avail)).take threads).map
          fun cpu : ℕ => BitVec.ofInt 32 cpu)
      else .error (.noCpu (j + ((List.range' start left).filter (available avail)).length)) := by
  induction left generalizing start threads j with
  | zero =>
    cases threads with
    | zero => simp [numberedCpus]
    | succ threads =>
      have hnone : getNextAvailableCpu avail numCores (start - 1) = -1 := by
        simp [getNextAvailableCpu, hleft, scanCpus]
      simp [numberedCpus, hnone]
  | succ left ih =>
    cases threads with
    | zero => simp [numberedCpus]
    | succ threads =>
      have hrest : (numCores - ((start + 1 : ℕ) : ℤ)).toNat = left := by push_cast; omega
      have hscan : getNextAvailableCpu avail numCores (start - 1) =
          if available avail start then (start : ℤ) else getNextAvailableCpu avail numCores start := by
        have hleft' : (numCores - ((start : ℤ) + 1)).toNat = left := by omega
        simp only [getNextAvailableCpu, sub_add_cancel, hleft, hleft', scanCpus]
        rw [cpuIsset_ofInt (by omega)]
      have hprev : ((start + 1 : ℕ) : ℤ) - 1 = start := by push_cast; omega
      rw [List.range'_succ]
      cases hset : available avail start with
      | true =>
        have hnext := ih (start + 1) threads (j + 1) hrest
        rw [hprev] at hnext
        rw [List.filter_cons_of_pos hset]
        simp only [numberedCpus, hscan, hset, if_true, hnext]
        rw [if_neg (by omega : ¬ (start : ℤ) = -1), List.length_cons]
        by_cases henough : threads ≤ ((List.range' (start + 1) left).filter (available avail)).length
        · rw [if_pos henough, if_pos (by omega)]
          rfl
        · rw [if_neg henough, if_neg (by omega), Nat.add_right_comm, ← Nat.add_assoc]
          rfl
      | false =>
        have hnext := ih (start + 1) (threads + 1) j hrest
        rw [hprev] at hnext
        rw [List.filter_cons_of_neg (by simp [hset]), ← hnext]
        simp only [numberedCpus, hscan, hset, Bool.false_eq_true, if_false]

end Numbers

section Placed
variable {sys : SystemInfo} {avail : List ℕ} {file : List (BitVec 64)} {po po' : Pinorder}

/-- The CPUs that a placement goes through: the numbers of the file if it has any, all CPUs
otherwise. -/
def cpuSequence (sys : SystemInfo) (file : List (BitVec 64)) : List ℕ :=
  if file = [] then List.range sys.numCores else file.map BitVec.toNat

def availableCpus (sys : SystemInfo) (avail : List ℕ) (file : List (BitVec 64)) : List ℕ :=
  (cpuSequence sys file).filter (available avail)

/-- The threads get the first available CPUs, or an error if there are not enough of them, and
`cpu_order` is written inside its bounds and read inside its filled part. -/
structure PlacesFirst (sys : SystemInfo) (avail : List ℕ) (file : List (BitVec 64)) (po : Pinorder) : Prop where
  writes : (placeThreads sys avail file po).cpuList ≠ .error .orderOverwrite
  reads : (placeThreads sys avail file po).cpuOrderIndex ≤ file.length
  enough : po.numThreads ≤ (availableCpus sys avail file).length →
    ∃ cpus, (placeThreads sys avail file po).cpuList = .ok cpus ∧
      cpus.map BitVec.toInt = ((availableCpus sys avail file).take po.numThreads).map (↑)
  short : (availableCpus sys avail file).length < po.numThreads →
    ∃ assigned, (placeThreads sys avail file po).cpuList = .error (.noCpu assigned)

/-- When that is so. Without a file, the CPUs have to be below `num_cores` as an `int`. With one,
it has to fit `cpu_order`, and either enough of its numbers look available as `int`s and they
are the right ones, or its last number looks unavailable. -/
def Placeable (sys : SystemInfo) (avail : List ℕ) (file : List (BitVec 64)) (threads : ℕ) : Prop :=
  if file = [] then
    (availableCpus sys avail file).length < threads ∨
      ∀ cpu ∈ (availableCpus sys avail file).take threads, (cpu : ℤ) < (BitVec.ofNat 32 sys.numCores).toInt
  else
    file.length ≤ maxThreads ∧
      if threads ≤ (file.filter (looksAvailable avail)).length then
        ((file.filter (looksAvailable avail)).take threads).map (fun entry => cpuIndex (entry.setWidth 32)) =
          (availableCpus sys avail file).take threads
      else ∀ last ∈ file.getLast?, looksAvailable avail last = false

lemma available_lt {cpu : ℕ} (h : available avail cpu = true) : cpu < 1024 := by
  unfold available at h
  exact of_decide_eq_true (Bool.and_eq_true_iff.mp h).1

/-- Conversion to `int` can make a number look available, not unavailable. -/
lemma looksAvailable_of_available {entry : BitVec 64} (h : available avail entry.toNat = true) :
    looksAvailable avail entry = true := by
  have hsmall := available_lt h
  unfold looksAvailable
  rw [setWidth_eq_ofInt_toNat, cpuIsset_ofInt (by omega), h]

/-- The CPU of an entry that looks available is the number it is converted to. -/
lemma toInt_of_looksAvailable {entry : BitVec 64} (h : looksAvailable avail entry = true) :
    (entry.setWidth 32).toInt = cpuIndex (entry.setWidth 32) := by
  have hsmall : cpuIndex (entry.setWidth 32) < 1024 := by
    unfold looksAvailable cpuIsset at h
    exact of_decide_eq_true (Bool.and_eq_true_iff.mp h).1
  by_cases hneg : (entry.setWidth 32).toInt < 0
  · have hval := toNat_signExtend_of_neg hneg
    have hge := BitVec.le_two_mul_toInt (x := entry.setWidth 32)
    unfold cpuIndex at hsmall
    omega
  · exact (toNat_signExtend_of_nonneg (by omega)).symm

lemma availableCpus_length_le (sys : SystemInfo) (avail : List ℕ) (hfile : file ≠ []) :
    (availableCpus sys avail file).length ≤ (file.filter (looksAvailable avail)).length := by
  unfold availableCpus cpuSequence
  rw [if_neg hfile, List.filter_map, List.length_map, ← List.countP_eq_length_filter,
    ← List.countP_eq_length_filter]
  apply List.countP_mono_left
  intro entry _ hentry
  exact looksAvailable_of_available hentry

/-- The branch of a pinorder of `-t` without an interleave. -/
lemma placeThreads_eq (sys : SystemInfo) (avail : List ℕ) (file : List (BitVec 64))
    (hcpus : po.cpuList = none) (hileave : po.ileave = 0) :
    placeThreads sys avail file po =
      if maxThreads < file.length then ⟨0, .error .orderOverwrite⟩
      else if file = [] then
        ⟨0, numberedCpus avail (BitVec.ofNat 32 sys.numCores).toInt po.numThreads 0 (-1)⟩
      else orderCpus avail file.length (file ++ List.replicate (maxThreads - file.length) 0) po.numThreads 0 0 := by
  unfold placeThreads
  rw [readNumbers_empty]
  by_cases hfits : file.length ≤ maxThreads
  · rw [if_pos hfits, if_neg (by omega)]
    simp [mainCpuList, hcpus, hileave]
  · rw [if_neg hfits, if_pos (by omega)]

/-- The CPUs below `num_cores` as an `int` are the first ones of all. -/
lemma exists_availableCpus_append (sys : SystemInfo) (avail : List ℕ) :
    ∃ rest, availableCpus sys avail [] =
        (List.range (BitVec.ofNat 32 sys.numCores).toInt.toNat).filter (available avail) ++ rest ∧
      ∀ cpu ∈ rest, (BitVec.ofNat 32 sys.numCores).toInt ≤ cpu := by
  have hle : (BitVec.ofNat 32 sys.numCores).toInt.toNat ≤ sys.numCores := by
    have hcond := BitVec.toInt_eq_toNat_cond (BitVec.ofNat 32 sys.numCores)
    have hnat : (BitVec.ofNat 32 sys.numCores).toNat ≤ sys.numCores := by
      rw [BitVec.toNat_ofNat]
      exact Nat.mod_le _ _
    split at hcond <;> omega
  obtain ⟨k, hk⟩ := Nat.exists_eq_add_of_le hle
  refine ⟨((List.range k).map ((BitVec.ofNat 32 sys.numCores).toInt.toNat + ·)).filter (available avail), ?_, ?_⟩
  · unfold availableCpus cpuSequence
    rw [if_pos rfl, ← List.filter_append, ← List.range_add, ← hk]
  · intro cpu hcpu
    obtain ⟨i, -, rfl⟩ := List.mem_map.mp (List.mem_filter.mp hcpu).1
    push_cast
    omega

lemma toInt_lt_of_ofNat (n : ℕ) : (BitVec.ofNat 32 n).toInt < 2 ^ 31 := by
  have hlt := BitVec.two_mul_toInt_lt (x := BitVec.ofNat 32 n)
  omega

lemma numberedCpus_all (avail : List ℕ) {numCores : ℤ} (hint : numCores < 2 ^ 31) (threads : ℕ) :
    numberedCpus avail numCores threads 0 (-1) =
      if threads ≤ ((List.range numCores.toNat).filter (available avail)).length then
        .ok ((((List.range numCores.toNat).filter (available avail)).take threads).map
          fun cpu : ℕ => BitVec.ofInt 32 cpu)
      else .error (.noCpu ((List.range numCores.toNat).filter (available avail)).length) := by
  have hall := numberedCpus_eq avail hint numCores.toNat 0 threads 0 (by simp)
  simpa [List.range_eq_range'] using hall

/-- The first CPUs of a list are among those below a bound, just when there are enough of these. -/
lemma le_length_iff_take {first rest : List ℕ} {bound : ℤ} {threads : ℕ}
    (hfirst : ∀ cpu ∈ first, (cpu : ℤ) < bound) (hrest : ∀ cpu ∈ rest, bound ≤ cpu)
    (hthreads : threads ≤ (first ++ rest).length) :
    threads ≤ first.length ↔ ∀ cpu ∈ (first ++ rest).take threads, (cpu : ℤ) < bound := by
  rw [List.length_append] at hthreads
  constructor
  · intro henough cpu hcpu
    rw [List.take_append_of_le_length henough] at hcpu
    exact hfirst cpu (List.mem_of_mem_take hcpu)
  · intro hbelow
    by_contra hlt
    -- the CPU behind the first ones is taken as well
    obtain ⟨cpu, rest', rfl⟩ : ∃ cpu rest', rest = cpu :: rest' := List.exists_cons_of_length_pos (by omega)
    obtain ⟨k, rfl⟩ : ∃ k, threads = first.length + (k + 1) := ⟨threads - first.length - 1, by omega⟩
    have hmem : cpu ∈ (first ++ cpu :: rest').take (first.length + (k + 1)) := by
      rw [List.take_length_add_append]
      simp
    have hlow := hbelow cpu hmem
    have hhigh := hrest cpu List.mem_cons_self
    omega

/-- Placement in the order of the numbers. -/
lemma placesFirst_numbered_iff (hcpus : po.cpuList = none) (hileave : po.ileave = 0) :
    PlacesFirst sys avail [] po ↔ Placeable sys avail [] po.numThreads := by
  have hplace : placeThreads sys avail [] po =
      ⟨0, numberedCpus avail (BitVec.ofNat 32 sys.numCores).toInt po.numThreads 0 (-1)⟩ := by
    rw [placeThreads_eq sys avail [] hcpus hileave]
    simp [maxThreads]
  have hint := toInt_lt_of_ofNat sys.numCores
  have hall := numberedCpus_all avail hint po.numThreads
  obtain ⟨rest, hsplit, hrest⟩ := exists_availableCpus_append sys avail
  have hfirst : ∀ cpu ∈ (List.range (BitVec.ofNat 32 sys.numCores).toInt.toNat).filter (available avail),
      (cpu : ℤ) < (BitVec.ofNat 32 sys.numCores).toInt := by
    intro cpu hcpu
    have hlt := List.mem_range.mp (List.mem_filter.mp hcpu).1
    omega
  unfold Placeable
  rw [if_pos rfl]
  generalize (BitVec.ofNat 32 sys.numCores).toInt = numCores at *
  generalize (List.range numCores.toNat).filter (available avail) = first at *
  have hlen : (availableCpus sys avail []).length = first.length + rest.length := by simp [hsplit]
  constructor
  · intro h
    by_cases hshort : (availableCpus sys avail []).length < po.numThreads
    · exact Or.inl hshort
    · right
      obtain ⟨cpus, hok, -⟩ := h.enough (by omega)
      rw [hsplit, ← le_length_iff_take hfirst hrest (by rw [← hsplit]; omega)]
      by_contra hlt
      rw [hplace, hall, if_neg hlt] at hok
      simp at hok
  · intro h
    refine ⟨?_, by simp [hplace], ?_, ?_⟩
    · rw [hplace, hall]
      split <;> simp
    · intro hthreads
      have hbelow := h.resolve_left (by omega)
      rw [hsplit] at hbelow
      have henough := (le_length_iff_take hfirst hrest (by rw [← hsplit]; exact hthreads)).mpr hbelow
      refine ⟨_, by rw [hplace, hall, if_pos henough], ?_⟩
      rw [hsplit, List.take_append_of_le_length henough, List.map_map]
      apply List.map_congr_left
      intro cpu hcpu
      have hlow := hfirst cpu (List.mem_of_mem_take hcpu)
      exact toInt_ofInt_of_int (by omega) (by omega)
    · intro hshort
      exact ⟨first.length, by rw [hplace, hall, if_neg (by omega)]⟩

lemma map_toInt_of_looksAvailable (entries : List (BitVec 64)) (k : ℕ) :
    (((entries.filter (looksAvailable avail)).take k).map fun entry => entry.setWidth 32).map BitVec.toInt =
      (((entries.filter (looksAvailable avail)).take k).map fun entry => cpuIndex (entry.setWidth 32)).map
        ((↑) : ℕ → ℤ) := by
  rw [List.map_map, List.map_map]
  apply List.map_congr_left
  intro entry hentry
  exact toInt_of_looksAvailable (List.mem_filter.mp (List.mem_of_mem_take hentry)).2

/-- A file with enough numbers that look available is placed by them. -/
lemma placesFirst_of_enough (hplace : placeThreads sys avail file po =
      orderCpus avail file.length (file ++ List.replicate (maxThreads - file.length) 0) po.numThreads 0 0)
    (henough : po.numThreads ≤ (file.filter (looksAvailable avail)).length) :
    PlacesFirst sys avail file po ↔
      ((file.filter (looksAvailable avail)).take po.numThreads).map (fun entry => cpuIndex (entry.setWidth 32)) =
        (availableCpus sys avail file).take po.numThreads := by
  obtain ⟨hlist, hidx⟩ := orderCpus_of_enough file 0 (Nat.zero_add _) henough
    (z := List.replicate (maxThreads - file.length) 0)
  rw [← hplace] at hlist hidx
  constructor
  · intro h
    by_cases hthreads : po.numThreads ≤ (availableCpus sys avail file).length
    · obtain ⟨cpus, hok, hmap⟩ := h.enough hthreads
      obtain rfl := Except.ok.inj (hlist.symm.trans hok)
      rw [map_toInt_of_looksAvailable] at hmap
      exact List.map_injective_iff.mpr Nat.cast_injective hmap
    · obtain ⟨assigned, herr⟩ := h.short (by omega)
      rw [hlist] at herr
      simp at herr
  · intro h
    have hthreads : po.numThreads ≤ (availableCpus sys avail file).length := by
      have hlen := congrArg List.length h
      simp only [List.length_map, List.length_take] at hlen
      omega
    refine ⟨by simp [hlist], hidx, ?_, by omega⟩
    intro _
    refine ⟨_, hlist, ?_⟩
    rw [map_toInt_of_looksAvailable, h]

/-- A file with too few of them is placed rightly only if its last number looks unavailable. -/
lemma placesFirst_of_short (hfile : file ≠ [])
    (hplace : placeThreads sys avail file po =
      orderCpus avail file.length (file ++ List.replicate (maxThreads - file.length) 0) po.numThreads 0 0)
    (hshort : (file.filter (looksAvailable avail)).length < po.numThreads) :
    PlacesFirst sys avail file po ↔ ∀ last ∈ file.getLast?, looksAvailable avail last = false := by
  have hle := availableCpus_length_le sys avail hfile
  obtain ⟨body, last, hbody⟩ := (List.eq_nil_or_concat file).resolve_left hfile
  rw [List.concat_eq_append] at hbody
  subst hbody
  rw [List.append_assoc, List.singleton_append] at hplace
  have hlen : 0 + (body.length + 1) = (body ++ [last]).length := by simp
  simp only [List.getLast?_append_cons, List.getLast?_singleton, Option.mem_def, Option.some.injEq, forall_eq']
  constructor
  · intro h
    by_contra hlast
    have hlooks : looksAvailable avail last = true := by simpa using hlast
    rw [List.filter_append, List.filter_cons_of_pos hlooks] at hshort
    have hover := orderCpus_overreads body last 0 hlen hlooks (by simpa using hshort)
      (z := List.replicate (maxThreads - (body ++ [last]).length) 0)
    have hreads := h.reads
    rw [hplace] at hreads
    omega
  · intro hlast
    rw [List.filter_append, List.filter_cons_of_neg (by simp [hlast])] at hshort
    have hstop := orderCpus_stops body last 0 hlen hlast (by simpa using hshort)
      (z := List.replicate (maxThreads - (body ++ [last]).length) 0)
    rw [← hplace] at hstop
    refine ⟨by simp [hstop], by simp [hstop], ?_, ?_⟩
    · intro hthreads
      rw [List.filter_append, List.filter_cons_of_neg (by simp [hlast])] at hle
      simp at hle hshort
      omega
    · intro _
      exact ⟨_, by rw [hstop]⟩

/-- Placement in the order of the file. -/
lemma placesFirst_ordered_iff (hcpus : po.cpuList = none) (hileave : po.ileave = 0) (hfile : file ≠ []) :
    PlacesFirst sys avail file po ↔ Placeable sys avail file po.numThreads := by
  have hplace := placeThreads_eq sys avail file hcpus hileave
  unfold Placeable
  rw [if_neg hfile]
  by_cases hfits : maxThreads < file.length
  · -- the file is written behind the end of the array
    rw [if_pos hfits] at hplace
    constructor
    · intro h
      exact absurd (by rw [hplace]) h.writes
    · intro h
      omega
  · rw [if_neg hfits, if_neg hfile] at hplace
    have hroom : file.length ≤ maxThreads := by omega
    by_cases henough : po.numThreads ≤ (file.filter (looksAvailable avail)).length
    · rw [if_pos henough, placesFirst_of_enough hplace henough]
      simp [hroom]
    · rw [if_neg henough, placesFirst_of_short hfile hplace (by omega)]
      simp [hroom]

/-- The threads of `-t` without an interleave get the first available CPUs, or the error that
there are too few, just under this condition on the machine, its mask and the file. -/
theorem placeThreads_placesFirst_iff {optarg : List Char} (avail : List ℕ) (file : List (BitVec 64))
    (ht : parseThreads sys optarg = .ok po) (hileave : po.ileave = 0) (hmain : mainPinorder sys po = .ok po') :
    PlacesFirst sys avail file po' ↔ Placeable sys avail file po'.numThreads := by
  obtain ⟨-, hlist, hsame⟩ := mainPinorder_ok hmain
  have hcpus' : po'.cpuList = none := hlist.trans (parseThreads_ok ht).2
  have hileave' : po'.ileave = 0 := hsame.trans hileave
  by_cases hfile : file = []
  · subst hfile
    exact placesFirst_numbered_iff hcpus' hileave'
  · exact placesFirst_ordered_iff hcpus' hileave' hfile

/-- A number below `2 ^ 32` looks available only when it is. -/
lemma looksAvailable_eq {entry : BitVec 64} (hsmall : entry.toNat < 2 ^ 32) :
    looksAvailable avail entry = available avail entry.toNat := by
  have hconv := intToUlong_sub_turn entry.toNat
  unfold looksAvailable
  rw [setWidth_eq_ofInt_toNat]
  by_cases hint : entry.toNat < 2 ^ 31
  · exact cpuIsset_ofInt hint
  · -- a negative CPU and a large number are both outside the mask
    have hneg := intToUlong_of_neg (v := entry.toNat - 2 ^ 32) (by omega) (by omega)
    rw [hconv] at hneg
    have hlarge : ¬ cpuIndex (BitVec.ofInt 32 entry.toNat) < cpuSetsize := by
      change ¬ intToUlong entry.toNat < 1024
      omega
    have hlarge' : ¬ entry.toNat < cpuSetsize := by
      change ¬ entry.toNat < 1024
      omega
    unfold cpuIsset available
    rw [decide_eq_false hlarge, decide_eq_false hlarge']
    rfl

/-- With numbers below `2 ^ 32` in the file the condition is on its length and its end only. -/
theorem placeable_iff_of_small (hfile : file ≠ []) (hsmall : ∀ entry ∈ file, entry.toNat < 2 ^ 32)
    (threads : ℕ) :
    Placeable sys avail file threads ↔ file.length ≤ maxThreads ∧
      (threads ≤ (availableCpus sys avail file).length ∨
        ∀ last ∈ file.getLast?, available avail last.toNat = false) := by
  have hfilter : file.filter (looksAvailable avail) = file.filter (available avail ·.toNat) :=
    List.filter_congr fun entry hentry => looksAvailable_eq (hsmall entry hentry)
  have hcpus : availableCpus sys avail file =
      (file.filter (looksAvailable avail)).map fun entry => cpuIndex (entry.setWidth 32) := by
    unfold availableCpus cpuSequence
    rw [if_neg hfile, List.filter_map, hfilter]
    apply List.map_congr_left
    intro entry hentry
    have hlt := available_lt (List.mem_filter.mp hentry).2
    rw [setWidth_eq_ofInt_toNat, cpuIndex_ofInt (by omega)]
  have hlen : (availableCpus sys avail file).length = (file.filter (looksAvailable avail)).length := by
    rw [hcpus, List.length_map]
  have hlast : (∀ last ∈ file.getLast?, looksAvailable avail last = false) ↔
      ∀ last ∈ file.getLast?, available avail last.toNat = false := by
    apply forall₂_congr
    intro last hmem
    rw [looksAvailable_eq (hsmall last (List.mem_of_getLast? hmem))]
  unfold Placeable
  rw [if_neg hfile, hlen, hlast]
  by_cases henough : threads ≤ (file.filter (looksAvailable avail)).length
  · simp [henough, hcpus, List.map_take]
  · simp [henough]

/-- Three threads, CPU 1 masked off -/
theorem placeThreads_placesFirst_three :
    PlacesFirst ⟨4, 4, 3⟩ [0, 2, 3] [2, 1, 0, 3] ⟨none, 3, "t3".toList, 0⟩ := by
  have ht : parseThreads ⟨4, 4, 3⟩ "3".toList = .ok ⟨none, 3, "t3".toList, 0⟩ := by decide
  have hmain : mainPinorder ⟨4, 4, 3⟩ ⟨none, 3, "t3".toList, 0⟩ = .ok ⟨none, 3, "t3".toList, 0⟩ := by decide
  refine (placeThreads_placesFirst_iff [0, 2, 3] [2, 1, 0, 3] ht rfl hmain).mpr ?_
  unfold Placeable
  decide

/-- Of three threads on the two CPUs of the file the third one gets the zero behind its end. -/
theorem placeThreads_reads_behind_file :
    ¬ ∀ (sys : SystemInfo) (avail : List ℕ) (file : List (BitVec 64)) (optarg : List Char) (po po' : Pinorder),
      parseThreads sys optarg = .ok po → po.ileave = 0 → mainPinorder sys po = .ok po' →
      PlacesFirst sys avail file po' := by
  intro hall
  have ht : parseThreads ⟨4, 4, 2⟩ "3".toList = .ok ⟨none, 3, "t3".toList, 0⟩ := by decide
  have hmain : mainPinorder ⟨4, 4, 2⟩ ⟨none, 3, "t3".toList, 0⟩ = .ok ⟨none, 3, "t3".toList, 0⟩ := by decide
  have hplaces := hall ⟨4, 4, 2⟩ [0, 1] [0, 1] "3".toList _ _ ht rfl hmain
  have hcode : (placeThreads ⟨4, 4, 2⟩ [0, 1] [0, 1] ⟨none, 3, "t3".toList, 0⟩).cpuList = .ok [0, 1, 0] := by
    rw [placeThreads_eq _ _ _ rfl rfl]
    rfl
  obtain ⟨assigned, herr⟩ := hplaces.short (by decide)
  rw [hcode] at herr
  simp at herr

end Placed

end Lockhammer.Args
