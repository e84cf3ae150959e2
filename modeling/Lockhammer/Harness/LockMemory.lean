import Lockhammer.Harness.HugepageAlloc
import Mathlib.Data.Set.Basic

/-!
# The memory of the lock under test (lockhammer.c, args.c, alloc.c, osq_lock.h)

`main` takes its length from the reservation granule, `do_alloc` replaces it by a huge page on
request, the command line shifts the start, and `osq_lock_init` clears one node for each
thread and one more.
-/
namespace Lockhammer.Alloc

/-- What `get_ctr_erg_bytes` reads: `CTR_EL0`, or nothing on x86. -/
inductive Machine
  | aarch64 (CTR : BitVec 64)
  | x86_64
  deriving DecidableEq

/-- Bytes of a reservation granule. -/
def getCtrErgBytes : Machine → ℕ
  | .aarch64 CTR =>
    let ERG := ((CTR >>> 20) &&& 0xF).toNat
    let ERGWords := if ERG = 0 then 512 else 1 <<< ERG
    ERGWords * 4
  | .x86_64 => 64

/-- `MAXTHREADS` -/
def maxThreads : ℕ := 513

/-- `alloc_length` in `main` -/
def allocLength (m : Machine) : ℕ := maxThreads * getCtrErgBytes m

/-- The bytes of the block that `do_alloc` returns: one huge page, if asked for. -/
def blockLength (length : ℕ) (useHugepages : Hugepages) : ℕ :=
  if useHugepages ≠ .none then ((hugepageSize useHugepages.value).map Prod.snd).getD 0 else length

/-- `p_lock_memory` after `mmap_hugepage_offset / sizeof(uint64_t)` is added. -/
def pLockMemory (p offset : BitVec 64) : BitVec 64 := p + 8 * (offset / 8)

/-- `SPIN_NODE_ALIGNMENT` -/
def spinNodeAlignment : ℕ := 64

/-- `sizeof(struct optimistic_spin_node)`: six words, aligned. -/
def sizeofSpinNode : ℕ := (6 * 8 + spinNodeAlignment - 1) / spinNodeAlignment * spinNodeAlignment

/-- The bytes that `osq_lock_init` clears. -/
def osqLockInitSize (numThreads : ℕ) : ℕ := (numThreads + 1) * sizeofSpinNode

/-- The addresses of `length` bytes. -/
def region (p : BitVec 64) (length : ℕ) : Set (BitVec 64) := {a | ∃ i < length, a = p + BitVec.ofNat 64 i}

section Region

lemma mem_region_iff {p a : BitVec 64} {length : ℕ} (hlen : length ≤ 2 ^ 64) :
    a ∈ region p length ↔ (a - p).toNat < length := by
  constructor
  · rintro ⟨i, hi, rfl⟩
    rw [BitVec.add_comm, BitVec.add_sub_cancel, BitVec.toNat_ofNat, Nat.mod_eq_of_lt (by omega)]
    exact hi
  · intro h
    refine ⟨(a - p).toNat, h, ?_⟩
    rw [BitVec.ofNat_toNat, BitVec.setWidth_eq, BitVec.add_comm, BitVec.sub_add_cancel]

/-- A region that starts inside another and does not wrap is inside when its end is. -/
lemma region_subset_iff {p shift : BitVec 64} {size length : ℕ} (hsize : 0 < size)
    (hfit : length + size ≤ 2 ^ 64) :
    region (p + shift) size ⊆ region p length ↔ shift.toNat + size ≤ length := by
  have hshift := shift.isLt
  have hdist : ∀ i < size, (p + shift + BitVec.ofNat 64 i - p).toNat = (shift.toNat + i) % 2 ^ 64 := by
    intro i hi
    rw [BitVec.add_assoc, BitVec.add_comm p, BitVec.add_sub_cancel, BitVec.toNat_add, BitVec.toNat_ofNat,
      Nat.add_mod_mod]
  constructor
  · intro h
    have hbyte : ∀ i < size, (shift.toNat + i) % 2 ^ 64 < length := by
      intro i hi
      rw [← hdist i hi]
      exact (mem_region_iff (by omega)).mp (h ⟨i, hi, rfl⟩)
    have hfirst := hbyte 0 hsize
    have hlast := hbyte (size - 1) (by omega)
    rw [Nat.add_zero, Nat.mod_eq_of_lt hshift] at hfirst
    rw [Nat.mod_eq_of_lt (by omega)] at hlast
    omega
  · rintro h _ ⟨i, hi, rfl⟩
    rw [mem_region_iff (by omega), hdist i hi, Nat.mod_eq_of_lt (by omega)]
    omega

end Region

section Bounds

lemma getCtrErgBytes_le (m : Machine) : getCtrErgBytes m ≤ 2 ^ 17 := by
  cases m with
  | x86_64 => decide
  | aarch64 CTR =>
    have hlt : ((CTR >>> 20) &&& 0xF).toNat < 16 := by
      rw [BitVec.toNat_and]
      exact Nat.and_lt_two_pow _ (by decide : (0xF : BitVec 64).toNat < 2 ^ 4)
    rw [getCtrErgBytes]
    generalize ((CTR >>> 20) &&& 0xF).toNat = ERG at hlt
    have hpow : 2 ^ ERG ≤ 2 ^ 15 := Nat.pow_le_pow_right two_pos (by omega)
    simp only [Nat.one_shiftLeft]
    split <;> omega

/-- Every size of huge pages is known, from 64K to 16G. -/
lemma hugepageSize_bounds {useHugepages : Hugepages} (h : useHugepages ≠ .none) :
    ∃ flag length, hugepageSize useHugepages.value = some (flag, length) ∧ 2 ^ 16 ≤ length ∧ length ≤ 2 ^ 34 := by
  cases useHugepages with
  | none => exact absurd rfl h
  | default | size64K | size2M | size32M | size512M | size1G | size16G => exact ⟨_, _, rfl, by decide, by decide⟩

lemma blockLength_none (length : ℕ) : blockLength length .none = length := if_neg (not_not_intro rfl)

lemma blockLength_hugepage {useHugepages : Hugepages} (h : useHugepages ≠ .none) {flag bytes : ℕ}
    (hbytes : hugepageSize useHugepages.value = some (flag, bytes)) (length : ℕ) :
    blockLength length useHugepages = bytes := by
  rw [blockLength, if_pos h, hbytes]
  rfl

/-- Every block is far shorter than the address space. -/
lemma blockLength_le (m : Machine) (useHugepages : Hugepages) :
    blockLength (allocLength m) useHugepages ≤ 2 ^ 34 := by
  by_cases h : useHugepages = .none
  · have hle := getCtrErgBytes_le m
    rw [h, blockLength_none, allocLength, maxThreads]
    omega
  · obtain ⟨flag, bytes, hbytes, -, hle⟩ := hugepageSize_bounds h
    rw [blockLength_hugepage h hbytes]
    exact hle

lemma pLockMemory_toNat (offset : BitVec 64) : (8 * (offset / 8)).toNat = offset.toNat / 8 * 8 := by
  have height : (8 : BitVec 64).toNat = 8 := rfl
  have hlt := offset.isLt
  rw [BitVec.toNat_mul, BitVec.toNat_udiv, height, Nat.mod_eq_of_lt (by omega), Nat.mul_comm]

lemma spinNodes_inside (m : Machine) (useHugepages : Hugepages) (p offset : BitVec 64) {numThreads : ℕ}
    (hmax : numThreads ≤ maxThreads) :
    region (pLockMemory p offset) (osqLockInitSize numThreads) ⊆
        region p (blockLength (allocLength m) useHugepages) ↔
      offset.toNat / 8 * 8 + (numThreads + 1) * 64 ≤ blockLength (allocLength m) useHugepages := by
  have hle := blockLength_le m useHugepages
  have hsize : osqLockInitSize numThreads = (numThreads + 1) * 64 := rfl
  rw [maxThreads] at hmax
  rw [pLockMemory, hsize, region_subset_iff (by omega) (by omega), pLockMemory_toNat]

/-- A huge page that is kept has the length of the block. -/
lemma doHugepageAlloc_block {k : Kernel} {t : PageTable k} (ht : k.Exposes t) {va : ℕ → BitVec 64}
    (hva : k.Grants va) {useHugepages : Hugepages} (hsize : useHugepages ≠ .none) {req : BitVec 64}
    {verbose : ℕ} {c : PhysCache} (hc : CacheReachable k c) {p : BitVec 64}
    (hp : (doHugepageAlloc k useHugepages.value req verbose ⟨c, []⟩).1 = .returns p) (length : ℕ) :
    liveMappings (doHugepageAlloc k useHugepages.value req verbose ⟨c, []⟩).2.log =
      [(p, blockLength length useHugepages)] := by
  obtain ⟨flag, bytes, hbytes, -⟩ := hugepageSize_bounds hsize
  have h : Hunt k t va flag bytes req (doHugepageAlloc k useHugepages.value req verbose ⟨c, []⟩).1
      (doHugepageAlloc k useHugepages.value req verbose ⟨c, []⟩).2.log :=
    doHugepageAlloc_hunt ht hva hbytes (cache_good ht hc)
  rw [hp] at h
  rw [blockLength_hugepage hsize hbytes]
  exact (h.of_returns hva).1.1

/-- With no offset every accepted number of threads fits a huge page, and a block of ordinary
memory if granules are larger than a node. -/
theorem spinNodes_inside_of_no_offset (m : Machine) (useHugepages : Hugepages) (p : BitVec 64) {numThreads : ℕ}
    (hmax : numThreads ≤ maxThreads) (hfit : useHugepages ≠ .none ∨ sizeofSpinNode < getCtrErgBytes m) :
    region (pLockMemory p 0) (osqLockInitSize numThreads) ⊆
      region p (blockLength (allocLength m) useHugepages) := by
  rw [spinNodes_inside m useHugepages p 0 hmax]
  have hzero : (0 : BitVec 64).toNat = 0 := rfl
  have hnode : sizeofSpinNode = 64 := rfl
  rw [maxThreads] at hmax
  by_cases h : useHugepages = .none
  · have hgranule := hfit.resolve_left (not_not_intro h)
    rw [h, blockLength_none, allocLength, maxThreads, hzero]
    omega
  · obtain ⟨flag, bytes, hbytes, hle, -⟩ := hugepageSize_bounds h
    rw [blockLength_hugepage h hbytes, hzero]
    omega

end Bounds

/-- The nodes of the threads lie inside the block exactly when the offset, rounded down to a
word, leaves room for them in the huge page, or else in one granule for each possible thread. -/
theorem spinNodes_inside_iff (m : Machine) (useHugepages : Hugepages) (p offset : BitVec 64) {numThreads : ℕ}
    (hmax : numThreads ≤ maxThreads) :
    region (pLockMemory p offset) (osqLockInitSize numThreads) ⊆
        region p (blockLength (allocLength m) useHugepages) ↔
      (useHugepages = .none →
        offset.toNat / 8 * 8 + (numThreads + 1) * 64 ≤ maxThreads * getCtrErgBytes m) ∧
      ∀ flag length, hugepageSize useHugepages.value = some (flag, length) →
        offset.toNat / 8 * 8 + (numThreads + 1) * 64 ≤ length := by
  rw [spinNodes_inside m useHugepages p offset hmax]
  by_cases h : useHugepages = .none
  · subst h
    rw [blockLength_none, allocLength]
    exact ⟨fun hle => ⟨fun _ => hle, fun _ _ hsome => absurd hsome.symm (Option.some_ne_none _)⟩, fun hle => hle.1 rfl⟩
  · obtain ⟨flag, bytes, hbytes, -⟩ := hugepageSize_bounds h
    rw [blockLength_hugepage h hbytes, hbytes]
    constructor
    · intro hle
      refine ⟨fun hnone => absurd hnone h, fun flag' length heq => ?_⟩
      obtain ⟨-, rfl⟩ := Prod.mk.inj (Option.some.inj heq)
      exact hle
    · exact fun hle => hle.2 flag bytes rfl

/-- The most threads on a machine whose granules are as long as a node. -/
theorem spinNodes_inside_most_threads : region (pLockMemory 0x1000 0) (osqLockInitSize 512) ⊆
    region 0x1000 (blockLength (allocLength .x86_64) .none) :=
  (spinNodes_inside_iff .x86_64 .none 0x1000 0 (by decide)).mpr
    ⟨fun _ => by decide, fun _ _ hsome => absurd hsome.symm (Option.some_ne_none _)⟩

theorem spinNodes_not_inside_513_threads : ¬ region (pLockMemory 0x1000 0) (osqLockInitSize 513) ⊆
    region 0x1000 (blockLength (allocLength .x86_64) .none) := by
  rw [spinNodes_inside .x86_64 .none 0x1000 0 (by decide)]
  decide

end Lockhammer.Alloc
