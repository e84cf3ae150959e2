import Lockhammer.CLib.Bits
import Lockhammer.Harness.Hugepages

/-!
# Hunting for a huge page (alloc.c)

`do_hugepage_alloc` maps huge pages until one has the requested physical address, keeps the
others mapped meanwhile, so that the kernel does not offer them again, and unmaps them at
the end. Physical addresses come from `get_phys_addr`, which remembers the last page it has
looked up.
-/
namespace Lockhammer.Alloc
open CLib

/-- What the system calls answer: the results of the tries of `mmap` (none for
`MAP_FAILED`), the words of `/proc/<pid>/pagemap` (none for a failed read), whether `munmap`
succeeds, and whether the user is root. -/
structure Kernel where
  pageShift : ℕ
  mmap : ℕ → Option (BitVec 64)
  pagemap : BitVec 64 → Option (BitVec 64)
  munmap : BitVec 64 → ℕ → Bool
  root : Bool

/-- `sysconf(_SC_PAGESIZE)` -/
def Kernel.pageSize (k : Kernel) : BitVec 64 := BitVec.ofNat 64 (2 ^ k.pageShift)

/-- Why the program exits. -/
inductive ExitReason
  | badSize
  | mmapFailed (length : ℕ)
  | munmapFailed (va : BitVec 64) (length i : ℕ)
  | notFound (physaddr : BitVec 64)
  | notRoot
  /-- An entry of `mmap_try` is read that was never written. -/
  | uninitialized
  deriving DecidableEq

/-- `%lx` -/
def hex (v : BitVec 64) : String := String.ofList (Nat.toDigits 16 v.toNat)

def ExitReason.message : ExitReason → String
  | .badSize => "ERROR: shouldn't have gotten here!\n"
  | .mmapFailed length =>
    "mmap returned 0xffffffffffffffff (MAP_FAILED). Exiting!\n" ++
      "Some possible reasons for failure:\n" ++
      " 1. no HugeTLB hugepage support is enabled,\n" ++
      " 2. no hugepages of the requested size are available,\n" ++
      " 3. the hugepage with the requested physaddr is already in use,\n" ++
      " 4. it is not available on a NUMA node available to us.\n" ++
      "Try:\n" ++
      " sudo apt-get install libhugetlbfs-bin\n" ++
      " sudo hugeadm --create-global-mounts\n" ++
      " sudo hugeadm --pool-pages-max DEFAULT:+1000\n" ++
      "(Only the last line is needed after a reboot.)\n" ++
      "Or manually allocate a hugepage:\n" ++
      "  echo 1 | sudo tee -a /sys/kernel/mm/hugepages/hugepages-" ++ toString (length / 1024) ++
      "kB/nr_hugepages\n" ++
      "Or use \"hugepagesz=<size> hugepage=<n>\" kernel parameters.\n"
  | .munmapFailed va length i =>
    "ERROR: munmap(0x" ++ hex va ++ ", " ++ toString length ++ ") failed!, i = " ++ toString i ++ "\n"
  | .notFound physaddr =>
    "After 10 tries, did not find the requested hugepage with physaddr = 0x" ++ hex physaddr ++ "\n"
  | .notRoot => "didn't expect to get here in get_phys_addr, not running as root?\n"
  | .uninitialized => ""

section PhysAddr

/-- The statics of `get_phys_addr`. -/
structure PhysCache where
  pageSize : BitVec 64 := 1
  pageMask : BitVec 64 := 1
  lastVpage : BitVec 64 := 1
  lastPpage : BitVec 64 := 1
  deriving DecidableEq

/-- The field `pfn` of the entry for the page of `vaddr`. -/
def lkmcPagemapGetEntry (k : Kernel) (vaddr : BitVec 64) : Option (BitVec 64) :=
  (k.pagemap (vaddr / k.pageSize)).map fun data => data &&& ((1 <<< 55) - 1)

def lkmcPagemapVirtToPhysUser (k : Kernel) (vaddr : BitVec 64) : Option (BitVec 64) :=
  (lkmcPagemapGetEntry k vaddr).map fun pfn => pfn * k.pageSize + vaddr % k.pageSize

/-- `get_phys_addr`; a failed lookup returns `EXIT_FAILURE`. -/
def getPhysAddr (k : Kernel) (c : PhysCache) (vaddr : BitVec 64) :
    Except ExitReason (BitVec 64) × PhysCache :=
  let c := if c.pageSize = 1 then { c with pageSize := k.pageSize, pageMask := ~~~(k.pageSize - 1) } else c
  if vaddr &&& c.pageMask = c.lastVpage then (.ok (c.lastPpage ||| (vaddr &&& ~~~c.pageMask)), c)
  else if k.root then
    match lkmcPagemapVirtToPhysUser k vaddr with
    | none => (.ok 1, c)
    | some paddr =>
      (.ok paddr, { c with lastVpage := vaddr &&& c.pageMask, lastPpage := paddr &&& c.pageMask })
  else (.error .notRoot, c)

end PhysAddr

section PageTable

/-- A fixed map of the pages: the physical address of the page with each virtual number. -/
structure PageTable (k : Kernel) where
  base : BitVec 64 → BitVec 64
  aligned : ∀ vpn, 2 ^ k.pageShift ∣ (base vpn).toNat

variable {k : Kernel}

/-- The true physical address. -/
def PageTable.physAddr (t : PageTable k) (va : BitVec 64) : BitVec 64 :=
  t.base (va / k.pageSize) + va % k.pageSize

/-- Lookups succeed and give the frame numbers of the table. -/
structure Kernel.Exposes (k : Kernel) (t : PageTable k) : Prop where
  shift_pos : 0 < k.pageShift
  shift_lt : k.pageShift < 64
  pagemap : ∀ vpn, ∃ data, k.pagemap vpn = some data ∧
    data.toNat % 2 ^ 55 = (t.base vpn).toNat / 2 ^ k.pageShift

def Kernel.pageMask (k : Kernel) : BitVec 64 := ~~~(k.pageSize - 1)

lemma pageSize_toNat (hs : k.pageShift < 64) : k.pageSize.toNat = 2 ^ k.pageShift := by
  rw [Kernel.pageSize, BitVec.toNat_ofNat, Nat.mod_eq_of_lt (Nat.pow_lt_pow_right (by omega) hs)]

lemma pageSize_pred_toNat (hs : k.pageShift < 64) : (k.pageSize - 1).toNat = 2 ^ k.pageShift - 1 := by
  have h := pageSize_toNat hs
  have hp : 0 < 2 ^ k.pageShift := Nat.two_pow_pos _
  have hlt := k.pageSize.isLt
  have hone : (1 : BitVec 64).toNat = 1 := rfl
  rw [BitVec.toNat_sub, h, hone]
  omega

lemma page_toNat (hs : k.pageShift < 64) (va : BitVec 64) :
    (va &&& k.pageMask).toNat = va.toNat / 2 ^ k.pageShift * 2 ^ k.pageShift :=
  and_not_mask_toNat (pageSize_pred_toNat hs)

lemma offset_toNat (hs : k.pageShift < 64) (va : BitVec 64) :
    (va % k.pageSize).toNat = va.toNat % 2 ^ k.pageShift := by
  rw [BitVec.toNat_umod, pageSize_toNat hs]

lemma offset_lt (hs : k.pageShift < 64) (va : BitVec 64) : (va % k.pageSize).toNat < 2 ^ k.pageShift := by
  rw [offset_toNat hs]
  exact Nat.mod_lt _ (Nat.two_pow_pos _)

lemma page_div (hs : k.pageShift < 64) (va : BitVec 64) :
    (va &&& k.pageMask) / k.pageSize = va / k.pageSize := by
  apply BitVec.eq_of_toNat_eq
  rw [BitVec.toNat_udiv, BitVec.toNat_udiv, page_toNat hs, pageSize_toNat hs,
    Nat.mul_div_cancel _ (Nat.two_pow_pos _)]

lemma offset_eq (hs : k.pageShift < 64) (va : BitVec 64) : va &&& ~~~k.pageMask = va % k.pageSize := by
  apply BitVec.eq_of_toNat_eq
  rw [Kernel.pageMask, BitVec.not_not, and_mask_toNat (pageSize_pred_toNat hs), offset_toNat hs]

/-- No page starts at the address that the cache starts with. -/
lemma page_ne_one (hp : 0 < k.pageShift) (hs : k.pageShift < 64) (va : BitVec 64) :
    va &&& k.pageMask ≠ 1 := by
  intro h
  have hval : va.toNat / 2 ^ k.pageShift * 2 ^ k.pageShift = 1 := by
    rw [← page_toNat hs, h]
    rfl
  have hdvd : 2 ^ k.pageShift ∣ 1 := Dvd.intro_left _ hval
  have hlt : 1 < 2 ^ k.pageShift := Nat.one_lt_two_pow (by omega)
  exact absurd (Nat.le_of_dvd one_pos hdvd) (by omega)

variable (t : PageTable k)

lemma PageTable.or_offset (hs : k.pageShift < 64) (va : BitVec 64) :
    t.base (va / k.pageSize) ||| (va % k.pageSize) = t.physAddr va := by
  apply BitVec.eq_of_toNat_eq
  rw [PageTable.physAddr, or_toNat_of_dvd (t.aligned _) (offset_lt hs va),
    add_toNat_of_dvd (t.aligned _) (offset_lt hs va)]

lemma PageTable.physAddr_page (hs : k.pageShift < 64) (va : BitVec 64) :
    t.physAddr va &&& k.pageMask = t.base (va / k.pageSize) := by
  apply BitVec.eq_of_toNat_eq
  have hlt := offset_lt hs va
  obtain ⟨q, hq⟩ := t.aligned (va / k.pageSize)
  rw [page_toNat hs, PageTable.physAddr, add_toNat_of_dvd (t.aligned _) hlt, hq,
    Nat.mul_add_div (Nat.two_pow_pos _), Nat.div_eq_of_lt hlt, Nat.add_zero, Nat.mul_comm]

/-- A lookup gives the true physical address. -/
lemma virtToPhys_eq {t : PageTable k} (ht : k.Exposes t) (va : BitVec 64) :
    lkmcPagemapVirtToPhysUser k va = some (t.physAddr va) := by
  obtain ⟨data, hdata, hframe⟩ := ht.pagemap (va / k.pageSize)
  have hpfn : (data &&& ((1 <<< 55) - 1)).toNat = (t.base (va / k.pageSize)).toNat / 2 ^ k.pageShift := by
    rw [← hframe]
    exact and_mask_toNat (by decide)
  have hbase : (data &&& ((1 <<< 55) - 1)) * k.pageSize = t.base (va / k.pageSize) := by
    apply BitVec.eq_of_toNat_eq
    rw [BitVec.toNat_mul, hpfn, pageSize_toNat ht.shift_lt, Nat.div_mul_cancel (t.aligned _),
      Nat.mod_eq_of_lt (BitVec.isLt _)]
  rw [lkmcPagemapVirtToPhysUser, lkmcPagemapGetEntry, hdata]
  simp only [Option.map_some, hbase, PageTable.physAddr]

end PageTable

section Cache

/-- The states in which earlier calls can leave the statics. -/
inductive CacheReachable (k : Kernel) : PhysCache → Prop
  | start : CacheReachable k {}
  | call {c} (vaddr : BitVec 64) (h : CacheReachable k c) : CacheReachable k (getPhysAddr k c vaddr).2

/-- What the statics remember is true of the table. -/
structure PhysCache.Good {k : Kernel} (t : PageTable k) (c : PhysCache) : Prop where
  sized : c.pageSize = 1 ∨ c.pageSize = k.pageSize ∧ c.pageMask = k.pageMask
  remembers : c.lastVpage = 1 ∨ c.lastPpage = t.base (c.lastVpage / k.pageSize)

variable {k : Kernel} {t : PageTable k}

/-- What `get_phys_addr` does once the page size is known. -/
lemma getPhysAddr_sized {c : PhysCache} (hc : c.Good t) (va : BitVec 64) :
    ∃ c' : PhysCache, c'.Good t ∧ c'.pageMask = k.pageMask ∧ getPhysAddr k c va =
      if va &&& c'.pageMask = c'.lastVpage then (.ok (c'.lastPpage ||| (va &&& ~~~c'.pageMask)), c')
      else if k.root then
        match lkmcPagemapVirtToPhysUser k va with
        | none => (.ok 1, c')
        | some paddr =>
          (.ok paddr, { c' with lastVpage := va &&& c'.pageMask, lastPpage := paddr &&& c'.pageMask })
      else (.error .notRoot, c') := by
  by_cases h1 : c.pageSize = 1
  · refine ⟨{ c with pageSize := k.pageSize, pageMask := k.pageMask }, ⟨.inr ⟨rfl, rfl⟩, hc.remembers⟩, rfl, ?_⟩
    rw [getPhysAddr, if_pos h1]
    rfl
  · have hsized := hc.sized.resolve_left h1
    refine ⟨c, hc, hsized.2, ?_⟩
    rw [getPhysAddr, if_neg h1]

/-- Whether it comes from the cache or from a lookup, the address returned is the true one,
and the cache stays true. -/
lemma getPhysAddr_spec (ht : k.Exposes t) {c : PhysCache} (hc : c.Good t) (va : BitVec 64) :
    ∃ c' : PhysCache, c'.Good t ∧ (getPhysAddr k c va = (.ok (t.physAddr va), c') ∨
      k.root = false ∧ getPhysAddr k c va = (.error .notRoot, c')) := by
  obtain ⟨c', hc', hmask, heq⟩ := getPhysAddr_sized hc va
  have hs := ht.shift_lt
  rw [heq, hmask]
  by_cases hhit : va &&& k.pageMask = c'.lastVpage
  · have hlast : c'.lastVpage ≠ 1 := hhit ▸ page_ne_one ht.shift_pos hs va
    have hpage : c'.lastPpage = t.base (va / k.pageSize) := by
      rw [hc'.remembers.resolve_left hlast, ← hhit, page_div hs]
    refine ⟨c', hc', .inl ?_⟩
    rw [if_pos hhit, hpage, offset_eq hs, t.or_offset hs]
  rw [if_neg hhit]
  cases hroot : k.root with
  | false => exact ⟨c', hc', .inr ⟨rfl, rfl⟩⟩
  | true =>
    rw [if_pos rfl, virtToPhys_eq ht]
    refine ⟨_, ?_, .inl rfl⟩
    refine ⟨hc'.sized.imp_right fun h => ⟨h.1, rfl⟩, .inr ?_⟩
    change t.physAddr va &&& k.pageMask = t.base ((va &&& k.pageMask) / k.pageSize)
    rw [t.physAddr_page hs, page_div hs]

lemma cache_good (ht : k.Exposes t) {c : PhysCache} (h : CacheReachable k c) : c.Good t := by
  induction h with
  | start => exact ⟨.inl rfl, .inl rfl⟩
  | call vaddr _ ih =>
    obtain ⟨c', hc', heq | ⟨-, heq⟩⟩ := getPhysAddr_spec ht ih vaddr
    · rw [heq]
      exact hc'
    · rw [heq]
      exact hc'

end Cache

section Alloc

/-- The `MAP_HUGE_` flag, as the shift of the page size that it encodes, and the length. -/
def hugepageSize (useHugepages : ℤ) : Option (ℕ × ℕ) :=
  if useHugepages = Hugepages.default.value then some (21, 2 * 1024 * 1024)
  else if useHugepages = Hugepages.size64K.value then some (16, 64 * 1024)
  else if useHugepages = Hugepages.size2M.value then some (21, 2 * 1024 * 1024)
  else if useHugepages = Hugepages.size32M.value then some (25, 32 * 1024 * 1024)
  else if useHugepages = Hugepages.size512M.value then some (29, 512 * 1024 * 1024)
  else if useHugepages = Hugepages.size1G.value then some (30, 1024 * 1024 * 1024)
  else if useHugepages = Hugepages.size16G.value then some (34, 16 * 1024 * 1024 * 1024)
  else none

/-- The system calls that change the address space. -/
inductive MemEvent
  | mmap (flag length : ℕ) (va : BitVec 64)
  | munmap (va : BitVec 64) (length : ℕ)
  deriving DecidableEq

structure AllocState where
  cache : PhysCache := {}
  log : List MemEvent := []

/-- `hugepage_mapping_t` -/
structure MmapTry where
  va : BitVec 64
  pa : BitVec 64

inductive Outcome
  | returns (va : BitVec 64)
  | exits (reason : ExitReason)
  deriving DecidableEq

/-- `MAX_MMAP_TRIES` -/
def maxMmapTries : ℕ := 10

/-- `VERBOSE_YES` -/
def verboseYes : ℕ := 2

/-- The loop of `unmap_hugepage_mappings` from entry `i` on. -/
def unmapFrom (k : Kernel) (mappings : ℕ → Option MmapTry) (length : ℕ) :
    (left i : ℕ) → AllocState → Option ExitReason × AllocState
  | 0, _, st => (none, st)
  | left + 1, i, st =>
    match mappings i with
    | none => (some .uninitialized, st)
    | some m =>
      if k.munmap m.va length then
        unmapFrom k mappings length left (i + 1) { st with log := st.log ++ [.munmap m.va length] }
      else (some (.munmapFailed m.va length i), st)

def unmapHugepageMappings (k : Kernel) (mappings : ℕ → Option MmapTry) (n length : ℕ)
    (st : AllocState) : Option ExitReason × AllocState := unmapFrom k mappings length n 0 st

/-- The loop over the tries, from try `i` on; an entry of `mmap_try` that was not written
yet is `none`. -/
def mmapTries (k : Kernel) (flag length : ℕ) (req : BitVec 64) (verbose : ℕ) :
    (left i : ℕ) → (ℕ → Option MmapTry) → AllocState → Outcome × AllocState
  | 0, _, mmapTry, st =>
    match unmapHugepageMappings k mmapTry maxMmapTries length st with
    | (some e, st) => (.exits e, st)
    | (none, st) => (.exits (.notFound req), st)
  | left + 1, i, mmapTry, st =>
    match k.mmap i with
    | none => (.exits (.mmapFailed length), st)
    | some va =>
      let st := { st with log := st.log ++ [.mmap flag length va] }
      if req = 0 then
        if verbose ≥ verboseYes ∧ k.root = true then
          match getPhysAddr k st.cache va with
          | (.error e, c) => (.exits e, { st with cache := c })
          | (.ok _, c) => (.returns va, { st with cache := c })
        else (.returns va, st)
      else
        match getPhysAddr k st.cache va with
        | (.error e, c) => (.exits e, { st with cache := c })
        | (.ok pa, c) =>
          if pa = req then
            match unmapHugepageMappings k mmapTry i length { st with cache := c } with
            | (some e, st) => (.exits e, st)
            | (none, st) => (.returns va, st)
          else
            mmapTries k flag length req verbose left (i + 1)
              (Function.update mmapTry i (some ⟨va, pa⟩)) { st with cache := c }

def doHugepageAlloc (k : Kernel) (useHugepages : ℤ) (hugepageReqPhysaddr : BitVec 64) (verbose : ℕ)
    (st : AllocState) : Outcome × AllocState :=
  match hugepageSize useHugepages with
  | none => (.exits .badSize, st)
  | some (flag, length) =>
    mmapTries k flag length hugepageReqPhysaddr verbose maxMmapTries 0 (fun _ => none) st

/-- The flag of each size asks for pages of its length. -/
lemma hugepageSize_flag {useHugepages : ℤ} {flag length : ℕ}
    (h : hugepageSize useHugepages = some (flag, length)) : length = 2 ^ flag := by
  unfold hugepageSize at h
  split_ifs at h
  all_goals
    obtain ⟨rfl, rfl⟩ := Prod.mk.inj (Option.some.inj h)
    rfl

end Alloc
section Effect

/-- The mappings made, with their lengths. -/
def mapped (events : List MemEvent) : List (BitVec 64 × ℕ) :=
  events.filterMap fun | .mmap _ length va => some (va, length) | .munmap _ _ => none

def unmapped (events : List MemEvent) : List (BitVec 64 × ℕ) :=
  events.filterMap fun | .mmap _ _ _ => none | .munmap va length => some (va, length)

def MemEvent.apply (live : List (BitVec 64 × ℕ)) : MemEvent → List (BitVec 64 × ℕ)
  | .mmap _ length va => live ++ [(va, length)]
  | .munmap va length => live.erase (va, length)

/-- The mappings left of those made. -/
def liveMappings (events : List MemEvent) : List (BitVec 64 × ℕ) := events.foldl MemEvent.apply []

/-- Of the mappings made only `kept` is left; each other one was unmapped once, with the
length mapped, and nothing else was unmapped. -/
def KeepsOnly (events : List MemEvent) (kept : Option (BitVec 64 × ℕ)) : Prop :=
  liveMappings events = kept.toList ∧
    ∀ m, (unmapped events).count m = if m ∈ mapped events ∧ some m ≠ kept then 1 else 0

def mapAll (flag : ℕ) (pages : List (BitVec 64 × ℕ)) : List MemEvent :=
  pages.map fun m => .mmap flag m.2 m.1

def unmapAll (pages : List (BitVec 64 × ℕ)) : List MemEvent := pages.map fun m => .munmap m.1 m.2

@[simp] lemma mapped_append (a b : List MemEvent) : mapped (a ++ b) = mapped a ++ mapped b :=
  List.filterMap_append

@[simp] lemma unmapped_append (a b : List MemEvent) : unmapped (a ++ b) = unmapped a ++ unmapped b :=
  List.filterMap_append

variable (flag : ℕ) (pages : List (BitVec 64 × ℕ))

@[simp] lemma mapped_mapAll : mapped (mapAll flag pages) = pages := by
  induction pages with
  | nil => rfl
  | cons m pages ih => exact congrArg (m :: ·) ih

@[simp] lemma unmapped_mapAll : unmapped (mapAll flag pages) = [] := by
  induction pages with
  | nil => rfl
  | cons m pages ih => exact ih

@[simp] lemma mapped_unmapAll : mapped (unmapAll pages) = [] := by
  induction pages with
  | nil => rfl
  | cons m pages ih => exact ih

@[simp] lemma unmapped_unmapAll : unmapped (unmapAll pages) = pages := by
  induction pages with
  | nil => rfl
  | cons m pages ih => exact congrArg (m :: ·) ih

lemma apply_mapAll (live : List (BitVec 64 × ℕ)) :
    (mapAll flag pages).foldl MemEvent.apply live = live ++ pages := by
  induction pages generalizing live with
  | nil => exact (List.append_nil live).symm
  | cons m pages ih =>
    refine (ih (live ++ [m])).trans ?_
    rw [List.append_assoc, List.singleton_append]

/-- Unmapping the oldest mappings leaves the others. -/
lemma apply_unmapAll (rest : List (BitVec 64 × ℕ)) :
    (unmapAll pages).foldl MemEvent.apply (pages ++ rest) = rest := by
  induction pages with
  | nil => rfl
  | cons m pages ih =>
    rw [unmapAll, List.map_cons, List.foldl_cons, MemEvent.apply, List.cons_append, List.erase_cons_head]
    exact ih

lemma keepsOnly_unmapAll (kept : Option (BitVec 64 × ℕ))
    (hnd : (pages ++ kept.toList).Nodup) :
    KeepsOnly (mapAll flag (pages ++ kept.toList) ++ unmapAll pages) kept := by
  obtain ⟨hpages, -, hdisj⟩ := List.nodup_append.mp hnd
  constructor
  · rw [liveMappings, List.foldl_append, apply_mapAll, List.nil_append, apply_unmapAll]
  · intro m
    have hmem : m ∈ pages ++ kept.toList ∧ some m ≠ kept ↔ m ∈ pages := by
      rw [List.mem_append, Option.mem_toList]
      constructor
      · rintro ⟨hm | hm, hne⟩
        · exact hm
        · exact absurd hm.symm hne
      · intro hm
        refine ⟨.inl hm, fun heq => hdisj m hm m ?_ rfl⟩
        rw [Option.mem_toList]
        exact heq.symm
    simp only [mapped_append, unmapped_append, mapped_mapAll, unmapped_mapAll, mapped_unmapAll,
      unmapped_unmapAll, List.append_nil, List.nil_append, hmem, hpages.count]

end Effect

section Hunt

variable {k : Kernel} {t : PageTable k} {va : ℕ → BitVec 64} {flag length : ℕ} {req : BitVec 64} {verbose : ℕ}

/-- Every try of `mmap` succeeds, each at another address. -/
structure Kernel.Grants (k : Kernel) (va : ℕ → BitVec 64) : Prop where
  mmap : ∀ i < maxMmapTries, k.mmap i = some (va i)
  distinct : ∀ i < maxMmapTries, ∀ j < maxMmapTries, va i = va j → i = j

/-- The mappings of the first `n` tries. -/
def pages (va : ℕ → BitVec 64) (length n : ℕ) : List (BitVec 64 × ℕ) :=
  (List.range n).map fun i => (va i, length)

lemma pages_succ (n : ℕ) : pages va length (n + 1) = pages va length n ++ [(va n, length)] := by
  rw [pages, List.range_succ, List.map_append]
  rfl

lemma pages_nodup (hva : k.Grants va) {n : ℕ} (hn : n ≤ maxMmapTries) : (pages va length n).Nodup := by
  refine List.Nodup.map_on ?_ List.nodup_range
  intro i hi j hj heq
  exact hva.distinct i ((List.mem_range.mp hi).trans_le hn) j ((List.mem_range.mp hj).trans_le hn)
    (congrArg Prod.fst heq)

/-- How a call can end, with the system calls it has made. -/
inductive Hunt (k : Kernel) (t : PageTable k) (va : ℕ → BitVec 64) (flag length : ℕ) (req : BitVec 64) :
    Outcome → List MemEvent → Prop
  | any (h : req = 0) : Hunt k t va flag length req (.returns (va 0)) (mapAll flag (pages va length 1))
  | found {n} (hn : n < maxMmapTries) (h : t.physAddr (va n) = req) :
      Hunt k t va flag length req (.returns (va n))
        (mapAll flag (pages va length (n + 1)) ++ unmapAll (pages va length n))
  | notFound (hreq : req ≠ 0) (h : ∀ i < maxMmapTries, t.physAddr (va i) ≠ req) :
      Hunt k t va flag length req (.exits (.notFound req))
        (mapAll flag (pages va length maxMmapTries) ++ unmapAll (pages va length maxMmapTries))
  | munmapFailed {i log} (hi : i < maxMmapTries) (h : k.munmap (va i) length = false) :
      Hunt k t va flag length req (.exits (.munmapFailed (va i) length i)) log
  | notRoot {log} (hreq : req ≠ 0) (h : k.root = false) : Hunt k t va flag length req (.exits .notRoot) log

lemma unmapFrom_spec {mappings : ℕ → Option MmapTry} (left i : ℕ) (st : AllocState)
    (hm : ∀ j < i + left, (mappings j).map MmapTry.va = some (va j)) :
    ∃ st', unmapFrom k mappings length left i st = (none, st') ∧
        st'.log = st.log ++ unmapAll ((List.range' i left).map fun j => (va j, length)) ∨
      ∃ j < i + left, k.munmap (va j) length = false ∧
        unmapFrom k mappings length left i st = (some (.munmapFailed (va j) length j), st') := by
  induction left generalizing i st with
  | zero => exact ⟨st, .inl ⟨rfl, (List.append_nil _).symm⟩⟩
  | succ left ih =>
    obtain ⟨m, hmi, hv⟩ := Option.map_eq_some_iff.mp (hm i (by omega))
    rw [unmapFrom, hmi]
    simp only [hv]
    cases hok : k.munmap (va i) length with
    | false => exact ⟨st, .inr ⟨i, by omega, hok, rfl⟩⟩
    | true =>
      rw [if_pos rfl]
      obtain ⟨st', ⟨heq, hlog⟩ | ⟨j, hj, hfail⟩⟩ := ih (i + 1)
        { st with log := st.log ++ [.munmap (va i) length] } fun j hj => hm j (by omega)
      · refine ⟨st', .inl ⟨heq, hlog.trans ?_⟩⟩
        rw [List.append_assoc, List.range'_succ]
        rfl
      · exact ⟨st', .inr ⟨j, by omega, hfail⟩⟩

/-- Unmapping the first `n` tries: all of them, each once, unless the kernel refuses one. -/
lemma unmapHugepageMappings_spec (k : Kernel) (length : ℕ) {mmapTry : ℕ → Option MmapTry} {n : ℕ}
    (st : AllocState) (hm : ∀ j < n, (mmapTry j).map MmapTry.va = some (va j)) :
    ∃ st', unmapHugepageMappings k mmapTry n length st = (none, st') ∧
        st'.log = st.log ++ unmapAll (pages va length n) ∨
      ∃ j < n, k.munmap (va j) length = false ∧
        unmapHugepageMappings k mmapTry n length st = (some (.munmapFailed (va j) length j), st') := by
  obtain ⟨st', ⟨heq, hlog⟩ | ⟨j, hj, hfail⟩⟩ := unmapFrom_spec (k := k) n 0 st fun j hj => hm j (by omega)
  · rw [pages, List.range_eq_range']
    exact ⟨st', .inl ⟨heq, hlog⟩⟩
  · exact ⟨st', .inr ⟨j, by omega, hfail⟩⟩

/-- With no physical address requested the first page is kept. -/
lemma mmapTries_any (ht : k.Exposes t) (hva : k.Grants va) (left : ℕ) (mmapTry : ℕ → Option MmapTry)
    {c : PhysCache} (hc : c.Good t) :
    Hunt k t va flag length 0 (mmapTries k flag length 0 verbose (left + 1) 0 mmapTry ⟨c, []⟩).1
      (mmapTries k flag length 0 verbose (left + 1) 0 mmapTry ⟨c, []⟩).2.log := by
  rw [mmapTries, hva.mmap 0 (by decide)]
  simp only [if_pos]
  split
  · next hroot =>
    obtain ⟨c', -, heq | ⟨hno, -⟩⟩ := getPhysAddr_spec ht hc (va 0)
    · rw [heq]
      exact .any rfl
    · exact absurd hroot.2 (ne_true_of_eq_false hno)
  · exact .any rfl

/-- The tries that mismatch are remembered until one matches or all ten are made. -/
lemma mmapTries_hunt (ht : k.Exposes t) (hva : k.Grants va) (hreq : req ≠ 0) {left i : ℕ}
    (hi : i + left = maxMmapTries) {mmapTry : ℕ → Option MmapTry} {st : AllocState} (hc : st.cache.Good t)
    (hlog : st.log = mapAll flag (pages va length i))
    (htry : ∀ j < i, (mmapTry j).map MmapTry.va = some (va j)) (hmis : ∀ j < i, t.physAddr (va j) ≠ req) :
    Hunt k t va flag length req (mmapTries k flag length req verbose left i mmapTry st).1
      (mmapTries k flag length req verbose left i mmapTry st).2.log := by
  induction left generalizing i mmapTry st with
  | zero =>
    obtain rfl : i = maxMmapTries := hi
    rw [mmapTries]
    obtain ⟨st', ⟨heq, hl⟩ | ⟨j, hj, hfail, heq⟩⟩ := unmapHugepageMappings_spec k length st htry
    · rw [hlog] at hl
      rw [heq, hl]
      exact .notFound hreq hmis
    · rw [heq]
      exact .munmapFailed hj hfail
  | succ left ih =>
    have hmap : st.log ++ [.mmap flag length (va i)] = mapAll flag (pages va length (i + 1)) := by
      rw [hlog, pages_succ, mapAll, mapAll, List.map_append]
      rfl
    rw [mmapTries, hva.mmap i (by omega)]
    simp only [if_neg hreq, hmap]
    obtain ⟨c, hgood, heq | ⟨hno, heq⟩⟩ := getPhysAddr_spec ht hc (va i)
    · simp only [heq]
      by_cases hpa : t.physAddr (va i) = req
      · rw [if_pos hpa]
        obtain ⟨st', ⟨heq, hl⟩ | ⟨j, hj, hfail, heq⟩⟩ := unmapHugepageMappings_spec k length
          ⟨c, mapAll flag (pages va length (i + 1))⟩ htry
        · rw [heq, hl]
          exact .found (by omega) hpa
        · rw [heq]
          exact .munmapFailed (by omega) hfail
      · rw [if_neg hpa]
        refine ih (by omega) hgood rfl ?_ ?_
        · intro j hj
          obtain hlt | rfl := Nat.lt_succ_iff_lt_or_eq.mp hj
          · rw [Function.update_of_ne hlt.ne]
            exact htry j hlt
          · rw [Function.update_self]
            rfl
        · intro j hj
          obtain hlt | rfl := Nat.lt_succ_iff_lt_or_eq.mp hj
          · exact hmis j hlt
          · exact hpa
    · rw [heq]
      exact .notRoot hreq hno

lemma doHugepageAlloc_hunt (ht : k.Exposes t) (hva : k.Grants va) {useHugepages : ℤ}
    (hsize : hugepageSize useHugepages = some (flag, length)) {c : PhysCache} (hc : c.Good t) :
    Hunt k t va flag length req (doHugepageAlloc k useHugepages req verbose ⟨c, []⟩).1
      (doHugepageAlloc k useHugepages req verbose ⟨c, []⟩).2.log := by
  rw [doHugepageAlloc, hsize]
  by_cases hreq : req = 0
  · subst hreq
    exact mmapTries_any ht hva 9 _ hc
  · exact mmapTries_hunt ht hva hreq rfl hc rfl (fun j hj => absurd hj (Nat.not_lt_zero j))
      fun j hj => absurd hj (Nat.not_lt_zero j)

/-- A call that returns has kept the page it returns, which is the one requested. -/
lemma Hunt.of_returns (hva : k.Grants va) {p : BitVec 64} {log : List MemEvent}
    (h : Hunt k t va flag length req (.returns p) log) :
    KeepsOnly log (some (p, length)) ∧ (req ≠ 0 → t.physAddr p = req) := by
  generalize ho : Outcome.returns p = o at h
  cases h with
  | any hreq =>
    obtain rfl := Outcome.returns.inj ho
    exact ⟨keepsOnly_unmapAll flag [] (some (va 0, length)) (List.nodup_singleton _), fun h => absurd hreq h⟩
  | @found n hn hphys =>
    obtain rfl := Outcome.returns.inj ho
    have hnd : (pages va length (n + 1)).Nodup := pages_nodup hva hn
    rw [pages_succ] at hnd ⊢
    exact ⟨keepsOnly_unmapAll flag _ (some (va n, length)) hnd, fun _ => hphys⟩
  | notFound | munmapFailed | notRoot => cases ho

/-- With no match among the tries the call ends in the error exit, with all of them unmapped. -/
lemma Hunt.of_mismatch (hva : k.Grants va) (hreq : req ≠ 0) (hroot : k.root = true)
    (hmunmap : ∀ i < maxMmapTries, k.munmap (va i) length = true)
    (hmis : ∀ i < maxMmapTries, t.physAddr (va i) ≠ req) {o : Outcome} {log : List MemEvent}
    (h : Hunt k t va flag length req o log) :
    o = .exits (.notFound req) ∧ mapped log = pages va length maxMmapTries ∧ KeepsOnly log none := by
  cases h with
  | any h => exact absurd h hreq
  | found hn h => exact absurd h (hmis _ hn)
  | notFound =>
    have hnd : (pages va length maxMmapTries ++ []).Nodup := by
      rw [List.append_nil]
      exact pages_nodup hva le_rfl
    have hkeep := keepsOnly_unmapAll flag _ none hnd
    rw [Option.toList_none, List.append_nil] at hkeep
    refine ⟨rfl, ?_, hkeep⟩
    rw [mapped_append, mapped_mapAll, mapped_unmapAll, List.append_nil]
  | munmapFailed hi h => exact absurd (hmunmap _ hi) (ne_true_of_eq_false h)
  | notRoot _ h => exact absurd hroot (ne_true_of_eq_false h)

lemma Hunt.returns_of_match (hroot : k.root = true)
    (hmunmap : ∀ i < maxMmapTries, k.munmap (va i) length = true)
    (hex : req = 0 ∨ ∃ i < maxMmapTries, t.physAddr (va i) = req) {o : Outcome} {log : List MemEvent}
    (h : Hunt k t va flag length req o log) : ∃ p, o = .returns p := by
  cases h with
  | any | found => exact ⟨_, rfl⟩
  | notFound hreq hmis =>
    obtain ⟨i, hi, heq⟩ := hex.resolve_left hreq
    exact absurd heq (hmis i hi)
  | munmapFailed hi h => exact absurd (hmunmap _ hi) (ne_true_of_eq_false h)
  | notRoot _ h => exact absurd hroot (ne_true_of_eq_false h)

end Hunt

section Identity

/-- Pages of 4K at the physical addresses equal to the virtual ones, and a huge page every 2M. -/
def identityKernel : Kernel where
  pageShift := 12
  mmap i := some (BitVec.ofNat 64 ((i + 1) * 2 ^ 21))
  pagemap vpn := some (BitVec.ofNat 64 (2 ^ 63 + vpn.toNat % 2 ^ 52))
  munmap _ _ := true
  root := true

def identityTable : PageTable identityKernel where
  base vpn := BitVec.ofNat 64 (vpn.toNat % 2 ^ 52 * 2 ^ 12)
  aligned vpn := by
    have hlt : vpn.toNat % 2 ^ 52 < 2 ^ 52 := Nat.mod_lt _ (Nat.two_pow_pos 52)
    rw [BitVec.toNat_ofNat, Nat.mod_eq_of_lt (by omega)]
    exact Nat.dvd_mul_left _ _

lemma identityKernel_exposes : identityKernel.Exposes identityTable where
  shift_pos := by decide
  shift_lt := by decide
  pagemap vpn := by
    refine ⟨_, rfl, ?_⟩
    have hlt : vpn.toNat % 2 ^ 52 < 2 ^ 52 := Nat.mod_lt _ (Nat.two_pow_pos 52)
    have hbase : (identityTable.base vpn).toNat = vpn.toNat % 2 ^ 52 * 2 ^ 12 := by
      rw [identityTable, BitVec.toNat_ofNat, Nat.mod_eq_of_lt (by omega)]
    have hshift : identityKernel.pageShift = 12 := rfl
    rw [hbase, hshift, BitVec.toNat_ofNat]
    omega

lemma identityKernel_grants : identityKernel.Grants fun i => BitVec.ofNat 64 ((i + 1) * 2 ^ 21) where
  mmap _ _ := rfl
  distinct := by decide

end Identity

/-- Hunting for a huge page keeps exactly the right page: a call that returns keeps only
the page it returns, the one requested if one was; and if no try has the address requested,
all ten are unmapped before the error exit. The cache may be in any state that earlier calls
can leave. -/
theorem doHugepageAlloc_keeps_right_page {k : Kernel} {t : PageTable k} (ht : k.Exposes t)
    {va : ℕ → BitVec 64} (hva : k.Grants va) {useHugepages : ℤ} {flag length : ℕ}
    (hsize : hugepageSize useHugepages = some (flag, length)) (req : BitVec 64) (verbose : ℕ) {c : PhysCache}
    (hc : CacheReachable k c) :
    (∀ p, (doHugepageAlloc k useHugepages req verbose ⟨c, []⟩).1 = .returns p →
      KeepsOnly (doHugepageAlloc k useHugepages req verbose ⟨c, []⟩).2.log (some (p, length)) ∧
        (req ≠ 0 → t.physAddr p = req)) ∧
    (req ≠ 0 → k.root = true → (∀ i < maxMmapTries, k.munmap (va i) length = true) →
      (∀ i < maxMmapTries, t.physAddr (va i) ≠ req) →
      (doHugepageAlloc k useHugepages req verbose ⟨c, []⟩).1 = .exits (.notFound req) ∧
        mapped (doHugepageAlloc k useHugepages req verbose ⟨c, []⟩).2.log = pages va length maxMmapTries ∧
        KeepsOnly (doHugepageAlloc k useHugepages req verbose ⟨c, []⟩).2.log none) ∧
    (k.root = true → (∀ i < maxMmapTries, k.munmap (va i) length = true) →
      (req = 0 ∨ ∃ i < maxMmapTries, t.physAddr (va i) = req) →
      ∃ p, (doHugepageAlloc k useHugepages req verbose ⟨c, []⟩).1 = .returns p) := by
  have h : Hunt k t va flag length req (doHugepageAlloc k useHugepages req verbose ⟨c, []⟩).1
      (doHugepageAlloc k useHugepages req verbose ⟨c, []⟩).2.log :=
    doHugepageAlloc_hunt ht hva hsize (cache_good ht hc)
  generalize doHugepageAlloc k useHugepages req verbose ⟨c, []⟩ = r at h
  obtain ⟨o, st⟩ := r
  refine ⟨?_, ?_, ?_⟩
  · rintro p rfl
    exact h.of_returns hva
  · intro hreq hroot hmunmap hmis
    exact h.of_mismatch hva hreq hroot hmunmap hmis
  · intro hroot hmunmap hex
    exact h.returns_of_match hroot hmunmap hex

/-- The third page is the one requested; its address was looked up before. -/
theorem doHugepageAlloc_keeps_third_page :
    KeepsOnly (doHugepageAlloc identityKernel Hugepages.size2M.value 0x600000 0
      ⟨(getPhysAddr identityKernel {} 0x600000).2, []⟩).2.log (some (0x600000, 2 * 1024 * 1024)) :=
  have hsize : hugepageSize Hugepages.size2M.value = some (21, 2 * 1024 * 1024) := rfl
  ((doHugepageAlloc_keeps_right_page identityKernel_exposes identityKernel_grants hsize 0x600000 0
    (.call 0x600000 .start)).1 0x600000 (by decide)).1

end Lockhammer.Alloc
