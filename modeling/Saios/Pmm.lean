/-
  The PHYSICAL MEMORY MANAGER (`seed/saios/src/driver/memory.rs`, facade `seed/saios/src/pmm.rs`):
  a bitmap with one bit per 4 KiB page of the first 64 GiB, a free-page counter and a search hint.

  1. **Program** — `Pmm` and `init` / `allocPagesBelow` / `freePage` / `freePagesRange` / `reserve`
     under the source's names.  Addresses and counts are `Nat`s below `2^64`; counters wrap as in a
     release build (`Word.wadd`/`Word.wsub`), region ends saturate (`Word.sadd`).  The bitmap array
     `[u64; BITMAP_WORDS]` is a `BitTable 64`: every index the code computes is below
     `tracked_pages ≤ MAX_PAGES`, so no access is out of bounds.

  2. **One spec per operation** — what is free or used AFTER an operation, as a statement about
     `isUsed`: `init_isFree_iff`, `allocPagesBelow_some`, `freePage_cases`, `reserve_spec`.
     Everything above the PMM (ownership, heap, page tables) uses these and never the loops.
-/
import Saios.Lib.Word
import Saios.Lib.BitTable

namespace Saios.Memory

open List

/-- Kinds of firmware memory regions. -/
inductive MemoryType
  | reserved | usable | reclaimable | acpi | acpiNvs | mmio | mmioPort | persistent | bad
  | loader | seed | framebuffer
  deriving DecidableEq, Repr

/-- A firmware memory region `[base, base + length)`. -/
structure MemoryRegion where
  base : Nat
  length : Nat
  regionType : MemoryType
  deriving DecidableEq, Repr

def pageSize : Nat := 4096
def maxTrackedMemoryBytes : Nat := 64 * 1024 * 1024 * 1024
def maxPages : Nat := maxTrackedMemoryBytes / pageSize

structure Pmm where
  bitmap : BitTable 64
  trackedPages : Nat
  freePages : Nat
  nextHint : Nat
  initialized : Bool

namespace Pmm

/-- `Pmm::reset`: every bit set, the hint past page 0. -/
def reset : Pmm where
  bitmap := BitTable.full
  trackedPages := 0
  freePages := 0
  nextHint := 1
  initialized := true

def isUsed (p : Pmm) (page : Nat) : Bool := p.bitmap.test page

def setUsed (p : Pmm) (page : Nat) : Pmm := { p with bitmap := p.bitmap.set page }

def setFree (p : Pmm) (page : Nat) : Pmm := { p with bitmap := p.bitmap.clear page }

end Pmm

/-! ## `init` -/

/-- The first loop of `init`: the highest region end. -/
def highestEnd (entries : List MemoryRegion) : Nat :=
  entries.foldl (fun highest entry =>
    if highest < Word.sadd entry.base entry.length then Word.sadd entry.base entry.length
    else highest) 0

/-- The body of the inner loop of `init`. -/
def releasePage (p : Pmm) (page : Nat) : Pmm :=
  if p.isUsed page then { p.setFree page with freePages := Word.wadd p.freePages 1 } else p

/-- One round of the second loop of `init`: free the whole pages of a Usable region. -/
def releaseRegion (p : Pmm) (entry : MemoryRegion) : Pmm :=
  if entry.regionType ≠ .usable then p
  else
    let start := Word.alignUp entry.base pageSize / pageSize
    let stop := Word.alignDown (Word.sadd entry.base entry.length) pageSize / pageSize
    let limit := min stop p.trackedPages
    (List.range' start (limit - start)).foldl releasePage p

def init (entries : List MemoryRegion) : Pmm :=
  let tracked := Word.alignUp (highestEnd entries) pageSize / pageSize
  let p := { Pmm.reset with trackedPages := min tracked maxPages }
  let p := entries.foldl releaseRegion p
  if 0 < p.trackedPages ∧ p.isUsed 0 = false then
    { p.setUsed 0 with freePages := p.freePages - 1 }
  else p

/-! ## Allocation -/

/-- The inner scan of the search loop: no page of the run is used. -/
def allFree (p : Pmm) (first count : Nat) : Bool :=
  (List.range' first count).all (fun page => !p.isUsed page)

def firstAllocatable : Nat := 1

/-- `bounded_tracked_pages`: one past the last page a run below `maxPhys` may use. -/
def boundedTrackedPages (p : Pmm) (maxPhys : Nat) : Nat :=
  let maxPageExclusive :=
    if maxPhys = Word.max then p.trackedPages
    else Word.sadd maxPhys (pageSize - 1) / pageSize
  min p.trackedPages maxPageExclusive

/-- Where the search starts: the hint if a run can start there, page 1 otherwise. -/
def searchStart (p : Pmm) (count bounded : Nat) : Nat :=
  if firstAllocatable ≤ p.nextHint ∧ p.nextHint < bounded - count + 1 then p.nextHint
  else firstAllocatable

/-- The wrap-around search for a free run, from the hint on. -/
def searchRun (p : Pmm) (count bounded : Nat) : Option Nat :=
  let start := searchStart p count bounded
  let maxStart := bounded - count
  let searchSlots := maxStart - firstAllocatable + 1
  let candidates := (List.range searchSlots).map fun offset =>
    firstAllocatable + (start - firstAllocatable + offset) % searchSlots
  candidates.find? (fun first => allFree p first count)

/-- Allocate `count` contiguous pages whose range stays below `maxPhys`. -/
def allocPagesBelow (p : Pmm) (count maxPhys : Nat) : Option Nat × Pmm :=
  if count = 0 then (none, p)
  else if p.initialized = false ∨ p.freePages < count ∨ p.trackedPages < count then (none, p)
  else if p.trackedPages ≤ firstAllocatable ∨ p.trackedPages - firstAllocatable < count then
    (none, p)
  else
    let bounded := boundedTrackedPages p maxPhys
    if bounded ≤ firstAllocatable ∨ bounded - firstAllocatable < count then (none, p)
    else
      match searchRun p count bounded with
      | none => (none, p)
      | some first =>
          (some (first * pageSize),
            { p with bitmap := p.bitmap.setRange first (first + count),
                     freePages := p.freePages - count,
                     nextHint := first + count })

def allocPages (p : Pmm) (count : Nat) : Option Nat × Pmm := allocPagesBelow p count Word.max

def allocPage (p : Pmm) : Option Nat × Pmm := allocPages p 1

def allocPageBelow (p : Pmm) (maxPhys : Nat) : Option Nat × Pmm := allocPagesBelow p 1 maxPhys

/-! ## Freeing and reserving -/

def freePage (p : Pmm) (physAddr : Nat) : Bool × Pmm :=
  if physAddr &&& (pageSize - 1) ≠ 0 then (false, p)
  else if p.initialized = false then (false, p)
  else
    let page := physAddr / pageSize
    if page = 0 ∨ p.trackedPages ≤ page ∨ p.isUsed page = false then (false, p)
    else
      (true, { p.setFree page with
        freePages := Word.wadd p.freePages 1,
        nextHint := if page < p.nextHint then page else p.nextHint })

/-- The loop of `pmm::free_pages_range`: `n` more pages from `current` on. -/
def freePagesLoop : Nat → Bool → Nat → Pmm → Bool × Pmm
  | 0, ok, _, p => (ok, p)
  | n + 1, ok, current, p =>
      let (freed, p) := freePage p current
      freePagesLoop n (ok && freed) (Word.sadd current pageSize) p

def freePagesRange (p : Pmm) (base count : Nat) : Bool × Pmm :=
  if count = 0 then (false, p) else freePagesLoop count true base p

/-- The body of the loop of `reserve`. -/
def reservePage (p : Pmm) (page : Nat) : Pmm :=
  if p.isUsed page then p
  else { p.setUsed page with freePages := Word.wsub p.freePages 1 }

def reserve (p : Pmm) (base length : Nat) : Pmm :=
  if p.initialized = false ∨ length = 0 then p
  else
    let start := Word.alignDown base pageSize / pageSize
    let stop := Word.alignUp (Word.sadd base length) pageSize / pageSize
    let limit := min stop p.trackedPages
    (List.range' start (limit - start)).foldl reservePage p

/-- `total_pages`. -/
def totalPages (p : Pmm) : Nat := if p.initialized then p.trackedPages else 0

/-! ## Page arithmetic

  `PAGE_SIZE` masks are divisions by 4096. -/

theorem alignDown_page {v : Nat} (h : v < 2 ^ 64) :
    Word.alignDown v pageSize / pageSize = v / 4096 := by
  have := Word.alignDown_eq (k := 12) (by omega) h
  simp only [pageSize, show (4096 : Nat) = 2 ^ 12 from rfl] at *
  omega

theorem alignUp_page {v : Nat} (h : v ≤ 2 ^ 64 - 4096) :
    Word.alignUp v pageSize / pageSize = (v + 4095) / 4096 := by
  have hw : v + (2 ^ 12 - 1) < Word.size := by simp only [Word.size]; omega
  have := Word.alignUp_eq (by omega) hw
  simp only [pageSize, show (4096 : Nat) = 2 ^ 12 from rfl] at *
  omega

theorem land_page_mask (v : Nat) : v &&& (pageSize - 1) = v % 4096 :=
  Nat.and_two_pow_sub_one_eq_mod v 12

/-! ## The bits after each operation -/

theorem isUsed_setUsed (p : Pmm) (i j : Nat) :
    (p.setUsed i).isUsed j = (decide (i = j) || p.isUsed j) :=
  BitTable.test_set (by decide) p.bitmap i j

/-- Page `page` lies wholly inside a Usable region of the memory map. -/
def InUsable (entries : List MemoryRegion) (page : Nat) : Prop :=
  ∃ r ∈ entries, r.regionType = .usable ∧
    r.base ≤ page * pageSize ∧ (page + 1) * pageSize ≤ r.base + r.length

/-- A loop over pages that sets the bit of each page to `v`, and no other. -/
theorem foldl_mark {f : Pmm → Nat → Pmm} {v : Bool} (hf : ∀ p i, (f p i).trackedPages = p.trackedPages ∧
      (f p i).initialized = p.initialized ∧ ∀ j, (f p i).isUsed j = v ↔ i = j ∨ p.isUsed j = v)
    (l : List Nat) : ∀ p : Pmm, (l.foldl f p).trackedPages = p.trackedPages ∧
      (l.foldl f p).initialized = p.initialized ∧
      ∀ j, (l.foldl f p).isUsed j = v ↔ j ∈ l ∨ p.isUsed j = v := by
  induction l with
  | nil => simp
  | cons i l ih =>
    intro p
    obtain ⟨ht, hi, hu⟩ := ih (f p i)
    obtain ⟨ht', hi', hu'⟩ := hf p i
    refine ⟨ht.trans ht', hi.trans hi', fun j => ?_⟩
    rw [foldl_cons, hu, hu', mem_cons, eq_comm, or_left_comm, or_assoc]

/-- Releasing a list of pages keeps the table size and frees no page outside the list. -/
theorem foldl_releasePage : ∀ (l : List Nat) (p : Pmm),
    (l.foldl releasePage p).trackedPages = p.trackedPages ∧
    (l.foldl releasePage p).initialized = p.initialized ∧
    ∀ j, (l.foldl releasePage p).isUsed j = false ↔ j ∈ l ∨ p.isUsed j = false := by
  refine foldl_mark fun p i => ?_
  rw [releasePage]
  split
  · refine ⟨rfl, rfl, fun j => ?_⟩
    show (p.bitmap.clear i).test j = false ↔ _
    rw [BitTable.test_clear (by decide), Bool.and_eq_false_iff, Bool.not_eq_false', decide_eq_true_iff]
    rfl
  · rename_i hfree
    refine ⟨rfl, rfl, fun j => ⟨.inr, ?_⟩⟩
    rintro (rfl | hj)
    · exact Bool.eq_false_iff.mpr hfree
    · exact hj

/-- Releasing regions keeps the table size ... -/
theorem releaseRegion_table (l : List MemoryRegion) : ∀ p : Pmm,
    (l.foldl releaseRegion p).trackedPages = p.trackedPages ∧
    (l.foldl releaseRegion p).initialized = p.initialized := by
  induction l with
  | nil => exact fun _ => ⟨rfl, rfl⟩
  | cons r l ih =>
    intro p
    rw [foldl_cons, (ih _).1, (ih _).2, releaseRegion]
    split
    · exact ⟨rfl, rfl⟩
    · obtain ⟨ht, hi, -⟩ := foldl_releasePage _ p
      exact ⟨ht, hi⟩

variable {p : Pmm}

/-- ... and frees the tracked pages that lie wholly inside a Usable one, and nothing else. -/
theorem isUsed_releaseRegion {r : MemoryRegion} (hend : r.base + r.length ≤ 2 ^ 64 - 4096) (j : Nat) :
    (releaseRegion p r).isUsed j = false ↔ p.isUsed j = false ∨ (j < p.trackedPages ∧ InUsable [r] j) := by
  rw [releaseRegion]
  by_cases hu : r.regionType ≠ .usable
  · rw [if_pos hu]
    refine ⟨Or.inl, ?_⟩
    rintro (hj | ⟨-, q, hq, husable, -⟩)
    · exact hj
    · rw [mem_singleton.mp hq] at husable
      exact absurd husable hu
  · rw [if_neg hu]
    -- the range of the loop, in whole pages
    have hrange : j ∈ range' (Word.alignUp r.base pageSize / pageSize)
        (min (Word.alignDown (Word.sadd r.base r.length) pageSize / pageSize) p.trackedPages
          - Word.alignUp r.base pageSize / pageSize) ↔ j < p.trackedPages ∧ InUsable [r] j := by
      rw [mem_range'_1, alignUp_page (by omega), Word.sadd_eq (by simp only [Word.size]; omega),
        alignDown_page (by omega)]
      constructor
      · intro hmem
        refine ⟨by omega, r, mem_singleton_self r, not_not.mp hu, ?_, ?_⟩
        · simp only [pageSize]; omega
        · simp only [pageSize]; omega
      · rintro ⟨hj, q, hq, -, hbase, hstop⟩
        rw [mem_singleton.mp hq] at hbase hstop
        simp only [pageSize] at hbase hstop
        omega
    rw [(foldl_releasePage _ p).2.2, hrange]
    exact or_comm

theorem foldl_releaseRegion (l : List MemoryRegion) :
    (∀ r ∈ l, r.base + r.length ≤ 2 ^ 64 - 4096) → ∀ (p : Pmm) (j : Nat),
      (l.foldl releaseRegion p).isUsed j = false ↔
        p.isUsed j = false ∨ (j < p.trackedPages ∧ InUsable l j) := by
  induction l with
  | nil =>
    intro _ p j
    refine ⟨Or.inl, ?_⟩
    rintro (hj | ⟨-, r, hr, -⟩)
    · exact hj
    · cases hr
  | cons r l ih =>
    intro hend p j
    have hsplit : InUsable (r :: l) j ↔ InUsable [r] j ∨ InUsable l j := by
      simp only [InUsable, mem_cons, not_mem_nil, or_false, or_and_right, exists_or]
    have ht : (releaseRegion p r).trackedPages = p.trackedPages := (releaseRegion_table [r] p).1
    rw [foldl_cons, ih (fun q hq => hend q (mem_cons_of_mem r hq)),
      isUsed_releaseRegion (hend r mem_cons_self), ht, hsplit, and_or_left, or_assoc]

/-- **What `init` frees**: every page but page 0 that is tracked and lies wholly inside a Usable region. -/
theorem init_isFree_iff {entries : List MemoryRegion}
    (hend : ∀ r ∈ entries, r.base + r.length ≤ 2 ^ 64 - 4096) (j : Nat) :
    (init entries).isUsed j = false ↔ j ≠ 0 ∧ j < (init entries).trackedPages ∧ InUsable entries j := by
  have hreset : ∀ t j, ({ Pmm.reset with trackedPages := t } : Pmm).isUsed j = true :=
    fun _ j => BitTable.test_full (by decide) j
  have hfree := foldl_releaseRegion entries hend
    { Pmm.reset with
      trackedPages := min (Word.alignUp (highestEnd entries) pageSize / pageSize) maxPages }
  rw [← (releaseRegion_table entries _).1] at hfree
  rw [init]
  simp only [hreset, Bool.true_eq_false, false_or] at hfree
  split
  · show (Pmm.setUsed _ 0).isUsed j = false ↔ _
    rw [isUsed_setUsed, Bool.or_eq_false_iff, decide_eq_false_iff_not, hfree, ne_comm]
    rfl
  · rename_i hc
    rw [hfree]
    refine ⟨fun hj => ⟨?_, hj⟩, And.right⟩
    rintro rfl
    exact hc ⟨hj.1, (hfree 0).mpr hj⟩

/-- How many pages `init` tracks, with any regions. -/
theorem trackedPages_init (entries : List MemoryRegion) :
    (init entries).trackedPages = min (Word.alignUp (highestEnd entries) pageSize / pageSize) maxPages ∧
      (init entries).initialized = true := by
  rw [init]
  split
  · exact releaseRegion_table entries _
  · exact releaseRegion_table entries _

theorem init_table (entries : List MemoryRegion) :
    (init entries).trackedPages ≤ maxPages ∧ (init entries).initialized = true := by
  obtain ⟨ht, hi⟩ := trackedPages_init entries
  exact ⟨ht.trans_le (Nat.min_le_right _ _), hi⟩

/-! ## Allocation -/

theorem allFree_iff (p : Pmm) (first count : Nat) :
    allFree p first count = true ↔ ∀ j, first ≤ j → j < first + count → p.isUsed j = false := by
  simp only [allFree, List.all_eq_true, mem_range'_1, Bool.not_eq_true', and_imp]

/-- `count` free pages from `first` on, between page 1 and `bound`. -/
def FreeRun (p : Pmm) (count bound first : Nat) : Prop :=
  1 ≤ first ∧ first + count ≤ bound ∧ ∀ j, first ≤ j → j < first + count → p.isUsed j = false

variable {count : Nat}

/-- A run the search returns starts at page 1 or later, ends in bounds and is free. -/
theorem searchRun_some {bounded first : Nat}
    (hb : firstAllocatable < bounded ∧ count ≤ bounded - firstAllocatable)
    (h : searchRun p count bounded = some first) : FreeRun p count bounded first := by
  have hfree := find?_some h
  obtain ⟨offset, -, rfl⟩ := List.mem_map.mp (mem_of_find?_eq_some h)
  refine ⟨by simp only [firstAllocatable]; omega, ?_, (allFree_iff p _ count).mp hfree⟩
  simp only [firstAllocatable] at hb ⊢
  have hmod := Nat.mod_lt (searchStart p count bounded - 1 + offset)
    (show 0 < bounded - count - 1 + 1 by omega)
  omega

variable {maxPhys addr : Nat}

/-- **What a successful allocation does.** -/
theorem allocPagesBelow_run (h : (allocPagesBelow p count maxPhys).1 = some addr) :
    ∃ first, addr = first * pageSize ∧ 1 ≤ count ∧
      searchRun p count (boundedTrackedPages p maxPhys) = some first ∧
      FreeRun p count (boundedTrackedPages p maxPhys) first ∧
      (allocPagesBelow p count maxPhys).2 =
        { p with bitmap := p.bitmap.setRange first (first + count),
                 freePages := p.freePages - count, nextHint := first + count } := by
  unfold allocPagesBelow at h ⊢
  simp only at h ⊢
  split at h
  · cases h
  rename_i hcount
  rw [if_neg hcount]
  split at h
  · cases h
  rename_i hinit
  rw [if_neg hinit]
  split at h
  · cases h
  rename_i htracked
  rw [if_neg htracked]
  split at h
  · cases h
  rename_i hbounded
  rw [if_neg hbounded]
  cases hs : searchRun p count (boundedTrackedPages p maxPhys) with
  | none => rw [hs] at h; cases h
  | some first =>
    rw [hs] at h
    exact ⟨first, (Option.some.inj h).symm, by omega, rfl, searchRun_some (by omega) hs, rfl⟩

theorem allocPagesBelow_some (h : (allocPagesBelow p count maxPhys).1 = some addr) :
    ∃ first, addr = first * pageSize ∧ 1 ≤ first ∧ 1 ≤ count ∧ first + count ≤ p.trackedPages ∧
      (∀ j, first ≤ j → j < first + count → p.isUsed j = false) ∧
      (allocPagesBelow p count maxPhys).2 =
        { p with bitmap := p.bitmap.setRange first (first + count),
                 freePages := p.freePages - count, nextHint := first + count } := by
  obtain ⟨first, haddr, hcount, -, ⟨h1, hle, hfree⟩, hp⟩ := allocPagesBelow_run h
  exact ⟨first, haddr, h1, hcount, hle.trans (Nat.min_le_left _ _), hfree, hp⟩

/-- A failed allocation changes nothing. -/
theorem allocPagesBelow_none (h : (allocPagesBelow p count maxPhys).1 = none) :
    (allocPagesBelow p count maxPhys).2 = p := by
  unfold allocPagesBelow at h ⊢
  simp only at h ⊢
  split
  · rfl
  split
  · rfl
  split
  · rfl
  split
  · rfl
  cases hs : searchRun p count (boundedTrackedPages p maxPhys) with
  | none => rfl
  | some first => simp_all

/-- The counter covers what is allocated. -/
theorem allocPagesBelow_le (h : (allocPagesBelow p count maxPhys).1 = some addr) : count ≤ p.freePages := by
  unfold allocPagesBelow at h
  split at h
  · cases h
  split at h
  · cases h
  rename_i hinit
  push Not at hinit
  exact hinit.2.1

/-- The bits after an allocation: the run, and what was used before. -/
theorem isUsed_alloc {first f h j : Nat} :
    ({ p with bitmap := p.bitmap.setRange first (first + count), freePages := f,
              nextHint := h } : Pmm).isUsed j =
      (decide (first ≤ j ∧ j < first + count) || p.isUsed j) :=
  BitTable.test_setRange (by decide) p.bitmap first (first + count) j

/-- What allocating one page does. -/
theorem allocPage_some (h : (allocPage p).1 = some addr) :
    ∃ page, addr = page * pageSize ∧ page < p.trackedPages ∧ p.isUsed page = false ∧
      (allocPage p).2.trackedPages = p.trackedPages ∧
      p.freePages = (allocPage p).2.freePages + 1 ∧
      ∀ j, (allocPage p).2.isUsed j = (decide (j = page) || p.isUsed j) := by
  obtain ⟨page, haddr, -, -, hlt, hfree, hp⟩ := allocPagesBelow_some h
  have hcount : 1 ≤ p.freePages := allocPagesBelow_le h
  refine ⟨page, haddr, by omega, hfree page (Nat.le_refl _) (by omega), ?_, ?_, fun j => ?_⟩
  · rw [allocPage, allocPages, hp]
  · rw [allocPage, allocPages, hp]
    simp only
    omega
  · rw [allocPage, allocPages, hp, isUsed_alloc]
    congr 1
    exact decide_eq_decide.mpr (by omega)

theorem allocPage_none (h : (allocPage p).1 = none) : (allocPage p).2 = p :=
  allocPagesBelow_none h

/-! ## Freeing and reserving -/

/-- `free_page` on an address: either nothing, or that one page is freed. -/
theorem freePage_cases (p : Pmm) (addr : Nat) :
    (freePage p addr = (false, p)) ∨
    ((freePage p addr).1 = true ∧ addr % 4096 = 0 ∧ addr / pageSize ≠ 0 ∧
      addr / pageSize < p.trackedPages ∧ p.isUsed (addr / pageSize) = true ∧
      (freePage p addr).2.trackedPages = p.trackedPages ∧
      (freePage p addr).2.initialized = p.initialized ∧
      ∀ j, (freePage p addr).2.isUsed j = (!decide (addr / pageSize = j) && p.isUsed j)) := by
  unfold freePage
  rw [land_page_mask]
  by_cases ha : addr % 4096 ≠ 0
  · rw [if_pos ha]; exact .inl rfl
  rw [if_neg ha]
  by_cases hi : p.initialized = false
  · rw [if_pos hi]; exact .inl rfl
  rw [if_neg hi]
  by_cases hp : addr / pageSize = 0 ∨ p.trackedPages ≤ addr / pageSize ∨
      p.isUsed (addr / pageSize) = false
  · rw [if_pos hp]; exact .inl rfl
  rw [if_neg hp]
  push Not at hp
  refine .inr ⟨rfl, by omega, hp.1, hp.2.1, by simpa using hp.2.2, rfl, rfl, fun j => ?_⟩
  exact BitTable.test_clear (by decide) p.bitmap _ j

/-- Reserving a list of pages marks them used and nothing else. -/
theorem foldl_reservePage : ∀ (l : List Nat) (p : Pmm),
    (l.foldl reservePage p).trackedPages = p.trackedPages ∧
    (l.foldl reservePage p).initialized = p.initialized ∧
    ∀ j, (l.foldl reservePage p).isUsed j = true ↔ j ∈ l ∨ p.isUsed j = true := by
  refine foldl_mark fun p i => ?_
  rw [reservePage]
  split
  · rename_i hused
    refine ⟨rfl, rfl, fun j => ⟨.inr, ?_⟩⟩
    rintro (rfl | hj)
    · exact hused
    · exact hj
  · refine ⟨rfl, rfl, fun j => ?_⟩
    show (p.bitmap.set i).test j = true ↔ _
    rw [BitTable.test_set (by decide), Bool.or_eq_true, decide_eq_true_iff]
    rfl

/-- Freeing a run of used, tracked pages clears exactly their bits. -/
theorem freePagesLoop_spec : ∀ (n : Nat) (ok : Bool) (addr : Nat) (p : Pmm),
    p.initialized = true → p.trackedPages ≤ maxPages → addr % 4096 = 0 →
    (∀ i < n, addr / pageSize + i ≠ 0 ∧ addr / pageSize + i < p.trackedPages ∧
      p.isUsed (addr / pageSize + i) = true) →
    (freePagesLoop n ok addr p).2.trackedPages = p.trackedPages ∧
    (freePagesLoop n ok addr p).2.initialized = true ∧
    ∀ j, (freePagesLoop n ok addr p).2.isUsed j =
      (!decide (addr / pageSize ≤ j ∧ j < addr / pageSize + n) && p.isUsed j)
  | 0, ok, addr, p, hi, _, _, _ => by
      refine ⟨rfl, hi, fun j => ?_⟩
      simp only [freePagesLoop, show ¬ (addr / pageSize ≤ j ∧ j < addr / pageSize + 0) by omega]
      rfl
  | n + 1, ok, addr, p, hi, ht, ha, hall => by
      obtain ⟨h0, hlt, hused⟩ := hall 0 (by omega)
      -- the first page is really freed ...
      obtain hfail | ⟨-, -, -, -, -, hT, hI, hU⟩ := freePage_cases p addr
      · exfalso
        have hb : (freePage p addr).1 = true := by
          unfold freePage
          rw [land_page_mask, if_neg (by omega), if_neg (by simp [hi])]
          simp only
          rw [if_neg (by
            rw [Nat.add_zero] at h0 hlt hused
            simp [h0, hused, hlt])]
        rw [hfail] at hb; cases hb
      -- ... and the next address is the next page
      have hnext : Word.sadd addr pageSize = addr + 4096 := by
        rw [Word.sadd_eq]
        · rfl
        · simp only [maxPages, maxTrackedMemoryBytes, pageSize, Word.size] at *
          omega
      have hpage : (addr + 4096) / pageSize = addr / pageSize + 1 := by
        simp only [pageSize]; omega
      obtain ⟨hT', hI', hU'⟩ := freePagesLoop_spec n (ok && (freePage p addr).1) (addr + 4096)
        (freePage p addr).2 (hI.trans hi) (hT.trans_le ht) (by omega) (by
          intro i hin
          obtain ⟨g0, glt, gused⟩ := hall (i + 1) (by omega)
          rw [hpage, show addr / pageSize + 1 + i = addr / pageSize + (i + 1) by omega, hT, hU, gused]
          exact ⟨g0, glt, by simp⟩)
      simp only [freePagesLoop, hnext]
      refine ⟨hT'.trans hT, hI', fun j => ?_⟩
      rw [hU', hU, hpage]
      by_cases hj : addr / pageSize = j
      · subst hj; simp
      · have hiff : (addr / pageSize + 1 ≤ j ∧ j < addr / pageSize + 1 + n) ↔
            (addr / pageSize ≤ j ∧ j < addr / pageSize + (n + 1)) := by omega
        rw [decide_eq_decide.mpr hiff, decide_eq_false hj, Bool.not_false, Bool.true_and]

/-- The byte range `[base, base + length)` has a byte in page `page`. -/
def Covers (base length page : Nat) : Prop :=
  ∃ a, base ≤ a ∧ a < base + length ∧ a / pageSize = page

theorem covers_iff {base length page : Nat} :
    Covers base length page ↔
      length ≠ 0 ∧ page * 4096 < base + length ∧ base < (page + 1) * 4096 := by
  constructor
  · rintro ⟨a, h1, h2, h3⟩
    simp only [pageSize] at h3
    exact ⟨by omega, by omega, by omega⟩
  · rintro ⟨h0, h1, h2⟩
    refine ⟨max base (page * 4096), by omega, by omega, ?_⟩
    simp only [pageSize]; omega

/-- **What `reserve` does**: exactly the tracked pages its byte range meets become used. -/
theorem reserve_spec {base length : Nat} (hi : p.initialized = true) (hend : base + length ≤ 2 ^ 64 - 4096) :
    (reserve p base length).trackedPages = p.trackedPages ∧
    (reserve p base length).initialized = true ∧
    ∀ j, (reserve p base length).isUsed j = true ↔
      (j < p.trackedPages ∧ Covers base length j) ∨ p.isUsed j = true := by
  by_cases hl : length = 0
  · rw [reserve, if_pos (Or.inr hl)]
    refine ⟨rfl, hi, fun j => ?_⟩
    simp [covers_iff, hl]
  rw [reserve, if_neg (by simp [hi, hl])]
  obtain ⟨ht, hi', hu⟩ := foldl_reservePage (range' _
    (min _ p.trackedPages
      - Word.alignDown base pageSize / pageSize)) p
  refine ⟨ht, hi'.trans hi, fun j => ?_⟩
  rw [hu, mem_range'_1,
    Word.sadd_eq (by simp only [Word.size]; omega), alignUp_page hend, alignDown_page (by omega),
    covers_iff]
  refine or_congr_left ?_
  omega

end Saios.Memory
