/-
  EXACTLY WHICH PAGES ARE FREE after `init`, and EXACTLY WHEN an allocation fails.

  1. **`init`** — two passes: how many pages are tracked, and which of them are freed.  The number of
     tracked pages comes from the highest region end, rounded up to a page, and rounding up an address in
     the last page of the 64-bit space wraps to 0.  A memory map with such a region leaves NOTHING free,
     whatever else is in it (`init_wraps`); on every other map `init` does what a set-level reading of the
     map says (`init_frees_iff`).

  2. **Allocation** — the search starts at the hint, goes round and comes back.  It tries every start
     (`searchRun_complete`), so it fails only when there is no free run at all; and the counter, which lets it
     give up early, is right in every state, so it never gives up too early (`alloc_exact`).
-/
import Saios.PmmCount

namespace Saios.Memory

open List

/-! ## `init` -/

/-- The whole page lies inside a Usable region, with the region's end clipped to the address space. -/
def WholeIn (entries : List MemoryRegion) (page : Nat) : Prop :=
  ∃ r ∈ entries, r.regionType = .usable ∧
    r.base ≤ page * pageSize ∧ (page + 1) * pageSize ≤ min (r.base + r.length) (2 ^ 64)

/-- The pages that ought to be free. -/
def ShouldBeFree (entries : List MemoryRegion) (page : Nat) : Prop :=
  page ≠ 0 ∧ page < maxPages ∧ WholeIn entries page

variable {entries : List MemoryRegion}

/-- Below 64 GiB no region end is clipped. -/
theorem wholeIn_iff {page : Nat} (h : page < maxPages) : WholeIn entries page ↔ InUsable entries page := by
  have hsmall : (page + 1) * pageSize ≤ 2 ^ 64 := by
    simp only [maxPages, maxTrackedMemoryBytes, pageSize] at h ⊢
    omega
  simp only [WholeIn, InUsable, Nat.le_min, hsmall, and_true]

/-- The first loop of `init`: a maximum. -/
theorem highestEnd_le {top : Nat} :
    highestEnd entries ≤ top ↔ ∀ r ∈ entries, Word.sadd r.base r.length ≤ top := by
  have hfold : ∀ (l : List MemoryRegion) (high : Nat),
      l.foldl (fun highest entry => if highest < Word.sadd entry.base entry.length then
        Word.sadd entry.base entry.length else highest) high ≤ top ↔
        high ≤ top ∧ ∀ r ∈ l, Word.sadd r.base r.length ≤ top := by
    intro l
    induction l with
    | nil => simp
    | cons e l ih =>
      intro high
      -- one round takes the larger of the two
      rw [foldl_cons, ih, forall_mem_cons, ← and_assoc]
      refine and_congr_left fun _ => ?_
      split <;> omega
  rw [highestEnd, hfold]
  exact and_iff_right (Nat.zero_le top)

theorem highestEnd_lt (entries : List MemoryRegion) : highestEnd entries < 2 ^ 64 := by
  refine Nat.lt_succ_of_le (highestEnd_le.mpr fun r _ => ?_)
  unfold Word.sadd Word.max Word.size
  omega

/-- **The wrap-around**: a region that reaches into the last page of the address space leaves no page
    free. -/
theorem init_wraps {r : MemoryRegion} (hr : r ∈ entries) (hend : 2 ^ 64 - 4096 < r.base + r.length)
    (page : Nat) : (init entries).isUsed page = true := by
  have hhigh : 2 ^ 64 - 4096 < highestEnd entries := by
    have hle := highestEnd_le.mp (Nat.le_refl _) r hr
    unfold Word.sadd Word.max Word.size at hle
    omega
  have hzero : Word.alignUp (highestEnd entries) pageSize = 0 :=
    Word.alignUp_wraps (k := 12) (by decide) (highestEnd_lt entries) (by unfold Word.size; omega)
  have htracked : (init entries).trackedPages = 0 := by
    rw [(trackedPages_init entries).1, hzero, Nat.zero_div, Nat.zero_min]
  exact (counted_init entries).beyond page (htracked ▸ Nat.zero_le page)

/-- On a map without such a region the pages that ought to be free are. -/
theorem init_exact (hend : ∀ r ∈ entries, r.base + r.length ≤ 2 ^ 64 - 4096) (page : Nat) :
    (init entries).isUsed page = false ↔ ShouldBeFree entries page := by
  have hhigh : highestEnd entries ≤ 2 ^ 64 - 4096 := by
    refine highestEnd_le.mpr fun r hr => ?_
    rw [Word.sadd_eq (by have := hend r hr; simp only [Word.size]; omega)]
    exact hend r hr
  rw [init_isFree_iff hend, (trackedPages_init entries).1, alignUp_page hhigh, Nat.lt_min]
  constructor
  · rintro ⟨h0, ⟨-, hmax⟩, hin⟩
    exact ⟨h0, hmax, (wholeIn_iff hmax).mpr hin⟩
  · rintro ⟨h0, hmax, hin⟩
    have hin := (wholeIn_iff hmax).mp hin
    refine ⟨h0, ⟨?_, hmax⟩, hin⟩
    -- the region ends at or below the highest end
    obtain ⟨r, hr, -, -, hstop⟩ := hin
    have hle := highestEnd_le.mp (Nat.le_refl _) r hr
    rw [Word.sadd_eq (by have := hend r hr; simp only [Word.size]; omega)] at hle
    simp only [pageSize] at hstop
    omega

/-- **What `init` frees.**  For every memory map: exactly the pages that ought to be free are, unless a
    region reaches into the last page of the address space while some page ought to be free. -/
theorem init_frees_iff (entries : List MemoryRegion) :
    (∀ page, (init entries).isUsed page = false ↔ ShouldBeFree entries page) ↔
      (∀ r ∈ entries, r.base + r.length ≤ 2 ^ 64 - 4096) ∨ ∀ page, ¬ShouldBeFree entries page := by
  by_cases hend : ∀ r ∈ entries, r.base + r.length ≤ 2 ^ 64 - 4096
  · exact ⟨fun _ => .inl hend, fun _ => init_exact hend⟩
  · push Not at hend
    obtain ⟨r, hr, hlt⟩ := hend
    have hused := init_wraps hr hlt
    constructor
    · refine fun hexact => .inr fun page hfree => ?_
      rw [← hexact page, hused page] at hfree
      cases hfree
    · rintro (hall | hnone) page
      · exact absurd (hall r hr) (Nat.not_le.mpr hlt)
      · rw [hused page]
        refine iff_of_false ?_ (hnone page)
        rintro ⟨⟩

/-- One usable page, and a device at the top of the address space: the page is not freed. -/
theorem init_loses_page :
    let entries : List MemoryRegion := [⟨4096, 4096, .usable⟩, ⟨2 ^ 64 - 4096, 4096, .mmio⟩]
    ShouldBeFree entries 1 ∧ (init entries).isUsed 1 = true := by
  refine ⟨⟨by decide, by decide, ⟨4096, 4096, .usable⟩, List.mem_cons_self, rfl, by decide, by decide⟩, ?_⟩
  exact init_wraps (List.mem_cons_of_mem _ (List.mem_singleton_self _))
    (by decide) 1

/-! ## Allocation -/

/-- Going round from any start, `n` steps meet every residue. -/
theorem exists_offset {k s n : Nat} (hk : k < n) (hs : s < n) : ∃ offset < n, (s + offset) % n = k := by
  refine ⟨(k + n - s) % n, Nat.mod_lt _ (by omega), ?_⟩
  rw [Nat.add_mod_mod, show s + (k + n - s) = k + n by omega, Nat.add_mod_right, Nat.mod_eq_of_lt hk]

variable {p : Pmm}

/-- **The search tries every start**, so it finds a free run if there is one. -/
theorem searchRun_complete {count bound first : Nat} (h : FreeRun p count bound first) :
    searchRun p count bound ≠ none := by
  obtain ⟨h1, hle, hfree⟩ := h
  have hstart : searchStart p count bound - 1 < bound - count - 1 + 1 := by
    unfold searchStart firstAllocatable
    split <;> omega
  obtain ⟨offset, hoffset, hmod⟩ := exists_offset (k := first - 1) (by omega) hstart
  intro hnone
  unfold searchRun at hnone
  simp only [find?_eq_none] at hnone
  refine hnone first ?_ ((allFree_iff p first count).mpr hfree)
  refine List.mem_map.mpr ⟨offset, mem_range.mpr hoffset, ?_⟩
  simp only [firstAllocatable]
  omega

theorem Tallied.le_free (h : Tallied p) {count bound first : Nat} (hbound : bound ≤ p.trackedPages)
    (hrun : FreeRun p count bound first) : count ≤ p.freePages := by
  obtain ⟨-, hle, hfree⟩ := hrun
  have hcount := BitTable.clearBelow_setRange (by decide) (hle.trans hbound) hfree
  rw [h.count, hcount]
  exact Nat.le_add_left _ _

/-- **When an allocation fails**: there is no free run below the bound. -/
theorem Tallied.alloc_none_iff (h : Tallied p) (hinit : p.initialized = true) {count : Nat}
    (hcount : 1 ≤ count) (maxPhys : Nat) :
    (allocPagesBelow p count maxPhys).1 = none ↔
      ¬∃ first, FreeRun p count (boundedTrackedPages p maxPhys) first := by
  have hbound : boundedTrackedPages p maxPhys ≤ p.trackedPages := Nat.min_le_left _ _
  constructor
  · rintro hnone ⟨first, hrun⟩
    -- none of the early exits is taken
    have hfree := h.le_free hbound hrun
    obtain ⟨h1, hle, -⟩ := id hrun
    unfold allocPagesBelow at hnone
    rw [if_neg (by omega), if_neg (by rw [hinit]; simp; omega),
      if_neg (by simp only [firstAllocatable]; omega)] at hnone
    rw [if_neg (by simp only [firstAllocatable]; omega)] at hnone
    cases hs : searchRun p count (boundedTrackedPages p maxPhys) with
    | none => exact searchRun_complete hrun hs
    | some first => rw [hs] at hnone; cases hnone
  · intro hno
    cases ha : (allocPagesBelow p count maxPhys).1 with
    | none => rfl
    | some addr =>
      obtain ⟨first, -, -, -, hrun, -⟩ := allocPagesBelow_run ha
      exact absurd ⟨first, hrun⟩ hno

/-- Below a page-aligned limit, or without one, a run may use the tracked pages under the limit. -/
theorem boundedTrackedPages_eq (ht : p.trackedPages ≤ maxPages) {maxPhys : Nat}
    (hmax : maxPhys = Word.max ∨ (maxPhys % 4096 = 0 ∧ maxPhys < 2 ^ 64)) :
    boundedTrackedPages p maxPhys = min p.trackedPages (maxPhys / pageSize) := by
  simp only [maxPages, maxTrackedMemoryBytes, pageSize] at ht
  unfold boundedTrackedPages
  split
  · rename_i hmax
    rw [hmax]
    simp only [Word.max, Word.size, pageSize]
    omega
  · rw [Word.sadd_eq (by simp only [Word.size, pageSize]; omega)]
    simp only [pageSize]
    omega

/-- **When an allocation fails and what it gives.**  In every state a run can reach, whatever the hint,
    for at least one page and a page-aligned limit or none: the allocation fails exactly when no run of
    that many free pages lies between page 1 and the limit.  When it succeeds, the run it returns was
    free and lies there, and exactly its pages become used. -/
theorem alloc_exact (entries : List MemoryRegion) (calls : List Call) (hint count maxPhys : Nat)
    (hcount : 1 ≤ count) (hmax : maxPhys = Word.max ∨ (maxPhys % 4096 = 0 ∧ maxPhys < 2 ^ 64)) :
    let p := { (run entries calls).pmm with nextHint := hint }
    let limit := min p.trackedPages (maxPhys / pageSize)
    ((allocPagesBelow p count maxPhys).1 = none ↔ ¬∃ first, FreeRun p count limit first) ∧
      ∀ addr, (allocPagesBelow p count maxPhys).1 = some addr →
        ∃ first, addr = first * pageSize ∧ FreeRun p count limit first ∧
          ∀ j, (allocPagesBelow p count maxPhys).2.isUsed j =
            (decide (first ≤ j ∧ j < first + count) || p.isUsed j) := by
  have hready := ready_run entries calls
  intro p limit
  have hp : Tallied p := { hready with }
  have hlimit : boundedTrackedPages p maxPhys = limit := boundedTrackedPages_eq hp.tracked hmax
  constructor
  · rw [hp.alloc_none_iff hready.initialized hcount, hlimit]
  · intro addr ha
    obtain ⟨first, haddr, -, -, hrun, hafter⟩ := allocPagesBelow_run ha
    refine ⟨first, haddr, hlimit ▸ hrun, fun j => ?_⟩
    rw [hafter]
    exact isUsed_alloc

/-- Four usable pages, and a hint past the end: two pages below 16 KiB are found. -/
theorem alloc_two_below :
    let p := { (run [⟨0, 16384, .usable⟩] []).pmm with nextHint := 9 }
    (allocPagesBelow p 2 16384).1 = some 4096 ∧
      ((allocPagesBelow p 2 16384).1 = none ↔
        ¬∃ first, FreeRun p 2 (min p.trackedPages (16384 / pageSize)) first) := by
  exact ⟨by decide, (alloc_exact [⟨0, 16384, .usable⟩] [] 9 2 16384 (by decide) (Or.inr (by decide))).1⟩

end Saios.Memory
