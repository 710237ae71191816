/-
  A PAGE TABLE BELOW 1 GiB: when `alloc_zeroed_table` finds a frame.

  1. **Order** (`searchRun_order`) — the PMM searches from its hint upwards and then round from page 1, so the
     page it returns comes before every other free page in that order.

  2. **The retry loop** (`giveBack`, `lowPage_stuck`) — a page above 1 GiB is given back, and `free_page` moves
     the hint back TO that page.  The next round finds the same page: the 4096 rounds try one page 4096 times.

  3. **`allocZeroedTable_low_iff`** — so the loop is worth one round.  With a page below 1 GiB free it fails
     exactly when the free pages from the hint on are all above 1 GiB, and there is one.
-/
import Saios.PmmExact
import Saios.Vmm.Manager

namespace Saios.Vmm

open Saios.Memory

variable {p : Pmm} {r g : Nat}

/-- **The page found is the first free one in the order of the search.** -/
theorem searchRun_order {bound : Nat} (h : searchRun p 1 bound = some r) (h1 : 1 ≤ g) (hlt : g < bound)
    (hfree : p.isUsed g = false) :
    (searchStart p 1 bound ≤ g → searchStart p 1 bound ≤ r ∧ r ≤ g) ∧
      (g < searchStart p 1 bound → searchStart p 1 bound ≤ r ∨ r ≤ g) := by
  have hstart : 1 ≤ searchStart p 1 bound ∧ searchStart p 1 bound < bound := by
    unfold searchStart firstAllocatable
    split <;> omega
  unfold searchRun at h
  generalize searchStart p 1 bound = start at h hstart
  simp only [firstAllocatable, List.find?_eq_some_iff_getElem, List.getElem_map, List.getElem_range,
    List.length_map, List.length_range] at h
  obtain ⟨-, i, hi, rfl, hbefore⟩ := h
  -- the round in which the search comes to `g`
  obtain ⟨o, ho, hmod⟩ := exists_offset (k := g - 1) (s := start - 1) (n := bound - 1 - 1 + 1) (by omega) (by omega)
  have hle : i ≤ o := by
    by_contra hlt'
    have hused := hbefore o (by omega)
    rw [hmod, show 1 + (g - 1) = g by omega, (allFree_iff p g 1).mpr fun j hj hj' => by
      rw [show j = g by omega]; exact hfree] at hused
    cases hused
  have hround : ∀ k < bound - 1 - 1 + 1, (start - 1 + k) % (bound - 1 - 1 + 1) =
      if start - 1 + k < bound - 1 - 1 + 1 then start - 1 + k else start - 1 + k - (bound - 1 - 1 + 1) := by
    intro k hk
    split
    · exact Nat.mod_eq_of_lt ‹_›
    · rw [Nat.mod_eq_sub_mod (by omega), Nat.mod_eq_of_lt (by omega)]
  rw [hround o ho] at hmod
  rw [hround i hi]
  split at hmod <;> split <;> omega

/-- What one page costs the search, in a PMM whose counter is right. -/
theorem allocPage_first (h : Ready p) (hfree : p.isUsed g = false) :
    ∃ r, searchRun p 1 p.trackedPages = some r ∧ (allocPage p).1 = some (r * pageSize) ∧ p.isUsed r = false := by
  have hne : (allocPage p).1 ≠ none := fun hnone =>
    (h.alloc_none_iff h.initialized (Nat.le_refl 1) _).mp hnone
      ⟨g, Nat.one_le_iff_ne_zero.mpr (fun h0 => by rw [h0, h.first] at hfree; cases hfree),
        (h.lt_of_free hfree).trans_eq (Nat.min_self _).symm, fun j hj hj' => by rw [show j = g by omega]; exact hfree⟩
  obtain ⟨addr, ha⟩ := Option.ne_none_iff_exists'.mp hne
  obtain ⟨r, rfl, -, hsearch, ⟨-, -, hrun⟩, -⟩ := allocPagesBelow_run ha
  exact ⟨r, by rwa [show boundedTrackedPages p Word.max = p.trackedPages from Nat.min_self _] at hsearch, ha,
    hrun r (Nat.le_refl r) (Nat.lt_succ_self r)⟩

/-- **A page that is taken and given back at once**: it is free again, and it is the hint. -/
theorem giveBack (h : Ready p) (ha : (allocPage p).1 = some (r * pageSize)) :
    Ready (freePage (allocPage p).2 (r * pageSize)).2 ∧
      (freePage (allocPage p).2 (r * pageSize)).2.nextHint = r ∧
      ∀ j, (freePage (allocPage p).2 (r * pageSize)).2.isUsed j = p.isUsed j := by
  have hready := preserved_ready.freePage (preserved_ready.alloc h 1 Word.max) (r * pageSize)
  obtain ⟨first, haddr, -, -, ⟨h1, hlt, hfree⟩, hp⟩ := allocPagesBelow_run ha
  obtain rfl : r = first := Nat.eq_of_mul_eq_mul_right (by decide) haddr
  have htracked : r + 1 ≤ p.trackedPages := hlt.trans (Nat.min_le_left _ _)
  have hused : ∀ j, (allocPage p).2.isUsed j = (decide (r ≤ j ∧ j < r + 1) || p.isUsed j) := fun j => by
    rw [allocPage, allocPages, hp, isUsed_alloc]
  have hback : freePage (allocPage p).2 (r * pageSize) = (true, { (allocPage p).2.setFree r with
      freePages := Word.wadd (allocPage p).2.freePages 1, nextHint := r }) := by
    have hinit : (allocPage p).2.initialized = true := by rw [allocPage, allocPages, hp]; exact h.initialized
    have ht : (allocPage p).2.trackedPages = p.trackedPages := by rw [allocPage, allocPages, hp]
    have hhint : (allocPage p).2.nextHint = r + 1 := by rw [allocPage, allocPages, hp]
    unfold freePage
    rw [land_page_mask, if_neg (by simp [pageSize]), hinit, if_neg (by decide)]
    simp only [Nat.mul_div_cancel r (show 0 < pageSize by decide), hhint, hused]
    rw [if_neg (by simp; omega), if_pos (Nat.lt_succ_self r)]
  rw [allocPage, allocPages] at hback ⊢
  refine ⟨hready, ?_, fun j => ?_⟩
  · rw [hback]
  · rw [hback]
    show ((allocPage p).2.bitmap.clear r).test j = _
    rw [BitTable.test_clear (by decide)]
    show (!decide (r = j) && (allocPage p).2.isUsed j) = _
    rw [hused]
    by_cases hj : r = j
    · rw [← hj, hfree r (Nat.le_refl r) (Nat.lt_succ_self r)]; simp
    · rw [show decide (r ≤ j ∧ j < r + 1) = false from decide_eq_false (by omega)]; simp [hj]

/-- From the hint on some page is free, but none below 1 GiB. -/
def Stuck (p : Pmm) : Prop :=
  (∃ j, p.nextHint ≤ j ∧ p.isUsed j = false) ∧ ∀ j, p.nextHint ≤ j → p.isUsed j = false → 2 ^ 18 ≤ j

/-- **Every round finds a page above 1 GiB**, and leaves the hint there. -/
theorem lowPage_stuck : ∀ (tries : Nat) {p : Pmm}, Ready p → 1 ≤ p.nextHint → Stuck p →
    (lowPage tries p).1 = .error "vmm: no low-memory page available for page table"
  | 0, _, _, _, _ => rfl
  | tries + 1, p, h, h1, ⟨⟨j, hj, hfree⟩, hhigh⟩ => by
      obtain ⟨r, hsearch, ha, hr⟩ := allocPage_first h hfree
      have hle : p.nextHint ≤ r := by
        have horder := (searchRun_order hsearch (h1.trans hj) (h.lt_of_free hfree) hfree).1
        have hlt := h.lt_of_free hfree
        rw [searchStart, if_pos ⟨h1, by omega⟩] at horder
        exact (horder hj).1
      have hfar := hhigh r hle hr
      obtain ⟨hready, hhint, hused⟩ := giveBack h ha
      rw [lowPage, ha]
      simp only
      rw [if_neg (by simp only [earlyTableMaxPhys, pageSize]; omega)]
      refine lowPage_stuck tries hready (by rw [hhint]; exact h1.trans hle) ⟨⟨r, hhint.le, by rw [hused]; exact hr⟩, ?_⟩
      intro k hk hfree'
      rw [hused] at hfree'
      exact hhigh k (hle.trans (hhint ▸ hk)) hfree'

/-- Otherwise the first round finds a low page, if there is one. -/
theorem lowPage_first (h : Ready p) (hg : g < 2 ^ 18) (hfree : p.isUsed g = false) (hnot : ¬Stuck p) (tries : Nat) :
    ∃ phys < 2 ^ 30, (lowPage (tries + 1) p).1 = .ok phys := by
  obtain ⟨r, hsearch, ha, hr⟩ := allocPage_first h hfree
  have hpos : ∀ {j}, p.isUsed j = false → 1 ≤ j := fun {j} hj =>
    Nat.one_le_iff_ne_zero.mpr fun h0 => by rw [h0, h.first] at hj; cases hj
  have hlow : r < 2 ^ 18 := by
    by_cases hafter : ∃ j, p.nextHint ≤ j ∧ p.isUsed j = false
    · -- a low page behind the hint
      obtain ⟨j, hj, hjfree, hjlow⟩ : ∃ j, p.nextHint ≤ j ∧ p.isUsed j = false ∧ j < 2 ^ 18 := by
        by_contra hnone
        refine hnot ⟨hafter, fun j hj hjfree => ?_⟩
        by_contra hlt
        exact hnone ⟨j, hj, hjfree, Nat.lt_of_not_le hlt⟩
      have horder := (searchRun_order hsearch (hpos hjfree) (h.lt_of_free hjfree) hjfree).1
      have hstart : searchStart p 1 p.trackedPages ≤ j := by
        unfold searchStart firstAllocatable
        split
        · exact hj
        · exact hpos hjfree
      exact (horder hstart).2.trans_lt hjlow
    · -- nothing behind the hint: the search comes round to the low page
      have hback : r < p.nextHint := by
        by_contra hle
        exact hafter ⟨r, Nat.le_of_not_lt hle, hr⟩
      obtain ⟨hup, hround⟩ := searchRun_order hsearch (hpos hfree) (h.lt_of_free hfree) hfree
      have hstart : searchStart p 1 p.trackedPages = p.nextHint ∨ searchStart p 1 p.trackedPages = 1 := by
        unfold searchStart firstAllocatable
        split
        · exact .inl rfl
        · exact .inr rfl
      rcases hstart with hstart | hstart
      · have hgb : g < p.nextHint := by
          by_contra hle
          exact hafter ⟨g, Nat.le_of_not_lt hle, hfree⟩
        rw [hstart] at hround
        rcases hround hgb with hle | hle <;> omega
      · rw [hstart] at hup
        have := (hup (hpos hfree)).2
        omega
  refine ⟨r * pageSize, by simp only [pageSize]; omega, ?_⟩
  rw [lowPage, ha]
  simp only
  rw [if_pos (by simp only [earlyTableMaxPhys, pageSize]; omega)]

theorem allocZeroedTable_result (b : Space) : (allocZeroedTable b).1 = (lowPage 4096 b.pmm).1 := by
  rw [allocZeroedTable]
  cases (lowPage 4096 b.pmm).1 <;> rfl

theorem ready_hint (h : Ready p) (hint : Nat) : Ready { p with nextHint := hint } :=
  { h with }

/-- **When a page table is found.**  In every state of the PMM with a free page below 1 GiB, whatever the hint:
    exactly when it is not stuck. -/
theorem allocZeroedTable_low_iff (entries : List MemoryRegion) (calls : List Memory.Call) (hint : Nat) (mem : Mem)
    (hlow : ∃ g < 2 ^ 18, (Memory.run entries calls).pmm.isUsed g = false) :
    (∃ phys < 2 ^ 30, (allocZeroedTable ⟨mem, { (Memory.run entries calls).pmm with nextHint := hint }⟩).1 =
      .ok phys) ↔ ¬Stuck { (Memory.run entries calls).pmm with nextHint := hint } := by
  have hready := ready_hint (ready_run entries calls) hint
  obtain ⟨g, hg, hfree⟩ := hlow
  rw [allocZeroedTable_result]
  constructor
  · rintro ⟨phys, -, hok⟩ hstuck
    have h1 : 1 ≤ hint := by
      by_contra h0
      have hhigh := hstuck.2 g (show hint ≤ g by omega) hfree
      omega
    rw [lowPage_stuck 4096 hready h1 hstuck] at hok
    cases hok
  · exact fun hnot => lowPage_first hready hg hfree hnot 4095

/-- A hint past the last page: the search starts at page 1. -/
theorem allocZeroedTable_low_past :
    (Memory.run [⟨4096, 4096, .usable⟩] []).pmm.isUsed 1 = false ∧
    ∃ phys < 2 ^ 30, (allocZeroedTable ⟨fun _ _ => 0#64,
      { (Memory.run [⟨4096, 4096, .usable⟩] []).pmm with nextHint := 9 }⟩).1 = .ok phys := by
  have hfree : (Memory.run [⟨4096, 4096, .usable⟩] []).pmm.isUsed 1 = false := by decide
  refine ⟨hfree, (allocZeroedTable_low_iff _ [] 9 _ ⟨1, by decide, hfree⟩).mpr ?_⟩
  rintro ⟨⟨j, hj, hjfree⟩, -⟩
  have hlt := (ready_hint (ready_run [⟨4096, 4096, .usable⟩] []) 9).lt_of_free hjfree
  have htracked : (Memory.run [⟨4096, 4096, .usable⟩] []).pmm.trackedPages = 2 := by decide
  have hj : 9 ≤ j := hj
  simp only [htracked] at hlt
  omega

/-- A page at 4 KiB and a page at 1 GiB. -/
def twoPages : List MemoryRegion := [⟨4096, 4096, .usable⟩, ⟨2 ^ 30, 4096, .usable⟩]

/-- **A low page that is never found**: both pages are free and the hint is between them. -/
theorem low_page_not_found :
    let p := { (Memory.run twoPages []).pmm with nextHint := 2 }
    p.isUsed 1 = false ∧ ∀ mem, (allocZeroedTable ⟨mem, p⟩).1 =
      .error "vmm: no low-memory page available for page table" := by
  have hfree := @init_isFree_iff twoPages (by simp [twoPages])
  have htracked : (init twoPages).trackedPages = 2 ^ 18 + 1 := by
    decide
  have hready := ready_run twoPages []
  unfold Memory.run start at hready ⊢
  generalize init twoPages = p at hfree htracked hready ⊢
  simp only [InUsable, twoPages, List.mem_cons, List.not_mem_nil, or_false, exists_eq_or_imp,
    exists_eq_left, pageSize, true_and] at hfree
  refine ⟨(hfree 1).mpr (by omega), fun mem => ?_⟩
  rw [allocZeroedTable_result]
  refine lowPage_stuck 4096 (ready_hint hready 2) (Nat.le_succ 1) ⟨⟨2 ^ 18, ?_, ?_⟩, ?_⟩
  · show 2 ≤ 2 ^ 18
    omega
  · exact (hfree (2 ^ 18)).mpr (by omega)
  · intro j hj hjfree
    have hj : 2 ≤ j := hj
    have := (hfree j).mp hjfree
    omega

end Saios.Vmm
