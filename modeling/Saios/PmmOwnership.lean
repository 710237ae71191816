/-
  EXCLUSIVE OWNERSHIP of physical pages.

  The PMM itself keeps one bit per page; who holds a page is known only to its callers.  `Clients`
  puts the two together: the PMM, the pages each live allocation still holds, and the byte ranges
  reserved so far.  `Allowed` is the callers' discipline (free only what you hold, reserve only what
  nobody holds), and `Exclusive` the invariant that carries ownership through wrap-around searches,
  frees that rewind the hint, and reserves:

  * a clear bit is a page that may be handed out (not page 0, tracked, inside a Usable region);
  * a held page is marked used, so no search can return it again;
  * a reserved page is marked used and held by nobody, so it can be neither returned nor freed.
-/
import Saios.Lib.Run
import Saios.Pmm

namespace Saios.Memory

open List

/-- The PMM with the pages its callers hold, one list per live allocation, and the reserved byte
    ranges `(base, length)`. -/
structure Clients where
  pmm : Pmm
  live : List (List Nat)
  reserved : List (Nat × Nat)

inductive Call
  | allocPage
  | allocPages (count : Nat)
  | allocPagesBelow (count maxPhys : Nat)
  | freePage (physAddr : Nat)
  | freePagesRange (base count : Nat)
  | reserve (base length : Nat)
  deriving DecidableEq, Repr

/-- A successful allocation hands its run of pages to the caller. -/
def grant (s : Clients) (count : Nat) (r : Option Nat × Pmm) : Clients :=
  { s with pmm := r.2,
           live := match r.1 with
             | some addr => List.range' (addr / pageSize) count :: s.live
             | none => s.live }

/-- The callers give up the pages `first .. first + count`. -/
def dropPages (live : List (List Nat)) (first count : Nat) : List (List Nat) :=
  live.map (·.filter fun j => !decide (first ≤ j ∧ j < first + count))

def step (s : Clients) : Call → Clients
  | .allocPage => grant s 1 (allocPage s.pmm)
  | .allocPages count => grant s count (allocPages s.pmm count)
  | .allocPagesBelow count maxPhys => grant s count (allocPagesBelow s.pmm count maxPhys)
  | .freePage physAddr =>
      { s with pmm := (freePage s.pmm physAddr).2,
               live := dropPages s.live (physAddr / pageSize) 1 }
  | .freePagesRange base count =>
      { s with pmm := (freePagesRange s.pmm base count).2,
               live := dropPages s.live (base / pageSize) count }
  | .reserve base length =>
      { s with pmm := reserve s.pmm base length, reserved := (base, length) :: s.reserved }

/-- Some live allocation holds page `j`. -/
def Held (s : Clients) (j : Nat) : Prop := ∃ a ∈ s.live, j ∈ a

/-- What callers may ask for: free only whole pages they hold, reserve only byte ranges that end at
    or below `2^64 - 4096` and that no live allocation overlaps. -/
def Allowed (s : Clients) : Call → Prop
  | .freePage physAddr => physAddr % 4096 = 0 ∧ Held s (physAddr / pageSize)
  | .freePagesRange base count =>
      base % 4096 = 0 ∧ ∀ i < count, Held s (base / pageSize + i)
  | .reserve base length =>
      base + length ≤ 2 ^ 64 - 4096 ∧ ∀ j, Held s j → ¬ Covers base length j
  | _ => True

/-- The state after `init`: nothing allocated, nothing reserved. -/
def start (entries : List MemoryRegion) : Clients := ⟨init entries, [], []⟩

def run (entries : List MemoryRegion) (calls : List Call) : Clients :=
  calls.foldl step (start entries)

/-! ## The invariant -/

structure Exclusive (entries : List MemoryRegion) (s : Clients) : Prop where
  tracked : s.pmm.trackedPages ≤ maxPages
  initialized : s.pmm.initialized = true
  /-- A clear bit is a page that may be handed out. -/
  free_ok : ∀ j, s.pmm.isUsed j = false → j ≠ 0 ∧ j < s.pmm.trackedPages ∧ InUsable entries j
  /-- A held page is marked used and was a page that may be handed out. -/
  held_ok : ∀ j, Held s j →
    s.pmm.isUsed j = true ∧ j ≠ 0 ∧ j < s.pmm.trackedPages ∧ InUsable entries j
  disjoint : s.live.Pairwise List.Disjoint
  /-- A reserved page is marked used ... -/
  reserved_used : ∀ r ∈ s.reserved, ∀ j, Covers r.1 r.2 j → j < s.pmm.trackedPages →
    s.pmm.isUsed j = true
  /-- ... and nobody's. -/
  reserved_free : ∀ r ∈ s.reserved, ∀ j, Covers r.1 r.2 j → ¬ Held s j

variable {entries : List MemoryRegion} {s : Clients}

theorem exclusive_start (hend : ∀ r ∈ entries, r.base + r.length ≤ 2 ^ 64 - 4096) :
    Exclusive entries (start entries) where
  tracked := (init_table entries).1
  initialized := (init_table entries).2
  free_ok := fun j hj => (init_isFree_iff hend j).mp hj
  held_ok := by rintro j ⟨a, ha, -⟩; exact absurd ha not_mem_nil
  disjoint := Pairwise.nil
  reserved_used := nofun
  reserved_free := nofun

/-- Allocation: the run was free, so nobody held it and no reserve covers it. -/
theorem exclusive_grant (h : Exclusive entries s) (count maxPhys : Nat) :
    Exclusive entries (grant s count (allocPagesBelow s.pmm count maxPhys)) := by
  cases hr : (allocPagesBelow s.pmm count maxPhys).1 with
  | none =>
    have hsame : grant s count (allocPagesBelow s.pmm count maxPhys) = s := by
      rw [grant, hr, allocPagesBelow_none hr]
    rw [hsame]; exact h
  | some addr =>
    obtain ⟨first, rfl, h1, hc, hle, hfree, hpmm⟩ := allocPagesBelow_some hr
    have hdiv : first * pageSize / pageSize = first := Nat.mul_div_cancel _ (by decide)
    have hgrant : grant s count (allocPagesBelow s.pmm count maxPhys) =
        { s with pmm := (allocPagesBelow s.pmm count maxPhys).2,
                 live := range' first count :: s.live } := by
      rw [grant, hr]
      simp only [hdiv]
    rw [hgrant, hpmm]
    have hmem : ∀ j, j ∈ range' first count ↔ first ≤ j ∧ j < first + count := by
      intro j; rw [mem_range'_1]
    refine ⟨h.tracked, h.initialized, ?_, ?_, ?_, ?_, ?_⟩
    · intro j hj
      rw [isUsed_alloc, Bool.or_eq_false_iff] at hj
      exact h.free_ok j hj.2
    · rintro j ⟨a, ha, hja⟩
      rw [isUsed_alloc]
      rcases mem_cons.mp ha with rfl | ha
      · have hj := (hmem j).mp hja
        exact ⟨by simp [hj], h.free_ok j (hfree j hj.1 hj.2)⟩
      · obtain ⟨hu, hrest⟩ := h.held_ok j ⟨a, ha, hja⟩
        exact ⟨by simp [hu], hrest⟩
    · refine Pairwise.cons ?_ h.disjoint
      intro a ha j hj hja
      have hj' := (hmem j).mp hj
      have hused := (h.held_ok j ⟨a, ha, hja⟩).1
      rw [hfree j hj'.1 hj'.2] at hused
      cases hused
    · intro r hr' j hcov hlt
      rw [isUsed_alloc, h.reserved_used r hr' j hcov hlt, Bool.or_true]
    · rintro r hr' j hcov ⟨a, ha, hja⟩
      rcases mem_cons.mp ha with rfl | ha
      · have hj := (hmem j).mp hja
        have hused := h.reserved_used r hr' j hcov (by omega)
        rw [hfree j hj.1 hj.2] at hused
        cases hused
      · exact h.reserved_free r hr' j hcov ⟨a, ha, hja⟩

theorem held_dropPages {first count j : Nat} {p : Pmm} :
    Held { s with pmm := p, live := dropPages s.live first count } j ↔
      Held s j ∧ ¬ (first ≤ j ∧ j < first + count) := by
  constructor
  · rintro ⟨a, ha, hja⟩
    obtain ⟨b, hb, rfl⟩ := List.mem_map.mp ha
    rw [mem_filter, Bool.not_eq_true', decide_eq_false_iff_not] at hja
    exact ⟨⟨b, hb, hja.1⟩, hja.2⟩
  · rintro ⟨⟨b, hb, hjb⟩, hn⟩
    refine ⟨_, List.mem_map.mpr ⟨b, hb, rfl⟩, ?_⟩
    rw [mem_filter, Bool.not_eq_true', decide_eq_false_iff_not]
    exact ⟨hjb, hn⟩

section

variable (h : Exclusive entries s)

include h

/-- Freeing held pages: they were handed out properly, so they may be again. -/
theorem exclusive_drop {first count : Nat} {p : Pmm} (hheld : ∀ i < count, Held s (first + i))
    (ht : p.trackedPages = s.pmm.trackedPages) (hi : p.initialized = true)
    (hu : ∀ j, p.isUsed j = (!decide (first ≤ j ∧ j < first + count) && s.pmm.isUsed j)) :
    Exclusive entries { s with pmm := p, live := dropPages s.live first count } := by
  have hin : ∀ {j}, first ≤ j ∧ j < first + count → Held s j := by
    intro j hj
    have := hheld (j - first) (by omega)
    rwa [show first + (j - first) = j by omega] at this
  refine ⟨ht.trans_le h.tracked, hi, ?_, ?_, ?_, ?_, ?_⟩
  · intro j hj
    simp only [ht]
    rw [hu] at hj
    by_cases hr : first ≤ j ∧ j < first + count
    · exact (h.held_ok j (hin hr)).2
    · exact h.free_ok j (by simpa [hr] using hj)
  · intro j hj
    obtain ⟨hs, hr⟩ := held_dropPages.mp hj
    simp only [ht, hu]
    exact ⟨by simp [hr, (h.held_ok j hs).1], (h.held_ok j hs).2⟩
  · rw [dropPages, pairwise_map]
    refine h.disjoint.imp ?_
    intro a b hab j hja hjb
    exact hab (mem_of_mem_filter hja) (mem_of_mem_filter hjb)
  · intro r hr j hcov hlt
    simp only [ht] at hlt
    have hn : ¬ (first ≤ j ∧ j < first + count) := fun hin' =>
      h.reserved_free r hr j hcov (hin hin')
    simp only [hu]
    simp [hn, h.reserved_used r hr j hcov hlt]
  · intro r hr j hcov hj
    exact h.reserved_free r hr j hcov (held_dropPages.mp hj).1

theorem exclusive_freePagesLoop (base count : Nat) (ok : Bool) (hb : base % 4096 = 0)
    (hheld : ∀ i < count, Held s (base / pageSize + i)) :
    Exclusive entries { s with pmm := (freePagesLoop count ok base s.pmm).2,
                               live := dropPages s.live (base / pageSize) count } := by
  obtain ⟨ht, hi, hu⟩ := freePagesLoop_spec count ok base s.pmm h.initialized h.tracked hb
    (fun i hi => by
      obtain ⟨hused, h0, hlt, -⟩ := h.held_ok _ (hheld i hi)
      exact ⟨h0, hlt, hused⟩)
  exact exclusive_drop h hheld ht hi hu

/-- Reserving: nobody holds a page of the range. -/
theorem exclusive_reserve {base length : Nat} (hend : base + length ≤ 2 ^ 64 - 4096)
    (hno : ∀ j, Held s j → ¬ Covers base length j) :
    Exclusive entries (step s (.reserve base length)) := by
  obtain ⟨ht, hi, hu⟩ := reserve_spec h.initialized hend
  refine ⟨ht.trans_le h.tracked, hi, ?_, ?_, h.disjoint, ?_, ?_⟩
  · intro j hj
    have hnot : s.pmm.isUsed j = false := by
      cases hused : s.pmm.isUsed j with
      | false => rfl
      | true =>
        have := (hu j).mpr (Or.inr hused)
        rw [show (reserve s.pmm base length).isUsed j = false from hj] at this
        cases this
    rw [show (step s (.reserve base length)).pmm.trackedPages = s.pmm.trackedPages from ht]
    exact h.free_ok j hnot
  · intro j hj
    obtain ⟨hused, h0, hlt, hin⟩ := h.held_ok j hj
    exact ⟨(hu j).mpr (Or.inr hused), h0, by rw [show
      (step s (.reserve base length)).pmm.trackedPages = s.pmm.trackedPages from ht]; exact hlt, hin⟩
  · intro r hr j hcov hlt
    rw [show (step s (.reserve base length)).pmm.trackedPages = s.pmm.trackedPages from ht] at hlt
    rcases mem_cons.mp hr with rfl | hr
    · exact (hu j).mpr (Or.inl ⟨hlt, hcov⟩)
    · exact (hu j).mpr (Or.inr (h.reserved_used r hr j hcov hlt))
  · intro r hr j hcov hj
    rcases mem_cons.mp hr with rfl | hr
    · exact hno j hj hcov
    · exact h.reserved_free r hr j hcov hj

/-- **One allowed call keeps exclusive ownership.** -/
theorem exclusive_step (c : Call) (ha : Allowed s c) :
    Exclusive entries (step s c) := by
  cases c with
  | allocPage => exact exclusive_grant h 1 Word.max
  | allocPages count => exact exclusive_grant h count Word.max
  | allocPagesBelow count maxPhys => exact exclusive_grant h count maxPhys
  | freePage physAddr =>
    obtain ⟨hal, hheld⟩ := ha
    exact exclusive_freePagesLoop h physAddr 1 true hal fun i hi => by
      obtain rfl : i = 0 := by omega
      exact hheld
  | freePagesRange base count =>
    obtain ⟨hal, hheld⟩ := ha
    have hloop := exclusive_freePagesLoop h base count true hal hheld
    by_cases hc : count = 0
    · subst hc
      exact hloop
    · show Exclusive entries { s with pmm := (freePagesRange s.pmm base count).2, live := _ }
      rw [freePagesRange, if_neg hc]
      exact hloop
  | reserve base length => exact exclusive_reserve h ha.1 ha.2

end

/-- **Exclusive ownership over whole runs.**  For every memory map (its regions need not even be
    disjoint) and every sequence of allowed calls: the pages of live allocations are pairwise
    disjoint, and none of them is page 0, leaves every Usable region, reaches 64 GiB, or is covered
    by a reserve call. -/
theorem live_allocations_exclusive (entries : List MemoryRegion) (calls : List Call)
    (hend : ∀ r ∈ entries, r.base + r.length ≤ 2 ^ 64 - 4096)
    (hcalls : Run.Along step Allowed (start entries) calls) :
    let s := run entries calls
    s.live.Pairwise List.Disjoint ∧
    ∀ a ∈ s.live, ∀ j ∈ a,
      j ≠ 0 ∧ InUsable entries j ∧ (j + 1) * pageSize ≤ 64 * 1024 * 1024 * 1024 ∧
      ∀ r ∈ s.reserved, ¬ Covers r.1 r.2 j := by
  intro s
  have h : Exclusive entries s :=
    Run.foldl_inv_along (fun _ c hs hc => exclusive_step hs c hc)
      (exclusive_start hend) hcalls
  refine ⟨h.disjoint, fun a ha j hj => ?_⟩
  obtain ⟨-, h0, hlt, hin⟩ := h.held_ok j ⟨a, ha, hj⟩
  refine ⟨h0, hin, ?_, fun r hr hcov => h.reserved_free r hr j hcov ⟨a, ha, hj⟩⟩
  have ht := h.tracked
  simp only [maxPages, maxTrackedMemoryBytes, pageSize] at *
  omega

/-- Page 1 is allocated, freed and handed out again after the hint has been rewound. -/
theorem live_allocations_exclusive_rewind :
    let map : List MemoryRegion := [⟨0, 0x8000, .usable⟩, ⟨0x8000, 0x1000, .reserved⟩]
    let calls : List Call :=
      [.allocPage, .allocPages 2, .freePage 4096, .reserve 0x6000 100, .allocPagesBelow 1 0x5000]
    (run map calls).live = [[1], [2, 3], []] ∧ (run map calls).live.Pairwise List.Disjoint := by
  intro map calls
  refine ⟨by decide, (live_allocations_exclusive map calls (by decide) ?_).1⟩
  refine ⟨trivial, trivial, ⟨by decide, [1], by decide, by decide⟩, ⟨by decide, ?_⟩, trivial, trivial⟩
  rintro j ⟨a, ha, hja⟩ hc
  have hlive : (([.allocPage, .allocPages 2, .freePage 4096] : List Call).foldl step
      (start map)).live = [[2, 3], []] := by decide
  have hmem : a ∈ [[2, 3], []] := hlive ▸ ha
  have hcov := covers_iff.mp hc
  rcases List.mem_cons.mp hmem with rfl | hmem
  · rcases List.mem_cons.mp hja with rfl | hja
    · omega
    · rw [List.mem_singleton] at hja; omega
  · rw [List.mem_singleton.mp hmem] at hja
    exact List.not_mem_nil hja

end Saios.Memory
