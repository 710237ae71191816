/-
  THE FREE-PAGE COUNTER of the physical memory manager.

  The counter `free_pages` and the bitmap are updated separately, in the loops of four operations.
  `Tallied` says that they agree: the counter is the number of clear bits below `tracked_pages`, and
  no bit is clear beyond that.

  1. **One page** — `tallied_free` and `tallied_use`: a bit and the counter change together.  Neither
     addition nor subtraction wraps, because the counter never exceeds the number of tracked pages and
     a page that is taken was counted.

  2. **Operations** — `init`, allocation, `free_page`, `free_pages_range` and `reserve`, with ANY
     arguments: a double free finds a clear bit, an address outside the tracked pages is refused, and a
     range that wraps around `2^64` marks fewer pages or none.

  3. **Runs** — `counter_in_every_run`.  Callers need no discipline here, unlike for ownership.
-/
import Saios.PmmOwnership

namespace Saios.Memory

/-- The counter and the bitmap agree. -/
structure Tallied (p : Pmm) : Prop where
  tracked : p.trackedPages ≤ maxPages
  count : p.freePages = p.bitmap.clearBelow p.trackedPages
  beyond : ∀ j, p.trackedPages ≤ j → p.isUsed j = true

variable {j : Nat}

section
variable {p : Pmm} (h : Tallied p)
include h

theorem Tallied.free_le : p.freePages ≤ p.trackedPages := by
  rw [h.count]
  exact BitTable.clearBelow_le _ _

/-- The counter is far from the ends of the machine word. -/
theorem Tallied.free_small : p.freePages + 1 < Word.size := by
  have hle := h.free_le.trans h.tracked
  simp only [maxPages, maxTrackedMemoryBytes, pageSize, Word.size] at hle ⊢
  omega

theorem Tallied.lt_of_free (hj : p.isUsed j = false) : j < p.trackedPages := by
  by_contra hle
  rw [h.beyond j (Nat.le_of_not_lt hle)] at hj
  cases hj

/-! ## One page -/

theorem tallied_free (hj : j < p.trackedPages) (hused : p.isUsed j = true) (hint : Nat) :
    Tallied { p.setFree j with freePages := Word.wadd p.freePages 1, nextHint := hint } where
  tracked := h.tracked
  count := by
    show Word.wadd p.freePages 1 = (p.bitmap.clear j).clearBelow p.trackedPages
    rw [Word.wadd_eq h.free_small, h.count, BitTable.clearBelow_clear (by decide) hj hused]
  beyond k hk := by
    show (p.bitmap.clear j).test k = true
    have hjk : j ≠ k := by
      have hk' : p.trackedPages ≤ k := hk
      omega
    rw [BitTable.test_clear (by decide), decide_eq_false hjk]
    exact h.beyond k hk

/-- A page that is taken was counted. -/
theorem Tallied.pos_of_free (hfree : p.isUsed j = false) : 1 ≤ p.freePages := by
  have hcount := BitTable.clearBelow_set (by decide) (h.lt_of_free hfree) hfree
  rw [h.count]
  omega

theorem tallied_use (hfree : p.isUsed j = false) :
    Tallied { p.setUsed j with freePages := Word.wsub p.freePages 1 } where
  tracked := h.tracked
  count := by
    show Word.wsub p.freePages 1 = (p.bitmap.set j).clearBelow p.trackedPages
    have hsmall := h.free_small
    have hcount := BitTable.clearBelow_set (by decide) (h.lt_of_free hfree) hfree
    rw [Word.wsub_eq (h.pos_of_free hfree) (by omega), h.count]
    omega
  beyond k hk := by
    show (p.bitmap.set j).test k = true
    rw [BitTable.test_set (by decide), show p.bitmap.test k = true from h.beyond k hk, Bool.or_true]

/-! ## The loops -/

theorem tallied_releasePage (hj : j < p.trackedPages) : Tallied (releasePage p j) := by
  unfold releasePage
  split
  · rename_i hused
    exact tallied_free h hj hused p.nextHint
  · exact h

theorem tallied_releaseRegion (entry : MemoryRegion) : Tallied (releaseRegion p entry) := by
  have hloop : ∀ (l : List Nat) (q : Pmm), Tallied q → (∀ j ∈ l, j < q.trackedPages) →
      Tallied (l.foldl releasePage q) := by
    intro l
    induction l with
    | nil => exact fun _ hq _ => hq
    | cons j l ih =>
      intro q hq hall
      refine ih _ (tallied_releasePage hq (hall j List.mem_cons_self)) fun k hk => ?_
      rw [show (releasePage q j).trackedPages = q.trackedPages from (foldl_releasePage [j] q).1]
      exact hall k (List.mem_cons_of_mem j hk)
  unfold releaseRegion
  split
  · exact h
  · refine hloop _ p h fun j hj => ?_
    rw [List.mem_range'_1] at hj
    omega

end

/-- The counter and the bitmap agree, and page 0 is never given out. -/
structure Counted (p : Pmm) : Prop extends Tallied p where
  first : p.isUsed 0 = true

theorem counted_init (entries : List MemoryRegion) : Counted (init entries) := by
  have hreset : ∀ t, t ≤ maxPages → Tallied { Pmm.reset with trackedPages := t } := fun t ht =>
    ⟨ht, (BitTable.clearBelow_full (by decide) t).symm, fun j _ => BitTable.test_full (by decide) j⟩
  have hall := Run.foldl_inv (I := Tallied) (fun _ entry hq => tallied_releaseRegion hq entry) entries
    (hreset (min (Word.alignUp (highestEnd entries) pageSize / pageSize) maxPages) (Nat.min_le_right _ _))
  unfold init
  simp only
  generalize entries.foldl releaseRegion _ = p at hall ⊢
  split
  · rename_i hfree
    have hsmall := hall.free_small
    rw [← Word.wsub_eq (hall.pos_of_free hfree.2) (by omega)]
    refine ⟨tallied_use hall hfree.2, ?_⟩
    show (p.bitmap.set 0).test 0 = true
    rw [BitTable.test_set (by decide)]
    rfl
  · rename_i hfree
    refine ⟨hall, ?_⟩
    by_cases ht : 0 < p.trackedPages
    · exact Bool.of_not_eq_false fun hf => hfree ⟨ht, hf⟩
    · exact hall.beyond 0 (by omega)

/-! ## The operations -/

/-- `P` is kept when a free run is taken, when a page is freed and when one is reserved. -/
structure Preserved (P : Pmm → Prop) : Prop where
  take : ∀ {p first count}, P p → first + count ≤ p.trackedPages →
    (∀ j, first ≤ j → j < first + count → p.isUsed j = false) →
    P { p with bitmap := p.bitmap.setRange first (first + count), freePages := p.freePages - count,
               nextHint := first + count }
  free : ∀ {p page}, P p → page ≠ 0 → page < p.trackedPages → p.isUsed page = true → ∀ hint,
    P { p.setFree page with freePages := Word.wadd p.freePages 1, nextHint := hint }
  use : ∀ {p page}, P p → p.isUsed page = false →
    P { p.setUsed page with freePages := Word.wsub p.freePages 1 }

namespace Preserved

variable {P : Pmm → Prop} (hP : Preserved P) {p : Pmm}

include hP

theorem alloc (h : P p) (count maxPhys : Nat) : P (allocPagesBelow p count maxPhys).2 := by
  cases ha : (allocPagesBelow p count maxPhys).1 with
  | none => rw [allocPagesBelow_none ha]; exact h
  | some addr =>
    obtain ⟨first, -, -, -, hle, hfree, hp⟩ := allocPagesBelow_some ha
    rw [hp]
    exact hP.take h hle hfree

theorem freePage (h : P p) (addr : Nat) : P (freePage p addr).2 := by
  unfold Memory.freePage
  split
  · exact h
  split
  · exact h
  simp only
  split
  · exact h
  · rename_i hpage
    push Not at hpage
    exact hP.free h hpage.1 hpage.2.1 (by simpa using hpage.2.2) _

theorem freePagesLoop : ∀ (n : Nat) (ok : Bool) (addr : Nat) {p : Pmm}, P p → P (freePagesLoop n ok addr p).2
  | 0, _, _, _, h => h
  | n + 1, _, addr, _, h => freePagesLoop n _ _ (hP.freePage h addr)

theorem reservePage (h : P p) (j : Nat) : P (reservePage p j) := by
  unfold Memory.reservePage
  split
  · exact h
  · rename_i hfree
    exact hP.use h (by simpa using hfree)

/-- Every call keeps it, whatever its arguments. -/
theorem step {s : Clients} (h : P s.pmm) (call : Call) : P (step s call).pmm := by
  cases call with
  | allocPage => exact hP.alloc h 1 _
  | allocPages count => exact hP.alloc h count _
  | allocPagesBelow count maxPhys => exact hP.alloc h count maxPhys
  | freePage physAddr => exact hP.freePage h physAddr
  | freePagesRange base count =>
    show P (freePagesRange s.pmm base count).2
    unfold freePagesRange
    split
    · exact h
    · exact hP.freePagesLoop count true base h
  | reserve base length =>
    show P (reserve s.pmm base length)
    unfold reserve
    split
    · exact h
    · exact Run.foldl_inv (I := P) (fun _ j hq => hP.reservePage hq j) _ h

end Preserved

theorem preserved_tallied : Preserved Tallied where
  take h hle hfree := by
    refine ⟨h.tracked, ?_, fun j hj => ?_⟩
    · rw [h.count, BitTable.clearBelow_setRange (by decide) hle hfree, Nat.add_sub_cancel]
    · rw [isUsed_alloc, h.beyond j hj, Bool.or_true]
  free h _ hlt hused hint := tallied_free h hlt hused hint
  use h hfree := tallied_use h hfree

/-- The manager is initialized and its counter is right. -/
structure Ready (p : Pmm) : Prop extends Counted p where
  initialized : p.initialized = true

theorem preserved_ready : Preserved Ready where
  take h hle hfree :=
    ⟨⟨preserved_tallied.take h.toTallied hle hfree, by rw [isUsed_alloc, h.first, Bool.or_true]⟩, h.initialized⟩
  free {p page} h h0 hlt hused hint := by
    refine ⟨⟨tallied_free h.toTallied hlt hused hint, ?_⟩, h.initialized⟩
    show (p.bitmap.clear page).test 0 = true
    rw [BitTable.test_clear (by decide), decide_eq_false h0]
    exact h.first
  use {p page} h hfree := by
    refine ⟨⟨tallied_use h.toTallied hfree, ?_⟩, h.initialized⟩
    show (p.bitmap.set page).test 0 = true
    rw [BitTable.test_set (by decide), show p.bitmap.test 0 = true from h.first, Bool.or_true]

/-- Whatever calls are made. -/
theorem ready_calls {s : Clients} (h : Ready s.pmm) (calls : List Call) : Ready (calls.foldl step s).pmm :=
  Run.foldl_inv (I := fun s : Clients => Ready s.pmm) (fun _ call h => preserved_ready.step h call) calls h

theorem ready_run (entries : List MemoryRegion) (calls : List Call) : Ready (run entries calls).pmm :=
  ready_calls ⟨counted_init entries, (init_table entries).2⟩ calls

/-! ## Runs -/

/-- The subtractions of the loop of `reserve`: the counter before each one, and what is taken off. -/
def reserveSubtractions : List Nat → Pmm → List (Nat × Nat)
  | [], _ => []
  | page :: pages, p =>
      if p.isUsed page then reserveSubtractions pages (reservePage p page)
      else (p.freePages, 1) :: reserveSubtractions pages (reservePage p page)

/-- The subtraction of a successful allocation. -/
def allocSubtractions (p : Pmm) (count maxPhys : Nat) : List (Nat × Nat) :=
  match (allocPagesBelow p count maxPhys).1 with
  | none => []
  | some _ => [(p.freePages, count)]

/-- The subtractions from `free_pages` that a call makes. -/
def subtractions (p : Pmm) : Call → List (Nat × Nat)
  | .allocPage => allocSubtractions p 1 Word.max
  | .allocPages count => allocSubtractions p count Word.max
  | .allocPagesBelow count maxPhys => allocSubtractions p count maxPhys
  | .freePage _ => []
  | .freePagesRange _ _ => []
  | .reserve base length =>
      if p.initialized = false ∨ length = 0 then []
      else
        let start := Word.alignDown base pageSize / pageSize
        let stop := Word.alignUp (Word.sadd base length) pageSize / pageSize
        let limit := min stop p.trackedPages
        reserveSubtractions (List.range' start (limit - start)) p

theorem no_underflow {p : Pmm} (h : Tallied p) (call : Call) :
    ∀ s ∈ subtractions p call, s.2 ≤ s.1 := by
  have halloc : ∀ count maxPhys, ∀ s ∈ allocSubtractions p count maxPhys, s.2 ≤ s.1 := by
    intro count maxPhys s hs
    unfold allocSubtractions at hs
    cases ha : (allocPagesBelow p count maxPhys).1 with
    | none => rw [ha] at hs; cases hs
    | some addr =>
      rw [ha] at hs
      rw [List.mem_singleton.mp hs]
      exact allocPagesBelow_le ha
  have hreserve : ∀ (pages : List Nat) (q : Pmm), Tallied q →
      ∀ s ∈ reserveSubtractions pages q, s.2 ≤ s.1 := by
    intro pages
    induction pages with
    | nil => intro q _ s hs; cases hs
    | cons page pages ih =>
      intro q hq s hs
      have hrest := ih _ (preserved_tallied.reservePage hq page)
      unfold reserveSubtractions at hs
      split at hs
      · exact hrest s hs
      · rename_i hfree
        rcases List.mem_cons.mp hs with rfl | hs
        · exact hq.pos_of_free (by simpa using hfree)
        · exact hrest s hs
  cases call with
  | allocPage => exact halloc 1 _
  | allocPages count => exact halloc count _
  | allocPagesBelow count maxPhys => exact halloc count maxPhys
  | freePage physAddr => intro s hs; cases hs
  | freePagesRange base count => intro s hs; cases hs
  | reserve base length =>
    intro s hs
    simp only [subtractions] at hs
    split at hs
    · cases hs
    · exact hreserve _ p h s hs

/-- **The counter is right in every state.**  For every memory map and every sequence of allocations,
    frees and reserves with any arguments: `free_pages` is the number of clear bits below
    `tracked_pages`, every bit from there on is set, page 0 is marked used, and no subtraction of the
    next call, whatever it is, takes more from the counter than there is. -/
theorem counter_in_every_run (entries : List MemoryRegion) (calls : List Call) :
    let p := (run entries calls).pmm
    p.freePages = p.bitmap.clearBelow p.trackedPages ∧
      (∀ j, p.trackedPages ≤ j → p.isUsed j = true) ∧ p.isUsed 0 = true ∧
      ∀ call, ∀ s ∈ subtractions p call, s.2 ≤ s.1 := by
  intro p
  have h : Ready p := ready_run entries calls
  exact ⟨h.count, h.beyond, h.first, no_underflow h.toTallied⟩

end Saios.Memory
