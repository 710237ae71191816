/-
  WHEN THE HEAP SERVES A REQUEST that it ought to be able to serve.

  The heap grows in rounds.  A round asks the PMM for what is still wanted, at most one growth step (2 MiB,
  or 4 MiB for a block above 2 MiB), halves the request until the PMM has a run of that length, and makes
  the run a chunk OF ITS OWN.  A block lies in one chunk.  So a free run of the right length is not enough:

  1. **Halving undershoots** — with 12 pages of budget and one free run of 5, the rounds take 3 and 2.
  2. **The step is a cap** — no chunk is longer than 1024 pages, so a block above 4 MiB is never served.

  `Granted` says what one round gets, in terms of free runs; `Serves` follows the rounds until one of them
  gets enough.  Which run a round takes matters for the next one, so `Serves` also follows the search of the
  PMM.  `alloc_serves_iff`: under exactly this condition the pointer is not null.
-/
import Saios.Heap
import Saios.PmmExact

namespace Saios.Heap

open Saios.Memory List Option

/-! ## The condition -/

/-- The size of a block in pages, rounded up. -/
def pagesNeeded (bytes : Nat) : Nat := (bytes + 4095) / 4096

/-- Some run of `count` free pages lies below `bound`. -/
def HasRun (p : Pmm) (count bound : Nat) : Prop := ∃ first, FreeRun p count bound first

/-- One past the last page the heap may use. -/
def heapBound (w : World) : Nat :=
  boundedTrackedPages w.pmm (if w.identityMaxPhys = 0 then Word.max else w.identityMaxPhys)

/-- A request of `wanted` pages, halved until there is a run of that length, is a request of `m`. -/
def Granted (p : Pmm) (bound wanted m : Nat) : Prop :=
  ∃ k, m = wanted / 2 ^ k ∧ 1 ≤ m ∧ HasRun p m bound ∧ ∀ j < k, ¬HasRun p (wanted / 2 ^ j) bound

/-- The manager after the run `first .. first + count` is taken. -/
def takeRun (p : Pmm) (first count : Nat) : Pmm :=
  { p with bitmap := p.bitmap.setRange first (first + count),
           freePages := p.freePages - count, nextHint := first + count }

/-- In at most `slots` rounds, with `remaining` pages wanted in all and `stepPages` at most at a time, some
    round gets a run of `needed` pages or more. -/
def Serves (bound needed stepPages : Nat) : Nat → Pmm → Nat → Prop
  | 0, _, _ => False
  | slots + 1, p, remaining =>
      ∃ m, Granted p bound (min remaining stepPages) m ∧
        (needed ≤ m ∨ ∃ first, searchRun p m bound = some first ∧
          Serves bound needed stepPages slots (takeRun p first m) (remaining - m))

/-- The growth step of a request, in pages. -/
def growthStepPages (layout : Layout) : Nat :=
  (if heapGrowStepSmallBytes < layout.size then heapGrowStepLargeBytes else heapGrowStepSmallBytes) / 4096

/-- The pages the rounds for a request may take in all. -/
def growthPages (w : World) (layout : Layout) : Nat :=
  min ((w.heap.maxBytes - w.heap.committedBytes) / 4096)
    (max (pagesNeeded layout.size) (growthStepPages layout))

/-- What a request needs: nothing, room in a chunk, or a round of growth that gets enough. -/
def Servable (w : World) (layout : Layout) : Prop :=
  layout.size = 0 ∨ (∃ idx, fitsIn w.heap layout idx = true) ∨
    Serves (heapBound w) (pagesNeeded layout.size) (growthStepPages layout)
      (maxHeapChunks - w.heap.chunks.length) w.pmm (growthPages w layout)

/-- The budget covers the block, and the PMM has a run for it below the identity limit. -/
def Promised (w : World) (layout : Layout) : Prop :=
  pagesNeeded layout.size * 4096 ≤ w.heap.maxBytes - w.heap.committedBytes ∧
    ∃ first, 1 ≤ first ∧ first + pagesNeeded layout.size ≤ w.pmm.trackedPages ∧
      (w.identityMaxPhys ≠ 0 → (first + pagesNeeded layout.size) * 4096 ≤ w.identityMaxPhys) ∧
      ∀ j, first ≤ j → j < first + pagesNeeded layout.size → w.pmm.isUsed j = false

/-! ## One round -/

variable {w : World}

theorem ready_requestPages (h : Ready w.pmm) (pages : Nat) : Ready (requestPages w pages).2 := by
  rw [requestPages_eq]
  exact preserved_ready.alloc h pages _

theorem kept_ready (initialized : Bool) :
    Kept fun w => Ready w.pmm ∧ w.heap.initialized = initialized where
  addRun := by
    intro w pages first pmm h hreq
    have hafter := ready_requestPages h.1 pages
    rw [hreq] at hafter
    exact ⟨hafter, h.2⟩
  record := by
    intro w layout h
    refine ⟨h.1, ?_⟩
    show (tryAllocFromChunks w.heap layout).2.initialized = initialized
    rcases tryAllocFromChunks_cases w.heap layout with hr | ⟨idx, c, -, -, hr⟩
    · rw [hr, h.2]
    · rw [hr, ← h.2]

/-- A request is answered exactly when there is a run, and then by the run the search meets first. -/
theorem requestPages_cases (h : Ready w.pmm) {pages : Nat} (hpages : 1 ≤ pages) :
    (¬HasRun w.pmm pages (heapBound w) ∧ requestPages w pages = (none, w.pmm)) ∨
      HasRun w.pmm pages (heapBound w) ∧ ∃ first, searchRun w.pmm pages (heapBound w) = some first ∧
        FreeRun w.pmm pages (heapBound w) first ∧
        requestPages w pages = (some (first * pageSize), takeRun w.pmm first pages) := by
  have hiff := h.toTallied.alloc_none_iff h.initialized hpages
    (if w.identityMaxPhys = 0 then Word.max else w.identityMaxPhys)
  rw [requestPages_eq]
  cases hr : (allocPagesBelow w.pmm pages
      (if w.identityMaxPhys = 0 then Word.max else w.identityMaxPhys)).1 with
  | none => exact .inl ⟨hiff.mp hr, Prod.ext hr (allocPagesBelow_none hr)⟩
  | some addr =>
    obtain ⟨first, haddr, -, hsearch, hrun, hp⟩ := allocPagesBelow_run hr
    exact .inr ⟨⟨first, hrun⟩, first, hsearch, hrun, Prod.ext (hr.trans (congrArg some haddr)) hp⟩

variable {bound : Nat}

/-- A refused request is as good as half of it. -/
theorem granted_half {p : Pmm} {wanted : Nat} (hno : ¬HasRun p wanted bound) (m : Nat) :
    Granted p bound (wanted / 2) m ↔ Granted p bound wanted m := by
  have hdiv : ∀ j, wanted / 2 / 2 ^ j = wanted / 2 ^ (j + 1) := by
    intro j
    rw [Nat.div_div_eq_div_mul, Nat.pow_succ']
  constructor
  · rintro ⟨k, rfl, hpos, hrun, hbefore⟩
    refine ⟨k + 1, hdiv k, hpos, hrun, fun j hj => ?_⟩
    cases j with
    | zero => rw [Nat.pow_zero, Nat.div_one]; exact hno
    | succ j => rw [← hdiv]; exact hbefore j (by omega)
  · rintro ⟨k, rfl, hpos, hrun, hbefore⟩
    cases k with
    | zero => rw [Nat.pow_zero, Nat.div_one] at hrun; exact absurd hrun hno
    | succ k =>
      refine ⟨k, (hdiv k).symm, hpos, hrun, fun j hj => ?_⟩
      rw [hdiv]
      exact hbefore (j + 1) (by omega)

theorem Granted.unique {p : Pmm} {wanted m n : Nat} (hm : Granted p bound wanted m)
    (hn : Granted p bound wanted n) : m = n := by
  obtain ⟨k, rfl, -, hrun, hbefore⟩ := hm
  obtain ⟨l, rfl, -, hrun', hbefore'⟩ := hn
  rcases Nat.lt_trichotomy k l with hlt | rfl | hgt
  · exact absurd hrun (hbefore' k hlt)
  · rfl
  · exact absurd hrun' (hbefore l hgt)

theorem not_granted_zero {p : Pmm} {m : Nat} : ¬Granted p bound 0 m := by
  rintro ⟨k, rfl, hpos, -⟩
  rw [Nat.zero_div] at hpos
  exact absurd hpos (by decide)

/-- A round that gets nothing, and a round that gets the run of `Granted`. -/
theorem bestEffortLoop_granted : ∀ (fuel : Nat) (w : World) (wanted : Nat), Ready w.pmm → wanted < fuel →
    ((∀ m, ¬Granted w.pmm (heapBound w) wanted m) ∧ bestEffortLoop fuel w wanted = (none, w)) ∨
      ∃ m first, Granted w.pmm (heapBound w) wanted m ∧ searchRun w.pmm m (heapBound w) = some first ∧
        FreeRun w.pmm m (heapBound w) first ∧
        bestEffortLoop fuel w wanted =
          (some (first * pageSize, m),
            { w with pmm := takeRun w.pmm first m, taken := w.taken ++ [(first * pageSize, m)] })
  | 0, _, _, _, h => absurd h (Nat.not_lt_zero _)
  | fuel + 1, w, wanted, hready, hfuel => by
      rw [bestEffortLoop]
      by_cases h0 : wanted = 0
      · subst h0
        rw [if_pos rfl]
        exact .inl ⟨fun m => not_granted_zero, rfl⟩
      rw [if_neg h0]
      rcases requestPages_cases hready (Nat.one_le_iff_ne_zero.mpr h0) with
        ⟨hno, hreq⟩ | ⟨hrun, first, hsearch, hfree, hreq⟩
      · -- refused: the rest of the loop works on half the request
        rw [hreq]
        have hhalf := granted_half hno
        rcases bestEffortLoop_granted fuel w (wanted / 2) hready (by omega) with
          ⟨hnone, hloop⟩ | ⟨m, first, hgranted, hrest⟩
        · exact .inl ⟨fun m hm => hnone m ((hhalf m).mpr hm), hloop⟩
        · exact .inr ⟨m, first, (hhalf m).mp hgranted, hrest⟩
      · rw [hreq]
        refine .inr ⟨wanted, first, ⟨0, ?_, Nat.one_le_iff_ne_zero.mpr h0, hrun, ?_⟩, hsearch, hfree, rfl⟩
        · rw [Nat.pow_zero, Nat.div_one]
        · intro j hj
          exact absurd hj (Nat.not_lt_zero j)

/-! ## The rounds -/

theorem Serves.positive {needed stepPages : Nat} : ∀ {slots : Nat} {p : Pmm} {remaining : Nat},
    Serves bound needed stepPages slots p remaining → 0 < remaining
  | 0, _, _, h => h.elim
  | _ + 1, _, remaining, ⟨m, hgranted, _⟩ => by
      rcases Nat.eq_zero_or_pos remaining with rfl | hpos
      · exact absurd hgranted not_granted_zero
      · exact hpos

/-- Committed memory is whole pages. -/
theorem Inv.committed_page (h : Inv w) : w.heap.committedBytes % 4096 = 0 := by
  rw [h.committed_eq.2]
  exact Nat.mul_mod_right 4096 _

/-- A chunk of whole pages that nothing has been allocated from. -/
def HeapChunk.Fresh (c : HeapChunk) : Prop :=
  c.current = c.base ∧ c.base % 4096 = 0 ∧ 4096 ≤ c.base ∧ c.stop % 4096 = 0

/-- **The growth loop**: it appends chunks, each a fresh run of whole pages, and one of them holds `needed`
    pages exactly when `Serves` says so. -/
theorem growLoop_serves (needed : Nat) : ∀ (fuel : Nat) (w : World) (desired growthStep : Nat),
    Inv w → Ready w.pmm → desired ≤ w.heap.maxBytes → growthStep % 4096 = 0 → 0 < growthStep →
    w.heap.chunks.length + fuel ≤ maxHeapChunks →
    ∃ new, (growLoop fuel w desired growthStep).heap.chunks = w.heap.chunks ++ new ∧
      (∀ c ∈ new, c.Fresh) ∧
      ((∃ c ∈ new, c.base + needed * 4096 ≤ c.stop) ↔
        Serves (heapBound w) needed (growthStep / 4096) fuel w.pmm
          (pagesNeeded (desired - w.heap.committedBytes)))
  | 0, w, _, _, _, _, _, _, _, _ => by
      refine ⟨[], (append_nil _).symm, fun c hc => ?_, ?_⟩
      · cases hc
      · refine iff_of_false ?_ id
        rintro ⟨c, hc, -⟩
        cases hc
  | fuel + 1, w, desired, growthStep, h, hready, hd, hg, hg0, hslots => by
      -- a loop that stops here adds nothing, and nothing is granted
      have hstop : (∀ m, ¬Granted w.pmm (heapBound w)
            (min (pagesNeeded (desired - w.heap.committedBytes)) (growthStep / 4096)) m) →
          ∃ new, w.heap.chunks = w.heap.chunks ++ new ∧ (∀ c ∈ new, c.Fresh) ∧
            ((∃ c ∈ new, c.base + needed * 4096 ≤ c.stop) ↔
              Serves (heapBound w) needed (growthStep / 4096) (fuel + 1) w.pmm
                (pagesNeeded (desired - w.heap.committedBytes))) := by
        intro hno
        refine ⟨[], (append_nil _).symm, fun c hc => ?_, iff_of_false ?_ ?_⟩
        · cases hc
        · rintro ⟨c, hc, -⟩
          cases hc
        · rintro ⟨m, hgranted, -⟩
          exact hno m hgranted
      rw [growLoop]
      by_cases hc : w.heap.committedBytes < desired
      · rw [if_pos ⟨hc, by omega⟩]
        simp only [allocBestEffortPages]
        have hmax := h.max_le
        have hmp := h.max_page
        have hcm := h.committed_page
        have hwanted : (min (desired - w.heap.committedBytes) growthStep + 4095) / 4096 =
            min (pagesNeeded (desired - w.heap.committedBytes)) (growthStep / 4096) := by
          unfold pagesNeeded
          omega
        rw [bytesToPagesCeil_le (by omega) (by omega), hwanted]
        rcases bestEffortLoop_granted _ w (min (pagesNeeded (desired - w.heap.committedBytes))
            (growthStep / 4096)) hready (Nat.lt_succ_self _) with
          ⟨hnone, hb⟩ | ⟨m, first, hgranted, hsearch, hfree, hb⟩
        · rw [hb]
          exact hstop hnone
        · rw [hb]
          have hm1 : 1 ≤ m := hgranted.choose_spec.2.1
          have hmle : m ≤ pagesNeeded (desired - w.heap.committedBytes) := by
            obtain ⟨k, hk, -⟩ := hgranted
            exact hk ▸ (Nat.div_le_self _ _).trans (Nat.min_le_left _ _)
          have hfit : w.heap.committedBytes + m * 4096 ≤ w.heap.maxBytes := by
            unfold pagesNeeded at hmle
            omega
          obtain ⟨h1, hle, hall⟩ := hfree
          have htracked : first + m ≤ w.pmm.trackedPages := hle.trans (Nat.min_le_left _ _)
          have htr := h.tracked
          have hbase : first * pageSize ≤ 2 ^ 36 := by
            simp only [maxPages, maxTrackedMemoryBytes, pageSize] at *; omega
          have hmul : Word.smul m pageSize = m * 4096 :=
            Word.smul_eq (by simp only [pageSize, Word.size]; omega)
          simp only [hmul]
          rw [addChunk_whole (by omega) (by omega) hfit hmax hbase]
          have hinv : Inv (addRun w (takeRun w.pmm first m) first m) :=
            inv_addRun h h1 hm1 htracked hall rfl (fun j => isUsed_alloc) hfit
          have hnext : Ready (takeRun w.pmm first m) := by
            rcases requestPages_cases hready hm1 with ⟨hno, -⟩ | ⟨-, first', hsearch', -, hreq⟩
            · exact absurd ⟨first, h1, hle, hall⟩ hno
            · obtain rfl : first' = first := mem_unique hsearch' hsearch
              have hafter := ready_requestPages hready m
              rw [hreq] at hafter
              exact hafter
          obtain ⟨new, hchunks, hnew, hiff⟩ := growLoop_serves needed fuel
            (addRun w (takeRun w.pmm first m) first m) desired growthStep hinv hnext hd hg hg0
            (by simp only [addRun, length_append, length_singleton]; omega)
          have hrest : pagesNeeded (desired - (w.heap.committedBytes + m * 4096)) =
              pagesNeeded (desired - w.heap.committedBytes) - m := by
            unfold pagesNeeded
            omega
          refine ⟨⟨first * pageSize, first * pageSize, first * pageSize + m * 4096⟩ :: new, ?_, ?_, ?_⟩
          · refine hchunks.trans ?_
            simp only [addRun, append_assoc, singleton_append]
          · intro c hc
            rcases mem_cons.mp hc with rfl | hc
            · refine ⟨rfl, ?_, ?_, ?_⟩ <;> simp only [pageSize] <;> omega
            · exact hnew c hc
          · have hiff : (∃ c ∈ new, c.base + needed * 4096 ≤ c.stop) ↔
                Serves (heapBound w) needed (growthStep / 4096) fuel (takeRun w.pmm first m)
                  (pagesNeeded (desired - w.heap.committedBytes) - m) := hrest ▸ hiff
            simp only [mem_cons, exists_eq_or_imp, hiff]
            constructor
            · rintro (hsize | hlater)
              · exact ⟨m, hgranted, Or.inl (by omega)⟩
              · exact ⟨m, hgranted, Or.inr ⟨first, hsearch, hlater⟩⟩
            · rintro ⟨m', hgranted', hcase⟩
              obtain rfl := hgranted.unique hgranted'
              rcases hcase with hsize | ⟨first', hsearch', hlater⟩
              · exact .inl (by omega)
              · obtain rfl : first = first' := mem_unique hsearch hsearch'
                exact .inr hlater
      · rw [if_neg (fun hboth => hc hboth.1)]
        refine hstop fun m => ?_
        rw [show pagesNeeded (desired - w.heap.committedBytes) = 0 by unfold pagesNeeded; omega, Nat.zero_min]
        exact not_granted_zero

/-! ## Allocating -/

/-- Chunk `c` has room. -/
def HeapChunk.Fits (c : HeapChunk) (layout : Layout) : Prop :=
  c.isEmpty = false ∧ allocEnd c layout ≤ c.stop

variable {layout : Layout}

theorem exists_fitsIn {s : HeapState} :
    (∃ idx, fitsIn s layout idx = true) ↔ ∃ c ∈ s.chunks, c.Fits layout := by
  constructor
  · rintro ⟨idx, hfit⟩
    unfold fitsIn at hfit
    cases hc : s.chunks[idx]? with
    | none => rw [hc] at hfit; cases hfit
    | some c =>
      rw [hc] at hfit
      simp only [Bool.and_eq_true, Bool.not_eq_true', decide_eq_true_eq] at hfit
      exact ⟨c, mem_of_getElem? hc, hfit⟩
  · rintro ⟨c, hc, hempty, hfit⟩
    obtain ⟨idx, hidx⟩ := mem_iff_getElem?.mp hc
    refine ⟨idx, ?_⟩
    unfold fitsIn
    rw [hidx]
    simp only [hempty, Bool.not_false, Bool.true_and, decide_eq_true_eq]
    exact hfit

/-- **The search over the chunks tries all of them.** -/
theorem tryAllocFromChunks_ne_none {s : HeapState} :
    (tryAllocFromChunks s layout).1 ≠ none ↔ ∃ idx, fitsIn s layout idx = true := by
  constructor
  · intro hne
    obtain ⟨ptr, hptr⟩ := ne_none_iff_exists'.mp hne
    unfold tryAllocFromChunks at hptr
    simp only at hptr
    split at hptr
    · cases hptr
    split at hptr
    · cases hptr
    · rename_i idx hfind
      exact ⟨idx, find?_some hfind⟩
  · rintro ⟨idx, hfit⟩ hnone
    -- a chunk with room is a chunk, and the rotation reaches its number
    have hlt : idx < s.chunks.length := by
      by_contra hge
      unfold fitsIn at hfit
      rw [getElem?_eq_none (by omega)] at hfit
      cases hfit
    obtain ⟨offset, hoffset, hmod⟩ :=
      exists_offset hlt (Nat.mod_lt s.activeChunk (Nat.lt_of_le_of_lt (Nat.zero_le _) hlt))
    unfold tryAllocFromChunks at hnone
    simp only at hnone
    rw [if_neg (by omega)] at hnone
    split at hnone
    · rename_i hfind
      rw [find?_eq_none] at hfind
      refine hfind idx (List.mem_map.mpr ⟨offset, mem_range.mpr hoffset, ?_⟩) hfit
      rw [← hmod, Nat.mod_add_mod]
    · rename_i found hfind
      have hfound := find?_some hfind
      unfold fitsIn at hfound
      split at hnone
      · rename_i hget
        rw [hget] at hfound
        cases hfound
      · cases hnone

/-- A fresh chunk has room for a block, aligned to at most a page, exactly if it has the pages. -/
theorem HeapChunk.Fresh.fits_iff {c : HeapChunk} (h : c.Fresh) (hbase : c.base ≤ 2 ^ 36)
    (hstop : c.stop ≤ 2 ^ 36) (halign : layout.align ≤ 4096) :
    c.Fits layout ↔ c.base + pagesNeeded layout.size * 4096 ≤ c.stop := by
  obtain ⟨hcurrent, hpage, hlow, hend⟩ := h
  have hnonempty : c.isEmpty = false := by
    unfold HeapChunk.isEmpty
    rw [decide_eq_false]
    omega
  -- the alignment divides a page, so the block starts where the chunk does
  have hstart : allocStart c layout = c.base := by
    obtain ⟨k, hk⟩ := layout.align_pow
    have hk12 : k ≤ 12 := by
      by_contra hcon
      have : 2 ^ 13 ≤ 2 ^ k := Nat.pow_le_pow_right (by omega) (by omega)
      omega
    obtain ⟨q, hq⟩ : 2 ^ k ∣ c.base := (Nat.pow_dvd_pow 2 hk12).trans (Nat.dvd_of_mod_eq_zero hpage)
    have hpos : 0 < 2 ^ k := Nat.two_pow_pos k
    unfold allocStart
    rw [hcurrent, hk, Word.alignUp_eq (by omega) (by simp only [Word.size]; omega), hq,
      Nat.mul_add_div hpos, Nat.div_eq_of_lt (by omega), Nat.add_zero, Nat.mul_comm]
  unfold HeapChunk.Fits allocEnd
  unfold Word.sadd Word.max Word.size pagesNeeded
  constructor
  · omega
  · intro hroom
    exact ⟨hnonempty, by omega⟩

/-- After the growth loop some chunk has room exactly if an old one had, or a round got enough. -/
theorem growHeapLocked_fits (h : Inv w) (hready : Ready w.pmm) (hslot : w.heap.chunks.length < maxHeapChunks)
    (halign : layout.align ≤ 4096) (desired : Nat) {growthStep : Nat} (hpage : growthStep % 4096 = 0)
    (hpos : 0 < growthStep) :
    (∃ idx, fitsIn (growHeapLocked w desired growthStep).heap layout idx = true) ↔
      (∃ idx, fitsIn w.heap layout idx = true) ∨
        Serves (heapBound w) (pagesNeeded layout.size) (growthStep / 4096)
          (maxHeapChunks - w.heap.chunks.length) w.pmm
          (pagesNeeded (min desired w.heap.maxBytes - w.heap.committedBytes)) := by
  obtain ⟨new, hchunks, hnew, hiff⟩ := growLoop_serves _
    (maxHeapChunks - w.heap.chunks.length) w _ growthStep h hready
    (Nat.min_le_right _ _) hpage hpos (by omega)
  obtain ⟨hgrown, -⟩ := growLoop_inv (kept_ready w.heap.initialized) (maxHeapChunks - w.heap.chunks.length) w
    (min desired w.heap.maxBytes) growthStep h ⟨hready, rfl⟩ (Nat.min_le_right _ _) hpage hpos
  unfold growHeapLocked
  rw [growLoop_fuel maxHeapChunks (maxHeapChunks - w.heap.chunks.length) w _ growthStep (by omega) (by omega),
    ← hiff, exists_fitsIn, exists_fitsIn]
  have hfits : ∀ c ∈ new, (c.Fits layout ↔ c.base + pagesNeeded layout.size * 4096 ≤ c.stop) := by
    intro c hcn
    have hmem : c ∈ (growLoop (maxHeapChunks - w.heap.chunks.length) w (min desired w.heap.maxBytes)
        growthStep).heap.chunks := hchunks ▸ mem_append_right _ hcn
    have hbound := hgrown.chunk_bound hmem
    have hbump := hgrown.bump c hmem
    exact (hnew c hcn).fits_iff (by omega) hbound.2 halign
  rw [hchunks]
  constructor
  · rintro ⟨c, hcm, hcf⟩
    rcases mem_append.mp hcm with hold | hcn
    · exact .inl ⟨c, hold, hcf⟩
    · exact .inr ⟨c, hcn, (hfits c hcn).mp hcf⟩
  · rintro (⟨c, hold, hcf⟩ | ⟨c, hcn, hroom⟩)
    · exact ⟨c, mem_append_left _ hold, hcf⟩
    · exact ⟨c, mem_append_right _ hcn, (hfits c hcn).mpr hroom⟩

/-- **When `alloc` returns a pointer**, in a state the invariant and the manager's counter hold in. -/
theorem alloc_ne_none_iff (h : Inv w) (hready : Ready w.pmm) (hinit : w.heap.initialized = true)
    (hslot : w.heap.chunks.length < maxHeapChunks) (halign : layout.align ≤ 4096) :
    (alloc w layout).1 ≠ none ↔ Servable w layout := by
  unfold alloc Servable
  by_cases h0 : layout.size = 0
  · rw [if_pos h0]
    exact iff_of_true (some_ne_none _) (Or.inl h0)
  rw [if_neg h0, if_neg (by rw [hinit]; simp)]
  by_cases hfit : ∃ idx, fitsIn w.heap layout idx = true
  · -- an old chunk has room
    refine iff_of_true ?_ (Or.inr (.inl hfit))
    obtain ⟨ptr, hptr⟩ := ne_none_iff_exists'.mp (tryAllocFromChunks_ne_none.mpr hfit)
    rw [show tryAllocFromChunks w.heap layout = (some ptr, (tryAllocFromChunks w.heap layout).2) from
      Prod.ext hptr rfl]
    exact some_ne_none ptr
  have hnone : tryAllocFromChunks w.heap layout = (none, w.heap) := by
    refine (tryAllocFromChunks_cases w.heap layout).resolve_right fun ⟨idx, c, _, _, hr⟩ => ?_
    exact hfit (tryAllocFromChunks_ne_none.mp (by rw [hr]; exact some_ne_none _))
  rw [hnone]
  have hmax := h.max_le
  have hmp := h.max_page
  have hcm := h.committed_page
  have hsize := layout.fits
  simp only [h0, hfit, false_or, h.target, World.record]
  by_cases hc : w.heap.committedBytes < w.heap.maxBytes
  · -- the rounds may take what the budget leaves, up to the block or the growth step
    rw [if_pos hc]
    obtain ⟨growthStep, hstep, hpage, hpos, hsmall⟩ : ∃ growthStep,
        (if heapGrowStepSmallBytes < layout.size then heapGrowStepLargeBytes
          else heapGrowStepSmallBytes) = growthStep ∧ growthStep % 4096 = 0 ∧ 0 < growthStep ∧
        growthStep ≤ 2 ^ 30 := by
      refine ⟨_, rfl, ?_⟩
      split <;> decide
    have hstepPages : growthStepPages layout = growthStep / 4096 := by
      unfold growthStepPages
      rw [hstep]
    have hgrowth : pagesNeeded
        (min (min w.heap.maxBytes (Word.sadd w.heap.committedBytes (max layout.size growthStep)))
          w.heap.maxBytes - w.heap.committedBytes) = growthPages w layout := by
      rw [Word.sadd_eq (by simp only [Word.size]; omega)]
      unfold growthPages
      unfold pagesNeeded
      omega
    rw [hstep, tryAllocFromChunks_ne_none, growHeapLocked_fits h hready hslot halign _ hpage hpos, hgrowth,
      hstepPages]
    exact or_iff_right hfit
  · -- the budget is used up
    rw [if_neg hc, hnone]
    refine iff_of_false (fun hne => hne rfl) fun hserves => ?_
    have hpos := hserves.positive
    unfold growthPages at hpos
    omega

/-! ## Runs -/

/-- What may happen between two heap calls: any calls of the PMM that leave the heap's pages allocated. -/
def Sharing (w : World) : Step → Prop
  | .alloc _ => True
  | .othersUsePmm pmm =>
      (∃ calls : List Call, pmm = (calls.foldl Memory.step ⟨w.pmm, [], []⟩).pmm) ∧
        ∀ j, Owns w j → pmm.isUsed j = true

/-- What holds in every state of such a run. -/
structure Running (w : World) : Prop where
  inv : Inv w
  ready : Ready w.pmm
  initialized : w.heap.initialized = true

theorem running_alloc (h : Running w) (layout : Layout) : Running (alloc w layout).2 := by
  obtain ⟨hinv, hready, hinit⟩ := alloc_inv (kept_ready true) h.inv ⟨h.ready, h.initialized⟩ layout
  exact ⟨hinv, hready, hinit⟩

theorem running_step (h : Running w) (a : Step) (ha : Sharing w a) : Running (step w a) := by
  cases a with
  | alloc layout => exact running_alloc h layout
  | othersUsePmm pmm =>
    obtain ⟨⟨calls, rfl⟩, hused⟩ := ha
    have hready := ready_calls (s := ⟨w.pmm, [], []⟩) h.ready calls
    exact ⟨inv_step h.inv _ ⟨hready.tracked, hused⟩, hready, h.initialized⟩

theorem running_init {pmm : Pmm} (hready : Ready pmm) {identityMaxPhys : Nat}
    (h : init pmm identityMaxPhys = some w) : Running w := by
  have hinv := inv_init hready.tracked h
  obtain ⟨start, desired, hstart, rfl, hle, rfl⟩ := init_grown hready.tracked h
  have hgrown := growLoop_inv (kept_ready start.heap.initialized) maxHeapChunks start desired _ hstart ⟨hready, rfl⟩ hle
    (by decide : heapGrowStepLargeBytes % 4096 = 0) (by decide)
  exact ⟨hinv, hgrown.2.1, rfl⟩

/-- **When the heap keeps its promise.**  In every state of every run with a free chunk slot, for every
    layout aligned to at most a page that the budget and the PMM have the pages for: the pointer is not
    null exactly when the request is servable. -/
theorem alloc_serves_iff (entries : List MemoryRegion) (calls : List Call) (identityMaxPhys : Nat)
    {w : World} (hw : init (run entries calls).pmm identityMaxPhys = some w) (steps : List Step)
    (hs : Run.Along step Sharing w steps) (layout : Layout) (halign : layout.align ≤ 4096) :
    let final := steps.foldl step w
    final.heap.chunks.length < maxHeapChunks → Promised final layout →
      ((alloc final layout).1 ≠ none ↔ Servable final layout) := by
  intro final hslot _
  have hfinal : Running final :=
    Run.foldl_inv_along (fun _ a hv ha => running_step hv a ha)
      (running_init (ready_run entries calls) hw) hs
  exact alloc_ne_none_iff hfinal.inv hfinal.ready hfinal.initialized hslot halign

/-! ## Five free pages, and a request for five pages -/

/-- Sixteen pages of RAM, of which eleven are in use when the heap starts. -/
def crowdedMap : List MemoryRegion := [⟨0, 65536, .usable⟩]
def crowdedCalls : List Call := [.allocPages 11]

/-- The heap takes the other four as its first chunk; twelve pages of budget are left. -/
def crowded : World := (init (run crowdedMap crowdedCalls).pmm 0).get (by decide +kernel)

theorem init_crowded : init (run crowdedMap crowdedCalls).pmm 0 = some crowded := (some_get _).symm

/-- Then the first `n` of the eleven are freed. -/
def freed (n : Nat) : Step :=
  .othersUsePmm (([.freePagesRange 4096 n] : List Call).foldl Memory.step ⟨crowded.pmm, [], []⟩).pmm

/-- A block of `n` pages. -/
def pagesLayout (n : Nat) (h : n ≤ 16) : Layout := ⟨n * 4096, 8, ⟨3, rfl⟩, by omega⟩

/-- What has to be evaluated about the two scenarios below. -/
theorem crowded_facts :
    crowded.taken = [(49152, 4)] ∧
      ∀ n ∈ [5, 6], let final := step crowded (freed n)
        (∀ j ∈ range' 12 4, final.pmm.isUsed j = true) ∧
          (∀ j ∈ range' 1 n, final.pmm.isUsed j = false) ∧ final.pmm.trackedPages = 16 ∧
          final.identityMaxPhys = 0 ∧ final.heap.chunks.length = 1 ∧
          final.heap.maxBytes - final.heap.committedBytes = 49152 := by
  decide +kernel

theorem crowded_promised {n : Nat} (hn : n ∈ [5, 6]) (hle : n ≤ 16) :
    Run.Along step Sharing crowded [freed n] ∧
      (step crowded (freed n)).heap.chunks.length < maxHeapChunks ∧
      Promised (step crowded (freed n)) (pagesLayout n hle) := by
  obtain ⟨htaken, hall⟩ := crowded_facts
  obtain ⟨hused, hfree, htracked, hlimit, hlength, hbudget⟩ := hall n hn
  have hsize : pagesNeeded (pagesLayout n hle).size = n := by
    simp only [pagesNeeded, pagesLayout]
    omega
  have hn6 : n ≤ 6 := by
    simp only [mem_cons, not_mem_nil, or_false] at hn
    omega
  refine ⟨⟨⟨⟨_, rfl⟩, fun j hj => ?_⟩, trivial⟩, ?_, ?_, 1, Nat.le_refl 1, ?_, ?_, fun j h1 hj => ?_⟩
  · obtain ⟨r, hr, hin⟩ := hj
    rw [htaken, mem_singleton] at hr
    subst hr
    refine hused j (mem_range'_1.mpr ?_)
    simp only [pageSize] at hin
    omega
  · rw [hlength]
    decide
  · omega
  · omega
  · exact fun hne => absurd hlimit hne
  · exact hfree j (mem_range'_1.mpr ⟨h1, by omega⟩)

/-- Five free pages and twelve pages of budget: the rounds take three pages and two. -/
theorem five_pages_refused :
    ∃ w, init (run crowdedMap crowdedCalls).pmm 0 = some w ∧ Run.Along step Sharing w [freed 5] ∧
      (step w (freed 5)).heap.chunks.length < maxHeapChunks ∧
      Promised (step w (freed 5)) (pagesLayout 5 (by decide)) ∧
      (alloc (step w (freed 5)) (pagesLayout 5 (by decide))).1 = none := by
  obtain ⟨hshare, hslot, hpromised⟩ := crowded_promised (n := 5) (by decide) (by decide)
  exact ⟨crowded, init_crowded, hshare, hslot, hpromised, by decide +kernel⟩

/-- Six free pages: half of the twelve, and the block is served. -/
theorem six_pages_served :
    (alloc (step crowded (freed 6)) (pagesLayout 6 (by decide))).1 = some 4096 ∧
      Servable (step crowded (freed 6)) (pagesLayout 6 (by decide)) := by
  obtain ⟨hshare, hslot, hpromised⟩ := crowded_promised (n := 6) (by decide) (by decide)
  have hptr : (alloc (step crowded (freed 6)) (pagesLayout 6 (by decide))).1 = some 4096 := by decide +kernel
  refine ⟨hptr, (alloc_serves_iff crowdedMap crowdedCalls 0 init_crowded [freed 6] hshare
    (pagesLayout 6 (by decide)) (by decide) hslot hpromised).mp ?_⟩
  exact fun hnone => Option.some_ne_none 4096 (hptr.symm.trans hnone)

end Saios.Heap
