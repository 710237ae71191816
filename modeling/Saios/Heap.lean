/-
  The kernel HEAP (`seed/saios/src/heap.rs`): a bump allocator over up to 512 chunks, each chunk one
  run of pages taken from the PMM.

  1. **Program** — `HeapState` and `init` / `alloc` / `growHeapLocked` / `addChunk` /
     `tryAllocFromChunks` / `allocBestEffortPages` under the source's names.  The fixed array of
     chunks with its `chunk_count` is the list of the chunks in use.  The loops that the source
     writes with `while` carry an explicit bound that they provably never exhaust: a halved request
     shrinks, and every round of the growth loop adds a chunk or breaks.

  2. **Ghost** — `World.taken` records every run the PMM hands to the heap, AT the moment it does so
     (before `add_chunk` has a say), and `World.blocks` every block `alloc` returns.  A page that
     `add_chunk` dropped would show as a run without a chunk.

  3. **Invariant** (`Inv`) — chunks are exactly the taken runs, in order; the budget is whole pages
     on both sides, which is why the clipping in `add_chunk` never bites; blocks lie below their
     chunk's bump pointer.  Between two heap calls the PMM may be used by anyone
     (`Step.othersUsePmm`), as long as nobody frees the heap's pages.
-/
import Mathlib.Algebra.BigOperators.Ring.List
import Saios.Lib.Run
import Saios.Pmm

namespace Saios.Heap

open Saios.Memory List Option

def initialHeapBytes : Nat := 32 * 1024 * 1024
def fallbackInitialHeapBytes : Nat := 2 * 1024 * 1024
def reservedVirtualHeapBytes : Nat := 1024 * 1024 * 1024
def fallbackMaxHeapBytes : Nat := 32 * 1024 * 1024
def heapGrowStepSmallBytes : Nat := 2 * 1024 * 1024
def heapGrowStepLargeBytes : Nat := 4 * 1024 * 1024
def maxHeapChunks : Nat := 512

structure HeapChunk where
  base : Nat
  current : Nat
  stop : Nat
  deriving DecidableEq, Repr

def HeapChunk.isEmpty (c : HeapChunk) : Bool :=
  decide (c.base = 0 ∧ c.current = 0 ∧ c.stop = 0)

structure HeapState where
  chunks : List HeapChunk
  activeChunk : Nat
  committedBytes : Nat
  maxBytes : Nat
  targetBytes : Nat
  initialized : Bool

/-- `core::alloc::Layout`: a power-of-two alignment, and a size that fits `isize` when rounded up
    to it. -/
structure Layout where
  size : Nat
  align : Nat
  align_pow : ∃ k, align = 2 ^ k
  fits : size + align ≤ 2 ^ 63

/-- A block `alloc` has returned. -/
structure Block where
  ptr : Nat
  layout : Layout

/-- The heap, the PMM it draws from and the identity-mode limit (0 = off), with the ghost records of
    the runs `(base, pages)` taken and the blocks returned. -/
structure World where
  heap : HeapState
  pmm : Pmm
  identityMaxPhys : Nat
  taken : List (Nat × Nat)
  blocks : List Block

/-! ## Growing -/

def bytesToPagesCeil (bytes : Nat) : Nat :=
  max 1 (Word.sadd bytes (pageSize - 1) / pageSize)

/-- One request to the PMM, below the limit in identity mode. -/
def requestPages (w : World) (pages : Nat) : Option Nat × Pmm :=
  if w.identityMaxPhys = 0 then allocPages w.pmm pages
  else allocPagesBelow w.pmm pages w.identityMaxPhys

/-- The halving loop of `alloc_best_effort_pages`; `fuel` bounds its rounds. -/
def bestEffortLoop : Nat → World → Nat → Option (Nat × Nat) × World
  | 0, w, _ => (none, w)
  | fuel + 1, w, pages =>
      if pages = 0 then (none, w)
      else
        match requestPages w pages with
        | (some base, pmm) => (some (base, pages), { w with pmm := pmm, taken := w.taken ++ [(base, pages)] })
        | (none, pmm) => bestEffortLoop fuel { w with pmm := pmm } (pages / 2)

/-- Halving `maxPages` reaches 0 in at most `maxPages + 1` rounds. -/
def allocBestEffortPages (w : World) (maxPages : Nat) : Option (Nat × Nat) × World :=
  bestEffortLoop (maxPages + 1) w maxPages

def addChunk (s : HeapState) (base bytes : Nat) : Bool × HeapState :=
  if maxHeapChunks ≤ s.chunks.length ∨ bytes = 0 then (false, s)
  else if s.maxBytes ≤ s.committedBytes then (false, s)
  else
    let available := s.maxBytes - s.committedBytes
    let bytes := min bytes available
    if bytes = 0 then (false, s)
    else
      (true, { s with
        chunks := s.chunks ++ [{ base := base, current := base, stop := Word.sadd base bytes }],
        committedBytes := Word.sadd s.committedBytes bytes })

/-- The growth loop; every round adds a chunk, so `MAX_HEAP_CHUNKS` rounds are enough. -/
def growLoop : Nat → World → Nat → Nat → World
  | 0, w, _, _ => w
  | fuel + 1, w, desired, growthStepBytes =>
      if w.heap.committedBytes < desired ∧ w.heap.chunks.length < maxHeapChunks then
        let remaining := desired - w.heap.committedBytes
        let requestBytes := min remaining growthStepBytes
        let pagesWanted := bytesToPagesCeil requestBytes
        match allocBestEffortPages w pagesWanted with
        | (none, w) => w
        | (some (base, pages), w) =>
            let bytes := Word.smul pages pageSize
            match addChunk w.heap base bytes with
            | (false, _) => w
            | (true, heap) => growLoop fuel { w with heap := heap } desired growthStepBytes
      else w

def growHeapLocked (w : World) (desiredBytes growthStepBytes : Nat) : World :=
  growLoop maxHeapChunks w (min desiredBytes w.heap.maxBytes) growthStepBytes

/-! ## Allocating -/

/-- Where a block of this layout would start in chunk `c`. -/
def allocStart (c : HeapChunk) (layout : Layout) : Nat := Word.alignUp c.current layout.align

/-- One past the block's last byte; the addition saturates. -/
def allocEnd (c : HeapChunk) (layout : Layout) : Nat := Word.sadd (allocStart c layout) layout.size

/-- Chunk number `idx` has room. -/
def fitsIn (s : HeapState) (layout : Layout) (idx : Nat) : Bool :=
  match s.chunks[idx]? with
  | some c => !c.isEmpty && decide (allocEnd c layout ≤ c.stop)
  | none => false

def tryAllocFromChunks (s : HeapState) (layout : Layout) : Option Nat × HeapState :=
  if s.chunks.length = 0 then (none, s)
  else
    let order := (List.range s.chunks.length).map fun i => (s.activeChunk + i) % s.chunks.length
    match order.find? (fitsIn s layout) with
    | none => (none, s)
    | some idx =>
        match s.chunks[idx]? with
        | none => (none, s)
        | some c =>
            (some (allocStart c layout),
              { s with chunks := s.chunks.set idx { c with current := allocEnd c layout },
                       activeChunk := idx })

/-- The address `NonNull::<u8>::dangling` returns for a zero-sized layout. -/
def dangling : Nat := 1

/-- Record a non-null result. -/
def World.record (w : World) (r : Option Nat × HeapState) (layout : Layout) : Option Nat × World :=
  (r.1, { w with heap := r.2,
                 blocks := match r.1 with
                   | some ptr => ⟨ptr, layout⟩ :: w.blocks
                   | none => w.blocks })

/-- `GlobalAlloc::alloc`; `none` is the null pointer. -/
def alloc (w : World) (layout : Layout) : Option Nat × World :=
  if layout.size = 0 then (some dangling, w)
  else if w.heap.initialized = false then (none, w)
  else
    match tryAllocFromChunks w.heap layout with
    | (some ptr, heap) => w.record (some ptr, heap) layout
    | (none, heap) =>
        let w := { w with heap := heap }
        let w :=
          if w.heap.committedBytes < w.heap.targetBytes then
            let growthStep :=
              if heapGrowStepSmallBytes < layout.size then heapGrowStepLargeBytes
              else heapGrowStepSmallBytes
            let minExtra := max layout.size growthStep
            let desired := min w.heap.targetBytes (Word.sadd w.heap.committedBytes minExtra)
            growHeapLocked w desired growthStep
          else w
        w.record (tryAllocFromChunks w.heap layout) layout

/-- `heap::init`; `none` is the failed assertion that some initial chunk was mapped. -/
def init (pmm : Pmm) (identityMaxPhys : Nat) : Option World :=
  let totalRamBytes := Word.smul (totalPages pmm) pageSize
  let maxBytes :=
    if identityMaxPhys ≠ 0 then min totalRamBytes fallbackMaxHeapBytes
    else min totalRamBytes reservedVirtualHeapBytes
  let initial :=
    if identityMaxPhys ≠ 0 then min fallbackInitialHeapBytes maxBytes
    else min initialHeapBytes maxBytes
  let heap : HeapState :=
    { chunks := [], activeChunk := 0, committedBytes := 0, maxBytes := maxBytes,
      targetBytes := maxBytes, initialized := false }
  let w := growHeapLocked ⟨heap, pmm, identityMaxPhys, [], []⟩ initial heapGrowStepLargeBytes
  if 0 < w.heap.chunks.length then some { w with heap := { w.heap with initialized := true } }
  else none

/-! ## Runs -/

inductive Step
  | alloc (layout : Layout)
  | othersUsePmm (pmm : Pmm)

def step (w : World) : Step → World
  | .alloc layout => (alloc w layout).2
  | .othersUsePmm pmm => { w with pmm := pmm }

/-- Page `j` belongs to a run the heap has taken. -/
def Owns (w : World) (j : Nat) : Prop :=
  ∃ r ∈ w.taken, r.1 / pageSize ≤ j ∧ j < r.1 / pageSize + r.2

/-- Layouts have size at least 1; the rest of the kernel leaves the heap's pages allocated. -/
def Allowed (w : World) : Step → Prop
  | .alloc layout => 1 ≤ layout.size
  | .othersUsePmm pmm => pmm.trackedPages ≤ maxPages ∧ ∀ j, Owns w j → pmm.isUsed j = true

/-! ## The loop bounds are never reached -/

/-- Any `fuel` above the request gives the same answer: halving ends before it runs out. -/
theorem bestEffortLoop_fuel : ∀ (fuel fuel' : Nat) (w : World) (pages : Nat),
    pages < fuel → pages < fuel' → bestEffortLoop fuel w pages = bestEffortLoop fuel' w pages
  | 0, _, _, _, h, _ => absurd h (Nat.not_lt_zero _)
  | _ + 1, 0, _, _, _, h => absurd h (Nat.not_lt_zero _)
  | fuel + 1, fuel' + 1, w, pages, h, h' => by
      rw [bestEffortLoop, bestEffortLoop]
      by_cases hp : pages = 0
      · rw [if_pos hp, if_pos hp]
      · rw [if_neg hp, if_neg hp]
        rcases requestPages w pages with ⟨_ | base, pmm⟩
        · exact bestEffortLoop_fuel fuel fuel' _ (pages / 2) (by omega) (by omega)
        · rfl

variable {s : HeapState}

/-- A chunk added is one more chunk. -/
theorem length_addChunk {s' : HeapState} {base bytes : Nat} (h : addChunk s base bytes = (true, s')) :
    s'.chunks.length = s.chunks.length + 1 := by
  unfold addChunk at h
  simp only at h
  split at h
  · cases h
  split at h
  · cases h
  split at h
  · cases h
  · cases h; simp

/-! ## What one request to the PMM does -/

variable {w : World}

theorem requestPages_eq (w : World) (pages : Nat) :
    requestPages w pages =
      allocPagesBelow w.pmm pages (if w.identityMaxPhys = 0 then Word.max else w.identityMaxPhys) := by
  unfold requestPages
  split
  · rfl
  · rfl

theorem requestPages_some {pages addr : Nat} (h : (requestPages w pages).1 = some addr) :
    ∃ first, addr = first * pageSize ∧ 1 ≤ first ∧ 1 ≤ pages ∧
      first + pages ≤ w.pmm.trackedPages ∧
      (∀ j, first ≤ j → j < first + pages → w.pmm.isUsed j = false) ∧
      (requestPages w pages).2.trackedPages = w.pmm.trackedPages ∧
      ∀ j, (requestPages w pages).2.isUsed j =
        (decide (first ≤ j ∧ j < first + pages) || w.pmm.isUsed j) := by
  rw [requestPages_eq] at h ⊢
  obtain ⟨first, ha, h1, hc, hle, hfree, hpmm⟩ := allocPagesBelow_some h
  refine ⟨first, ha, h1, hc, hle, hfree, ?_, fun j => ?_⟩
  · rw [hpmm]
  · rw [hpmm, isUsed_alloc]

theorem requestPages_none {pages : Nat} (h : (requestPages w pages).1 = none) :
    (requestPages w pages).2 = w.pmm := by
  rw [requestPages_eq] at h ⊢
  exact allocPagesBelow_none h

/-- **What `alloc_best_effort_pages` does**: nothing, or it takes one free run of at most the wanted
    length. -/
theorem bestEffortLoop_cases : ∀ (fuel : Nat) (w : World) (wanted : Nat),
    bestEffortLoop fuel w wanted = (none, w) ∨
    ∃ first pages pmm, bestEffortLoop fuel w wanted =
        (some (first * pageSize, pages),
          { w with pmm := pmm, taken := w.taken ++ [(first * pageSize, pages)] }) ∧
      requestPages w pages = (some (first * pageSize), pmm) ∧
      1 ≤ first ∧ 1 ≤ pages ∧ pages ≤ wanted ∧ first + pages ≤ w.pmm.trackedPages ∧
      (∀ j, first ≤ j → j < first + pages → w.pmm.isUsed j = false) ∧
      pmm.trackedPages = w.pmm.trackedPages ∧
      ∀ j, pmm.isUsed j = (decide (first ≤ j ∧ j < first + pages) || w.pmm.isUsed j)
  | 0, w, _ => .inl rfl
  | fuel + 1, w, wanted => by
      rw [bestEffortLoop]
      by_cases hp : wanted = 0
      · rw [if_pos hp]; exact .inl rfl
      rw [if_neg hp]
      cases hr : requestPages w wanted with
      | mk r pmm =>
        cases r with
        | some base =>
          obtain ⟨first, rfl, h1, h2, hle, hfree, ht, hu⟩ := requestPages_some (congrArg Prod.fst hr)
          rw [hr] at ht hu
          exact .inr ⟨first, wanted, pmm, rfl, hr, h1, h2, Nat.le_refl _, hle, hfree, ht, hu⟩
        | none =>
          have hsame : pmm = w.pmm := by
            have := requestPages_none (congrArg Prod.fst hr)
            rwa [hr] at this
          subst hsame
          rcases bestEffortLoop_cases fuel w (wanted / 2) with h | ⟨first, pages, pmm, h, hreq, h1, h2, h3, hrest⟩
          · exact .inl h
          · exact .inr ⟨first, pages, pmm, h, hreq, h1, h2, by omega, hrest⟩

/-- Any bound that leaves a round for every free chunk slot gives the same heap. -/
theorem growLoop_fuel : ∀ (fuel fuel' : Nat) (w : World) (desired growthStep : Nat),
    maxHeapChunks ≤ w.heap.chunks.length + fuel → maxHeapChunks ≤ w.heap.chunks.length + fuel' →
    growLoop fuel w desired growthStep = growLoop fuel' w desired growthStep
  | 0, 0, _, _, _, _, _ => rfl
  | 0, _ + 1, w, desired, growthStep, h, _ => by
      rw [growLoop, growLoop, if_neg (by omega)]
  | _ + 1, 0, w, desired, growthStep, _, h' => by
      rw [growLoop, growLoop, if_neg (by omega)]
  | fuel + 1, fuel' + 1, w, desired, growthStep, h, h' => by
      rw [growLoop, growLoop]
      by_cases hc : w.heap.committedBytes < desired ∧ w.heap.chunks.length < maxHeapChunks
      · rw [if_pos hc, if_pos hc]
        simp only [allocBestEffortPages]
        rcases bestEffortLoop_cases (bytesToPagesCeil (min (desired - w.heap.committedBytes)
            growthStep) + 1) w (bytesToPagesCeil (min (desired - w.heap.committedBytes) growthStep))
          with hb | ⟨first, pages, pmm, hb, -⟩
        · rw [hb]
        · rw [hb]
          simp only
          cases ha : addChunk w.heap (first * pageSize) (Word.smul pages pageSize) with
          | mk ok heap =>
            cases ok with
            | false => rfl
            | true =>
              have hl := length_addChunk ha
              exact growLoop_fuel fuel fuel' _ desired growthStep
                (by simp only; omega) (by simp only; omega)
      · rw [if_neg hc, if_neg hc]

/-! ## The invariant -/

/-- Two byte ranges `[p, p + n)` and `[q, q + m)` do not meet. -/
def Apart (p n q m : Nat) : Prop := p + n ≤ q ∨ q + m ≤ p

theorem Apart.symm {p n q m : Nat} (h : Apart p n q m) : Apart q m p n := Or.symm h

/-- The bytes of a taken run. -/
def runBytes (r : Nat × Nat) : Nat := r.2 * 4096

structure Inv (w : World) : Prop where
  /-- The budget is whole pages, at most 1 GiB. -/
  max_page : w.heap.maxBytes % 4096 = 0
  max_le : w.heap.maxBytes ≤ 2 ^ 30
  target : w.heap.targetBytes = w.heap.maxBytes
  /-- Chunks are exactly the taken runs, in order. -/
  chunks_taken : w.heap.chunks.map (fun c => (c.base, c.stop)) =
    w.taken.map (fun r => (r.1, r.1 + runBytes r))
  committed : w.heap.committedBytes = (w.taken.map runBytes).sum
  committed_le : w.heap.committedBytes ≤ w.heap.maxBytes
  tracked : w.pmm.trackedPages ≤ maxPages
  /-- A taken run is whole pages of the first 64 GiB, not starting at page 0 ... -/
  runs_ok : ∀ r ∈ w.taken, r.1 % 4096 = 0 ∧ 1 ≤ r.1 / pageSize ∧ 1 ≤ r.2 ∧
    r.1 / pageSize + r.2 ≤ maxPages
  /-- ... apart from every other ... -/
  runs_apart : w.taken.Pairwise (fun r q => Apart r.1 (runBytes r) q.1 (runBytes q))
  /-- ... and still marked used in the PMM. -/
  runs_used : ∀ j, Owns w j → w.pmm.isUsed j = true
  bump : ∀ c ∈ w.heap.chunks, c.base ≤ c.current ∧ c.current ≤ c.stop
  /-- A block is aligned and lies below its chunk's bump pointer. -/
  blocks_in : ∀ b ∈ w.blocks, b.ptr % b.layout.align = 0 ∧
    ∃ c ∈ w.heap.chunks, c.base ≤ b.ptr ∧ b.ptr + b.layout.size ≤ c.current
  blocks_apart : w.blocks.Pairwise (fun a b => Apart a.ptr a.layout.size b.ptr b.layout.size)

variable {c : HeapChunk}

/-- The chunk of a taken run, and the run of a chunk. -/
theorem Inv.chunk_run (h : Inv w) (hc : c ∈ w.heap.chunks) :
    ∃ r ∈ w.taken, c.base = r.1 ∧ c.stop = r.1 + runBytes r := by
  have hm : (c.base, c.stop) ∈ w.taken.map (fun r => (r.1, r.1 + runBytes r)) := by
    rw [← h.chunks_taken]
    exact List.mem_map.mpr ⟨c, hc, rfl⟩
  obtain ⟨r, hr, heq⟩ := List.mem_map.mp hm
  exact ⟨r, hr, (congrArg Prod.fst heq).symm, (congrArg Prod.snd heq).symm⟩

theorem Inv.chunk_bound (h : Inv w) (hc : c ∈ w.heap.chunks) : 4096 ≤ c.base ∧ c.stop ≤ 2 ^ 36 := by
  obtain ⟨r, hr, hb, hs⟩ := h.chunk_run hc
  obtain ⟨h1, h2, h3, h4⟩ := h.runs_ok r hr
  rw [hs, runBytes]
  simp only [maxPages, maxTrackedMemoryBytes, pageSize] at h2 h4
  omega

/-- The committed bytes, counted over chunks and over pages taken. -/
theorem Inv.committed_eq (h : Inv w) :
    w.heap.committedBytes = (w.heap.chunks.map fun c => c.stop - c.base).sum ∧
      w.heap.committedBytes = 4096 * (w.taken.map Prod.snd).sum := by
  constructor
  · have hmap : (w.heap.chunks.map fun c => c.stop - c.base) =
        (w.heap.chunks.map fun c => (c.base, c.stop)).map fun q => q.2 - q.1 := by
      rw [List.map_map]; rfl
    rw [h.committed, hmap, h.chunks_taken, List.map_map]
    congr 1
    apply map_congr_left
    intro r _
    show runBytes r = r.1 + runBytes r - r.1
    omega
  · rw [h.committed, ← sum_map_mul_left]
    congr 1
    apply map_congr_left
    intro r _
    rw [runBytes, Nat.mul_comm]

/-! ## Growing keeps the invariant -/

theorem bytesToPagesCeil_le {b : Nat} (h : b ≤ 2 ^ 30) (h0 : 1 ≤ b) :
    bytesToPagesCeil b = (b + 4095) / 4096 := by
  unfold bytesToPagesCeil
  rw [Word.sadd_eq (by simp only [pageSize, Word.size]; omega)]
  simp only [pageSize]
  omega

/-- The clipping in `add_chunk` does not bite on whole pages within the budget. -/
theorem addChunk_whole {base bytes : Nat} (hl : s.chunks.length < maxHeapChunks) (hb : 1 ≤ bytes)
    (hfit : s.committedBytes + bytes ≤ s.maxBytes) (hm : s.maxBytes ≤ 2 ^ 30) (hbase : base ≤ 2 ^ 36) :
    addChunk s base bytes = (true, { s with
      chunks := s.chunks ++ [{ base := base, current := base, stop := base + bytes }],
      committedBytes := s.committedBytes + bytes }) := by
  unfold addChunk
  rw [if_neg (by omega), if_neg (by omega)]
  simp only
  rw [Nat.min_eq_left (by omega), if_neg (by omega), Word.sadd_eq (by simp only [Word.size]; omega),
    Word.sadd_eq (by simp only [Word.size]; omega)]

/-- The heap after a round of the growth loop that took the run `first .. first + pages`. -/
def addRun (w : World) (pmm : Pmm) (first pages : Nat) : World :=
  let base := first * pageSize
  let chunk : HeapChunk := { base := base, current := base, stop := base + pages * 4096 }
  let heap := { w.heap with
    chunks := w.heap.chunks ++ [chunk],
    committedBytes := w.heap.committedBytes + pages * 4096 }
  { w with heap := heap, pmm := pmm, taken := w.taken ++ [(base, pages)] }

/-- One round of the growth loop that takes a run adds exactly that run as a chunk. -/
theorem inv_addRun (h : Inv w) {first pages : Nat} {pmm : Pmm} (h1 : 1 ≤ first) (hpages : 1 ≤ pages)
    (hle : first + pages ≤ w.pmm.trackedPages)
    (hfree : ∀ j, first ≤ j → j < first + pages → w.pmm.isUsed j = false)
    (ht : pmm.trackedPages = w.pmm.trackedPages)
    (hu : ∀ j, pmm.isUsed j = (decide (first ≤ j ∧ j < first + pages) || w.pmm.isUsed j))
    (hfit : w.heap.committedBytes + pages * 4096 ≤ w.heap.maxBytes) : Inv (addRun w pmm first pages) := by
  have hdiv : first * pageSize / pageSize = first := Nat.mul_div_cancel _ (by decide)
  have htr := h.tracked
  have howns : ∀ j, Owns (addRun w pmm first pages) j ↔
      Owns w j ∨ (first ≤ j ∧ j < first + pages) := by
    intro j
    constructor
    · rintro ⟨r, hr, hj⟩
      rcases mem_append.mp hr with hr | hr
      · exact .inl ⟨r, hr, hj⟩
      · rw [mem_singleton.mp hr] at hj
        simp only [hdiv] at hj
        exact .inr hj
    · rintro (⟨r, hr, hj⟩ | hj)
      · exact ⟨r, mem_append_left _ hr, hj⟩
      · refine ⟨(first * pageSize, pages), mem_append_right _ (mem_singleton_self _), ?_⟩
        simp only [hdiv]; exact hj
  refine ⟨h.max_page, h.max_le, h.target, ?_, ?_, hfit, ht.trans_le h.tracked, ?_, ?_, ?_, ?_, ?_,
    h.blocks_apart⟩
  · simp only [addRun, map_append, h.chunks_taken]; rfl
  · simp only [addRun, map_append, sum_append, ← h.committed, map_cons, map_nil,
      sum_cons, sum_nil, runBytes, Nat.add_zero]
  · intro r hr
    rcases mem_append.mp hr with hr | hr
    · exact h.runs_ok r hr
    · rw [mem_singleton.mp hr]
      refine ⟨by simp only [pageSize]; omega, by rw [hdiv]; exact h1, hpages, by rw [hdiv]; omega⟩
  · refine pairwise_append.mpr ⟨h.runs_apart, pairwise_singleton _ _, ?_⟩
    intro r hr q hq
    rw [mem_singleton.mp hq]
    obtain ⟨hr1, hr2, hr3, -⟩ := h.runs_ok r hr
    -- a common page would be used (the heap's) and free (just found) at once
    by_contra hno
    unfold Apart runBytes at hno
    simp only [pageSize] at *
    have hpage : ∃ j, first ≤ j ∧ j < first + pages ∧ r.1 / 4096 ≤ j ∧ j < r.1 / 4096 + r.2 := by
      refine ⟨max first (r.1 / 4096), ?_, ?_, ?_, ?_⟩ <;> omega
    obtain ⟨j, hj1, hj2, hj3, hj4⟩ := hpage
    have hused := h.runs_used j ⟨r, hr, hj3, hj4⟩
    rw [hfree j hj1 hj2] at hused
    cases hused
  · intro j hj
    show pmm.isUsed j = true
    rw [hu]
    rcases (howns j).mp hj with ho | hr
    · rw [h.runs_used j ho, Bool.or_true]
    · rw [decide_eq_true hr, Bool.true_or]
  · intro c hc
    rcases mem_append.mp hc with hc | hc
    · exact h.bump c hc
    · rw [mem_singleton.mp hc]
      exact ⟨Nat.le_refl _, Nat.le_add_right _ _⟩
  · intro b hb
    obtain ⟨hal, c, hc, hin⟩ := h.blocks_in b hb
    exact ⟨hal, c, mem_append_left _ hc, hin⟩

/-- What a round of growth and a recorded block keep. -/
structure Kept (P : World → Prop) : Prop where
  addRun : ∀ {w pages first pmm}, P w → requestPages w pages = (some (first * pageSize), pmm) →
    P (addRun w pmm first pages)
  record : ∀ {w} layout, P w → P (w.record (tryAllocFromChunks w.heap layout) layout).2

theorem growLoop_inv {P : World → Prop} (hP : Kept P) :
    ∀ (fuel : Nat) (w : World) (desired growthStep : Nat),
      Inv w → P w → desired ≤ w.heap.maxBytes → growthStep % 4096 = 0 → 0 < growthStep →
      Inv (growLoop fuel w desired growthStep) ∧ P (growLoop fuel w desired growthStep)
  | 0, _, _, _, h, hp, _, _, _ => ⟨h, hp⟩
  | fuel + 1, w, desired, growthStep, h, hp, hd, hg, hg0 => by
      rw [growLoop]
      by_cases hc : w.heap.committedBytes < desired ∧ w.heap.chunks.length < maxHeapChunks
      · rw [if_pos hc]
        simp only [allocBestEffortPages]
        have hmax := h.max_le
        have hmp := h.max_page
        have hcm := h.committed_eq.2
        rw [bytesToPagesCeil_le (by omega) (by omega)]
        rcases bestEffortLoop_cases ((min (desired - w.heap.committedBytes) growthStep + 4095)
            / 4096 + 1) w ((min (desired - w.heap.committedBytes) growthStep + 4095) / 4096)
          with hb | ⟨first, pages, pmm, hb, hreq, h1, h2, h3, hle, hfree, ht, hu⟩
        · rw [hb]; exact ⟨h, hp⟩
        · rw [hb]
          -- whole pages up to the desired size stay within the whole-page budget
          have hfit : w.heap.committedBytes + pages * 4096 ≤ w.heap.maxBytes := by omega
          have htr := h.tracked
          have hbase : first * pageSize ≤ 2 ^ 36 := by
            simp only [maxPages, maxTrackedMemoryBytes, pageSize] at *; omega
          have hmul : Word.smul pages pageSize = pages * 4096 :=
            Word.smul_eq (by simp only [pageSize, Word.size]; omega)
          simp only [hmul]
          rw [addChunk_whole hc.2 (by omega) hfit hmax hbase]
          exact growLoop_inv hP fuel (addRun w pmm first pages) desired growthStep
            (inv_addRun h h1 h2 hle hfree ht hu hfit) (hP.addRun hp hreq) hd hg hg0
      · rw [if_neg hc]; exact ⟨h, hp⟩

/-! ## Allocating keeps the invariant -/

variable {layout : Layout}

/-- A block's start and end in a chunk: inside the chunk, past the bump pointer, aligned, and the
    saturating addition exact. -/
theorem allocStart_spec (h : Inv w) (hc : c ∈ w.heap.chunks) (hfit : allocEnd c layout ≤ c.stop) :
    c.current ≤ allocStart c layout ∧ allocStart c layout % layout.align = 0 ∧
      allocEnd c layout = allocStart c layout + layout.size := by
  obtain ⟨k, hk⟩ := layout.align_pow
  obtain ⟨-, hstop⟩ := h.chunk_bound hc
  have hbump := h.bump c hc
  have hfits := layout.fits
  have hk64 : k ≤ 64 := by
    by_contra hcon
    have : 2 ^ 64 ≤ 2 ^ k := Nat.pow_le_pow_right (by omega) (by omega)
    omega
  have hno : c.current + (2 ^ k - 1) < Word.size := by simp only [Word.size]; omega
  refine ⟨?_, ?_, ?_⟩
  · rw [allocStart, hk]; exact Word.le_alignUp hk64 hno
  · rw [allocStart, hk]; rw [Word.alignUp_eq hk64 hno, Nat.mul_mod_left]
  · unfold allocEnd Word.sadd Word.max Word.size at *
    omega

/-- **What `try_alloc_from_chunks` does**: nothing, or it bumps one chunk. -/
theorem tryAllocFromChunks_cases (s : HeapState) (layout : Layout) : tryAllocFromChunks s layout = (none, s) ∨
    ∃ idx c, s.chunks[idx]? = some c ∧ allocEnd c layout ≤ c.stop ∧
      tryAllocFromChunks s layout = (some (allocStart c layout), { s with
        chunks := s.chunks.set idx { c with current := allocEnd c layout }, activeChunk := idx }) := by
  unfold tryAllocFromChunks
  split
  · exact .inl rfl
  dsimp only
  split
  · exact .inl rfl
  next idx hf =>
  cases hi : s.chunks[idx]? with
  | none => exact .inl rfl
  | some c =>
    have hfit := find?_some hf
    rw [fitsIn, hi] at hfit
    simp only [Bool.and_eq_true, decide_eq_true_eq] at hfit
    exact .inr ⟨idx, c, hi, hfit.2, rfl⟩

/-- Two chunks never share a byte unless they are the same slot. -/
theorem Inv.chunks_apart (h : Inv w) {i j : Nat} {d : HeapChunk} (hi : w.heap.chunks[i]? = some c)
    (hj : w.heap.chunks[j]? = some d) (hij : i ≠ j) : c.stop ≤ d.base ∨ d.stop ≤ c.base := by
  have hrun : ∀ {k : Nat} {e : HeapChunk}, w.heap.chunks[k]? = some e →
      ∃ r, w.taken[k]? = some r ∧ e.base = r.1 ∧ e.stop = r.1 + runBytes r := by
    intro k e hk
    have hmap := congrArg (fun l => l[k]?) h.chunks_taken
    simp only [getElem?_map, hk] at hmap
    cases ht : w.taken[k]? with
    | none => rw [ht] at hmap; cases hmap
    | some r =>
      rw [ht] at hmap
      have heq := some.inj hmap
      exact ⟨r, rfl, congrArg Prod.fst heq, congrArg Prod.snd heq⟩
  obtain ⟨r, hr, hrb, hrs⟩ := hrun hi
  obtain ⟨q, hq, hqb, hqs⟩ := hrun hj
  obtain ⟨hil, hir⟩ := List.getElem?_eq_some_iff.mp hr
  obtain ⟨hjl, hjr⟩ := List.getElem?_eq_some_iff.mp hq
  have hpw := pairwise_iff_getElem.mp h.runs_apart
  rw [hrb, hrs, hqb, hqs]
  rcases Nat.lt_or_gt_of_ne hij with hlt | hgt
  · have := hpw i j hil hjl hlt
    rw [hir, hjr] at this; exact this
  · have := hpw j i hjl hil hgt
    rw [hir, hjr] at this; exact this.symm

/-- Recording the result of `try_alloc_from_chunks` keeps the invariant. -/
theorem inv_record (h : Inv w) (layout : Layout) :
    Inv (w.record (tryAllocFromChunks w.heap layout) layout).2 := by
  rcases tryAllocFromChunks_cases w.heap layout with hr | ⟨idx, c, hidx, hfit, hr⟩
  · rw [hr]; exact h
  · have hc : c ∈ w.heap.chunks := mem_of_getElem? hidx
    obtain ⟨hstart, halign, hend⟩ := allocStart_spec h hc hfit
    have hbump := h.bump c hc
    have hlt : idx < w.heap.chunks.length := (List.getElem?_eq_some_iff.mp hidx).1
    -- every old chunk is still there, with a bump pointer at least as high
    have hkeep : ∀ {j : Nat} {d : HeapChunk}, w.heap.chunks[j]? = some d →
        ∃ e ∈ w.heap.chunks.set idx { c with current := allocEnd c layout },
          e.base = d.base ∧ d.current ≤ e.current := by
      intro j d hj
      by_cases hji : idx = j
      · subst hji
        obtain rfl : d = c := mem_unique hj hidx
        exact ⟨_, mem_set hlt _, rfl, show d.current ≤ allocEnd d layout by omega⟩
      · refine ⟨d, mem_of_getElem? (i := j) ?_, rfl, Nat.le_refl _⟩
        rw [getElem?_set_ne hji]; exact hj
    rw [hr]
    refine { h with chunks_taken := ?_, bump := ?_, blocks_in := ?_, blocks_apart := ?_ }
    · simp only [World.record, map_set]
      rw [← h.chunks_taken]
      apply ext_getElem?
      intro j
      by_cases hji : idx = j
      · subst hji
        rw [getElem?_set_self (by simpa using hlt), getElem?_map, hidx]; rfl
      · rw [getElem?_set_ne hji]
    · intro d hd
      rcases mem_or_eq_of_mem_set hd with hd | rfl
      · exact h.bump d hd
      · exact ⟨by simp only; omega, hfit⟩
    · intro b hb
      rcases mem_cons.mp hb with rfl | hb
      · refine ⟨halign, _, mem_set hlt _, ?_, ?_⟩
        · simp only; omega
        · simp only; omega
      · obtain ⟨hal, d, hd, hin⟩ := h.blocks_in b hb
        obtain ⟨j, hj⟩ := mem_iff_getElem?.mp hd
        obtain ⟨e, he, hbase, hcur⟩ := hkeep hj
        exact ⟨hal, e, he, by omega, by omega⟩
    · refine Pairwise.cons ?_ h.blocks_apart
      intro b hb
      obtain ⟨-, d, hd, hin⟩ := h.blocks_in b hb
      obtain ⟨j, hj⟩ := mem_iff_getElem?.mp hd
      by_cases hji : idx = j
      · -- same chunk: the old block ends below the bump pointer the new one starts at
        subst hji
        obtain rfl : d = c := mem_unique hj hidx
        right
        show b.ptr + b.layout.size ≤ allocStart d layout
        omega
      · have hdb := h.bump d hd
        rcases h.chunks_apart hidx hj hji with hap | hap
        · left
          show allocStart c layout + layout.size ≤ b.ptr
          omega
        · right
          show b.ptr + b.layout.size ≤ allocStart c layout
          omega

theorem alloc_inv {P : World → Prop} (hP : Kept P) (h : Inv w) (hp : P w) (layout : Layout) :
    Inv (alloc w layout).2 ∧ P (alloc w layout).2 := by
  unfold alloc
  by_cases h0 : layout.size = 0
  · rw [if_pos h0]; exact ⟨h, hp⟩
  rw [if_neg h0]
  by_cases hi : w.heap.initialized = false
  · rw [if_pos hi]; exact ⟨h, hp⟩
  rw [if_neg hi]
  have hfirst := And.intro (inv_record h layout) (hP.record layout hp)
  rcases tryAllocFromChunks_cases w.heap layout with hr | ⟨idx, c, -, -, hr⟩
  · rw [hr]
    simp only
    split
    · have hgrown := fun desired => growLoop_inv hP maxHeapChunks w (min desired w.heap.maxBytes)
        (if heapGrowStepSmallBytes < layout.size then heapGrowStepLargeBytes else heapGrowStepSmallBytes)
        h hp (Nat.min_le_right _ _) (by split <;> decide) (by split <;> decide)
      exact ⟨inv_record (hgrown _).1 layout, hP.record layout (hgrown _).2⟩
    · exact hfirst
  · rw [hr] at hfirst ⊢
    exact hfirst

theorem inv_alloc (h : Inv w) (layout : Layout) : Inv (alloc w layout).2 :=
  (alloc_inv (P := fun _ => True) ⟨fun _ _ => trivial, fun _ _ => trivial⟩ h trivial layout).1

theorem inv_step (h : Inv w) (a : Step) (ha : Allowed w a) : Inv (step w a) := by
  cases a with
  | alloc layout => exact inv_alloc h layout
  | othersUsePmm pmm => exact { h with tracked := ha.1, runs_used := ha.2 }

/-! ## The initial heap -/

/-- The empty heap with a budget of whole pages. -/
theorem inv_empty {pmm : Pmm} (hp : pmm.trackedPages ≤ maxPages) (identityMaxPhys : Nat)
    {maxBytes : Nat} (hpage : maxBytes % 4096 = 0) (hle : maxBytes ≤ 2 ^ 30) (initialized : Bool) :
    Inv ⟨⟨[], 0, 0, maxBytes, maxBytes, initialized⟩, pmm, identityMaxPhys, [], []⟩ := by
  refine ⟨hpage, hle, rfl, rfl, rfl, Nat.zero_le _, hp, ?_, .nil, ?_, ?_, ?_, .nil⟩
  · intro r hr; cases hr
  · rintro j ⟨r, hr, -⟩; cases hr
  · intro c hc; cases hc
  · intro b hb; cases hb

/-- No part of the invariant reads `initialized`. -/
theorem Inv.setInitialized (h : Inv w) (b : Bool) : Inv { w with heap := { w.heap with initialized := b } } :=
  { h with }

/-- `init` grows an empty heap. -/
theorem init_grown {pmm : Pmm} {identityMaxPhys : Nat} (hp : pmm.trackedPages ≤ maxPages)
    (h : init pmm identityMaxPhys = some w) : ∃ start desired, Inv start ∧ start.pmm = pmm ∧
      desired ≤ start.heap.maxBytes ∧
      w = let grown := growLoop maxHeapChunks start desired heapGrowStepLargeBytes
        { grown with heap := { grown.heap with initialized := true } } := by
  -- the tracked RAM is whole pages, and so is every cap on it
  have htotal : ∃ n, Word.smul (totalPages pmm) pageSize = n * 4096 := by
    refine ⟨totalPages pmm, ?_⟩
    have hle : totalPages pmm ≤ maxPages := by
      unfold totalPages
      split
      · exact hp
      · exact Nat.zero_le _
    simp only [maxPages, maxTrackedMemoryBytes, pageSize] at hle
    simp only [Word.smul, Word.max, Word.size, pageSize]
    omega
  rcases ite_none_right_eq_some.mp h with ⟨-, hw⟩
  refine ⟨_, _, inv_empty hp identityMaxPhys ?_ ?_ false, rfl, Nat.min_le_right _ _, (some.inj hw).symm⟩
  · split
    · simp only [fallbackMaxHeapBytes]; omega
    · simp only [reservedVirtualHeapBytes]; omega
  · split
    · simp only [fallbackMaxHeapBytes]; omega
    · simp only [reservedVirtualHeapBytes]; omega

theorem inv_init {pmm : Pmm} {identityMaxPhys : Nat} (hp : pmm.trackedPages ≤ maxPages)
    (h : init pmm identityMaxPhys = some w) : Inv w := by
  obtain ⟨start, desired, hstart, -, hle, rfl⟩ := init_grown hp h
  exact (growLoop_inv (P := fun _ => True) ⟨fun _ _ => trivial, fun _ _ => trivial⟩ _ start desired _ hstart trivial
    hle (by decide) (by decide)).1.setInitialized true

/-! ## Whole runs -/

/-- The pages of a taken run are the heap's, and the PMM knows it. -/
theorem Inv.chunk_pages (h : Inv w) (hc : c ∈ w.heap.chunks) :
    c.base % 4096 = 0 ∧ c.stop % 4096 = 0 ∧
      ∀ j, c.base ≤ j * 4096 → j * 4096 < c.stop → Owns w j ∧ w.pmm.isUsed j = true := by
  obtain ⟨r, hr, hb, hs⟩ := h.chunk_run hc
  obtain ⟨hpage, -⟩ := h.runs_ok r hr
  rw [runBytes] at hs
  refine ⟨by omega, by omega, ?_⟩
  intro j hj hlt
  have howns : Owns w j := ⟨r, hr, by rw [pageSize]; omega, by rw [pageSize]; omega⟩
  exact ⟨howns, h.runs_used j howns⟩

/-- **The heap hands out each byte once and loses no page.**  After every run of `alloc` calls from
    `init`, with the rest of the kernel using the PMM in between: blocks are apart, aligned, and each
    inside one chunk; a chunk is whole pages that the heap took and the PMM still marks used; the
    taken runs are apart; and the committed bytes are the chunks' bytes, are the pages taken, and
    stay within the budget. -/
theorem heap_run_sound (pmm : Pmm) (hp : pmm.trackedPages ≤ maxPages) (identityMaxPhys : Nat)
    {w : World} (hw : init pmm identityMaxPhys = some w) (steps : List Step)
    (hs : Run.Along step Allowed w steps) :
    let final := steps.foldl step w
    final.blocks.Pairwise (fun a b => Apart a.ptr a.layout.size b.ptr b.layout.size) ∧
    (∀ b ∈ final.blocks, b.ptr % b.layout.align = 0 ∧
      ∃ c ∈ final.heap.chunks, c.base ≤ b.ptr ∧ b.ptr + b.layout.size ≤ c.stop) ∧
    (∀ c ∈ final.heap.chunks, c.base % 4096 = 0 ∧ c.stop % 4096 = 0 ∧
      ∀ j, c.base ≤ j * 4096 → j * 4096 < c.stop → Owns final j ∧ final.pmm.isUsed j = true) ∧
    final.taken.Pairwise (fun r q => Apart r.1 (runBytes r) q.1 (runBytes q)) ∧
    final.heap.committedBytes = (final.heap.chunks.map fun c => c.stop - c.base).sum ∧
    final.heap.committedBytes = 4096 * (final.taken.map Prod.snd).sum ∧
    final.heap.committedBytes ≤ final.heap.maxBytes := by
  intro final
  have h : Inv final :=
    Run.foldl_inv_along (fun _ a hv ha => inv_step hv a ha) (inv_init hp hw) hs
  refine ⟨h.blocks_apart, ?_, fun c hc => h.chunk_pages hc, h.runs_apart, h.committed_eq.1,
    h.committed_eq.2, h.committed_le⟩
  intro b hb
  obtain ⟨halign, c, hc, hbase, hcur⟩ := h.blocks_in b hb
  have := h.bump c hc
  exact ⟨halign, c, hc, hbase, by omega⟩

/-- Sixteen free pages. -/
def smallPmm : Pmm :=
  { bitmap := fun _ => 0, trackedPages := 16, freePages := 16, nextHint := 1, initialized := true }

/-- A line of 100 bytes and a page table. -/
def twoBlocks : List Step :=
  [.alloc ⟨100, 64, ⟨6, rfl⟩, by decide⟩, .alloc ⟨4096, 4096, ⟨12, rfl⟩, by decide⟩]

/-- The sixteen pages come as runs of 8, 4, 2 and 1, and the two blocks share the first chunk. -/
theorem heap_run_sound_small :
    ∃ w, init smallPmm 0 = some w ∧ w.taken = [(4096, 8), (36864, 4), (53248, 2), (61440, 1)] ∧
      (twoBlocks.foldl step w).blocks.map (·.ptr) = [8192, 4096] ∧
      (twoBlocks.foldl step w).heap.committedBytes ≤ (twoBlocks.foldl step w).heap.maxBytes := by
  refine ⟨(init smallPmm 0).get (by decide +kernel), (Option.some_get _).symm, by decide +kernel, by decide +kernel, ?_⟩
  exact (heap_run_sound smallPmm (by decide +kernel) 0 (Option.some_get (by decide +kernel)).symm
    twoBlocks ⟨show 1 ≤ 100 by decide, show 1 ≤ 4096 by decide, trivial⟩).2.2.2.2.2.2

end Saios.Heap
