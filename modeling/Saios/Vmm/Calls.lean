/-
  The CALLS keep the page tables and the list of mappings together.

  1. **`Refined`** — recorded ranges are page aligned, do not wrap, lie in regular slots and are pairwise
     disjoint; a page of a recorded mapping has the entry `map` writes for it, and every other regular
     page has none.  `Exclusive` is the assumption on the PMM: it counts every table frame as used.

  2. **One lemma per call** — `map_cases` and `unmap_cases` give the edits of the call as well; the other
     calls (`Vmm.Steps`) change the list, the cursor and the PMM around a `map`.
-/
import Saios.Lib.First
import Saios.Vmm.Ranges

namespace Saios.Vmm

open Saios.Memory List

variable {mmu : Mmu}

/-! ## Ranges of addresses -/

/-- Every address of the range is canonical and outside PML4 slots 0 and 511. -/
def InSlots (virtStart pages : Nat) : Prop :=
  ∀ v, virtStart ≤ v → v < virtStart + 4096 * pages → Canonical v ∧ Regular (path v)

/-- The address lies in the range. -/
def InRange (virtStart pages v : Nat) : Prop := virtStart ≤ v ∧ v < virtStart + 4096 * pages

theorem pageOf_eq {start n : Nat} (h : start + 4096 * n < 2 ^ 64) : pageOf start n = start + 4096 * n := by
  have hsize : n * pageSize = 4096 * n := Nat.mul_comm n 4096
  have hmul : Word.smul n pageSize = 4096 * n := by
    rw [Word.smul_eq (by rw [Word.size]; omega), hsize]
  rw [pageOf, hmul, Word.sadd_eq (by rw [Word.size]; omega)]

section Range

variable {virtStart pages : Nat}

theorem PagesOk.of_slots (hal : virtStart % 4096 = 0) (hend : virtStart + 4096 * pages < 2 ^ 64)
    (hslots : InSlots virtStart pages) : PagesOk virtStart pages := by
  have haddr : ∀ {n}, n < pages → pageOf virtStart n = virtStart + 4096 * n :=
    fun hn => pageOf_eq (by omega)
  refine ⟨fun {n} hn => ?_, fun {n n'} hn hn' heq => ?_⟩
  · rw [haddr hn]
    exact (hslots _ (by omega) (by omega)).2
  · rw [haddr hn, haddr hn'] at heq
    have hpage := path_inj (hslots _ (by omega) (by omega)).1 (hslots _ (by omega) (by omega)).1 heq
    omega

end Range

/-! ## The invariant -/

/-- What `map` has checked of a recorded mapping. -/
structure Mapping.Ok (x : Mapping) : Prop where
  virtAligned : x.virtStart % 4096 = 0
  physAligned : x.physStart % 4096 = 0
  pos : 0 < x.pages
  noWrap : x.virtStart + 4096 * x.pages < 2 ^ 64
  slots : InSlots x.virtStart x.pages
  physSmall : x.physStart + 4096 * x.pages ≤ 2 ^ 52

/-- The address lies in the mapping. -/
def Mapping.Has (x : Mapping) (v : Nat) : Prop := InRange x.virtStart x.pages v

/-- Ranges without a common address. -/
def Mapping.Disjoint (x y : Mapping) : Prop :=
  x.virtStart + 4096 * x.pages ≤ y.virtStart ∨ y.virtStart + 4096 * y.pages ≤ x.virtStart

/-- **The page tables refine the list of mappings.** -/
structure Refined (k : Kernel mmu) : Prop where
  init : k.vmm.initialized = true
  paged : Paged k.machine.mem k.machine.root
  tracked : k.machine.pmm.trackedPages ≤ maxPages
  ok : ∀ x ∈ k.vmm.mappings, x.Ok
  disjoint : k.vmm.mappings.Pairwise Mapping.Disjoint
  inside : ∀ x ∈ k.vmm.mappings, ∀ n, n < x.pages →
    k.machine.leaf (pageOf x.virtStart n) = setPage 0#64 (pageOf x.physStart n) (leafFlags x.flags)
  outside : ∀ v, Canonical v → Regular (path v) → (∀ x ∈ k.vmm.mappings, ¬x.Has v) →
    k.machine.leaf v = 0#64

/-- The PMM hands out no frame that is a table. -/
def Exclusive (k : Kernel mmu) : Prop :=
  ∀ p f, Inner p → tableAt k.machine.mem k.machine.root p = some f → k.machine.pmm.isUsed f = true

theorem Refined.sound {k : Kernel mmu} (h : Refined k) (he : Exclusive k) : k.machine.Sound :=
  ⟨h.paged, fun hq hf => he _ _ hq hf, h.tracked⟩

theorem leafFlags_addr (flags : Entry) : leafFlags flags &&& addrMask = 0#64 := by
  unfold leafFlags
  cases memoryTypeFromFlags flags <;> (split_ifs <;> decide)

/-! ## What the tables say -/

variable {x : Mapping}

section Translate

variable {k : Kernel mmu} {v : Nat}

theorem Mapping.Ok.path_eq (h : x.Ok) (hv : x.Has v) :
    path v = path (pageOf x.virtStart ((v - x.virtStart) / 4096)) := by
  obtain ⟨hlo, hhi⟩ := hv
  have hwrap := h.noWrap
  have hal := h.virtAligned
  rw [pageOf_eq (by omega)]
  simp only [path, cons.injEq, Fin.ext_iff, index_val, and_true]
  omega

theorem Mapping.Ok.pagesOk (h : x.Ok) : PagesOk x.virtStart x.pages :=
  .of_slots h.virtAligned h.noWrap h.slots

/-- A canonical address has the path of a page of the range exactly if it lies in it. -/
theorem Mapping.Ok.page_iff (h : x.Ok) (hv : Canonical v) :
    (∃ n, n < x.pages ∧ path v = path (pageOf x.virtStart n)) ↔ x.Has v := by
  have hal := h.virtAligned
  have hend := h.noWrap
  constructor
  · rintro ⟨n, hn, heq⟩
    rw [pageOf_eq (by omega)] at heq
    have hpage := path_inj hv (h.slots _ (by omega) (by omega)).1 heq
    unfold Mapping.Has InRange
    omega
  · exact fun hin => ⟨_, by have := hin.1; have := hin.2; omega, h.path_eq hin⟩

theorem Mapping.Ok.has_page (h : x.Ok) {n : Nat} (hn : n < x.pages) : x.Has (pageOf x.virtStart n) := by
  have := h.noWrap
  rw [pageOf_eq (by omega)]
  exact ⟨by omega, by omega⟩

/-- An address of a recorded mapping is translated as recorded. -/
theorem Refined.translate_inside (h : Refined k) (hx : x ∈ k.vmm.mappings) (hv : x.Has v) :
    translate k.machine.mem k.machine.root v = some (x.physStart + (v - x.virtStart)) := by
  have hok := h.ok x hx
  obtain ⟨hlo, hhi⟩ := hv
  obtain ⟨hc, hreg⟩ := hok.slots v hlo hhi
  have hal := hok.virtAligned
  have hpal := hok.physAligned
  have hsmall := hok.physSmall
  have hleaf : k.machine.leaf v = setPage 0#64 (pageOf x.physStart ((v - x.virtStart) / 4096))
      (leafFlags x.flags) := by
    rw [Machine.leaf_congr _ (hok.path_eq ⟨hlo, hhi⟩)]
    exact h.inside x hx _ (by omega)
  rw [pageOf_eq (by omega)] at hleaf
  rw [h.paged.translate_regular hc hreg]
  rw [Machine.leaf] at hleaf
  rw [hleaf, if_pos (isPresent_setPage ..), address_setPage 0#64 (leafFlags_addr _) (by omega) (by omega)]
  congr 1
  omega

/-- A regular address outside all mappings is not translated. -/
theorem Refined.translate_outside (h : Refined k) (hc : Canonical v) (hreg : Regular (path v))
    (hout : ∀ x ∈ k.vmm.mappings, ¬x.Has v) : translate k.machine.mem k.machine.root v = none := by
  have hleaf := h.outside v hc hreg hout
  rw [h.paged.translate_regular hc hreg]
  rw [Machine.leaf] at hleaf
  rw [hleaf, if_neg (by simp)]

end Translate

/-! ## Checks -/

theorem isPageAligned_iff (v : Nat) : isPageAligned v = true ↔ v % 4096 = 0 := by
  rw [isPageAligned, land_page_mask, beq_iff_eq]

theorem checkedRangeEnd_some {start pages stop : Nat} (h : checkedRangeEnd start pages = some stop) :
    stop = start + 4096 * pages ∧ start + 4096 * pages < 2 ^ 64 := by
  have hsize : pages * pageSize = 4096 * pages := Nat.mul_comm pages 4096
  unfold checkedRangeEnd at h
  rw [hsize] at h
  split at h
  · split at h
    · rename_i hlt
      exact ⟨(Option.some.inj h).symm, hlt⟩
    · cases h
  · cases h

theorem checkedRangeEnd_eq {start pages : Nat} (h : start + 4096 * pages < 2 ^ 64) :
    checkedRangeEnd start pages = some (start + 4096 * pages) := by
  have hsize : pages * pageSize = 4096 * pages := Nat.mul_comm pages 4096
  unfold checkedRangeEnd
  rw [hsize, if_pos (by rw [Word.size]; omega), if_pos (by rw [Word.size]; omega)]

theorem Mapping.Ok.range_eq (h : x.Ok) : mappingRange x = (x.virtStart, x.virtStart + 4096 * x.pages) := by
  rw [mappingRange, checkedRangeEnd_eq h.noWrap]
  rfl

variable {y : Mapping}

theorem Mapping.Disjoint.symm (h : x.Disjoint y) : y.Disjoint x := Or.symm h

/-- No address lies in two disjoint mappings. -/
theorem Mapping.Disjoint.not_has (h : x.Disjoint y) {v : Nat} (hx : x.Has v) : ¬y.Has v := by
  rintro ⟨hlo, hhi⟩
  obtain ⟨hlo', hhi'⟩ := hx
  rcases h with h | h
  · omega
  · omega

/-! ## `map` -/

section Map

variable {k k' : Kernel mmu} {virtStart physStart pages : Nat}

/-- The outcomes of `map`. -/
inductive MapOutcome (k : Kernel mmu) (x : Mapping) : Except String Unit → Kernel mmu → Prop
  | refused (e : String) : MapOutcome k x (.error e) k
  | undone (e : String) {cs : List Edit} {m' : Machine mmu} (runs : Runs k.machine cs m')
      (onRange : OnRange x.virtStart x.pages cs) (undone : MapUndone x.virtStart 0 x.pages k.machine m') :
      MapOutcome k x (.error e) { k with machine := m' }
  | done {cs : List Edit} {m' : Machine mmu} (ok : x.Ok) (runs : Runs k.machine cs m')
      (apart : ∀ y ∈ k.vmm.mappings, y.Disjoint x)
      (done : MapDone x.virtStart x.physStart x.flags 0 x.pages k.machine cs m') :
      MapOutcome k x (.ok ())
        (({ k with machine := m' } : Kernel mmu).setMappings (k.vmm.mappings ++ [x]))

/-- **`map`** is refused, rolled back, or done. -/
theorem map_cases (h : Refined k) (he : Exclusive k) (hslots : InSlots virtStart pages)
    (hphys : physStart + 4096 * pages ≤ 2 ^ 52)
    (hfresh : ∀ n, n < pages → k.machine.Fresh (pageOf virtStart n)) (flags : Entry) (owner : String) :
    ∃ r k', k.map virtStart physStart pages flags owner = some (r, k') ∧
      MapOutcome k ⟨virtStart, physStart, pages, flags, owner, false⟩ r k' := by
  unfold Kernel.map
  by_cases hpages : pages = 0
  · rw [if_pos hpages]; exact ⟨_, _, rfl, .refused _⟩
  rw [if_neg hpages]
  by_cases howner : owner = ""
  · rw [if_pos howner]; exact ⟨_, _, rfl, .refused _⟩
  rw [if_neg howner]
  by_cases hal : isPageAligned virtStart = false ∨ isPageAligned physStart = false
  · rw [if_pos hal]; exact ⟨_, _, rfl, .refused _⟩
  rw [if_neg hal]
  cases hend : checkedRangeEnd virtStart pages with
  | none => exact ⟨_, _, rfl, .refused _⟩
  | some newEnd =>
    simp only
    rw [if_neg (by rw [h.init]; decide)]
    by_cases hlow : flags &&& vmmUser = 0#64 ∧ virtStart < kernelVirtBase
    · rw [if_pos hlow]; exact ⟨_, _, rfl, .refused _⟩
    rw [if_neg hlow]
    by_cases hover : k.vmm.mappings.any (fun existing =>
        rangesOverlap virtStart newEnd (mappingRange existing).1 (mappingRange existing).2) = true
    · rw [if_pos hover]; exact ⟨_, _, rfl, .refused _⟩
    rw [if_neg hover]
    obtain ⟨rfl, hwrap⟩ := checkedRangeEnd_some hend
    push Not at hal
    have hvirt : virtStart % 4096 = 0 := (isPageAligned_iff _).mp (by simpa using hal.1)
    have hpal : physStart % 4096 = 0 := (isPageAligned_iff _).mp (by simpa using hal.2)
    obtain ⟨r, cs, m', hcall, hruns, hcases⟩ := mapLoop_cases
      (PagesOk.of_slots hvirt hwrap hslots) physStart flags pages 0 k.machine (by omega) (h.sound he) hfresh
      fun n hn => absurd hn (by omega)
    rw [hcall]
    rcases hcases with ⟨rfl, hdone⟩ | ⟨⟨e, rfl⟩, hrange, hundo⟩
    · refine ⟨_, _, rfl, .done ⟨hvirt, hpal, by simp only; omega, hwrap, hslots, hphys⟩ hruns ?_ hdone⟩
      intro y hy
      rw [Bool.not_eq_true, List.any_eq_false] at hover
      have hno := hover y hy
      rw [(h.ok y hy).range_eq] at hno
      simp only [rangesOverlap, Bool.and_eq_true, decide_eq_true_eq, not_and, not_lt] at hno
      rcases Nat.lt_or_ge virtStart (y.virtStart + 4096 * y.pages) with hlt | hge
      · exact .inr (hno hlt)
      · exact .inl hge
    · exact ⟨_, _, rfl, .undone e hruns hrange hundo⟩

/-- As long as the PT entries stay, so does the refinement. -/
theorem Refined.of_leaves (h : Refined k) {cs : List Edit} {m' : Machine mmu}
    (hruns : Runs k.machine cs m') (hs : k.machine.Sound)
    (hsame : ∀ v, Regular (tablePath v) → m'.leaf v = k.machine.leaf v) :
    Refined { k with machine := m' } := by
  have hs' := hruns.sound hs
  refine ⟨h.init, hs'.toPaged, hs'.tracked, h.ok, h.disjoint, fun x hx n hn => ?_, fun v hc hreg hout => ?_⟩
  · have hok := h.ok x hx
    rw [hsame _ (hok.pagesOk.regular hn)]
    exact h.inside x hx n hn
  · rw [hsame v hreg]
    exact h.outside v hc hreg hout

/-- **`map` keeps the refinement.** -/
theorem MapOutcome.refined {r : Except String Unit} (h : Refined k) (he : Exclusive k)
    (hmap : MapOutcome k x r k') : Refined k' := by
  have hs := h.sound he
  cases hmap with
  | refused e => exact h
  | undone e hruns hrange hundo =>
    exact h.of_leaves hruns hs fun v hv => hundo.same v hv fun n hn => absurd hn (by omega)
  | @done cs m' hok hruns hapart hdone =>
    have hs' := hruns.sound hs
    refine ⟨h.init, hs'.toPaged, hs'.tracked, ?_, ?_, ?_, ?_⟩
    · intro y hy
      rcases mem_append.mp hy with hy | hy
      · exact h.ok y hy
      · rw [mem_singleton.mp hy]; exact hok
    · refine pairwise_append.mpr ⟨h.disjoint, pairwise_singleton _ _, fun y hy z hz => ?_⟩
      rw [mem_singleton.mp hz]
      exact hapart y hy
    · intro y hy n hn
      rcases mem_append.mp hy with hy | hy
      · -- a page of an older mapping is not a page of the new one
        have hyok := h.ok y hy
        have hin := hyok.has_page hn
        have hcanon := (hyok.slots _ hin.1 hin.2).1
        refine (hdone.same _ (hyok.pagesOk.regular hn) fun n' _ hn' heq => ?_).trans (h.inside y hy n hn)
        exact (hapart y hy).not_has hin ((hok.page_iff hcanon).mp ⟨n', hn', heq⟩)
      · rw [mem_singleton.mp hy] at hn ⊢
        exact hdone.set n (Nat.zero_le _) hn
    · intro v hc hreg hout
      have hnew : ¬x.Has v := hout x (mem_append_right _ (mem_singleton_self x))
      refine (hdone.same v hreg fun n _ hn heq => hnew ((hok.page_iff hc).mp ⟨n, hn, heq⟩)).trans ?_
      exact h.outside v hc hreg fun y hy => hout y (mem_append_left _ hy)

end Map

/-! ## `unmap` -/

section Unmap

variable {k k' : Kernel mmu} {virtStart : Nat}

/-- The kernel after the pages of `x` are cleared and its record is removed. -/
def unmapped (k : Kernel mmu) (virtStart : Nat) (m' : Machine mmu) : Kernel mmu :=
  ({ k with machine := m' } : Kernel mmu).setMappings
    (k.vmm.mappings.eraseP fun y => y.virtStart == virtStart)

/-- The outcomes of `unmap`. -/
inductive UnmapOutcome (k : Kernel mmu) (virtStart : Nat) : Except String Unit → Kernel mmu → Prop
  | refused (e : String) (absent : ∀ x ∈ k.vmm.mappings, x.virtStart ≠ virtStart) :
      UnmapOutcome k virtStart (.error e) k
  | done {x : Mapping} {cs : List Edit} {m' : Machine mmu}
      (found : k.vmm.mappings.find? (fun y => y.virtStart == virtStart) = some x)
      (runs : Runs k.machine cs m') (noLinks : links cs = 0)
      (onRange : OnRange x.virtStart x.pages cs)
      (cleared : ∀ n, n < x.pages → m'.leaf (pageOf x.virtStart n) = 0#64)
      (same : ∀ v, Regular (tablePath v) → (∀ n, n < x.pages → path v ≠ path (pageOf x.virtStart n)) →
        m'.leaf v = k.machine.leaf v) :
      UnmapOutcome k virtStart (.ok ())
        (if x.ownedPhysical then
          (unmapped k virtStart m').setPmm (freePagesRange m'.pmm x.physStart x.pages).2
        else unmapped k virtStart m')

theorem unmap_cases (h : Refined k) (he : Exclusive k)
    (hfresh : ∀ x ∈ k.vmm.mappings, x.virtStart = virtStart → ∀ n, n < x.pages →
      k.machine.Fresh (pageOf virtStart n)) :
    ∃ r k', k.unmap virtStart = some (r, k') ∧ UnmapOutcome k virtStart r k' := by
  unfold Kernel.unmap
  by_cases hal : isPageAligned virtStart = false
  · rw [if_pos hal]
    refine ⟨_, _, rfl, .refused _ fun x hx heq => ?_⟩
    rw [← heq, (isPageAligned_iff _).mpr (h.ok x hx).virtAligned] at hal
    cases hal
  rw [if_neg hal, if_neg (by rw [h.init]; decide)]
  cases hfind : k.vmm.mappings.find? (fun y => y.virtStart == virtStart) with
  | none =>
    refine ⟨_, _, rfl, .refused _ fun x hx heq => ?_⟩
    exact find?_eq_none.mp hfind x hx (by simpa using heq)
  | some x =>
    have hx := mem_of_find?_eq_some hfind
    have hstart : x.virtStart = virtStart := by simpa using find?_some hfind
    have hok := h.ok x hx
    obtain ⟨cs, m', hcall, hruns, ⟨hlinks, hrange⟩, hzero, hsame⟩ := unmapLoop_spec
      hok.pagesOk x.pages 0 k.machine (by omega) (h.sound he)
      fun n _ hn => ⟨by rw [h.inside x hx n (by omega)]; exact isPresent_setPage ..,
        by rw [hstart]; exact hfresh x hx hstart n (by omega)⟩
    simp only
    rw [hcall]
    exact ⟨_, _, rfl, .done hfind hruns hlinks hrange (fun n hn => hzero n (Nat.zero_le _) (by omega))
      fun v hv hout => hsame v hv fun n _ hn => hout n (by omega)⟩

/-- Freeing pages changes only the PMM, and not its size. -/
theorem freePagesRange_tracked (p : Pmm) (base count : Nat) :
    (freePagesRange p base count).2.trackedPages = p.trackedPages := by
  have hloop : ∀ (n : Nat) (ok : Bool) (addr : Nat) (p : Pmm),
      (freePagesLoop n ok addr p).2.trackedPages = p.trackedPages := by
    intro n
    induction n with
    | zero => intro ok addr p; rfl
    | succ n ih =>
      intro ok addr p
      simp only [freePagesLoop]
      rw [ih]
      rcases freePage_cases p addr with heq | ⟨-, -, -, -, -, ht, -⟩
      · rw [heq]
      · exact ht
  unfold freePagesRange
  split
  · rfl
  · exact hloop count true base p

theorem Refined.setPmm (h : Refined k) {pmm : Pmm} (ht : pmm.trackedPages ≤ maxPages) :
    Refined (k.setPmm pmm) :=
  { h with tracked := ht }

/-- Of a disjoint list, what is left without `x` is disjoint from `x`. -/
theorem disjoint_of_eraseP {l : List Mapping} (hdis : l.Pairwise Mapping.Disjoint) {p : Mapping → Bool}
    (hfind : l.find? p = some x) (hy : y ∈ l.eraseP p) : x.Disjoint y := by
  obtain ⟨as, bs, rfl, herase⟩ := eraseP_of_find? hfind
  rw [herase] at hy
  obtain ⟨-, hbs, hcross⟩ := pairwise_append.mp hdis
  rcases mem_append.mp hy with hy | hy
  · exact (hcross y hy x (mem_cons_self ..)).symm
  · exact rel_of_pairwise_cons hbs hy

theorem mem_eraseP_or {l : List Mapping} {p : Mapping → Bool} (hfind : l.find? p = some x) (hy : y ∈ l) :
    y = x ∨ y ∈ l.eraseP p := by
  obtain ⟨as, bs, rfl, herase⟩ := eraseP_of_find? hfind
  rw [herase]
  rcases mem_append.mp hy with hy | hy
  · exact .inr (mem_append_left _ hy)
  · rcases mem_cons.mp hy with hy | hy
    · exact .inl hy
    · exact .inr (mem_append_right _ hy)

/-- **`unmap` keeps the refinement.** -/
theorem UnmapOutcome.refined {r : Except String Unit} (h : Refined k) (he : Exclusive k)
    (hunmap : UnmapOutcome k virtStart r k') : Refined k' := by
  cases hunmap with
  | refused e => exact h
  | @done x cs m' hfind hruns hlinks hrange hzero hsame =>
    have hs' := hruns.sound (h.sound he)
    have hx := mem_of_find?_eq_some hfind
    have hok := h.ok x hx
    have hmem : ∀ {y}, y ∈ (unmapped k virtStart m').vmm.mappings → y ∈ k.vmm.mappings :=
      fun hy => mem_of_mem_eraseP hy
    have hbase : Refined (unmapped k virtStart m') := by
      refine ⟨h.init, hs'.toPaged, hs'.tracked, fun y hy => h.ok y (hmem hy),
        h.disjoint.sublist eraseP_sublist, ?_, ?_⟩
      · intro y hy n hn
        have hyok := h.ok y (hmem hy)
        have hin := hyok.has_page hn
        have hcanon := (hyok.slots _ hin.1 hin.2).1
        refine (hsame _ (hyok.pagesOk.regular hn) fun n' hn' heq => ?_).trans (h.inside y (hmem hy) n hn)
        exact (disjoint_of_eraseP h.disjoint hfind hy).symm.not_has hin
          ((hok.page_iff hcanon).mp ⟨n', hn', heq⟩)
      · intro v hc hreg hout
        by_cases hv : x.Has v
        · obtain ⟨n, hn, heq⟩ := (hok.page_iff hc).mpr hv
          exact (Machine.leaf_congr m' heq).trans (hzero n hn)
        · refine (hsame v hreg fun n hn heq => hv ((hok.page_iff hc).mp ⟨n, hn, heq⟩)).trans ?_
          refine h.outside v hc hreg fun y hy hyv => ?_
          rcases mem_eraseP_or hfind hy with rfl | hrest
          · exact hv hyv
          · exact hout y hrest hyv
    split
    · refine hbase.setPmm ?_
      rw [freePagesRange_tracked]
      exact hs'.tracked
    · exact hbase

end Unmap

end Saios.Vmm
