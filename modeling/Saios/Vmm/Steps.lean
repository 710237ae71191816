/-
  RUNS of the manager: any order of its calls, with the rest of the kernel in between.

  1. **`Call`** — the five calls; `others`, by which the rest of the kernel writes memory that is not a
     page table and allocates or frees frames; `touch`, by which it uses an address.  `exec` returns
     `none` for a page fault, and so does every later step.

  2. **`Allowed`** — what is assumed of each step: the PMM counts the tables as used, a range that is
     mapped lies in regular slots and below `2^52`, and the rest of the kernel keeps out of the tables.
     `FreshFor` — no pointer the call needs is stale — is a separate assumption: it holds of every state
     when the cache is coherent.

  3. **`exec_kept`**, **`run_kept`** — no fault, the refinement is kept, and the entries that translate
     slot 0 stay.
-/
import Saios.Lib.Run
import Saios.Vmm.Calls

namespace Saios.Vmm

open Saios.Memory List

variable {mmu : Mmu}

/-! ## Slot 0 -/

/-- What a walk in slot 0 of the same PML4 reads is as before. -/
def Steady (k k' : Kernel mmu) : Prop :=
  k'.machine.root = k.machine.root ∧ ∀ v, index 3 v = 0 → ∀ q i f, q ++ [i] <+: path v →
    tableAt k.machine.mem k.machine.root q = some f → k'.machine.mem f i = k.machine.mem f i

theorem Steady.refl (k : Kernel mmu) : Steady k k := ⟨rfl, fun _ _ _ _ _ _ _ => rfl⟩

theorem Steady.tables {k k' : Kernel mmu} (h : Steady k k') {v : Nat} (hv : index 3 v = 0) {q : List Index}
    (hq : q <+: path v) :
    tableAt k'.machine.mem k'.machine.root q = tableAt k.machine.mem k.machine.root q := by
  rw [h.1]
  exact EdgeTree.walk_congr fun ks i f hpre hf => edges_congr (h.2 v hv ks i f (hpre.trans hq) hf)

theorem Steady.trans {k1 k2 k3 : Kernel mmu} (h : Steady k1 k2) (h' : Steady k2 k3) : Steady k1 k3 := by
  refine ⟨h'.1.trans h.1, fun v hv q i f hpre hf => ?_⟩
  have hf2 := (h.tables hv ((prefix_append q [i]).trans hpre)).trans hf
  rw [h'.2 v hv q i f hpre hf2, h.2 v hv q i f hpre hf]

/-- The entries a walk in slot 0 reads are in no regular place. -/
theorem not_regular_of_slot0 {v : Nat} (hv : index 3 v = 0) {q : List Index} {i : Index}
    (hpre : q ++ [i] <+: path v) : Inner q ∧ ¬Regular q ∧ ¬Regular (q ++ [i]) := by
  have hlen := hpre.length_le
  simp only [length_append, path, length_cons] at hlen
  obtain ⟨r, hr⟩ := hpre
  cases q with
  | nil =>
    simp only [nil_append, path, cons_append, cons.injEq] at hr
    exact ⟨⟨by simp, by simp⟩, id, fun h => h.1 (hr.1.trans hv)⟩
  | cons a q =>
    simp only [path, cons_append, cons.injEq] at hr
    have ha : a = 0 := hr.1.trans hv
    refine ⟨⟨by omega, ?_⟩, fun h => h.1 ha, fun h => h.1 ha⟩
    rw [ha, head?_cons]
    decide

theorem Runs.slot0 {m m' : Machine mmu} {cs : List Edit} (h : Runs m cs m') (hs : m.Sound) (v : Nat)
    (hv : index 3 v = 0) (q : List Index) (i : Index) (f : Nat) (hpre : q ++ [i] <+: path v)
    (hf : tableAt m.mem m.root q = some f) : m'.mem f i = m.mem f i := by
  obtain ⟨hq, hreg, hplace⟩ := not_regular_of_slot0 hv hpre
  exact h.edits.outer_cell hs hq hf hreg hplace

variable {k : Kernel mmu}

theorem Runs.steady {k' : Kernel mmu} {cs : List Edit} (h : Runs k.machine cs k'.machine)
    (hs : k.machine.Sound) : Steady k k' := ⟨h.root, h.slot0 hs⟩

/-! ## The other calls -/

section Calls

variable {k k' : Kernel mmu} {virtStart physStart pages : Nat}

/-- What every call preserves. -/
structure Kept (k k' : Kernel mmu) : Prop where
  refined : Refined k'
  steady : Steady k k'

theorem Refined.setCursor (h : Refined k) (virt : Nat) : Refined (k.setCursor virt) := { h with }

theorem MapOutcome.kept {x : Mapping} {r : Except String Unit} (h : Refined k) (he : Exclusive k)
    (hmap : MapOutcome k x r k') : Kept k k' := by
  refine ⟨hmap.refined h he, ?_⟩
  cases hmap with
  | refused e => exact Steady.refl k
  | undone e hruns hrange hundo => exact Runs.steady hruns (h.sound he)
  | done hok hruns hapart hdone => exact Runs.steady hruns (h.sound he)

theorem UnmapOutcome.kept {r : Except String Unit} (h : Refined k) (he : Exclusive k)
    (hunmap : UnmapOutcome k virtStart r k') : Kept k k' := by
  refine ⟨hunmap.refined h he, ?_⟩
  cases hunmap with
  | refused e => exact Steady.refl k
  | @done x cs m' hfind hruns hlinks hrange hzero hsame =>
    have hsteady : Steady k (unmapped k virtStart m') := Runs.steady hruns (h.sound he)
    split
    · exact hsteady
    · exact hsteady

/-- The list with its last mapping owned says the same about the tables. -/
theorem Refined.own {l : List Mapping} {x : Mapping} (h : Refined k) (hl : k.vmm.mappings = l ++ [x]) :
    Refined (k.setMappings (l ++ [{ x with ownedPhysical := true }])) := by
  have hx : x ∈ k.vmm.mappings := by rw [hl]; simp
  have hmem : ∀ {y}, y ∈ l → y ∈ k.vmm.mappings := fun hy => by rw [hl]; exact mem_append_left _ hy
  have hdis := h.disjoint
  rw [hl] at hdis
  obtain ⟨hdl, -, hcross⟩ := pairwise_append.mp hdis
  refine { h with ok := ?_, disjoint := ?_, inside := ?_, outside := ?_ }
  · intro y hy
    rcases mem_append.mp hy with hy | hy
    · exact h.ok y (hmem hy)
    · rw [mem_singleton.mp hy]
      exact { h.ok x hx with }
  · refine pairwise_append.mpr ⟨hdl, pairwise_singleton _ _, fun y hy z hz => ?_⟩
    rw [mem_singleton.mp hz]
    exact hcross y hy x (mem_singleton_self x)
  · intro y hy
    rcases mem_append.mp hy with hy | hy
    · exact h.inside y (hmem hy)
    · rw [mem_singleton.mp hy]
      exact h.inside x hx
  · intro v hc hreg hout
    refine h.outside v hc hreg fun y hy hv => ?_
    rw [hl] at hy
    rcases mem_append.mp hy with hy | hy
    · exact hout y (mem_append_left _ hy) hv
    · rw [mem_singleton.mp hy] at hv
      exact hout _ (mem_append_right _ (mem_singleton_self _)) hv

theorem ownLast_append (l : List Mapping) (x : Mapping) :
    Kernel.ownLast x.virtStart x.physStart x.pages (l ++ [x]) = l ++ [{ x with ownedPhysical := true }] := by
  simp [Kernel.ownLast]

theorem mapOwned_kept (h : Refined k) (he : Exclusive k) (hslots : InSlots virtStart pages)
    (hphys : physStart + 4096 * pages ≤ 2 ^ 52)
    (hfresh : ∀ n, n < pages → k.machine.Fresh (pageOf virtStart n)) (flags : Entry) (owner : String) :
    ∃ r k', k.mapOwned virtStart physStart pages flags owner = some (r, k') ∧ Kept k k' := by
  obtain ⟨r, k', hcall, hmap⟩ := map_cases h he hslots hphys hfresh flags owner
  have hkept := hmap.kept h he
  unfold Kernel.mapOwned
  rw [hcall]
  cases hmap with
  | refused e => exact ⟨_, _, rfl, hkept⟩
  | undone e hruns hrange hundo => exact ⟨_, _, rfl, hkept⟩
  | @done cs m' hok hruns hapart hdone =>
    refine ⟨_, _, rfl, ?_, hkept.steady⟩
    have hown := hkept.refined.own rfl
    rwa [← ownLast_append] at hown

/-- A cursor taken is the old cursor; nothing else changes. -/
theorem takeCursor_reserves (k : Kernel mmu) (pages : Nat) :
    (∃ e, k.takeCursor pages = (.error e, k)) ∨
      (k.vmm.nextKernelVirt + 4096 * pages < 2 ^ 64 ∧ k.takeCursor pages =
        (.ok k.vmm.nextKernelVirt, k.setCursor (k.vmm.nextKernelVirt + 4096 * pages))) := by
  unfold Kernel.takeCursor
  split
  · exact .inl ⟨_, rfl⟩
  cases hc : checkedRangeEnd k.vmm.nextKernelVirt pages with
  | none => exact .inl ⟨_, rfl⟩
  | some stop =>
    obtain ⟨rfl, hlt⟩ := checkedRangeEnd_some hc
    exact .inr ⟨hlt, rfl⟩

section

variable (h : Refined k) (he : Exclusive k) (hslots : InSlots k.vmm.nextKernelVirt pages)

include h he hslots

theorem mapPhysicalAnywhere_kept (hphys : physStart + 4096 * pages ≤ 2 ^ 52)
    (hfresh : ∀ n, n < pages → k.machine.Fresh (pageOf k.vmm.nextKernelVirt n)) (flags : Entry) (owner : String) :
    ∃ r k', k.mapPhysicalAnywhere physStart pages flags owner = some (r, k') ∧ Kept k k' := by
  have hsame : Kept k k := ⟨h, Steady.refl k⟩
  unfold Kernel.mapPhysicalAnywhere
  by_cases hpages : pages = 0
  · rw [if_pos hpages]; exact ⟨_, _, rfl, hsame⟩
  rw [if_neg hpages]
  by_cases hal : isPageAligned physStart = false
  · rw [if_pos hal]; exact ⟨_, _, rfl, hsame⟩
  rw [if_neg hal]
  rcases takeCursor_reserves k pages with ⟨e, hcur⟩ | ⟨-, hcur⟩
  · rw [hcur]; exact ⟨_, _, rfl, hsame⟩
  · rw [hcur, andThen_ok]
    have hat := h.setCursor (k.vmm.nextKernelVirt + 4096 * pages)
    obtain ⟨r, k', hcall, hmap⟩ := map_cases hat he hslots hphys hfresh flags owner
    have hkept := hmap.kept hat he
    rw [hcall]
    cases r with
    | ok => exact ⟨_, _, rfl, hkept.refined, hkept.steady⟩
    | error e =>
      refine ⟨_, _, rfl, ?_⟩
      split
      · exact ⟨hkept.refined.setCursor _, hkept.steady⟩
      · exact ⟨hkept.refined, hkept.steady⟩

theorem allocAndMap_kept (hfresh : ∀ n, n < pages → k.machine.Fresh (pageOf k.vmm.nextKernelVirt n)) (flags : Entry)
    (owner : String) :
    ∃ r k', k.allocAndMap pages flags owner = some (r, k') ∧ Kept k k' := by
  have hsame : Kept k k := ⟨h, Steady.refl k⟩
  unfold Kernel.allocAndMap
  by_cases hpages : pages = 0
  · rw [if_pos hpages]; exact ⟨_, _, rfl, hsame⟩
  rw [if_neg hpages]
  cases ha : (allocPages k.machine.pmm pages).1 with
  | none =>
    have hpmm : (allocPages k.machine.pmm pages).2 = k.machine.pmm := allocPagesBelow_none ha
    refine ⟨_, _, rfl, ?_⟩
    rw [hpmm]
    exact hsame
  | some phys =>
    obtain ⟨first, rfl, -, -, hbound, -, hpmm⟩ := allocPagesBelow_some ha
    have htracked := h.tracked
    -- the pages just taken are not tables, and no table becomes free
    have h1 : Refined (k.setPmm (allocPages k.machine.pmm pages).2) := by
      refine h.setPmm ?_
      rw [allocPages, hpmm]
      exact htracked
    have he1 : Exclusive (k.setPmm (allocPages k.machine.pmm pages).2) := by
      intro p f hp hf
      have hused := he p f hp hf
      rw [Kernel.setPmm, Machine.setPmm, allocPages, hpmm, isUsed_alloc, hused, Bool.or_true]
    have hphys : first * pageSize + 4096 * pages ≤ 2 ^ 52 := by
      have hsize : first * pageSize = 4096 * first := Nat.mul_comm first 4096
      simp only [maxPages, maxTrackedMemoryBytes, pageSize] at htracked
      omega
    rcases takeCursor_reserves (k.setPmm (allocPages k.machine.pmm pages).2) pages with ⟨e, hcur⟩ | ⟨-, hcur⟩
    · simp only [hcur]
      exact ⟨_, _, rfl, h1, Steady.refl k⟩
    · simp only [hcur, andThen_ok]
      have hslots1 : InSlots (k.setPmm (allocPages k.machine.pmm pages).2).vmm.nextKernelVirt pages := hslots
      have hat := h1.setCursor ((k.setPmm (allocPages k.machine.pmm pages).2).vmm.nextKernelVirt + 4096 * pages)
      obtain ⟨r, k', hcall, hkept⟩ := mapOwned_kept hat he1 hslots1 hphys hfresh flags owner
      rw [hcall]
      cases r with
      | ok => exact ⟨_, _, rfl, hkept.refined, hkept.steady⟩
      | error e =>
        refine ⟨_, _, rfl, hkept.refined.setPmm ?_, hkept.steady⟩
        rw [freePagesRange_tracked]
        exact hkept.refined.tracked

end

end Calls

/-! ## Steps -/

inductive Call
  | map (virtStart physStart pages : Nat) (flags : Entry) (owner : String)
  | mapOwned (virtStart physStart pages : Nat) (flags : Entry) (owner : String)
  | allocAndMap (pages : Nat) (flags : Entry) (owner : String)
  | mapPhysicalAnywhere (physStart pages : Nat) (flags : Entry) (owner : String)
  | unmap (virtStart : Nat)
  | others (space : Space)
  | touch (virt : Nat)

/-- One call; `none` is a page fault. -/
def exec (k : Kernel mmu) : Call → Option (Kernel mmu)
  | .map v p n flags owner => (k.map v p n flags owner).map Prod.snd
  | .mapOwned v p n flags owner => (k.mapOwned v p n flags owner).map Prod.snd
  | .allocAndMap n flags owner => (k.allocAndMap n flags owner).map Prod.snd
  | .mapPhysicalAnywhere p n flags owner => (k.mapPhysicalAnywhere p n flags owner).map Prod.snd
  | .unmap v => (k.unmap v).map Prod.snd
  | .others space => some { k with machine := { k.machine with toSpace := space } }
  | .touch v => some { k with machine := k.machine.touch v }

def step (s : Option (Kernel mmu)) (c : Call) : Option (Kernel mmu) := s.bind fun k => exec k c

/-- The range of addresses a call maps, and where its physical pages end. -/
def ArgsOk (k : Kernel mmu) : Call → Prop
  | .map v p n _ _ | .mapOwned v p n _ _ => InSlots v n ∧ p + 4096 * n ≤ 2 ^ 52
  | .allocAndMap n _ _ => InSlots k.vmm.nextKernelVirt n
  | .mapPhysicalAnywhere p n _ _ => InSlots k.vmm.nextKernelVirt n ∧ p + 4096 * n ≤ 2 ^ 52
  | .unmap _ | .touch _ => True
  | .others space =>
      space.pmm.trackedPages ≤ maxPages ∧
      ∀ p f i, Inner p → tableAt k.machine.mem k.machine.root p = some f → space.mem f i = k.machine.mem f i

/-- What is assumed of a step. -/
def Allowed (k : Kernel mmu) (c : Call) : Prop := Exclusive k ∧ ArgsOk k c

/-- No pointer the call needs is stale. -/
def FreshFor (k : Kernel mmu) : Call → Prop
  | .map v _ n _ _ | .mapOwned v _ n _ _ => ∀ i, i < n → k.machine.Fresh (pageOf v i)
  | .allocAndMap n _ _ | .mapPhysicalAnywhere _ n _ _ =>
      ∀ i, i < n → k.machine.Fresh (pageOf k.vmm.nextKernelVirt i)
  | .unmap v => ∀ x ∈ k.vmm.mappings, x.virtStart = v → ∀ i, i < x.pages → k.machine.Fresh (pageOf v i)
  | .others _ | .touch _ => True

/-- Memory that agrees on all tables has the same tables. -/
theorem tableAt_agree {mem mem' : Mem} {root : Nat}
    (hcells : ∀ p f i, Inner p → tableAt mem root p = some f → mem' f i = mem f i) {q : List Index}
    (hq : Inner q) : tableAt mem' root q = tableAt mem root q := by
  refine EdgeTree.walk_congr fun ks i f hpre hf => ?_
  exact edges_congr (hcells ks f i (inner_closed ((prefix_append ks [i]).trans hpre) hq) hf)

theorem others_kept (h : Refined k) {space : Space} (htracked : space.pmm.trackedPages ≤ maxPages)
    (hcells : ∀ p f i, Inner p → tableAt k.machine.mem k.machine.root p = some f →
      space.mem f i = k.machine.mem f i) :
    Kept k { k with machine := { k.machine with toSpace := space } } := by
  have htab := fun {q} hq => tableAt_agree hcells (q := q) hq
  have hrec : space.mem k.machine.root 511 = k.machine.mem k.machine.root 511 :=
    hcells [] _ 511 ⟨by simp, by simp⟩ rfl
  have hleaf : ∀ v, Regular (tablePath v) →
      leafAt space.mem k.machine.root (tablePath v) (index 0 v) = k.machine.leaf v := by
    intro v hv
    have hq : Inner (tablePath v) := hv.inner (Nat.le_refl 3)
    rw [leafAt, htab hq, Machine.leaf, leafAt]
    cases hf : tableAt k.machine.mem k.machine.root (tablePath v) with
    | none => rfl
    | some f => simp only [Option.map_some, hcells _ f _ hq hf]
  refine ⟨⟨h.init, ⟨⟨?_, ?_, ?_⟩, ?_, ?_, ?_⟩, htracked, h.ok, h.disjoint, ?_, ?_⟩, rfl, ?_⟩
  · exact hrec ▸ h.paged.recPresent
  · exact hrec ▸ h.paged.recSmall
  · exact (congrArg frame hrec).trans h.paged.recFrame
  · exact h.paged.apart.of_le fun ls i hls hi => (htab hls).symm.trans hi
  · intro p f i hreg hlen hf hnot
    have hf' : tableAt k.machine.mem k.machine.root p = some f :=
      (htab (hreg.inner_init hlen)).symm.trans hf
    have hcell := hcells p f i (hreg.inner_init hlen) hf'
    exact hcell.trans (h.paged.clean hreg hlen hf' (hcell ▸ hnot))
  · intro p f i hreg hlen hf
    have hin := hreg.inner_init (by omega)
    have hf' : tableAt k.machine.mem k.machine.root p = some f := (htab hin).symm.trans hf
    exact (congrArg isHuge (hcells p f i hin hf')).trans (h.paged.small hreg hlen hf')
  · intro x hx n hn
    have hok := h.ok x hx
    exact (hleaf _ (hok.pagesOk.regular hn)).trans
      (h.inside x hx n hn)
  · exact fun v hc hreg hout => (hleaf v hreg).trans (h.outside v hc hreg hout)
  · exact fun v hv q i f hpre hf => hcells q f i (not_regular_of_slot0 hv hpre).1 hf

/-- **No fault, and what every call keeps.** -/
theorem exec_kept (h : Refined k) {c : Call} (hallowed : Allowed k c) (hfresh : FreshFor k c) :
    ∃ k', exec k c = some k' ∧ Kept k k' := by
  obtain ⟨he, hargs⟩ := hallowed
  cases c with
  | map v p n flags owner =>
    obtain ⟨r, k', hcall, hmap⟩ := map_cases h he hargs.1 hargs.2 hfresh flags owner
    exact ⟨k', by rw [exec, hcall]; rfl, hmap.kept h he⟩
  | mapOwned v p n flags owner =>
    obtain ⟨r, k', hcall, hkept⟩ := mapOwned_kept h he hargs.1 hargs.2 hfresh flags owner
    exact ⟨k', by rw [exec, hcall]; rfl, hkept⟩
  | allocAndMap n flags owner =>
    obtain ⟨r, k', hcall, hkept⟩ := allocAndMap_kept h he hargs hfresh flags owner
    exact ⟨k', by rw [exec, hcall]; rfl, hkept⟩
  | mapPhysicalAnywhere p n flags owner =>
    obtain ⟨r, k', hcall, hkept⟩ := mapPhysicalAnywhere_kept h he hargs.1 hargs.2 hfresh flags owner
    exact ⟨k', by rw [exec, hcall]; rfl, hkept⟩
  | unmap v =>
    obtain ⟨r, k', hcall, hunmap⟩ := unmap_cases h he hfresh
    exact ⟨k', by rw [exec, hcall]; rfl, hunmap.kept h he⟩
  | others space => exact ⟨_, rfl, others_kept h hargs.1 hargs.2⟩
  | touch v => exact ⟨_, rfl, { h with }, Steady.refl k⟩

/-- A condition on the steps of a run that has not faulted. -/
def Live (C : Kernel mmu → Call → Prop) (s : Option (Kernel mmu)) (c : Call) : Prop := ∀ k, s = some k → C k c

/-- **A whole run**: no fault, the refinement holds, slot 0 is translated as at the start. -/
theorem run_kept {k0 : Kernel mmu} (h : Refined k0) {calls : List Call}
    (hrun : Run.Along step (Live fun k c => Allowed k c ∧ FreshFor k c) (some k0) calls) :
    ∃ k, calls.foldl step (some k0) = some k ∧ Kept k0 k := by
  refine Run.foldl_inv_along (I := fun s => ∃ k, s = some k ∧ Kept k0 k) ?_
    ⟨k0, rfl, h, Steady.refl k0⟩ hrun
  rintro s c ⟨k, rfl, hkept⟩ hc
  obtain ⟨hallowed, hfresh⟩ := hc k rfl
  obtain ⟨k', hexec, hkept'⟩ := exec_kept hkept.refined hallowed hfresh
  exact ⟨k', hexec, hkept'.refined, hkept.steady.trans hkept'.steady⟩

/-- With a coherent cache nothing is ever stale. -/
theorem freshFor_walker (k : Kernel Mmu.walker) (c : Call) : FreshFor k c := by
  cases c with
  | map => exact fun _ _ _ _ => trivial
  | mapOwned => exact fun _ _ _ _ => trivial
  | allocAndMap => exact fun _ _ _ _ => trivial
  | mapPhysicalAnywhere => exact fun _ _ _ _ => trivial
  | unmap => exact fun _ _ _ _ _ _ _ => trivial
  | others => trivial
  | touch => trivial

end Saios.Vmm
