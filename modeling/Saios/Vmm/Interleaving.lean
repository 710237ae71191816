/-
  CONCURRENT CALLS of the manager, and the CURSOR they share.

  1. **Sections** — `alloc_and_map` and `map_physical_anywhere` take the lock once to reserve a range from
     the cursor, once to map it, and once more to mark it owned or to give it back.  `Pending` is a call
     between two sections, `Kernel.resume` runs its next one.  Run to the end without interruption the
     sections are the calls of `Manager` (`allocAndMap_sections`, `mapPhysicalAnywhere_sections`).

  2. **Interleavings** — a run is a list of `Turn`s: a call begins, a call runs its next section, a range is
     unmapped, or the rest of the kernel changes the machine in any way, which lets every frame allocation
     fail wherever it likes.

  3. **The rewind** — a failed `map_physical_anywhere` sets the cursor back to the start of its range
     whenever the cursor is at or beyond the end of it.  A range that another call reserved meanwhile lies
     between, and the cursor ends up below a live mapping (`rewind_below_live`).  Runs whose rewinds meet no
     such range keep the cursor above everything that is live (`cursor_covers_live`).
-/
import Saios.Vmm.Refine

namespace Saios.Vmm

open Saios.Memory List Option

variable {mmu : Mmu}

/-! ## Sections -/

/-- A call between two of its sections.  `owned` tells `alloc_and_map` from `map_physical_anywhere`. -/
inductive Pending
  | reserving (owned : Bool) (physStart pages : Nat) (flags : Entry) (owner : String)
  | placing (owned : Bool) (virt physStart pages : Nat) (flags : Entry) (owner : String)
  | owning (virt physStart pages : Nat)
  | rewinding (virt pages : Nat) (error : String)
  | releasing (physStart pages : Nat) (error : String)
  deriving DecidableEq, Repr

/-- After a section the call waits for the next one, or it has returned. -/
inductive Progress
  | next (p : Pending)
  | done (r : Except String Nat)

def Progress.pending : Progress → List Pending
  | .next p => [p]
  | .done _ => []

namespace Kernel

/-- `alloc_and_map` up to its first section: the frames are taken outside the lock. -/
def beginAllocAndMap (k : Kernel mmu) (pages : Nat) (flags : Entry) (owner : String) :
    Progress × Kernel mmu :=
  if pages = 0 then (.done (.error "vmm: pages must be > 0"), k)
  else
    match (allocPages k.machine.pmm pages).1 with
    | none =>
        (.done (.error "vmm: physical allocation failed"), k.setPmm (allocPages k.machine.pmm pages).2)
    | some phys =>
        (.next (.reserving true phys pages flags owner), k.setPmm (allocPages k.machine.pmm pages).2)

def beginMapPhysicalAnywhere (k : Kernel mmu) (physStart pages : Nat) (flags : Entry) (owner : String) :
    Progress × Kernel mmu :=
  if pages = 0 then (.done (.error "vmm: pages must be > 0"), k)
  else if isPageAligned physStart = false then
    (.done (.error "vmm: physical address must be page aligned"), k)
  else (.next (.reserving false physStart pages flags owner), k)

/-- The next section of a call; `none` is a page fault. -/
def resume (k : Kernel mmu) : Pending → Option (Progress × Kernel mmu)
  | .reserving owned physStart pages flags owner =>
      match (k.takeCursor pages).1 with
      | .error e => some (.done (.error e), (k.takeCursor pages).2)
      | .ok virt => some (.next (.placing owned virt physStart pages flags owner), (k.takeCursor pages).2)
  | .placing owned virt physStart pages flags owner =>
      (k.map virt physStart pages flags owner).map fun r =>
        match r.1 with
        | .ok _ => (if owned then .next (.owning virt physStart pages) else .done (.ok virt), r.2)
        | .error e =>
            (.next (if owned then .releasing physStart pages e else .rewinding virt pages e), r.2)
  | .owning virt physStart pages =>
      some (.done (.ok virt), k.setMappings (ownLast virt physStart pages k.vmm.mappings))
  | .rewinding virt pages e =>
      some (.done (.error e), if pageOf virt pages ≤ k.vmm.nextKernelVirt then k.setCursor virt else k)
  | .releasing physStart pages e =>
      some (.done (.error e), k.setPmm (freePagesRange k.machine.pmm physStart pages).2)

/-- A call run to its end, section by section, with nothing in between. -/
def complete : Nat → Progress × Kernel mmu → Outcome (Kernel mmu) Nat
  | _, (.done r, k) => some (r, k)
  | 0, (.next _, _) => none
  | n + 1, (.next p, k) => (k.resume p).bind (complete n)

end Kernel

/-- **Uninterrupted, the sections are the call.** -/
theorem mapPhysicalAnywhere_sections (k : Kernel mmu) (physStart pages : Nat) (flags : Entry)
    (owner : String) :
    Kernel.complete 3 (k.beginMapPhysicalAnywhere physStart pages flags owner) =
      k.mapPhysicalAnywhere physStart pages flags owner := by
  unfold Kernel.beginMapPhysicalAnywhere Kernel.mapPhysicalAnywhere
  by_cases h0 : pages = 0
  · rw [if_pos h0, if_pos h0]; rfl
  rw [if_neg h0, if_neg h0]
  by_cases ha : isPageAligned physStart = false
  · rw [if_pos ha, if_pos ha]; rfl
  rw [if_neg ha, if_neg ha]
  rcases takeCursor_reserves k pages with ⟨e, hcur⟩ | ⟨-, hcur⟩
  · rw [hcur, andThen_error]
    simp only [Kernel.complete, Kernel.resume, hcur, bind_some]
  · rw [hcur, andThen_ok]
    simp only [Kernel.complete, Kernel.resume, hcur, bind_some]
    cases (k.setCursor (k.vmm.nextKernelVirt + 4096 * pages)).map k.vmm.nextKernelVirt physStart pages flags owner with
    | none => rfl
    | some r =>
      obtain ⟨_ | _, k'⟩ := r
      · rfl
      · rfl

theorem allocAndMap_sections (k : Kernel mmu) (pages : Nat) (flags : Entry) (owner : String) :
    Kernel.complete 3 (k.beginAllocAndMap pages flags owner) = k.allocAndMap pages flags owner := by
  unfold Kernel.beginAllocAndMap Kernel.allocAndMap
  by_cases h0 : pages = 0
  · rw [if_pos h0, if_pos h0]; rfl
  rw [if_neg h0, if_neg h0]
  cases (allocPages k.machine.pmm pages).1 with
  | none => rfl
  | some phys =>
    simp only
    generalize k.setPmm (allocPages k.machine.pmm pages).2 = k1
    rcases takeCursor_reserves k1 pages with ⟨e, hcur⟩ | ⟨-, hcur⟩
    · rw [hcur, andThen_error]
      simp only [Kernel.complete, Kernel.resume, hcur, bind_some]
    · rw [hcur, andThen_ok]
      simp only [Kernel.complete, Kernel.resume, hcur, bind_some, Kernel.mapOwned]
      cases (k1.setCursor (k1.vmm.nextKernelVirt + 4096 * pages)).map k1.vmm.nextKernelVirt phys pages flags owner with
      | none => rfl
      | some r =>
        obtain ⟨_ | _, k'⟩ := r
        · rfl
        · rfl

/-! ## Interleavings -/

/-- The kernel and the calls that are under way. -/
structure Callers (mmu : Mmu) where
  kernel : Kernel mmu
  pending : List Pending
  faulted : Bool

inductive Turn (mmu : Mmu)
  | allocAndMap (pages : Nat) (flags : Entry) (owner : String)
  | mapPhysicalAnywhere (physStart pages : Nat) (flags : Entry) (owner : String)
  | unmap (virtStart : Nat)
  | resume (i : Nat)
  | others (machine : Machine mmu)

namespace Callers

def begun (w : Callers mmu) (r : Progress × Kernel mmu) : Callers mmu :=
  { w with kernel := r.2, pending := w.pending ++ r.1.pending }

def turn (w : Callers mmu) : Turn mmu → Callers mmu
  | .allocAndMap pages flags owner => w.begun (w.kernel.beginAllocAndMap pages flags owner)
  | .mapPhysicalAnywhere physStart pages flags owner =>
      w.begun (w.kernel.beginMapPhysicalAnywhere physStart pages flags owner)
  | .unmap virtStart =>
      match w.kernel.unmap virtStart with
      | none => { w with faulted := true }
      | some r => { w with kernel := r.2 }
  | .resume i =>
      match w.pending[i]? with
      | none => w
      | some p =>
          match w.kernel.resume p with
          | none => { w with faulted := true }
          | some r => { w with kernel := r.2, pending := w.pending.eraseIdx i ++ r.1.pending }
  | .others machine => { w with kernel := { w.kernel with machine := machine } }

/-- Nothing runs after a page fault. -/
def step (w : Callers mmu) (t : Turn mmu) : Callers mmu := if w.faulted then w else w.turn t

end Callers

/-! ## The cursor -/

def Mapping.EndsBy (x : Mapping) (limit : Nat) : Prop := x.virtStart + 4096 * x.pages ≤ limit

/-- The range the call holds, if it holds one that is not mapped, ends at or below `limit`. -/
def Pending.EndsBy (limit : Nat) : Pending → Prop
  | .placing _ virt _ pages _ _ => virt + 4096 * pages ≤ limit
  | .rewinding virt pages _ => virt + 4096 * pages ≤ limit
  | _ => True

instance Mapping.decidableEndsBy (x : Mapping) (limit : Nat) : Decidable (x.EndsBy limit) :=
  inferInstanceAs (Decidable (x.virtStart + 4096 * x.pages ≤ limit))

instance Pending.decidableEndsBy (limit : Nat) : ∀ p : Pending, Decidable (p.EndsBy limit)
  | .placing _ virt _ pages _ _ => inferInstanceAs (Decidable (virt + 4096 * pages ≤ limit))
  | .rewinding virt pages _ => inferInstanceAs (Decidable (virt + 4096 * pages ≤ limit))
  | .reserving .. => .isTrue trivial
  | .owning .. => .isTrue trivial
  | .releasing .. => .isTrue trivial

/-- Where the call would set the cursor back to, if that is its next section. -/
def Pending.rewindsTo : Pending → Option Nat
  | .rewinding virt _ _ => some virt
  | _ => none

/-- A rewind meets no range above its own: what is live and what other calls hold ends below. -/
def Callers.Tidy (w : Callers mmu) : Turn mmu → Prop
  | .resume i =>
      ∀ virt ∈ (w.pending[i]?).bind Pending.rewindsTo,
        (∀ x ∈ w.kernel.vmm.mappings, x.EndsBy virt) ∧ ∀ p ∈ w.pending.eraseIdx i, p.EndsBy virt
  | _ => True

instance Callers.decidableTidy (w : Callers mmu) : ∀ t : Turn mmu, Decidable (w.Tidy t)
  | .resume i =>
      inferInstanceAs (Decidable (∀ virt ∈ (w.pending[i]?).bind Pending.rewindsTo,
        (∀ x ∈ w.kernel.vmm.mappings, x.EndsBy virt) ∧ ∀ p ∈ w.pending.eraseIdx i, p.EndsBy virt))
  | .allocAndMap .. => .isTrue trivial
  | .mapPhysicalAnywhere .. => .isTrue trivial
  | .unmap _ => .isTrue trivial
  | .others _ => .isTrue trivial

/-- Everything live and everything reserved ends at or below the cursor. -/
structure Callers.Covered (w : Callers mmu) : Prop where
  live : ∀ x ∈ w.kernel.vmm.mappings, x.EndsBy w.kernel.vmm.nextKernelVirt
  reserved : ∀ p ∈ w.pending, p.EndsBy w.kernel.vmm.nextKernelVirt

theorem Pending.EndsBy.mono {p : Pending} {a b : Nat} (h : p.EndsBy a) (hab : a ≤ b) : p.EndsBy b := by
  cases p with
  | placing owned virt physStart pages flags owner => exact Nat.le_trans h hab
  | rewinding virt pages e => exact Nat.le_trans h hab
  | reserving owned physStart pages flags owner => exact trivial
  | owning virt physStart pages => exact trivial
  | releasing physStart pages e => exact trivial

/-- What `map` does to the list of mappings. -/
theorem map_vmm {k k' : Kernel mmu} {virt phys pages : Nat} {flags : Entry} {owner : String}
    {r : Except String Unit} (h : k.map virt phys pages flags owner = some (r, k')) :
    (∃ e, r = .error e ∧ k'.vmm = k.vmm) ∨
      (r = .ok () ∧ k'.vmm =
        { k.vmm with mappings := k.vmm.mappings ++ [⟨virt, phys, pages, flags, owner, false⟩] }) := by
  have hfail : ∀ {e : String}, (some (.error e, k) : Outcome (Kernel mmu) Unit) = some (r, k') →
      ∃ e, r = .error e ∧ k'.vmm = k.vmm := by
    rintro e ⟨⟩
    exact ⟨_, rfl, rfl⟩
  unfold Kernel.map at h
  split at h
  · exact .inl (hfail h)
  split at h
  · exact .inl (hfail h)
  split at h
  · exact .inl (hfail h)
  split at h
  · exact .inl (hfail h)
  split at h
  · exact .inl (hfail h)
  split at h
  · exact .inl (hfail h)
  split at h
  · exact .inl (hfail h)
  obtain ⟨⟨result, m⟩, -, hr⟩ := map_eq_some_iff.mp h
  cases result with
  | error e =>
    cases hr
    exact .inl ⟨e, rfl, rfl⟩
  | ok u =>
    cases hr
    exact .inr ⟨rfl, rfl⟩

theorem unmap_vmm {k k' : Kernel mmu} {virt : Nat} {r : Except String Unit}
    (h : k.unmap virt = some (r, k')) :
    k'.vmm.nextKernelVirt = k.vmm.nextKernelVirt ∧ ∀ x ∈ k'.vmm.mappings, x ∈ k.vmm.mappings := by
  unfold Kernel.unmap at h
  split at h
  · cases h; exact ⟨rfl, fun _ hx => hx⟩
  split at h
  · cases h; exact ⟨rfl, fun _ hx => hx⟩
  split at h
  · cases h; exact ⟨rfl, fun _ hx => hx⟩
  · obtain ⟨m, -, hr⟩ := map_eq_some_iff.mp h
    split at hr
    · cases hr
      exact ⟨rfl, fun x hx => mem_of_mem_eraseP hx⟩
    · cases hr
      exact ⟨rfl, fun x hx => mem_of_mem_eraseP hx⟩

/-- Marking the last mapping as owned moves no range. -/
theorem endsBy_ownLast {l : List Mapping} {limit : Nat} (h : ∀ x ∈ l, x.EndsBy limit)
    (virt phys pages : Nat) : ∀ x ∈ Kernel.ownLast virt phys pages l, x.EndsBy limit := by
  unfold Kernel.ownLast
  split
  · exact h
  · rename_i last hlast
    split
    · intro x hx
      rcases mem_append.mp hx with hx | hx
      · exact h x (mem_of_mem_dropLast hx)
      · rw [mem_singleton.mp hx]
        exact h last (mem_of_getLast? hlast)
    · exact h

/-! ## What a turn keeps -/

variable {w : Callers mmu} {r : Progress × Kernel mmu}

theorem covered_begun (h : w.Covered) (hvmm : r.2.vmm = w.kernel.vmm)
    (hnew : ∀ p ∈ r.1.pending, ∀ limit, p.EndsBy limit) : (w.begun r).Covered := by
  constructor
  · intro x hx
    show x.EndsBy r.2.vmm.nextKernelVirt
    rw [hvmm]
    exact h.live x (hvmm ▸ hx)
  · intro p hp
    show p.EndsBy r.2.vmm.nextKernelVirt
    rcases mem_append.mp hp with hp | hp
    · rw [hvmm]; exact h.reserved p hp
    · exact hnew p hp _

theorem covered_beginAllocAndMap (h : w.Covered) (pages : Nat) (flags : Entry) (owner : String) :
    (w.begun (w.kernel.beginAllocAndMap pages flags owner)).Covered := by
  unfold Kernel.beginAllocAndMap
  split
  · exact covered_begun h rfl nofun
  split
  · exact covered_begun h rfl nofun
  · refine covered_begun h rfl fun p hp limit => ?_
    rw [mem_singleton.mp hp]
    exact trivial

theorem covered_beginMapPhysicalAnywhere (h : w.Covered) (physStart pages : Nat) (flags : Entry)
    (owner : String) : (w.begun (w.kernel.beginMapPhysicalAnywhere physStart pages flags owner)).Covered := by
  unfold Kernel.beginMapPhysicalAnywhere
  split
  · exact covered_begun h rfl nofun
  split
  · exact covered_begun h rfl nofun
  · refine covered_begun h rfl fun p hp limit => ?_
    rw [mem_singleton.mp hp]
    exact trivial

/-- One section of a call.  Only the rewind needs an assumption: every other section leaves the cursor where
    it is or moves it up. -/
theorem covered_resume (h : w.Covered) {i : Nat} {p : Pending} (hp : w.pending[i]? = some p) (ht : w.Tidy (.resume i))
    (hr : w.kernel.resume p = some r) :
    ({ w with kernel := r.2, pending := w.pending.eraseIdx i ++ r.1.pending } : Callers mmu).Covered := by
  have hmem : p ∈ w.pending := mem_of_getElem? hp
  have hrest : ∀ q ∈ w.pending.eraseIdx i, q.EndsBy w.kernel.vmm.nextKernelVirt :=
    fun q hq => h.reserved q (mem_of_mem_eraseIdx hq)
  -- the pending calls afterwards: the others, and this one if it goes on
  have hpending : ∀ limit, (∀ q ∈ w.pending.eraseIdx i, q.EndsBy limit) →
      (∀ q ∈ r.1.pending, q.EndsBy limit) → ∀ q ∈ w.pending.eraseIdx i ++ r.1.pending, q.EndsBy limit := by
    intro limit hold hnew q hq
    rcases mem_append.mp hq with hq | hq
    · exact hold q hq
    · exact hnew q hq
  cases p with
  | reserving owned physStart pages flags owner =>
    simp only [Kernel.resume] at hr
    rcases takeCursor_reserves w.kernel pages with ⟨e, hcur⟩ | ⟨hstop, hcur⟩
    · rw [hcur] at hr
      cases hr
      exact ⟨h.live, hpending _ hrest nofun⟩
    · rw [hcur] at hr
      cases hr
      have hle : w.kernel.vmm.nextKernelVirt ≤ w.kernel.vmm.nextKernelVirt + 4096 * pages := by omega
      refine ⟨fun x hx => Nat.le_trans (h.live x hx) hle, hpending _ (fun q hq => (hrest q hq).mono hle) ?_⟩
      intro q hq
      rw [mem_singleton.mp hq]
      exact Nat.le_refl _
  | placing owned virt physStart pages flags owner =>
    have hrange : virt + 4096 * pages ≤ w.kernel.vmm.nextKernelVirt := h.reserved _ hmem
    obtain ⟨⟨result, k'⟩, hmap, hr⟩ := map_eq_some_iff.mp hr
    rcases map_vmm hmap with ⟨e, rfl, hvmm⟩ | ⟨rfl, hvmm⟩
    · cases hr
      constructor
      · rw [hvmm]; exact h.live
      · rw [hvmm]
        refine hpending _ hrest fun q hq => ?_
        rw [mem_singleton.mp hq]
        split
        · exact trivial
        · exact hrange
    · cases hr
      constructor
      · rw [hvmm]
        intro x hx
        rcases mem_append.mp hx with hx | hx
        · exact h.live x hx
        · rw [mem_singleton.mp hx]
          exact hrange
      · rw [hvmm]
        refine hpending _ hrest fun q hq => ?_
        cases owned with
        | true => rw [mem_singleton.mp hq]; exact trivial
        | false => cases hq
  | owning virt physStart pages =>
    cases hr
    exact ⟨endsBy_ownLast h.live virt physStart pages, hpending _ hrest nofun⟩
  | rewinding virt pages e =>
    obtain ⟨hlive, hothers⟩ := ht virt (by rw [hp]; rfl)
    simp only [Kernel.resume] at hr
    by_cases hguard : pageOf virt pages ≤ w.kernel.vmm.nextKernelVirt
    · rw [if_pos hguard] at hr
      cases hr
      exact ⟨hlive, hpending _ hothers nofun⟩
    · rw [if_neg hguard] at hr
      cases hr
      exact ⟨h.live, hpending _ hrest nofun⟩
  | releasing physStart pages e =>
    cases hr
    exact ⟨h.live, hpending _ hrest nofun⟩

theorem covered_step (h : w.Covered) (t : Turn mmu) (ht : w.Tidy t) : (w.step t).Covered := by
  unfold Callers.step
  split
  · exact h
  cases t with
  | allocAndMap pages flags owner => exact covered_beginAllocAndMap h pages flags owner
  | mapPhysicalAnywhere physStart pages flags owner =>
    exact covered_beginMapPhysicalAnywhere h physStart pages flags owner
  | unmap virtStart =>
    simp only [Callers.turn]
    split
    · exact ⟨h.live, h.reserved⟩
    · rename_i r hr
      obtain ⟨hcursor, hmappings⟩ := unmap_vmm hr
      constructor
      · rw [hcursor]
        exact fun x hx => h.live x (hmappings x hx)
      · rw [hcursor]
        exact h.reserved
  | resume i =>
    simp only [Callers.turn]
    split
    · exact h
    · rename_i p hp
      split
      · exact ⟨h.live, h.reserved⟩
      · rename_i r hr
        exact covered_resume h hp ht hr
  | others machine => exact ⟨h.live, h.reserved⟩

/-- **The cursor stays above everything that is live.**  For every interleaving of `alloc_and_map`,
    `map_physical_anywhere` and `unmap` calls in which no rewind meets a range above its own: in the state
    reached every live mapping ends at or below the cursor, and the next range taken from the cursor
    overlaps none of them. -/
theorem cursor_covers_live (k : Kernel mmu) (hk : k.vmm.mappings = []) (turns : List (Turn mmu))
    (ht : Run.Along Callers.step Callers.Tidy ⟨k, [], false⟩ turns) :
    let vmm := (turns.foldl Callers.step ⟨k, [], false⟩).kernel.vmm
    (∀ x ∈ vmm.mappings, x.virtStart + 4096 * x.pages ≤ vmm.nextKernelVirt) ∧
      ∀ pages stop, checkedRangeEnd vmm.nextKernelVirt pages = some stop → ∀ x ∈ vmm.mappings,
        rangesOverlap vmm.nextKernelVirt stop (mappingRange x).1 (mappingRange x).2 = false := by
  intro vmm
  have hstart : (⟨k, [], false⟩ : Callers mmu).Covered := by
    constructor
    · intro x hx
      rw [hk] at hx
      cases hx
    · intro p hp
      cases hp
  have hcovered : (turns.foldl Callers.step ⟨k, [], false⟩).Covered :=
    Run.foldl_inv_along (fun _ t h ht => covered_step h t ht) hstart ht
  refine ⟨hcovered.live, fun pages stop _ x hx => ?_⟩
  have hend : (mappingRange x).2 ≤ vmm.nextKernelVirt := by
    have hlive : x.virtStart + 4096 * x.pages ≤ vmm.nextKernelVirt := hcovered.live x hx
    unfold mappingRange
    cases hc : checkedRangeEnd x.virtStart x.pages with
    | none =>
      show x.virtStart ≤ vmm.nextKernelVirt
      omega
    | some stop =>
      rw [← (checkedRangeEnd_some hc).1] at hlive
      exact hlive
  rw [rangesOverlap, decide_eq_false (Nat.not_lt.mpr hend), Bool.false_and]

/-! ## Two calls that cross -/

/-- The first call reserves 513 pages, the second one page, and maps it. -/
def crossing : List (Turn mmu) :=
  [.mapPhysicalAnywhere 0x10000000 513 0#64 "first", .resume 0,
   .mapPhysicalAnywhere 0x20000000 1 0#64 "second", .resume 1, .resume 1]

/-- Then a third call takes the last frames, the first finds none for its page table, and rewinds. -/
def rewinding : List (Turn mmu) := [.allocAndMap 3 0#64 "third", .resume 0, .resume 1]

/-- **The cursor ends up below a live mapping**: the page of the second call is mapped, and the cursor is back
    at the start of the range of the first. -/
theorem rewind_below_live :
    let w := (crossing ++ rewinding).foldl Callers.step ⟨smallKernel Mmu.walker, [], false⟩
    w.faulted = false ∧
      w.kernel.vmm.mappings.map (fun x => (x.virtStart, x.pages)) = [(kernelVirtBase + 513 * 4096, 1)] ∧
      w.kernel.vmm.nextKernelVirt = kernelVirtBase := by
  decide +kernel

/-- One mapping, and a call without an owner: it reserves a range, fails and rewinds to the end of the
    mapping. -/
def harmless : List (Turn mmu) :=
  [.mapPhysicalAnywhere 0x10000000 1 0#64 "device", .resume 0, .resume 0,
   .mapPhysicalAnywhere 0x20000000 1 0#64 "", .resume 0, .resume 0, .resume 0]

theorem harmless_rewind :
    let vmm := (harmless.foldl Callers.step ⟨smallKernel Mmu.walker, [], false⟩).kernel.vmm
    vmm.mappings.map (fun x => (x.virtStart, x.pages)) = [(kernelVirtBase, 1)] ∧
      vmm.nextKernelVirt = kernelVirtBase + 4096 ∧
      ∀ x ∈ vmm.mappings, x.virtStart + 4096 * x.pages ≤ vmm.nextKernelVirt := by
  intro vmm
  refine ⟨by decide +kernel, by decide +kernel, (cursor_covers_live _ rfl harmless ?_).1⟩
  decide +kernel

end Saios.Vmm
