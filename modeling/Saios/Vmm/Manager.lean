/-
  The VIRTUAL MEMORY MANAGER (`seed/saios/src/vmm.rs`) above the page-table edits, and the part of
  `saios_kernel_main` (`seed/saios/src/main.rs`) that builds the tables and starts it.

  1. **Calls** — `map`, `mapOwned`, `allocAndMap`, `mapPhysicalAnywhere`, `unmap` and `translate` on a
     `Kernel`: the machine and the `VmmState` behind the lock.  The checks come in the source's order
     with the source's messages.  `map` rolls back page by page when a page fails.

  2. **Bootstrap** — `bootstrapKernelPageTables` runs before the new tables are active and reaches them
     by their physical addresses, which the firmware maps one to one below 1 GiB: it works on memory
     directly and cannot fault.  The stack pointer `map_boot_stack` reads is an argument.

  3. **Start-up** — `startUp` is the choice of the active CR3 in `saios_kernel_main`.
     `EARLY_CR3_SWITCH_ENABLED` is `false` in the source.
-/
import Saios.Vmm.Tables

namespace Saios.Vmm

open Saios.Memory

/-! ## State -/

structure Mapping where
  virtStart : Nat
  physStart : Nat
  pages : Nat
  flags : Entry
  owner : String
  ownedPhysical : Bool
  deriving DecidableEq, Repr

structure VmmState where
  initialized : Bool
  cr3 : Nat
  mappings : List Mapping
  nextKernelVirt : Nat
  deriving DecidableEq, Repr

def VmmState.new : VmmState where
  initialized := false
  cr3 := 0
  mappings := []
  nextKernelVirt := kernelVirtBase

structure Kernel (mmu : Mmu) where
  machine : Machine mmu
  vmm : VmmState

variable {mmu : Mmu}

/-! ## Ranges -/

def isPageAligned (value : Nat) : Bool := value &&& (pageSize - 1) == 0

def checkedRangeEnd (start pages : Nat) : Option Nat :=
  if pages * pageSize < Word.size then
    if start + pages * pageSize < Word.size then some (start + pages * pageSize) else none
  else none

def rangesOverlap (aStart aEnd bStart bEnd : Nat) : Bool := aStart < bEnd && bStart < aEnd

def mappingRange (mapping : Mapping) : Nat × Nat :=
  (mapping.virtStart, (checkedRangeEnd mapping.virtStart mapping.pages).getD mapping.virtStart)

/-- The address of page `n` of a range. -/
def pageOf (start n : Nat) : Nat := Word.sadd start (Word.smul n pageSize)

/-! ## The page loops -/

/-- `for page in from..from + left { let _ = unmap_page_hw(..) }`. -/
def unmapLoop (virtStart : Nat) : Nat → Nat → Machine mmu → Option (Machine mmu)
  | 0, _, m => some m
  | left + 1, page, m =>
      (unmapPageHw m (pageOf virtStart page)).bind fun r => unmapLoop virtStart left (page + 1) r.2

/-- The mapping loop of `map`, with the roll-back of the pages mapped so far. -/
def mapLoop (virtStart physStart : Nat) (flags : Entry) :
    Nat → Nat → Machine mmu → Outcome (Machine mmu) Unit
  | 0, _, m => some (.ok (), m)
  | left + 1, mapped, m =>
      (mapPageHw m (pageOf virtStart mapped) (pageOf physStart mapped) flags).bind fun r =>
        match r.1 with
        | .ok _ => mapLoop virtStart physStart flags left (mapped + 1) r.2
        | .error e => (unmapLoop virtStart mapped 0 r.2).map fun m => (.error e, m)

/-! ## Calls -/

namespace Kernel

def setMappings (k : Kernel mmu) (mappings : List Mapping) : Kernel mmu :=
  { k with vmm := { k.vmm with mappings := mappings } }

def setCursor (k : Kernel mmu) (virt : Nat) : Kernel mmu :=
  { k with vmm := { k.vmm with nextKernelVirt := virt } }

def setPmm (k : Kernel mmu) (pmm : Pmm) : Kernel mmu := { k with machine := k.machine.setPmm pmm }

def init (k : Kernel mmu) (kernelPml4Phys : Nat) : Except String Unit × Kernel mmu :=
  if isPageAligned kernelPml4Phys = false then
    (.error "vmm: cr3 physical address must be page aligned", k)
  else if k.vmm.initialized then (.ok (), k)
  else
    (.ok (), { k with vmm := { k.vmm with
      cr3 := kernelPml4Phys, initialized := true, nextKernelVirt := kernelVirtBase } })

def map (k : Kernel mmu) (virtStart physStart pages : Nat) (flags : Entry) (owner : String) :
    Outcome (Kernel mmu) Unit :=
  if pages = 0 then some (.error "vmm: pages must be > 0", k)
  else if owner = "" then some (.error "vmm: owner must be non-empty", k)
  else if isPageAligned virtStart = false ∨ isPageAligned physStart = false then
    some (.error "vmm: addresses must be page aligned", k)
  else
    match checkedRangeEnd virtStart pages with
    | none => some (.error "vmm: mapping range overflow", k)
    | some newEnd =>
        if k.vmm.initialized = false then some (.error "vmm: not initialized", k)
        else if flags &&& vmmUser = 0#64 ∧ virtStart < kernelVirtBase then
          some (.error "vmm: kernel mappings must be in higher-half range", k)
        else if k.vmm.mappings.any (fun existing =>
            rangesOverlap virtStart newEnd (mappingRange existing).1 (mappingRange existing).2) then
          some (.error "vmm: overlapping virtual mapping", k)
        else
          (mapLoop virtStart physStart flags pages 0 k.machine).map fun r =>
            match r.1 with
            | .error e => (.error e, { k with machine := r.2 })
            | .ok _ =>
                (.ok (), ({ k with machine := r.2 } : Kernel mmu).setMappings
                  (k.vmm.mappings ++ [⟨virtStart, physStart, pages, flags, owner, false⟩]))

/-- The last mapping becomes owned if it is the one just made. -/
def ownLast (virtStart physStart pages : Nat) (mappings : List Mapping) : List Mapping :=
  match mappings.getLast? with
  | none => mappings
  | some last =>
      if last.virtStart = virtStart ∧ last.physStart = physStart ∧ last.pages = pages then
        mappings.dropLast ++ [{ last with ownedPhysical := true }]
      else mappings

def mapOwned (k : Kernel mmu) (virtStart physStart pages : Nat) (flags : Entry) (owner : String) :
    Outcome (Kernel mmu) Unit :=
  andThen (k.map virtStart physStart pages flags owner) fun _ k =>
    some (.ok (), k.setMappings (ownLast virtStart physStart pages k.vmm.mappings))

/-- Take `pages` pages of kernel address space from the cursor. -/
def takeCursor (k : Kernel mmu) (pages : Nat) : Except String Nat × Kernel mmu :=
  if k.vmm.initialized = false then (.error "vmm: not initialized", k)
  else
    match checkedRangeEnd k.vmm.nextKernelVirt pages with
    | none => (.error "vmm: virtual range overflow", k)
    | some stop => (.ok k.vmm.nextKernelVirt, k.setCursor stop)

def allocAndMap (k : Kernel mmu) (pages : Nat) (flags : Entry) (owner : String) :
    Outcome (Kernel mmu) Nat :=
  if pages = 0 then some (.error "vmm: pages must be > 0", k)
  else
    match (allocPages k.machine.pmm pages).1 with
    | none => some (.error "vmm: physical allocation failed", k.setPmm (allocPages k.machine.pmm pages).2)
    | some phys =>
        andThen (some ((k.setPmm (allocPages k.machine.pmm pages).2).takeCursor pages)) fun virt k =>
          (k.mapOwned virt phys pages flags owner).map fun r =>
            match r.1 with
            | .ok _ => (.ok virt, r.2)
            | .error e => (.error e, r.2.setPmm (freePagesRange r.2.machine.pmm phys pages).2)

def mapPhysicalAnywhere (k : Kernel mmu) (physStart pages : Nat) (flags : Entry) (owner : String) :
    Outcome (Kernel mmu) Nat :=
  if pages = 0 then some (.error "vmm: pages must be > 0", k)
  else if isPageAligned physStart = false then
    some (.error "vmm: physical address must be page aligned", k)
  else
    andThen (some (k.takeCursor pages)) fun virt k =>
      (k.map virt physStart pages flags owner).map fun r =>
        match r.1 with
        | .ok _ => (.ok virt, r.2)
        | .error e =>
            (.error e, if pageOf virt pages ≤ r.2.vmm.nextKernelVirt then r.2.setCursor virt else r.2)

def unmap (k : Kernel mmu) (virtStart : Nat) : Outcome (Kernel mmu) Unit :=
  if isPageAligned virtStart = false then
    some (.error "vmm: virtual address must be page aligned", k)
  else if k.vmm.initialized = false then some (.error "vmm: not initialized", k)
  else
    match k.vmm.mappings.find? (fun m => m.virtStart == virtStart) with
    | none => some (.error "vmm: mapping not found", k)
    | some mapping =>
        (unmapLoop mapping.virtStart mapping.pages 0 k.machine).map fun m =>
          let k := ({ k with machine := m } : Kernel mmu).setMappings
            (k.vmm.mappings.eraseP (fun m => m.virtStart == virtStart))
          (.ok (), if mapping.ownedPhysical then
              k.setPmm (freePagesRange m.pmm mapping.physStart mapping.pages).2
            else k)

/-- `vmm::translate`. -/
def translate (k : Kernel mmu) (virt : Nat) : Option (Option Nat × Kernel mmu) :=
  if k.vmm.initialized then
    (translateHw k.machine virt).map fun r => (r.1, { k with machine := r.2 })
  else some (none, k)

end Kernel

/-! ## Bootstrap -/

def earlyTableMaxPhys : Nat := 0x40000000

/-- The `?` operator where nothing can fault. -/
def Space.andThen {α β : Type} (r : Except String α × Space) (f : α → Space → Except String β × Space) :
    Except String β × Space :=
  match r.1 with
  | .error e => (.error e, r.2)
  | .ok a => f a r.2

/-- The search loop of `alloc_zeroed_table`: pages above 1 GiB are given back. -/
def lowPage : Nat → Pmm → Except String Nat × Pmm
  | 0, p => (.error "vmm: no low-memory page available for page table", p)
  | tries + 1, p =>
      match (allocPage p).1 with
      | none => (.error "vmm: out of memory allocating page table", (allocPage p).2)
      | some candidate =>
          if candidate < earlyTableMaxPhys then (.ok candidate, (allocPage p).2)
          else lowPage tries (freePage (allocPage p).2 candidate).2

def allocZeroedTable (b : Space) : Except String Nat × Space :=
  match (lowPage 4096 b.pmm).1 with
  | .error e => (.error e, { b with pmm := (lowPage 4096 b.pmm).2 })
  | .ok phys => (.ok phys, ⟨clear b.mem (phys / 4096), (lowPage 4096 b.pmm).2⟩)

def Space.set (b : Space) (f : Nat) (i : Index) (addr : Nat) (flags : Entry) : Space :=
  { b with mem := store b.mem f i (setPage (b.mem f i) addr flags) }

/-- One level of `map_kernel_page`: the frame of the table behind entry `i`, made if it is missing. -/
def bootTable (b : Space) (f : Nat) (i : Index) : Except String Nat × Space :=
  if isPresent (b.mem f i) then (.ok (frame (b.mem f i)), b)
  else
    Space.andThen (allocZeroedTable b) fun phys b =>
      (.ok (frame ((b.set f i phys flagWritable).mem f i)), b.set f i phys flagWritable)

def mapKernelPage (root virt phys : Nat) (flags : Entry) (b : Space) : Except String Bool × Space :=
  let l4 := (levelIndices virt).l4
  let l3 := (levelIndices virt).l3
  let l2 := (levelIndices virt).l2
  let l1 := (levelIndices virt).l1
  Space.andThen (bootTable b root l4) fun pdpt b =>
  Space.andThen (bootTable b pdpt l3) fun pd b =>
  Space.andThen (bootTable b pd l2) fun pt b =>
  if isHuge (b.mem pd l2) then
    if Word.sadd (address (b.mem pd l2)) (virt &&& 0x1fffff) = phys then (.ok false, b)
    else (.error "vmm: page already mapped", b)
  else if isPresent (b.mem pt l1) then
    if address (b.mem pt l1) = phys then (.ok false, b)
    else (.error "vmm: page already mapped", b)
  else (.ok true, b.set pt l1 phys (leafFlags flags ||| flagPresent))

/-- The loop of `map_identity_low_mem`: 2 MiB pages for the first GiB. -/
def fillHuge (pd : Nat) (b : Space) : Space :=
  (List.finRange 512).foldl (fun b i =>
    b.set pd i (i.val * 0x200000) (flagWritable ||| flagPresent ||| flagGlobal ||| flagHuge)) b

def mapIdentityLowMem (root : Nat) (b : Space) : Except String Unit × Space :=
  Space.andThen (allocZeroedTable b) fun pdpt b =>
  Space.andThen (allocZeroedTable (b.set root 0 pdpt flagWritable)) fun pd b =>
    (.ok (), fillHuge (pd / 4096) (b.set (pdpt / 4096) 0 pd flagWritable))

/-- The loop of `map_range_identity`; a page that is mapped already is left as it is. -/
def mapRangeLoop (root : Nat) (flags : Entry) : Nat → Nat → Space → Except String Unit × Space
  | 0, _, b => (.ok (), b)
  | left + 1, current, b =>
      match (mapKernelPage root current current flags b).1 with
      | .ok _ =>
          mapRangeLoop root flags left (Word.sadd current pageSize)
            (mapKernelPage root current current flags b).2
      | .error e =>
          if e = "vmm: page already mapped" then
            mapRangeLoop root flags left (Word.sadd current pageSize)
              (mapKernelPage root current current flags b).2
          else (.error e, (mapKernelPage root current current flags b).2)

/-- `current` and `limit` are page aligned: the loop runs once per page between them. -/
def mapRangeIdentity (root start stop : Nat) (flags : Entry) (b : Space) : Except String Unit × Space :=
  let current := Word.alignDown start pageSize
  let limit := Word.alignUp stop pageSize
  mapRangeLoop root flags ((limit - current) / pageSize) current b

def mapBootStack (root rsp : Nat) (b : Space) : Except String Unit × Space :=
  let start := Word.alignDown (rsp - Word.smul pageSize 16) pageSize
  let stop := Word.alignUp (Word.sadd rsp pageSize) pageSize
  mapRangeIdentity root start stop (vmmWrite ||| vmmGlobal) b

/-- The arguments of `bootstrap_kernel_page_tables`, and the stack pointer it runs with. -/
structure BootArgs where
  framebufferBase : Nat
  framebufferSize : Nat
  bootInfoPtr : Nat
  bootInfoSize : Nat
  kernelStart : Nat
  kernelEnd : Nat
  rsp : Nat

/-- Map a boot range if there is one. -/
def mapRangeIf (wanted : Prop) [Decidable wanted] (root start stop : Nat) (flags : Entry) (b : Space) :
    Except String Unit × Space :=
  if wanted then mapRangeIdentity root start stop flags b else (.ok (), b)

def bootstrapKernelPageTables (args : BootArgs) (b : Space) : Except String Nat × Space :=
  Space.andThen (allocZeroedTable b) fun rootPhys b =>
  let root := rootPhys / 4096
  Space.andThen (mapIdentityLowMem root b) fun _ b =>
  Space.andThen (mapRangeIf (args.kernelStart < args.kernelEnd) root args.kernelStart args.kernelEnd
    (vmmWrite ||| vmmGlobal) b) fun _ b =>
  Space.andThen (mapRangeIf (0 < args.bootInfoSize) root (Word.alignDown args.bootInfoPtr pageSize)
    (Word.alignUp (Word.sadd args.bootInfoPtr args.bootInfoSize) pageSize)
    (vmmWrite ||| vmmGlobal) b) fun _ b =>
  Space.andThen (mapRangeIf (0 < args.framebufferSize) root (Word.alignDown args.framebufferBase pageSize)
    (Word.alignUp (Word.sadd args.framebufferBase args.framebufferSize) pageSize)
    (vmmWrite ||| vmmGlobal ||| vmmWriteCombine) b) fun _ b =>
  Space.andThen (mapBootStack root args.rsp b) fun _ b =>
    (.ok rootPhys, b.set root 511 rootPhys flagWritable)

/-! ## Start-up -/

/-- `activate_kernel_page_tables`: load CR3. -/
def activateKernelPageTables (m : Machine mmu) (kernelPml4Phys : Nat) :
    Except String Unit × Machine mmu :=
  if isPageAligned kernelPml4Phys = false then
    (.error "vmm: cr3 physical address must be page aligned", m)
  else (.ok (), { m with cr3 := BitVec.ofNat 64 kernelPml4Phys, tlb := mmu.flushed })

def earlyCr3SwitchEnabled : Bool := false

/-- The CR3 `saios_kernel_main` goes on with after bootstrap, and whether the new tables are in use. -/
def chooseCr3 (m : Machine mmu) (outcome : Except String Nat) : (Nat × Bool) × Machine mmu :=
  match outcome with
  | .ok pml4 =>
      if earlyCr3SwitchEnabled then
        match (activateKernelPageTables m pml4).1 with
        | .error _ => ((address m.cr3, false), m)
        | .ok _ => ((pml4, true), (activateKernelPageTables m pml4).2)
      else ((address m.cr3, false), m)
  | .error _ => ((address m.cr3, false), m)

/-- `saios_kernel_main` from `pmm::init` to `vmm::init`; an error is its panic. -/
def startUp (firmware : Machine mmu) (entries : List MemoryRegion) (args : BootArgs) :
    Except String (Kernel mmu × Bool) :=
  let r := bootstrapKernelPageTables args ⟨firmware.mem, Memory.init entries⟩
  let c := chooseCr3 { firmware with toSpace := r.2 } r.1
  match (Kernel.init ⟨c.2, VmmState.new⟩ c.1.1).1 with
  | .error _ => .error "VMM: failed to initialize kernel virtual memory manager"
  | .ok _ => .ok ((Kernel.init ⟨c.2, VmmState.new⟩ c.1.1).2, c.1.2)

/-- A kernel that runs on its own tables: bootstrap, activate, initialise. -/
def bootKernel (mmu : Mmu) (args : BootArgs) (b : Space) : Except String (Kernel mmu) :=
  let r := bootstrapKernelPageTables args b
  match r.1 with
  | .error e => .error e
  | .ok pml4 =>
      let m : Machine mmu := ⟨r.2, 0#64, mmu.flushed⟩
      match (activateKernelPageTables m pml4).1 with
      | .error e => .error e
      | .ok _ => .ok (Kernel.init ⟨(activateKernelPageTables m pml4).2, VmmState.new⟩ pml4).2

end Saios.Vmm
