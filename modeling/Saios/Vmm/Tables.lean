/-
  The PAGE-TABLE EDITS of the virtual memory manager (`seed/saios/src/vmm.rs`): `map_page_hw`,
  `unmap_page_hw` and `translate_hw`.

  1. **Recursive pointers** — entry 511 of the PML4 points to the PML4 itself, so `pml4_table_ptr`,
     `pdpt_table_ptr`, `pd_table_ptr` and `pt_table_ptr` are VIRTUAL addresses at which the tables of
     the active address space appear.  Every access goes through the hardware's translation of such
     an address: `Machine.access` asks the `Mmu`, and a missing translation is a page fault.  A fault
     in the kernel ends the run, so every operation returns an `Option` whose `none` is that fault.

  2. **Results** — `Result<(), &str>` is an `Except`; the machine is returned in both cases, since an
     error keeps the writes made before it.  `andThen` is `?`.

  3. **Families** — the three "create the table if the entry is missing" blocks of `map_page_hw` are
     `ensureTable` at three levels, the four "not mapped" checks of `unmap_page_hw` are `requirePresent`.
-/
import Saios.Vmm.Paging
import Saios.Pmm

namespace Saios.Vmm

open Saios.Memory

/-! ## Addresses -/

def kernelVirtBase : Nat := 0xFFFF800000000000
def recursiveSlot : Nat := 511

def canonicalize48 (addr : Nat) : Nat :=
  if addr &&& (1 <<< 47) ≠ 0 then addr ||| 0xFFFF000000000000 else addr &&& 0x0000FFFFFFFFFFFF

/-- What `level_indices` returns. -/
structure LevelIndices where
  l4 : Index
  l3 : Index
  l2 : Index
  l1 : Index
  off : Nat

def levelIndices (virt : Nat) : LevelIndices where
  l4 := Fin.ofNat 512 (virt >>> 39)
  l3 := Fin.ofNat 512 (virt >>> 30)
  l2 := Fin.ofNat 512 (virt >>> 21)
  l1 := Fin.ofNat 512 (virt >>> 12)
  off := virt &&& 0xfff

/-- The address whose four indices are the arguments. -/
def tablePtr (a b c d : Nat) : Nat :=
  canonicalize48 ((a <<< 39) ||| (b <<< 30) ||| (c <<< 21) ||| (d <<< 12))

def pml4TablePtr : Nat := tablePtr recursiveSlot recursiveSlot recursiveSlot recursiveSlot

def pdptTablePtr (l4 : Index) : Nat := tablePtr recursiveSlot recursiveSlot recursiveSlot l4

def pdTablePtr (l4 l3 : Index) : Nat := tablePtr recursiveSlot recursiveSlot l4 l3

def ptTablePtr (l4 l3 l2 : Index) : Nat := tablePtr recursiveSlot l4 l3 l2

/-! ## Flags -/

def vmmWrite : Entry := 0x2#64
def vmmExec : Entry := 0x4#64
def vmmUser : Entry := 0x8#64
def vmmGlobal : Entry := 0x10#64
def vmmDevice : Entry := 0x20#64
def vmmWriteCombine : Entry := 0x40#64

inductive CacheType
  | writeBack | writeCombining | device
  deriving DecidableEq, Repr

def nonleafFlags (flags : Entry) : Entry :=
  if flags &&& vmmUser ≠ 0#64 then flagWritable ||| flagUser else flagWritable

def memoryTypeFromFlags (flags : Entry) : CacheType :=
  if flags &&& vmmDevice ≠ 0#64 then .device
  else if flags &&& vmmWriteCombine ≠ 0#64 then .writeCombining
  else .writeBack

def leafFlags (flags : Entry) : Entry :=
  let f := if flags &&& vmmWrite ≠ 0#64 then flagWritable else 0#64
  let f := if flags &&& vmmUser ≠ 0#64 then f ||| flagUser else f
  let f := if flags &&& vmmGlobal ≠ 0#64 then f ||| flagGlobal else f
  let f := match memoryTypeFromFlags flags with
    | .writeBack => f
    | .writeCombining => f ||| flagPwt
    | .device => f ||| (flagPcd ||| flagPwt)
  if flags &&& vmmExec = 0#64 then f ||| flagNx else f

/-! ## The machine -/

/-- Physical memory and its allocator. -/
structure Space where
  mem : Mem
  pmm : Pmm

/-- What the page-table code reads and writes. -/
structure Machine (mmu : Mmu) extends Space where
  cr3 : Entry
  tlb : mmu.State

variable {mmu : Mmu}

namespace Machine

/-- The frame of the active PML4. -/
def root (m : Machine mmu) : Nat := frame m.cr3

/-- The translation the tables in memory hold. -/
def pages (m : Machine mmu) : Nat → Option Nat := translatePage m.mem m.root

/-- Touch a virtual page: the frame the hardware uses for it, or a page fault. -/
def access (m : Machine mmu) (ptr : Nat) : Option (Nat × Machine mmu) :=
  (mmu.lookup m.tlb m.pages (ptr / 4096)).1.map fun f =>
    (f, { m with tlb := (mmu.lookup m.tlb m.pages (ptr / 4096)).2 })

def readEntry (m : Machine mmu) (table : Nat) (i : Index) : Option (Entry × Machine mmu) :=
  (m.access table).map fun a => (m.mem a.1 i, a.2)

/-- Replace an entry by a function of its old value. -/
def modifyEntry (m : Machine mmu) (table : Nat) (i : Index) (f : Entry → Entry) :
    Option (Machine mmu) :=
  (m.access table).map fun a => { a.2 with mem := store m.mem a.1 i (f (m.mem a.1 i)) }

def clearTable (m : Machine mmu) (table : Nat) : Option (Machine mmu) :=
  (m.access table).map fun a => { a.2 with mem := clear m.mem a.1 }

def hasAnyPresentEntries (m : Machine mmu) (table : Nat) : Option (Bool × Machine mmu) :=
  (m.access table).map fun a => ((List.finRange 512).any fun i => isPresent (m.mem a.1 i), a.2)

def setPmm (m : Machine mmu) (pmm : Pmm) : Machine mmu := { m with pmm := pmm }

def invlpg (m : Machine mmu) (virt : Nat) : Machine mmu :=
  { m with tlb := mmu.invlpg m.tlb (virt / 4096) }

end Machine

/-- A fallible operation: a page fault, or a result and the machine it leaves. -/
abbrev Outcome (σ α : Type) := Option (Except String α × σ)

/-- The `?` operator. -/
def andThen {σ α β : Type} (r : Outcome σ α) (f : α → σ → Outcome σ β) : Outcome σ β :=
  r.bind fun x => match x.1 with
    | .error e => some (.error e, x.2)
    | .ok a => f a x.2

/-! ## `map_page_hw` -/

/-- If entry `i` of `table` is missing, allocate a page for it and clear it at `child`. -/
def ensureTable (m : Machine mmu) (table : Nat) (i : Index) (child : Nat) (flags : Entry)
    (oom : String) : Outcome (Machine mmu) Unit :=
  (m.readEntry table i).bind fun r =>
    if isPresent r.1 then some (.ok (), r.2)
    else
      match (allocPage r.2.pmm).1 with
      | none => some (.error oom, r.2.setPmm (allocPage r.2.pmm).2)
      | some page =>
          ((r.2.setPmm (allocPage r.2.pmm).2).modifyEntry table i
              (fun e => setPage e page (nonleafFlags flags))).bind fun m =>
            (m.clearTable child).map fun m => (.ok (), m)

def mapPageHw (m : Machine mmu) (virt phys : Nat) (flags : Entry) : Outcome (Machine mmu) Unit :=
  let l4 := (levelIndices virt).l4
  let l3 := (levelIndices virt).l3
  let l2 := (levelIndices virt).l2
  let l1 := (levelIndices virt).l1
  andThen (ensureTable m pml4TablePtr l4 (pdptTablePtr l4) flags "vmm: out of memory for pdpt")
    fun _ m =>
  andThen (ensureTable m (pdptTablePtr l4) l3 (pdTablePtr l4 l3) flags "vmm: out of memory for pd")
    fun _ m =>
  andThen (ensureTable m (pdTablePtr l4 l3) l2 (ptTablePtr l4 l3 l2) flags "vmm: out of memory for pt")
    fun _ m =>
  (m.readEntry (ptTablePtr l4 l3 l2) l1).bind fun r =>
    if isPresent r.1 then some (.error "vmm: page already mapped", r.2)
    else
      (r.2.modifyEntry (ptTablePtr l4 l3 l2) l1 (fun e => setPage e phys (leafFlags flags))).map
        fun m => (.ok (), m.invlpg virt)

/-! ## `unmap_page_hw` -/

def requirePresent (m : Machine mmu) (table : Nat) (i : Index) : Outcome (Machine mmu) Unit :=
  (m.readEntry table i).map fun r =>
    if isPresent r.1 then (.ok (), r.2) else (.error "vmm: page not mapped", r.2)

/-- Clear entry `i` of `table` if the table at `child` has no present entry left, and go on with the
    levels above it. -/
def trimTable (m : Machine mmu) (child table : Nat) (i : Index)
    (above : Machine mmu → Option (Machine mmu)) : Option (Machine mmu) :=
  (m.hasAnyPresentEntries child).bind fun r =>
    if r.1 then some r.2 else (r.2.modifyEntry table i fun _ => 0#64).bind above

def unmapPageHw (m : Machine mmu) (virt : Nat) : Outcome (Machine mmu) Unit :=
  let l4 := (levelIndices virt).l4
  let l3 := (levelIndices virt).l3
  let l2 := (levelIndices virt).l2
  let l1 := (levelIndices virt).l1
  andThen (requirePresent m pml4TablePtr l4) fun _ m =>
  andThen (requirePresent m (pdptTablePtr l4) l3) fun _ m =>
  andThen (requirePresent m (pdTablePtr l4 l3) l2) fun _ m =>
  andThen (requirePresent m (ptTablePtr l4 l3 l2) l1) fun _ m =>
  (m.modifyEntry (ptTablePtr l4 l3 l2) l1 fun _ => 0#64).bind fun m =>
  (trimTable (m.invlpg virt) (ptTablePtr l4 l3 l2) (pdTablePtr l4 l3) l2 fun m =>
    trimTable m (pdTablePtr l4 l3) (pdptTablePtr l4) l3 fun m =>
      trimTable m (pdptTablePtr l4) pml4TablePtr l4 some).map
    fun m => (.ok (), m)

/-! ## `translate_hw` -/

/-- Follow one level: stop with `None` at a missing entry. -/
def descend (m : Machine mmu) (table : Nat) (i : Index)
    (next : Entry → Machine mmu → Option (Option Nat × Machine mmu)) :
    Option (Option Nat × Machine mmu) :=
  (m.readEntry table i).bind fun r => if isPresent r.1 then next r.1 r.2 else some (none, r.2)

def translateHw (m : Machine mmu) (virt : Nat) : Option (Option Nat × Machine mmu) :=
  let l4 := (levelIndices virt).l4
  let l3 := (levelIndices virt).l3
  let l2 := (levelIndices virt).l2
  let l1 := (levelIndices virt).l1
  descend m pml4TablePtr l4 fun _ m =>
  descend m (pdptTablePtr l4) l3 fun _ m =>
  descend m (pdTablePtr l4 l3) l2 fun _ m =>
  descend m (ptTablePtr l4 l3 l2) l1 fun e m =>
  -- `checked_add` cannot fail: the address has 52 bits
  some (some (address e + (levelIndices virt).off), m)

end Saios.Vmm
