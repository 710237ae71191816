/-
  x86_64 PAGING: the table entries of `hal/src/arch/x86_64/paging.rs` and the hardware that reads them.

  1. **Entries and memory** — an `Entry` is a 64-bit word; physical memory is a `Mem`, one table of 512
     entries per 4 KiB frame, whatever the frame is used for.  Writing an entry and clearing a table
     are the only writes the code makes.

  2. **The walk** — `walk` follows four levels of tables from the frame CR3 names and stops at a
     non-present entry, at a 1 GiB or 2 MiB page, or at the 4 KiB page.  `translate` adds the check
     that the address is canonical.  Permission bits and the accessed/dirty bits play no part: every
     table entry the code writes is writable, and all code here runs in supervisor mode.

  3. **Translation caches** — the code reaches its tables through VIRTUAL addresses, so what it reads
     and writes depends on what the hardware has cached.  An `Mmu` is any cache discipline, with the
     predicate `Sees` (nothing stale is cached for a page) and the laws proofs may use; `Mmu.walker`
     caches nothing and `Mmu.caching` keeps every translation it has used until the page is
     invalidated, CR3 is loaded, or it chooses to forget.
-/
import Mathlib.Data.Fin.Basic
import Mathlib.Data.Nat.Bitwise
import Saios.Lib.Word

namespace Saios.Vmm

/-! ## Entries -/

abbrev Entry := BitVec 64

def flagPresent : Entry := 0x1#64
def flagWritable : Entry := 0x2#64
def flagUser : Entry := 0x4#64
def flagPwt : Entry := 0x8#64
def flagPcd : Entry := 0x10#64
def flagHuge : Entry := 0x80#64
def flagGlobal : Entry := 0x100#64
def flagNx : Entry := 0x8000000000000000#64
def addrMask : Entry := 0x000FFFFFFFFFF000#64

def isPresent (e : Entry) : Bool := e &&& flagPresent != 0#64

def isHuge (e : Entry) : Bool := e &&& flagHuge != 0#64

def isUser (e : Entry) : Bool := e &&& flagUser != 0#64

def address (e : Entry) : Nat := (e &&& addrMask).toNat

def setAddress (e : Entry) (addr : Nat) : Entry :=
  (e &&& ~~~addrMask) ||| (BitVec.ofNat 64 addr &&& addrMask)

def setPage (e : Entry) (addr : Nat) (flags : Entry) : Entry :=
  setAddress e addr ||| (flags ||| flagPresent)

/-- The frame an entry points to. -/
def frame (e : Entry) : Nat := address e / 4096

@[simp] theorem isPresent_zero : isPresent 0#64 = false := rfl

@[simp] theorem isHuge_zero : isHuge 0#64 = false := rfl

/-- An entry that was given a page is present, -/
@[simp] theorem isPresent_setPage (e : Entry) (addr : Nat) (flags : Entry) :
    isPresent (setPage e addr flags) = true := by
  have h : (setPage e addr flags &&& flagPresent).getLsbD 0 = true := by
    simp [setPage, flagPresent]
  rw [isPresent, bne_iff_ne]
  intro h0
  rw [h0] at h
  exact absurd h (by decide)

variable {flags : Entry}

theorem setPage_and_addrMask (e : Entry) (addr : Nat) (hf : flags &&& addrMask = 0#64) :
    setPage e addr flags &&& addrMask = BitVec.ofNat 64 addr &&& addrMask := by
  have hp : flagPresent &&& addrMask = 0#64 := by decide
  rw [setPage, setAddress, BitVec.and_comm, BitVec.and_or_distrib_left, BitVec.and_or_distrib_left,
    BitVec.and_or_distrib_left, BitVec.and_comm addrMask flags, hf,
    BitVec.and_comm addrMask flagPresent, hp, BitVec.and_comm addrMask _, BitVec.and_assoc,
    BitVec.and_comm addrMask, BitVec.and_assoc]
  simp

/-- points to that page if the address has at most 52 bits, -/
theorem address_setPage (e : Entry) {addr : Nat} (hf : flags &&& addrMask = 0#64) (hal : addr % 4096 = 0)
    (hlt : addr < 2 ^ 52) : address (setPage e addr flags) = addr := by
  have hmask : addrMask.toNat = 2 ^ 52 - 2 ^ 12 := by decide
  rw [address, setPage_and_addrMask e addr hf, BitVec.toNat_and, BitVec.toNat_ofNat, hmask,
    Nat.mod_eq_of_lt (by omega), Word.land_clear_low (by omega) hlt]
  omega

/-- and is a huge page only if the flags say so. -/
theorem isHuge_setPage (addr : Nat) (hf : isHuge flags = false) :
    isHuge (setPage 0#64 addr flags) = false := by
  have hp : flagHuge &&& flagPresent = 0#64 := by decide
  have hm : addrMask &&& flagHuge = 0#64 := by decide
  rw [isHuge, bne_eq_false_iff_eq] at hf ⊢
  rw [setPage, setAddress, BitVec.and_comm, BitVec.and_or_distrib_left, BitVec.and_or_distrib_left,
    BitVec.and_or_distrib_left, BitVec.and_comm flagHuge flags, hf, hp,
    BitVec.and_comm flagHuge (_ &&& addrMask), BitVec.and_assoc, hm]
  simp

/-! ## Memory -/

abbrev Index := Fin 512

/-- Literals of `Index` rest on this. -/
instance neZeroIndex : NeZero 512 := ⟨by decide⟩

/-- Physical memory: the entries of each 4 KiB frame. -/
abbrev Mem := Nat → Index → Entry

/-- Write one entry of one frame. -/
def store (mem : Mem) (f : Nat) (i : Index) (e : Entry) : Mem :=
  fun g j => if g = f ∧ j = i then e else mem g j

/-- `Table::clear`. -/
def clear (mem : Mem) (f : Nat) : Mem := fun g j => if g = f then 0#64 else mem g j

@[simp] theorem store_same (mem : Mem) (f : Nat) (i : Index) (e : Entry) : store mem f i e f i = e :=
  if_pos ⟨rfl, rfl⟩

theorem store_other {mem : Mem} {f g : Nat} {i j : Index} {e : Entry} (h : ¬(g = f ∧ j = i)) :
    store mem f i e g j = mem g j := if_neg h

@[simp] theorem clear_same (mem : Mem) (f : Nat) (i : Index) : clear mem f f i = 0#64 := if_pos rfl

theorem clear_other {mem : Mem} {f g : Nat} (h : g ≠ f) (j : Index) : clear mem f g j = mem g j :=
  if_neg h

/-! ## The hardware walk -/

/-- The index `virt` has in a table of level `level + 1`; a PT has level 1, the PML4 level 4. -/
def index (level virt : Nat) : Index := Fin.ofNat 512 (virt >>> (12 + 9 * level))

/-- The four indices of an address, from the PML4 down. -/
def path (virt : Nat) : List Index := [index 3 virt, index 2 virt, index 1 virt, index 0 virt]

/-- Bits 48 to 63 repeat bit 47. -/
def Canonical (virt : Nat) : Prop := virt < 2 ^ 47 ∨ (2 ^ 64 - 2 ^ 47 ≤ virt ∧ virt < 2 ^ 64)

instance decidableCanonical (virt : Nat) : Decidable (Canonical virt) := inferInstanceAs (Decidable (_ ∨ _))

/-- The walk from a table of level `level` in frame `f`; level 0 is the page itself. -/
def walk (mem : Mem) (virt : Nat) : Nat → Nat → Option Nat
  | 0, f => some (f * 4096 + virt % 4096)
  | level + 1, f =>
      let e := mem f (index level virt)
      if isPresent e = false then none
      else if isHuge e = true ∧ level ≠ 0 then
        -- bit 7 ends the walk at a 2 MiB or 1 GiB page; in a PML4 entry it is reserved
        if level = 3 then none
        else
          let span := 2 ^ (12 + 9 * level)
          some (address e / span * span + virt % span)
      else walk mem virt level (frame e)

/-- The physical address the hardware finds for `virt` in the tables below `root`. -/
def translate (mem : Mem) (root virt : Nat) : Option Nat :=
  if Canonical virt then walk mem virt 4 root else none

/-- The same for whole pages. -/
def translatePage (mem : Mem) (root page : Nat) : Option Nat :=
  (translate mem root (page * 4096)).map (· / 4096)

/-! ## Translation caches -/

/-- A cache of page translations.  `lookup` is given the translation the tables in memory hold now. -/
structure Mmu where
  State : Type
  /-- The cache after a load of CR3. -/
  flushed : State
  lookup : State → (Nat → Option Nat) → Nat → Option Nat × State
  invlpg : State → Nat → State
  /-- Nothing stale is cached for the page. -/
  Sees : State → (Nat → Option Nat) → Nat → Prop
  sees_flushed : ∀ now page, Sees flushed now page
  lookup_of_sees : ∀ {t now page}, Sees t now page → (lookup t now page).1 = now page
  sees_self : ∀ {t now page}, Sees t now page → Sees (lookup t now page).2 now page
  /-- An access to one page says nothing about another, whatever the tables hold at that time. -/
  sees_other : ∀ {t now now' page other}, other ≠ page → Sees t now page →
    Sees (lookup t now' other).2 now page
  sees_invlpg : ∀ {t now page} other, Sees t now page → Sees (invlpg t other) now page
  /-- Only a translation that the page had can become stale. -/
  sees_mono : ∀ {t now now' page}, Sees t now page →
    (∀ f, now page = some f → now' page = some f) → Sees t now' page

theorem Mmu.sees_lookup (mmu : Mmu) {t : mmu.State} {now : Nat → Option Nat} {page : Nat} (other : Nat)
    (h : mmu.Sees t now page) : mmu.Sees (mmu.lookup t now other).2 now page := by
  by_cases hne : other = page
  · rw [hne]
    exact mmu.sees_self h
  · exact mmu.sees_other hne h

/-- Every access walks the tables: a cache that is always coherent. -/
def Mmu.walker : Mmu where
  State := Unit
  flushed := ()
  lookup := fun _ now page => (now page, ())
  invlpg := fun _ _ => ()
  Sees := fun _ _ _ => True
  sees_flushed := fun _ _ => trivial
  lookup_of_sees := fun _ => rfl
  sees_self := fun _ => trivial
  sees_other := fun _ _ => trivial
  sees_invlpg := fun _ _ => trivial
  sees_mono := fun _ _ => trivial

/-- A TLB: the translations kept, and how many accesses there were. -/
structure Tlb where
  cached : Nat → Option Nat
  clock : Nat

namespace Tlb

variable (forget : Nat → Nat → Bool)

/-- What is left of the cache when the next access starts. -/
def kept (t : Tlb) (page : Nat) : Option Nat := if forget t.clock page then none else t.cached page

/-- A cached translation is used as it is; any other access walks the tables and is kept. -/
def lookup (t : Tlb) (now : Nat → Option Nat) (page : Nat) : Option Nat × Tlb :=
  match t.kept forget page with
  | some f => (some f, ⟨t.kept forget, t.clock + 1⟩)
  | none => (now page, ⟨fun q => if q = page then now page else t.kept forget q, t.clock + 1⟩)

def invlpg (t : Tlb) (page : Nat) : Tlb :=
  { t with cached := fun q => if q = page then none else t.cached q }

/-- What is cached for the page is what the tables say. -/
def Sees (t : Tlb) (now : Nat → Option Nat) (page : Nat) : Prop :=
  ∀ f, t.cached page = some f → now page = some f

variable {forget} {t : Tlb} {now : Nat → Option Nat} {page : Nat}

theorem kept_le {f : Nat} (h : t.kept forget page = some f) : t.cached page = some f := by
  unfold kept at h
  split at h
  · cases h
  · exact h

theorem sees_empty (now : Nat → Option Nat) (page : Nat) : (⟨fun _ => none, 0⟩ : Tlb).Sees now page := by
  intro f hf
  cases hf

theorem lookup_of_sees (h : t.Sees now page) : (t.lookup forget now page).1 = now page := by
  unfold lookup
  split
  · rename_i f hf
    exact (h f (kept_le hf)).symm
  · rfl

theorem sees_self (h : t.Sees now page) : (t.lookup forget now page).2.Sees now page := by
  intro f hf
  unfold lookup at hf
  split at hf
  · exact h f (kept_le hf)
  · simpa using hf

theorem sees_other {now' : Nat → Option Nat} {other : Nat} (hne : other ≠ page) (h : t.Sees now page) :
    (t.lookup forget now' other).2.Sees now page := by
  intro f hf
  unfold lookup at hf
  split at hf
  · exact h f (kept_le hf)
  · exact h f (kept_le (by simpa [Ne.symm hne] using hf))

theorem sees_invlpg (other : Nat) (h : t.Sees now page) : (t.invlpg other).Sees now page := by
  intro f hf
  by_cases hq : page = other
  · simp [invlpg, hq] at hf
  · exact h f (by simpa [invlpg, hq] using hf)

end Tlb

/-- A TLB that keeps each translation it has used until `invlpg`, a load of CR3, or an access before which
    `forget` drops it: `forget` ranges over every replacement policy. -/
def Mmu.caching (forget : Nat → Nat → Bool) : Mmu where
  State := Tlb
  flushed := ⟨fun _ => none, 0⟩
  lookup := Tlb.lookup forget
  invlpg := Tlb.invlpg
  Sees := Tlb.Sees
  sees_flushed := Tlb.sees_empty
  lookup_of_sees := Tlb.lookup_of_sees
  sees_self := Tlb.sees_self
  sees_other := Tlb.sees_other
  sees_invlpg := Tlb.sees_invlpg
  sees_mono := fun h hnow f hf => hnow f (h f hf)

end Saios.Vmm
