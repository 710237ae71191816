/-
  THE BOOT LOADER: from the bytes of `seed.elf` to the jump into the kernel.

  1. **Reading** (`loadSeed`) — the ELF header and `phnum` program headers.  Offsets are sums of fields of the
     file, and in a release build they wrap: an offset just below `2^64` passes the bounds check of
     `load_program_header`, and the header is then read from memory around the file (`stray`).

  2. **Placing** (`prepare`) — the smallest page range that holds all `PT_LOAD` segments, asked of the firmware
     at its address.  `Firmware` is the firmware's side: whatever it answers, a granted range is the one
     asked for, is not at address zero, and is memory (it ends below `2^52`).

  3. **Copying** (`copyLoop`) — segment by segment, the file bytes and then zeros up to `p_memsz`.  The machine
     keeps a log of what was read and written; a slice whose bounds are wrong crashes.

  4. **Leaving** (`handoff`) — stack, boot information and map storage, then the check of the entry point.

  **`copy_safe_iff`**: the copy phase stays inside the file and inside the pages exactly when each `PT_LOAD`
  header is consistent (`Consistent`); `short_memory_image` is one that is not.
-/
import Saios.Lib.Bytes
import Saios.Lib.Run
import Saios.Lib.Word

namespace Saios.Boot

open List
open Word (size wadd wsub wadd_eq wsub_eq)

/-! ## The file -/

/-- The fields of the ELF header that the loader reads. -/
structure Elf64Header where
  ident : List UInt8
  entry : Nat
  phoff : Nat
  phentsize : Nat
  phnum : Nat
  deriving DecidableEq

structure Elf64ProgramHeader where
  pType : Nat
  pOffset : Nat
  pVaddr : Nat
  pFilesz : Nat
  pMemsz : Nat
  deriving DecidableEq

/-- `size_of::<Elf64Header>()`. -/
def elf64HeaderSize : Nat := 64

/-- `size_of::<Elf64ProgramHeader>()`. -/
def elf64ProgramHeaderSize : Nat := 56

/-- `ProgramHeaderType::Load`. -/
def ProgramHeaderType.load : Nat := 1

/-- The `w`-byte field at `start` of a `repr(C)` struct. -/
def field (w start : Nat) (bytes : List UInt8) : Nat := Bytes.leNat ((bytes.drop start).take w)

def Elf64Header.ofBytes (bytes : List UInt8) : Elf64Header where
  ident := bytes.take 16
  entry := field 8 24 bytes
  phoff := field 8 32 bytes
  phentsize := field 2 54 bytes
  phnum := field 2 56 bytes

def Elf64ProgramHeader.ofBytes (bytes : List UInt8) : Elf64ProgramHeader where
  pType := field 4 0 bytes
  pOffset := field 8 8 bytes
  pVaddr := field 8 16 bytes
  pFilesz := field 8 32 bytes
  pMemsz := field 8 40 bytes

def loadElf64Header (buffer : List UInt8) : Except String Elf64Header :=
  if buffer.length < elf64HeaderSize then .error "Buffer too small" else .ok (.ofBytes buffer)

/-- `count` bytes from the pointer `offset` bytes into the file: outside the file, whatever is there. -/
def readUnaligned (stray : Nat → UInt8) (elf : List UInt8) (offset count : Nat) : List UInt8 :=
  (List.range count).map fun k => elf[wadd offset k]?.getD (stray (wadd offset k))

def loadProgramHeader (stray : Nat → UInt8) (elf : List UInt8) (offset : Nat) :
    Except String Elf64ProgramHeader :=
  if elf.length < wadd offset elf64ProgramHeaderSize then .error "Program header outside file"
  else .ok (.ofBytes (readUnaligned stray elf offset elf64ProgramHeaderSize))

inductive Status
  | loadError
  | outOfResources
  | other (code : Nat)
  deriving DecidableEq

structure Loader where
  bytes : List UInt8
  programHeaders : List Elf64ProgramHeader
  entryPoint : Nat

def elfMagic : List UInt8 := [0x7F, 0x45, 0x4C, 0x46]

/-- `load_seed`, from where the file has been read into `buffer`. -/
def loadSeed (stray : Nat → UInt8) (buffer : List UInt8) : Except Status Loader :=
  if buffer.length < elf64HeaderSize then .error .loadError
  else
    match loadElf64Header buffer with
    | .error _ => .error .loadError
    | .ok header =>
        if header.ident.take 4 ≠ elfMagic then .error .loadError
        else
          match (List.range header.phnum).mapM fun i =>
              loadProgramHeader stray buffer (wadd header.phoff (i * header.phentsize)) with
          | .error _ => .error .loadError
          | .ok programHeaders =>
              .ok { bytes := buffer, programHeaders := programHeaders, entryPoint := header.entry }

/-! ## Memory -/

/-- What the copy phase touches: bytes of the file, and addresses. -/
inductive Access
  | read (start count : Nat)
  | write (start count : Nat)
  deriving DecidableEq

structure Machine where
  mem : Nat → UInt8
  log : List Access

/-- `copy_nonoverlapping` of `count` bytes that start at `srcOffset` of the file. -/
def Machine.copyNonoverlapping (m : Machine) (bytes : List UInt8) (srcOffset dst count : Nat) : Machine where
  mem a := if wsub a dst < count then bytes.getD (srcOffset + wsub a dst) 0 else m.mem a
  log := m.log ++ [.read srcOffset count, .write dst count]

/-- `write_bytes`. -/
def Machine.writeBytes (m : Machine) (dst : Nat) (value : UInt8) (count : Nat) : Machine where
  mem a := if wsub a dst < count then value else m.mem a
  log := m.log ++ [.write dst count]

/-! ## The firmware -/

def pageSize : Nat := 4096

/-- The answers of the firmware. -/
structure Firmware where
  /-- `allocate_pages` with `AllocateType::Address`. -/
  allocateAt : Nat → Nat → Option Nat
  granted : ∀ {addr pages base : Nat}, allocateAt addr pages = some base →
    base = addr ∧ addr ≠ 0 ∧ addr + pages * pageSize ≤ 2 ^ 52
  /-- `allocate_pages` below the hand-off limit, for the stack ... -/
  stack : Except Status Nat
  /-- ... the boot information ... -/
  bootInfo : Except Status Nat
  /-- ... and the entries of the memory map. -/
  mapStorage : Except Status Nat
  memorymap : Except Status Unit

/-! ## `main` -/

/-- One round of the loop that folds the segments into `image_start` and `image_end`. -/
def extendImage (image : Nat × Nat) (ph : Elf64ProgramHeader) : Nat × Nat :=
  if ph.pType ≠ ProgramHeaderType.load then image
  else (min image.1 ph.pVaddr, max image.2 (wadd ph.pVaddr ph.pMemsz))

def imageRange (headers : List Elf64ProgramHeader) : Nat × Nat := headers.foldl extendImage (Word.max, 0)

def alignedStart (headers : List Elf64ProgramHeader) : Nat := Word.alignDown (imageRange headers).1 pageSize

def alignedEnd (headers : List Elf64ProgramHeader) : Nat := Word.alignUp (imageRange headers).2 pageSize

def totalSize (headers : List Elf64ProgramHeader) : Nat := wsub (alignedEnd headers) (alignedStart headers)

/-- What `main` has when the copy loop starts. -/
structure Placed where
  loader : Loader
  base : Nat

def Placed.alignedStart (p : Placed) : Nat := Boot.alignedStart p.loader.programHeaders

def Placed.totalSize (p : Placed) : Nat := Boot.totalSize p.loader.programHeaders

def Placed.pages (p : Placed) : Nat := p.totalSize / pageSize

/-- `main` up to the copy loop. -/
def prepare (fw : Firmware) (stray : Nat → UInt8) (buffer : List UInt8) : Except Status Placed :=
  match loadSeed stray buffer with
  | .error e => .error e
  | .ok loader =>
      match fw.allocateAt (alignedStart loader.programHeaders) (totalSize loader.programHeaders / pageSize) with
      | none => .error .outOfResources
      | some base => .ok { loader := loader, base := base }

/-- One round of the copy loop; `none` when the bounds of the slice are wrong. -/
def Placed.copySegment (p : Placed) (m : Machine) (ph : Elf64ProgramHeader) : Option Machine :=
  if ph.pType ≠ ProgramHeaderType.load then some m
  else
    let stop := wadd ph.pOffset ph.pFilesz
    if ph.pOffset ≤ stop ∧ stop ≤ p.loader.bytes.length then
      let dst := wadd p.base (wsub ph.pVaddr p.alignedStart)
      let m := m.copyNonoverlapping p.loader.bytes ph.pOffset dst ph.pFilesz
      some (m.writeBytes (wadd dst ph.pFilesz) 0 (wsub ph.pMemsz ph.pFilesz))
    else none

def Placed.copyLoop (p : Placed) (m : Machine) : Option Machine :=
  p.loader.programHeaders.foldlM p.copySegment m

def stackPages : Nat := 16

/-- `main` after the copy loop: the entry address and the stack pointer of the jump. -/
def Placed.handoff (p : Placed) (fw : Firmware) : Except Status (Nat × Nat) :=
  match fw.stack with
  | .error e => .error e
  | .ok stackBase =>
      let stackTop := wadd stackBase (stackPages * 4096)
      if stackTop ≤ stackBase ∨ wsub stackTop stackBase < 4096 then .error .loadError
      else
        match fw.bootInfo, fw.mapStorage, fw.memorymap with
        | .error e, _, _ => .error e
        | .ok _, .error e, _ => .error e
        | .ok _, .ok _, .error e => .error e
        | .ok _, .ok _, .ok _ =>
            let entry := wadd p.loader.entryPoint (wsub p.base p.alignedStart)
            if entry < p.base ∨ wadd p.base p.totalSize ≤ entry then .error .loadError
            else .ok (entry, wsub stackTop 8)

inductive Outcome
  | failed (status : Status)
  | crashed
  | jumped (entry rsp : Nat) (m : Machine)

def main (fw : Firmware) (stray : Nat → UInt8) (buffer : List UInt8) (m : Machine) : Outcome :=
  match prepare fw stray buffer with
  | .error e => .failed e
  | .ok p =>
      match p.copyLoop m with
      | none => .crashed
      | some m =>
          match p.handoff fw with
          | .error e => .failed e
          | .ok (entry, rsp) => .jumped entry rsp m

/-! ## Ranges -/

theorem field_lt (w start : Nat) (bytes : List UInt8) : field w start bytes < 256 ^ w := by
  refine Nat.lt_of_lt_of_le (Bytes.leNat_lt _) (Nat.pow_le_pow_right (by decide) ?_)
  rw [length_take]
  exact Nat.min_le_left _ _

/-- The fields of a program header are words. -/
structure Elf64ProgramHeader.Words (ph : Elf64ProgramHeader) : Prop where
  pOffset : ph.pOffset < size
  pVaddr : ph.pVaddr < size
  pFilesz : ph.pFilesz < size
  pMemsz : ph.pMemsz < size

variable {stray : Nat → UInt8} {ph : Elf64ProgramHeader}

theorem loadProgramHeader_ok {elf : List UInt8} {offset : Nat}
    (h : loadProgramHeader stray elf offset = .ok ph) : ph.Words := by
  unfold loadProgramHeader at h
  split at h
  · cases h
  · cases h
    exact ⟨field_lt 8 8 _, field_lt 8 16 _, field_lt 8 32 _, field_lt 8 40 _⟩

/-- What a loop over fallible steps collects. -/
theorem mem_of_mapM {α β ε : Type} {f : α → Except ε β} {as : List α} {bs : List β} (h : as.mapM f = .ok bs)
    {b : β} (hb : b ∈ bs) : ∃ a ∈ as, f a = .ok b := by
  induction as generalizing bs with
  | nil => cases h; cases hb
  | cons a as ih =>
    rw [mapM_cons] at h
    cases hf : f a with
    | error e => rw [hf] at h; cases h
    | ok b' =>
      cases hrest : as.mapM f with
      | error e => rw [hf, hrest] at h; cases h
      | ok rest =>
        rw [hf, hrest] at h
        obtain rfl := Except.ok.inj h
        rcases mem_cons.mp hb with rfl | hb
        · exact ⟨a, mem_cons_self, hf⟩
        · obtain ⟨a', ha', hfa'⟩ := ih hrest hb
          exact ⟨a', mem_cons_of_mem _ ha', hfa'⟩

variable {buffer : List UInt8}

/-- What `load_seed` returns. -/
theorem loadSeed_ok {loader : Loader} (h : loadSeed stray buffer = .ok loader) :
    loader.bytes = buffer ∧ ∀ ph ∈ loader.programHeaders, ph.Words := by
  unfold loadSeed at h
  split at h
  · cases h
  split at h
  · cases h
  split at h
  · cases h
  split at h
  · cases h
  · rename_i headers hmap
    cases h
    refine ⟨rfl, fun ph hph => ?_⟩
    obtain ⟨i, -, hi⟩ := mem_of_mapM hmap hph
    exact loadProgramHeader_ok hi

theorem prepare_ok {fw : Firmware} {p : Placed} (h : prepare fw stray buffer = .ok p) :
    p.loader.bytes = buffer ∧
      (∀ ph ∈ p.loader.programHeaders, ph.Words) ∧ fw.allocateAt p.alignedStart p.pages = some p.base := by
  unfold prepare at h
  split at h
  · cases h
  rename_i loader hload
  split at h
  · cases h
  · rename_i base hbase
    cases h
    exact ⟨(loadSeed_ok hload).1, (loadSeed_ok hload).2, hbase⟩

/-- The segments lie between the two ends that the loop computes, the upper one modulo `2^64`. -/
theorem imageRange_spec (headers : List Elf64ProgramHeader) (image : Nat × Nat) :
    (headers.foldl extendImage image).1 ≤ image.1 ∧ image.2 ≤ (headers.foldl extendImage image).2 ∧
      ∀ ph ∈ headers, ph.pType = ProgramHeaderType.load →
        (headers.foldl extendImage image).1 ≤ ph.pVaddr ∧
          wadd ph.pVaddr ph.pMemsz ≤ (headers.foldl extendImage image).2 := by
  induction headers generalizing image with
  | nil => exact ⟨Nat.le_refl _, Nat.le_refl _, nofun⟩
  | cons ph headers ih =>
    obtain ⟨hlow, hhigh, hall⟩ := ih _
    have hstep : (extendImage image ph).1 ≤ image.1 ∧ image.2 ≤ (extendImage image ph).2 ∧
        (ph.pType = ProgramHeaderType.load → (extendImage image ph).1 ≤ ph.pVaddr ∧
          wadd ph.pVaddr ph.pMemsz ≤ (extendImage image ph).2) := by
      unfold extendImage
      split
      · rename_i hne
        exact ⟨Nat.le_refl _, Nat.le_refl _, fun h => absurd h hne⟩
      · exact ⟨Nat.min_le_left _ _, Nat.le_max_left _ _, fun _ => ⟨Nat.min_le_right _ _, Nat.le_max_right _ _⟩⟩
    obtain ⟨hlow', hhigh', hown⟩ := hstep
    refine ⟨Nat.le_trans hlow hlow', Nat.le_trans hhigh' hhigh, fun q hq hload => ?_⟩
    rcases mem_cons.mp hq with rfl | hq
    · obtain ⟨hstart, hend⟩ := hown hload
      exact ⟨Nat.le_trans hlow hstart, Nat.le_trans hend hhigh⟩
    · exact hall q hq hload

theorem imageRange_lt (headers : List Elf64ProgramHeader) :
    (imageRange headers).1 < size ∧ (imageRange headers).2 < size := by
  have hlow : (imageRange headers).1 ≤ Word.max := (imageRange_spec headers _).1
  have hhigh : (imageRange headers).2 < size := by
    refine Run.foldl_inv (I := fun image : Nat × Nat => image.2 < size) (fun image ph h => ?_) headers (by decide)
    unfold extendImage
    split
    · exact h
    · exact Nat.max_lt.mpr ⟨h, Nat.mod_lt _ (by decide)⟩
  refine ⟨?_, hhigh⟩
  unfold Word.max at hlow
  have hpos : 0 < size := by decide
  omega

/-! ## What the copy loop touches -/

/-- The access stays inside a file of `len` bytes and `size` bytes of memory at `base`. -/
def Access.Inside (len base size : Nat) : Access → Prop
  | .read start count => ∀ k < count, start + k < len
  | .write start count => ∀ k < count, base ≤ wadd start k ∧ wadd start k < base + size

namespace Placed

variable (p : Placed)

/-- The bounds check of the slice. -/
def SliceOk (ph : Elf64ProgramHeader) : Prop :=
  ph.pOffset ≤ wadd ph.pOffset ph.pFilesz ∧ wadd ph.pOffset ph.pFilesz ≤ p.loader.bytes.length

def dst (ph : Elf64ProgramHeader) : Nat := wadd p.base (wsub ph.pVaddr p.alignedStart)

/-- What one segment adds to the log. -/
def accesses (ph : Elf64ProgramHeader) : List Access :=
  [.read ph.pOffset ph.pFilesz, .write (p.dst ph) ph.pFilesz,
    .write (wadd (p.dst ph) ph.pFilesz) (wsub ph.pMemsz ph.pFilesz)]

theorem copySegment_cases (m : Machine) (ph : Elf64ProgramHeader) :
    (ph.pType ≠ ProgramHeaderType.load ∧ p.copySegment m ph = some m) ∨
    (ph.pType = ProgramHeaderType.load ∧ p.SliceOk ph ∧
      ∃ m', p.copySegment m ph = some m' ∧ m'.log = m.log ++ p.accesses ph) ∨
    (ph.pType = ProgramHeaderType.load ∧ ¬p.SliceOk ph ∧ p.copySegment m ph = none) := by
  unfold copySegment
  by_cases hload : ph.pType = ProgramHeaderType.load
  · rw [if_neg (not_not_intro hload)]
    by_cases hok : p.SliceOk ph
    · refine .inr (.inl ⟨hload, hok, _, if_pos hok, ?_⟩)
      exact append_assoc _ _ _
    · exact .inr (.inr ⟨hload, hok, if_neg hok⟩)
  · rw [if_pos hload]
    exact .inl ⟨hload, rfl⟩

/-- The loop passes every bounds check, and its log has what each segment touched; or a check fails. -/
theorem copyLoop_cases (headers : List Elf64ProgramHeader) (m : Machine) :
    (∃ m', headers.foldlM p.copySegment m = some m' ∧
      (∀ ph ∈ headers, ph.pType = ProgramHeaderType.load → p.SliceOk ph) ∧
      m'.log = m.log ++ (headers.filter (·.pType = ProgramHeaderType.load)).flatMap p.accesses) ∨
    (headers.foldlM p.copySegment m = none ∧
      ∃ ph ∈ headers, ph.pType = ProgramHeaderType.load ∧ ¬p.SliceOk ph) := by
  induction headers generalizing m with
  | nil => exact .inl ⟨m, rfl, nofun, (append_nil _).symm⟩
  | cons ph headers ih =>
    rcases p.copySegment_cases m ph with ⟨hne, hstep⟩ | ⟨hload, hok, m1, hstep, hlog⟩ | ⟨hload, hbad, hstep⟩
    · rw [foldlM_cons, hstep, filter_cons_of_neg (by simpa using hne)]
      rcases ih m with ⟨m', hm', hall, hlog'⟩ | ⟨hm', q, hq, hbad⟩
      · exact .inl ⟨m', hm', forall_mem_cons.mpr ⟨fun h => absurd h hne, hall⟩, hlog'⟩
      · exact .inr ⟨hm', q, mem_cons_of_mem _ hq, hbad⟩
    · rw [foldlM_cons, hstep, filter_cons_of_pos (by simpa using hload)]
      rcases ih m1 with ⟨m', hm', hall, hlog'⟩ | ⟨hm', q, hq, hbad⟩
      · rw [hlog, append_assoc] at hlog'
        exact .inl ⟨m', hm', forall_mem_cons.mpr ⟨fun _ => hok, hall⟩, hlog'⟩
      · exact .inr ⟨hm', q, mem_cons_of_mem _ hq, hbad⟩
    · rw [foldlM_cons, hstep]
      exact .inr ⟨rfl, ph, mem_cons_self, hload, hbad⟩

/-- The check sees through wrapping: a sum that wraps is below its first term. -/
theorem sliceOk_iff (hw : ph.Words) :
    p.SliceOk ph ↔ ph.pOffset + ph.pFilesz < size ∧ ph.pOffset + ph.pFilesz ≤ p.loader.bytes.length := by
  have hoffset := hw.pOffset
  have hfilesz := hw.pFilesz
  unfold SliceOk
  by_cases hwrap : ph.pOffset + ph.pFilesz < size
  · rw [wadd_eq hwrap]
    exact ⟨fun h => ⟨hwrap, h.2⟩, fun h => ⟨Nat.le_add_right _ _, h.2⟩⟩
  · have hsum : wadd ph.pOffset ph.pFilesz < ph.pOffset := by
      unfold wadd
      rw [Nat.mod_eq_sub_mod (Nat.le_of_not_lt hwrap), Nat.mod_eq_of_lt (by omega)]
      omega
    exact ⟨fun h => absurd h.1 (Nat.not_le_of_gt hsum), fun h => absurd h.1 hwrap⟩

end Placed

/-! ## The pages -/

theorem alignedStart_eq (headers : List Elf64ProgramHeader) :
    alignedStart headers = (imageRange headers).1 / 4096 * 4096 :=
  Word.alignDown_eq (k := 12) (by decide) (imageRange_lt headers).1

/-- What the firmware granted is what the segments need. -/
structure Granted (p : Placed) : Prop where
  words : ∀ ph ∈ p.loader.programHeaders, ph.Words
  base : p.base = p.alignedStart
  notNull : p.alignedStart ≠ 0
  memory : p.alignedStart + p.pages * pageSize ≤ 2 ^ 52

theorem granted_of_prepare {fw : Firmware} {p : Placed} (h : prepare fw stray buffer = .ok p) :
    Granted p := by
  obtain ⟨-, hwords, halloc⟩ := prepare_ok h
  obtain ⟨hbase, hnull, hmem⟩ := fw.granted halloc
  exact ⟨hwords, hbase, hnull, hmem⟩

theorem Placed.start_le {p : Placed} (hph : ph ∈ p.loader.programHeaders)
    (hload : ph.pType = ProgramHeaderType.load) : p.alignedStart ≤ ph.pVaddr := by
  have hlow := ((imageRange_spec p.loader.programHeaders (Word.max, 0)).2.2 ph hph hload).1
  rw [Placed.alignedStart, alignedStart_eq]
  exact Nat.le_trans (Nat.div_mul_le_self _ _) hlow

section granted

variable {p : Placed} (h : Granted p)

include h

section

variable (hph : ph ∈ p.loader.programHeaders) (hload : ph.pType = ProgramHeaderType.load)

include hph hload

/-- A segment is copied to its own address. -/
theorem Granted.dst_eq :
    p.dst ph = ph.pVaddr := by
  have hle := Placed.start_le hph hload
  have hlt := (h.words ph hph).pVaddr
  rw [Placed.dst, h.base, wsub_eq hle hlt, wadd_eq (by omega)]
  omega

/-- The pages hold every segment whose end does not wrap. -/
theorem Granted.end_le (hend : ph.pVaddr + ph.pMemsz < size) :
    ph.pVaddr + ph.pMemsz ≤ p.alignedStart + p.pages * pageSize := by
  obtain ⟨hstart, hlt⟩ := imageRange_lt p.loader.programHeaders
  have hhigh := ((imageRange_spec p.loader.programHeaders (Word.max, 0)).2.2 ph hph hload).2
  rw [wadd_eq hend] at hhigh
  replace hhigh : ph.pVaddr + ph.pMemsz ≤ (imageRange p.loader.programHeaders).2 := hhigh
  have hle := Placed.start_le hph hload
  have hdown : p.alignedStart = (imageRange p.loader.programHeaders).1 / 4096 * 4096 := alignedStart_eq _
  have hpages : p.pages * pageSize = p.totalSize / 4096 * 4096 := rfl
  have hnull := h.notNull
  by_cases hround : (imageRange p.loader.programHeaders).2 + 4095 < size
  · have hup : alignedEnd p.loader.programHeaders = _ := Word.alignUp_eq (k := 12) (by decide) hround
    have htotal : p.totalSize = alignedEnd p.loader.programHeaders - p.alignedStart := by
      refine wsub_eq ?_ ?_
      · show p.alignedStart ≤ alignedEnd p.loader.programHeaders
        omega
      · omega
    omega
  · -- rounding up wraps, and the size is all that is left above the start
    have hup : alignedEnd p.loader.programHeaders = 0 :=
      Word.alignUp_wraps (k := 12) (by decide) hlt (Nat.le_of_not_lt hround)
    have htotal : p.totalSize = (0 + size - p.alignedStart) % size := by
      rw [← hup]; rfl
    unfold size at *
    omega

end

end granted

/-! ## When the copy phase is safe -/

/-- The header describes bytes of the file and a memory image that has room for them. -/
structure Consistent (len : Nat) (ph : Elf64ProgramHeader) : Prop where
  noWrap : ph.pOffset + ph.pFilesz < 2 ^ 64
  file : ph.pOffset + ph.pFilesz ≤ len
  sizes : ph.pFilesz ≤ ph.pMemsz
  ends : ph.pVaddr + ph.pMemsz < 2 ^ 64

/-- The fill starts behind the copy and ends with the segment. -/
theorem Consistent.fill_eq {len : Nat} {ph : Elf64ProgramHeader} (h : Consistent len ph) (hw : ph.Words) :
    wsub ph.pMemsz ph.pFilesz = ph.pMemsz - ph.pFilesz ∧ wadd ph.pVaddr ph.pFilesz = ph.pVaddr + ph.pFilesz := by
  have hends := h.ends
  have hsizes := h.sizes
  exact ⟨wsub_eq hsizes hw.pMemsz, wadd_eq (by unfold size; omega)⟩

/-- The loader reports an error, or it copies without a crash and touches only the file and its pages. -/
def Safe (fw : Firmware) (stray : Nat → UInt8) (buffer : List UInt8) : Prop :=
  ∀ mem, (∃ e, prepare fw stray buffer = .error e ∧ main fw stray buffer ⟨mem, []⟩ = .failed e) ∨
    ∃ p m, prepare fw stray buffer = .ok p ∧ p.copyLoop ⟨mem, []⟩ = some m ∧
      ∀ access ∈ m.log, access.Inside buffer.length p.base (p.pages * pageSize)

/-- A write that stays in `2^52` bytes of memory is not longer than that. -/
theorem count_le {start count len base size : Nat} (hmem : base + size ≤ 2 ^ 52)
    (h : (Access.write start count).Inside len base size) : count ≤ 2 ^ 52 := by
  by_contra hlong
  have hfirst := (h 0 (by omega)).2
  have hlast := (h (2 ^ 52) (by omega)).2
  unfold wadd Word.size at hfirst hlast
  omega

section granted

variable {p : Placed} (h : Granted p) {ph : Elf64ProgramHeader} (hph : ph ∈ p.loader.programHeaders)
  (hload : ph.pType = ProgramHeaderType.load)

include h hph hload

theorem Granted.inside_of_consistent (hc : Consistent p.loader.bytes.length ph) {access : Access}
    (ha : access ∈ p.accesses ph) : access.Inside p.loader.bytes.length p.base (p.pages * pageSize) := by
  have hend := h.end_le hph hload hc.ends
  have hstart := Placed.start_le hph hload
  have hsizes := hc.sizes
  have hends := hc.ends
  obtain ⟨hfill, hfrom⟩ := hc.fill_eq (h.words ph hph)
  unfold Placed.accesses at ha
  rw [h.dst_eq hph hload] at ha
  rw [h.base]
  rcases mem_cons.mp ha with rfl | ha
  · intro k hk
    have := hc.file
    omega
  rcases mem_cons.mp ha with rfl | ha
  · intro k hk
    rw [wadd_eq (by unfold size; omega)]
    omega
  · rw [mem_singleton.mp ha]
    intro k hk
    rw [wadd_eq (by unfold size; omega)]
    omega

theorem Granted.consistent_of_inside (hok : p.SliceOk ph)
    (hall : ∀ access ∈ p.accesses ph, access.Inside p.loader.bytes.length p.base (p.pages * pageSize)) :
    Consistent p.loader.bytes.length ph := by
  obtain ⟨hnoWrap, hfile⟩ := (p.sliceOk_iff (h.words ph hph)).mp hok
  have hvaddr := (h.words ph hph).pVaddr
  have hmemsz := (h.words ph hph).pMemsz
  have hmem : p.base + p.pages * pageSize ≤ 2 ^ 52 := h.base ▸ h.memory
  unfold Placed.accesses at hall
  rw [h.dst_eq hph hload] at hall
  simp only [mem_cons, not_mem_nil, or_false, forall_eq_or_imp, forall_eq] at hall
  obtain ⟨-, hcopy, hfill⟩ := hall
  -- neither the copy nor the fill is longer than the memory there is
  have hshort := count_le hmem hcopy
  have hfillShort := count_le hmem hfill
  have hsizes : ph.pFilesz ≤ ph.pMemsz := by
    unfold wsub size at *
    omega
  rw [wsub_eq hsizes hmemsz] at hfill hfillShort
  refine ⟨hnoWrap, hfile, hsizes, ?_⟩
  -- the first byte of the image is in memory, if there is one
  by_cases hempty : ph.pMemsz = 0
  · rw [hempty]; exact hvaddr
  have hlow : ph.pVaddr < 2 ^ 52 := by
    by_cases hzero : ph.pFilesz = 0
    · have hfirst := (hfill 0 (by omega)).2
      unfold wadd size at hfirst
      unfold size at hvaddr
      omega
    · have hfirst := (hcopy 0 (by omega)).2
      unfold wadd size at hfirst
      unfold size at hvaddr
      omega
  omega

end granted

/-- **The copy phase is safe exactly when the `PT_LOAD` headers are consistent**, if it is reached. -/
theorem copy_safe_iff (fw : Firmware) (stray : Nat → UInt8) (buffer : List UInt8) :
    Safe fw stray buffer ↔ ∀ p, prepare fw stray buffer = .ok p →
      ∀ ph ∈ p.loader.programHeaders, ph.pType = ProgramHeaderType.load → Consistent buffer.length ph := by
  constructor
  · intro hsafe p hp ph hph hload
    have hgranted := granted_of_prepare hp
    obtain ⟨hbytes, -, -⟩ := prepare_ok hp
    rcases hsafe (fun _ => 0) with ⟨e, he, -⟩ | ⟨p', m, hp', hm, hinside⟩
    · rw [hp] at he; cases he
    obtain rfl := Except.ok.inj (hp.symm.trans hp')
    rcases p.copyLoop_cases p.loader.programHeaders ⟨fun _ => 0, []⟩ with ⟨m', hm', hok, hlog⟩ | ⟨hnone, -⟩
    · obtain rfl := Option.mem_unique hm' hm
      rw [← hbytes] at hinside ⊢
      refine hgranted.consistent_of_inside hph hload (hok ph hph hload) fun access ha => hinside access ?_
      rw [hlog]
      exact mem_append_right _ (mem_flatMap_of_mem (mem_filter.mpr ⟨hph, decide_eq_true hload⟩) ha)
    · cases hnone.symm.trans hm
  · intro hall mem
    cases hp : prepare fw stray buffer with
    | error e => exact .inl ⟨e, rfl, by rw [main, hp]⟩
    | ok p =>
      have hgranted := granted_of_prepare hp
      obtain ⟨hbytes, -, -⟩ := prepare_ok hp
      have hcons : ∀ ph ∈ p.loader.programHeaders, ph.pType = ProgramHeaderType.load →
          Consistent p.loader.bytes.length ph := fun ph hph hload => hbytes.symm ▸ hall p hp ph hph hload
      rcases p.copyLoop_cases p.loader.programHeaders ⟨mem, []⟩ with
        ⟨m, hm, -, hlog⟩ | ⟨-, ph, hph, hload, hbad⟩
      · refine .inr ⟨p, m, rfl, hm, fun access ha => ?_⟩
        rw [hlog, nil_append] at ha
        obtain ⟨ph, hph, hin⟩ := mem_flatMap.mp ha
        obtain ⟨hph, hload⟩ := mem_filter.mp hph
        rw [← hbytes]
        exact hgranted.inside_of_consistent hph (of_decide_eq_true hload) (hcons ph hph (of_decide_eq_true hload)) hin
      · exact absurd ((p.sliceOk_iff (hgranted.words ph hph)).mpr
          ⟨(hcons ph hph hload).noWrap, (hcons ph hph hload).file⟩) hbad

/-- A firmware that grants whatever memory there can be. -/
def generous : Firmware where
  allocateAt addr pages := if addr ≠ 0 ∧ addr + pages * pageSize ≤ 2 ^ 52 then some addr else none
  granted := by
    intro addr pages base h
    split at h
    · rename_i hok
      exact ⟨(Option.some.inj h).symm, hok⟩
    · cases h
  stack := .ok 0x200000
  bootInfo := .ok 0x300000
  mapStorage := .ok 0x400000
  memorymap := .ok ()

/-- An ELF file with these `PT_LOAD` headers and entry point, and `rest` behind them. -/
def elfFile (entry : Nat) (headers : List Elf64ProgramHeader) (rest : List UInt8) : List UInt8 :=
  elfMagic ++ List.replicate 20 0 ++ Bytes.leBytes 8 entry ++ Bytes.leBytes 8 64 ++ List.replicate 14 0 ++
    Bytes.leBytes 2 56 ++ Bytes.leBytes 2 headers.length ++ List.replicate 6 0 ++
    headers.flatMap (fun ph => Bytes.leBytes 4 ph.pType ++ List.replicate 4 0 ++ Bytes.leBytes 8 ph.pOffset ++
      Bytes.leBytes 8 ph.pVaddr ++ List.replicate 8 0 ++ Bytes.leBytes 8 ph.pFilesz ++
      Bytes.leBytes 8 ph.pMemsz ++ List.replicate 8 0) ++ rest

set_option maxRecDepth 8000 in
/-- **A segment with fewer bytes in memory than in the file**: `p_memsz - p_filesz` wraps, and the zero fill
    runs through the whole address space. -/
theorem short_memory_image :
    (∃ p, prepare generous (fun _ => 0) (elfFile 0x100000 [⟨1, 0, 0x100000, 2, 1⟩] []) = .ok p ∧
      (p.base, p.pages) = (0x100000, 1) ∧ ((p.copyLoop ⟨fun _ => 0, []⟩).map Machine.log) =
        some [.read 0 2, .write 0x100000 2, .write 0x100002 (2 ^ 64 - 1)]) ∧
    ¬Safe generous (fun _ => 0) (elfFile 0x100000 [⟨1, 0, 0x100000, 2, 1⟩] []) := by
  have hfacts : ((prepare generous (fun _ => 0) (elfFile 0x100000 [⟨1, 0, 0x100000, 2, 1⟩] [])).toOption.map
      fun p => decide ((p.base, p.pages) = (0x100000, 1) ∧ ((p.copyLoop ⟨fun _ => 0, []⟩).map Machine.log) =
        some [.read 0 2, .write 0x100000 2, .write 0x100002 (2 ^ 64 - 1)])) = some true := by
    decide
  cases hp : prepare generous (fun _ => 0) (elfFile 0x100000 [⟨1, 0, 0x100000, 2, 1⟩] []) with
  | error e => rw [hp] at hfacts; cases hfacts
  | ok p =>
    rw [hp] at hfacts
    obtain ⟨hplace, hlog⟩ := of_decide_eq_true (Option.some.inj hfacts)
    refine ⟨⟨p, rfl, hplace, hlog⟩, fun hsafe => ?_⟩
    obtain ⟨hbase, hpages⟩ := Prod.mk.inj hplace
    rcases hsafe (fun _ => 0) with ⟨e, he, -⟩ | ⟨p', m, hp', hm, hinside⟩
    · cases he
    obtain rfl := Except.ok.inj (hp.symm.trans hp')
    rw [hm] at hlog
    have hfill := hinside _
      (by rw [Option.some.inj hlog]; exact List.mem_cons_of_mem _ (List.mem_cons_of_mem _ List.mem_cons_self))
    have hshort := count_le (by rw [hbase, hpages]; decide) hfill
    exact absurd hshort (by decide)

end Saios.Boot
