/-
  WHAT THE LOADER LEAVES IN MEMORY for a well-formed file.

  1. **Well-formed** (`WellFormed`) — the program headers are inside the file, there is a `PT_LOAD` segment, each
     has its bytes inside the file and room for them in memory, and the memory ranges are disjoint and end
     below `2^64 - 4096`.  None of the loader's sums wraps then, and the headers it works with are those in
     the file, whatever is in memory around it (`loadSeed_wellFormed`).

  2. **One segment** (`copySegment_image`) — its memory image is in place and everything else is as before.

  3. **All segments** (`copyLoop_image`) — by induction over the headers; a later segment does not disturb an
     earlier one, since their ranges are disjoint.

  **`image_in_place`**: after the copy loop every segment is in place, and a jump goes to the entry address of
  the file, which is inside the loaded range.
-/
import Saios.Boot.Loader

namespace Saios.Boot

open List
open Word (size wadd wsub wadd_eq wsub_eq)

/-! ## Well-formed files -/

/-- The program headers as they stand in the file. -/
def headersIn (buffer : List UInt8) : List Elf64ProgramHeader :=
  let header := Elf64Header.ofBytes buffer
  (List.range header.phnum).map fun i =>
    .ofBytes ((buffer.drop (header.phoff + i * header.phentsize)).take elf64ProgramHeaderSize)

def segmentsIn (buffer : List UInt8) : List Elf64ProgramHeader :=
  (headersIn buffer).filter fun ph => ph.pType = ProgramHeaderType.load

/-- The address is in the memory image of the segment. -/
def Elf64ProgramHeader.Holds (ph : Elf64ProgramHeader) (a : Nat) : Prop := ph.pVaddr ≤ a ∧ a < ph.pVaddr + ph.pMemsz

structure WellFormed (buffer : List UInt8) : Prop where
  /-- A byte string in memory. -/
  size : buffer.length < 2 ^ 63
  header : elf64HeaderSize ≤ buffer.length
  magic : buffer.take 4 = elfMagic
  headers : ∀ i < (Elf64Header.ofBytes buffer).phnum, (Elf64Header.ofBytes buffer).phoff +
    i * (Elf64Header.ofBytes buffer).phentsize + elf64ProgramHeaderSize ≤ buffer.length
  load : segmentsIn buffer ≠ []
  sizes : ∀ ph ∈ segmentsIn buffer, ph.pFilesz ≤ ph.pMemsz
  file : ∀ ph ∈ segmentsIn buffer, ph.pOffset + ph.pFilesz ≤ buffer.length
  ends : ∀ ph ∈ segmentsIn buffer, ph.pVaddr + ph.pMemsz < 2 ^ 64 - 4096
  disjoint : (segmentsIn buffer).Pairwise fun a b => ∀ x, ¬(a.Holds x ∧ b.Holds x)

theorem readUnaligned_inside {stray : Nat → UInt8} {elf : List UInt8} {offset count : Nat}
    (hsize : elf.length < size) (h : offset + count ≤ elf.length) :
    readUnaligned stray elf offset count = (elf.drop offset).take count := by
  refine ext_getElem ?_ fun k hk hk' => ?_
  · rw [readUnaligned, length_map, length_range, length_take, length_drop]
    omega
  · rw [readUnaligned, length_map, length_range] at hk
    have hin : offset + k < elf.length := by omega
    have hadd : wadd offset k = offset + k := wadd_eq (by omega)
    simp only [readUnaligned, getElem_map, getElem_range, getElem_take, getElem_drop, hadd,
      getElem?_eq_getElem hin, Option.getD_some]

theorem mapM_ok {α β ε : Type} {f : α → Except ε β} {g : α → β} {as : List α} (h : ∀ a ∈ as, f a = .ok (g a)) :
    as.mapM f = .ok (as.map g) := by
  induction as with
  | nil => rfl
  | cons a as ih =>
    rw [mapM_cons, h a mem_cons_self, ih fun b hb => h b (mem_cons_of_mem _ hb)]
    rfl

section wellFormed

variable {buffer : List UInt8} (h : WellFormed buffer)

include h

/-- **The loader reads the headers of the file.** -/
theorem loadSeed_wellFormed (stray : Nat → UInt8) : loadSeed stray buffer =
    .ok ⟨buffer, headersIn buffer, (Elf64Header.ofBytes buffer).entry⟩ := by
  have hsize : buffer.length < size := Nat.lt_trans h.size (by decide)
  have hlong : ¬buffer.length < elf64HeaderSize := Nat.not_lt_of_ge h.header
  have hheader : loadElf64Header buffer = .ok (Elf64Header.ofBytes buffer) := if_neg hlong
  have hmagic : (Elf64Header.ofBytes buffer).ident.take 4 = elfMagic := by
    show (buffer.take 16).take 4 = elfMagic
    rw [take_take]
    exact h.magic
  have hmap : ((range (Elf64Header.ofBytes buffer).phnum).mapM fun i =>
      loadProgramHeader stray buffer (wadd (Elf64Header.ofBytes buffer).phoff
        (i * (Elf64Header.ofBytes buffer).phentsize))) = .ok (headersIn buffer) := by
    refine mapM_ok fun i hi => ?_
    have hin := h.headers i (mem_range.mp hi)
    rw [elf64ProgramHeaderSize] at hin
    rw [wadd_eq (by omega), loadProgramHeader, elf64ProgramHeaderSize, wadd_eq (by omega),
      if_neg (by omega), readUnaligned_inside hsize hin]
  rw [loadSeed, if_neg hlong, hheader]
  simp only
  rw [if_neg (not_not_intro hmagic), hmap]

theorem WellFormed.consistent {ph : Elf64ProgramHeader} (hph : ph ∈ headersIn buffer)
    (hload : ph.pType = ProgramHeaderType.load) : Consistent buffer.length ph := by
  have hseg : ph ∈ segmentsIn buffer := mem_filter.mpr ⟨hph, decide_eq_true hload⟩
  have hfile := h.file ph hseg
  have hends := h.ends ph hseg
  have hsize := h.size
  exact ⟨by omega, hfile, h.sizes ph hseg, by omega⟩

end wellFormed

/-! ## One segment -/

/-- The memory image of a segment is in place. -/
def InPlace (bytes : List UInt8) (mem : Nat → UInt8) (ph : Elf64ProgramHeader) : Prop :=
  ∀ k < ph.pMemsz, (k < ph.pFilesz → bytes[ph.pOffset + k]? = some (mem (ph.pVaddr + k))) ∧
    (ph.pFilesz ≤ k → mem (ph.pVaddr + k) = 0)

section segment

variable {p : Placed} (h : Granted p) {ph : Elf64ProgramHeader} (hph : ph ∈ p.loader.programHeaders)
  (hload : ph.pType = ProgramHeaderType.load) (hc : Consistent p.loader.bytes.length ph)

include h hph hload hc

theorem copySegment_image (m : Machine) : ∃ m', p.copySegment m ph = some m' ∧
    InPlace p.loader.bytes m'.mem ph ∧ ∀ a < size, ¬ph.Holds a → m'.mem a = m.mem a := by
  have hends := hc.ends
  have hsizes := hc.sizes
  obtain ⟨hfill, hfrom⟩ := hc.fill_eq (h.words ph hph)
  have hdst : wadd p.base (wsub ph.pVaddr p.alignedStart) = ph.pVaddr := h.dst_eq hph hload
  have hslice := (p.sliceOk_iff (h.words ph hph)).mpr ⟨hc.noWrap, hc.file⟩
  have hdone : p.copySegment m ph = some ((m.copyNonoverlapping p.loader.bytes ph.pOffset ph.pVaddr
      ph.pFilesz).writeBytes (ph.pVaddr + ph.pFilesz) 0 (ph.pMemsz - ph.pFilesz)) := by
    unfold Placed.copySegment
    rw [if_neg (not_not_intro hload)]
    simp only [hdst, hfrom, hfill]
    exact if_pos hslice
  refine ⟨_, hdone, fun k hk => ⟨fun hfile => ?_, fun hzero => ?_⟩, fun a ha hout => ?_⟩
  · -- a byte of the file: the fill starts behind it
    have hoff : wsub (ph.pVaddr + k) (ph.pVaddr + ph.pFilesz) = size + k - ph.pFilesz := by
      unfold wsub size
      omega
    have hown : wsub (ph.pVaddr + k) ph.pVaddr = k := by
      unfold wsub size
      omega
    show _ = some (if wsub _ _ < _ then _ else if wsub _ _ < _ then _ else _)
    have hin : ph.pOffset + k < p.loader.bytes.length := by
      have := hc.file
      omega
    rw [hoff, hown, if_neg (by unfold size; omega), if_pos hfile, getElem?_eq_getElem hin,
      getD_eq_getElem _ _ hin]
  · have hoff : wsub (ph.pVaddr + k) (ph.pVaddr + ph.pFilesz) = k - ph.pFilesz := by
      unfold wsub size
      omega
    show (if wsub _ _ < _ then _ else _) = _
    rw [if_pos (by omega)]
  · unfold Elf64ProgramHeader.Holds at hout
    have hnofill : ¬wsub a (ph.pVaddr + ph.pFilesz) < ph.pMemsz - ph.pFilesz := by
      unfold wsub size at *
      omega
    have hnocopy : ¬wsub a ph.pVaddr < ph.pFilesz := by
      unfold wsub size at *
      omega
    show (if wsub _ _ < _ then _ else if wsub _ _ < _ then _ else _) = _
    rw [if_neg hnofill, if_neg hnocopy]

end segment

/-! ## All segments -/

/-- What no segment holds stays, and every segment is in place. -/
theorem copyLoop_image {p : Placed} (h : Granted p) : ∀ headers : List Elf64ProgramHeader,
    (∀ ph ∈ headers, ph ∈ p.loader.programHeaders) →
    (∀ ph ∈ headers, ph.pType = ProgramHeaderType.load → Consistent p.loader.bytes.length ph) →
    (headers.filter fun ph => ph.pType = ProgramHeaderType.load).Pairwise (fun a b => ∀ x, ¬(a.Holds x ∧ b.Holds x)) →
    ∀ m, ∃ m', headers.foldlM p.copySegment m = some m' ∧
      (∀ ph ∈ headers, ph.pType = ProgramHeaderType.load → InPlace p.loader.bytes m'.mem ph) ∧
      ∀ a < size, (∀ ph ∈ headers, ph.pType = ProgramHeaderType.load → ¬ph.Holds a) → m'.mem a = m.mem a := by
  intro headers
  induction headers with
  | nil => exact fun _ _ _ m => ⟨m, rfl, nofun, fun _ _ _ => rfl⟩
  | cons ph headers ih =>
    intro hmem hcons hdisjoint m
    have hrest := ih (fun q hq => hmem q (mem_cons_of_mem _ hq))
      (fun q hq => hcons q (mem_cons_of_mem _ hq))
    by_cases hload : ph.pType = ProgramHeaderType.load
    · rw [filter_cons, if_pos (decide_eq_true hload), pairwise_cons] at hdisjoint
      have hc := hcons ph mem_cons_self hload
      obtain ⟨m1, hm1, himage, hframe1⟩ := copySegment_image h (hmem ph mem_cons_self) hload hc m
      obtain ⟨m', hm', hall, hframe⟩ := hrest hdisjoint.2 m1
      refine ⟨m', by rw [foldlM_cons, hm1]; exact hm', fun q hq hqload => ?_, fun a ha hout => ?_⟩
      · rcases mem_cons.mp hq with rfl | hq
        · -- later segments do not hold the addresses of this one
          intro k hk
          have hends := hc.ends
          have hkeep : m'.mem (q.pVaddr + k) = m1.mem (q.pVaddr + k) := by
            refine hframe _ (by unfold size; omega) fun r hr hrload hholds => ?_
            exact hdisjoint.1 r (mem_filter.mpr ⟨hr, decide_eq_true hrload⟩) _
              ⟨⟨Nat.le_add_right _ _, by omega⟩, hholds⟩
          rw [hkeep]
          exact himage k hk
        · exact hall q hq hqload
      · rw [hframe a ha fun q hq => hout q (mem_cons_of_mem _ hq)]
        exact hframe1 a ha (hout ph mem_cons_self hload)
    · rw [filter_cons, if_neg (by simpa using hload)] at hdisjoint
      obtain ⟨m', hm', hall, hframe⟩ := hrest hdisjoint m
      have hskip : p.copySegment m ph = some m := if_pos hload
      refine ⟨m', by rw [foldlM_cons, hskip]; exact hm', fun q hq hqload => ?_,
        fun a ha hout => hframe a ha fun q hq => hout q (mem_cons_of_mem _ hq)⟩
      rcases mem_cons.mp hq with rfl | hq
      · exact absurd hqload hload
      · exact hall q hq hqload

/-! ## The jump -/

theorem handoff_entry {p : Placed} (h : Granted p) {fw : Firmware} {entry rsp : Nat}
    (hentry : p.loader.entryPoint < size) (hr : p.handoff fw = .ok (entry, rsp)) :
    entry = p.loader.entryPoint ∧ p.base ≤ entry ∧ entry < wadd p.base p.totalSize := by
  have hshift : wadd p.loader.entryPoint (wsub p.base p.alignedStart) = p.loader.entryPoint := by
    have hmem := h.memory
    rw [h.base, wsub_eq (Nat.le_refl _) (by unfold size; omega), Nat.sub_self]
    exact wadd_eq hentry
  unfold Placed.handoff at hr
  rw [hshift] at hr
  split at hr
  · cases hr
  simp only at hr
  split at hr
  · cases hr
  split at hr
  · cases hr
  · cases hr
  · cases hr
  · split at hr
    · cases hr
    · rename_i hin
      push Not at hin
      cases hr
      exact ⟨rfl, hin.1, hin.2⟩

/-- **A well-formed file is loaded.**  If the firmware grants the pages, then after the copy loop every byte
    of every segment's memory image is the byte of the file, or zero beyond `p_filesz`; and if the loader
    jumps, it jumps to the entry address of the file, inside the loaded range. -/
theorem image_in_place (fw : Firmware) (stray : Nat → UInt8) (buffer : List UInt8) (hwf : WellFormed buffer)
    (base : Nat) (halloc : fw.allocateAt (alignedStart (headersIn buffer))
      (totalSize (headersIn buffer) / pageSize) = some base) (mem : Nat → UInt8) :
    ∃ p m, prepare fw stray buffer = .ok p ∧ p.copyLoop ⟨mem, []⟩ = some m ∧
      (∀ ph ∈ segmentsIn buffer, InPlace buffer m.mem ph) ∧
      ∀ entry rsp m', main fw stray buffer ⟨mem, []⟩ = .jumped entry rsp m' →
        m' = m ∧ entry = (Elf64Header.ofBytes buffer).entry ∧ base ≤ entry ∧
          entry < base + totalSize (headersIn buffer) := by
  have hprep : prepare fw stray buffer =
      .ok ⟨⟨buffer, headersIn buffer, (Elf64Header.ofBytes buffer).entry⟩, base⟩ := by
    rw [prepare, loadSeed_wellFormed hwf]
    simp only
    rw [halloc]
  have hgranted := granted_of_prepare hprep
  obtain ⟨m, hm, himage, -⟩ := copyLoop_image hgranted _ (fun ph hph => hph)
    (fun ph hph hload => hwf.consistent hph hload) hwf.disjoint ⟨mem, []⟩
  refine ⟨_, m, hprep, hm, fun ph hph => ?_, fun entry rsp m' hjump => ?_⟩
  · obtain ⟨hin, hload⟩ := List.mem_filter.mp hph
    exact himage ph hin (of_decide_eq_true hload)
  · have hloop : Placed.copyLoop ⟨⟨buffer, headersIn buffer, (Elf64Header.ofBytes buffer).entry⟩, base⟩
        ⟨mem, []⟩ = some m := hm
    rw [main, hprep] at hjump
    simp only at hjump
    rw [hloop] at hjump
    simp only at hjump
    split at hjump
    · cases hjump
    · rename_i e r hhand
      cases hjump
      obtain ⟨hentry, hlow, hhigh⟩ := handoff_entry hgranted (field_lt 8 24 buffer) hhand
      exact ⟨rfl, hentry, hlow, Nat.lt_of_lt_of_le hhigh (Nat.mod_le _ _)⟩

/-- Two segments, the first with two zero bytes behind its three. -/
def twoSegments : List UInt8 :=
  elfFile 0x100001 [⟨1, 176, 0x100000, 3, 5⟩, ⟨1, 179, 0x101000, 1, 1⟩] [10, 20, 30, 40]

def Outcome.target : Outcome → Option Nat
  | .jumped entry _ _ => some entry
  | _ => none

set_option maxRecDepth 20000 in
theorem image_in_place_two : WellFormed twoSegments ∧
    ∃ rsp m, main generous (fun _ => 0) twoSegments ⟨fun _ => 7, []⟩ = .jumped 0x100001 rsp m ∧
      m.mem 0x100002 = 30 ∧ m.mem 0x100003 = 0 ∧ m.mem 0x101000 = 40 := by
  have hsegments : segmentsIn twoSegments = [⟨1, 176, 0x100000, 3, 5⟩, ⟨1, 179, 0x101000, 1, 1⟩] := by decide
  have hwf : WellFormed twoSegments := by
    refine ⟨by decide, by decide, by decide, by decide, ?_, ?_, ?_, ?_, ?_⟩
    · decide
    · decide
    · decide
    · decide
    · rw [hsegments]
      refine .cons (fun b hb x => ?_) (List.pairwise_singleton _ _)
      rw [List.mem_singleton.mp hb]
      unfold Elf64ProgramHeader.Holds
      simp only
      omega
  have halloc : generous.allocateAt (alignedStart (headersIn twoSegments))
      (totalSize (headersIn twoSegments) / pageSize) = some 0x100000 := by decide
  obtain ⟨p, m, -, -, himage, hjump⟩ :=
    image_in_place generous (fun _ => 0) twoSegments hwf 0x100000 halloc (fun _ => 7)
  have htarget : (main generous (fun _ => 0) twoSegments ⟨fun _ => 7, []⟩).target = some 0x100001 := by decide
  have hfirst := himage _ List.mem_cons_self
  have hsecond := himage _ (List.mem_cons_of_mem _ List.mem_cons_self)
  cases hmain : main generous (fun _ => 0) twoSegments ⟨fun _ => 7, []⟩ with
  | failed e => rw [hmain] at htarget; cases htarget
  | crashed => rw [hmain] at htarget; cases htarget
  | jumped entry rsp m' =>
    rw [hmain] at htarget
    obtain rfl : entry = 0x100001 := Option.some.inj htarget
    obtain ⟨rfl, -⟩ := hjump _ _ _ hmain
    refine ⟨hwf, rsp, m', rfl, ?_, (hfirst 3 (by decide)).2 (by decide), ?_⟩
    · have hbyte : twoSegments[176 + 2]? = some 30 := by decide
      exact (Option.mem_unique hbyte ((hfirst 2 (by decide)).1 (by decide))).symm
    · have hbyte : twoSegments[179 + 0]? = some 40 := by decide
      exact (Option.mem_unique hbyte ((hsecond 0 (by decide)).1 (by decide))).symm

end Saios.Boot
