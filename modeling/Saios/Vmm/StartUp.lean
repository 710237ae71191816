/-
  START-UP: the kernel that `saios_kernel_main` hands to the manager.

  1. **On its own tables** — `bootKernel` loads the tables bootstrap built.  They refine the empty
     list of mappings and the PMM counts them as used (`bootKernel_refined`), which is where every
     run of the manager starts.

  2. **Boot ranges in the first GiB** — they are mapped already by the huge pages, so bootstrap takes
     three frames and its memory has a closed form, `bootMem` (`bootstrap_low`).

  3. **On the firmware's tables** — the switch is compiled out (`earlyCr3SwitchEnabled`), so start-up
     keeps the CR3 of the firmware, WHATEVER bootstrap returned.  Bootstrap does not write a PML4
     that is in use, so entry 511 is what the firmware left there (`startUp_recursive_iff`).
-/
import Saios.Vmm.Bootstrap

namespace Saios.Vmm

open Saios.Memory List

variable {mmu : Mmu}

/-! ## A kernel on its own tables -/

theorem isPageAligned_frame (f : Nat) : isPageAligned (f * 4096) = true :=
  (isPageAligned_iff _).mpr (Nat.mul_mod_left f 4096)

/-- The kernel after `activate_kernel_page_tables` and `init`. -/
def Kernel.fresh (mmu : Mmu) (s : Space) (root : Nat) : Kernel mmu where
  machine := ⟨s, BitVec.ofNat 64 (root * 4096), mmu.flushed⟩
  vmm := { VmmState.new with cr3 := root * 4096, initialized := true }

variable {args : BootArgs}

theorem bootKernel_eq {b s : Space} {root : Nat}
    (h : bootstrapKernelPageTables args b = (.ok (root * 4096), s)) :
    bootKernel mmu args b = .ok (Kernel.fresh mmu s root) := by
  have hal : ¬isPageAligned (root * 4096) = false := by rw [isPageAligned_frame]; decide
  unfold bootKernel activateKernelPageTables Kernel.init
  simp only [h, if_neg hal]
  rfl

theorem Kernel.fresh_root {s : Space} {root : Nat} (hroot : root < 2 ^ 18) :
    (Kernel.fresh mmu s root).machine.root = root := by
  have hmask : addrMask.toNat = 2 ^ 52 - 2 ^ 12 := by decide
  show (BitVec.ofNat 64 (root * 4096) &&& addrMask).toNat / 4096 = root
  rw [BitVec.toNat_and, BitVec.toNat_ofNat, hmask,
    Word.land_clear_low (by omega) (by omega)]
  omega

/-- Sound tables with empty regular slots refine the empty list. -/
theorem Kernel.fresh_refined {s : Space} {root : Nat} (hroot : root < 2 ^ 18) (hs : Sound root s)
    (hempty : ∀ i, i ≠ 0 → i ≠ 511 → s.mem root i = 0#64) :
    Refined (Kernel.fresh mmu s root) ∧ Exclusive (Kernel.fresh mmu s root) := by
  have hr : (Kernel.fresh mmu s root).machine.root = root := Kernel.fresh_root hroot
  refine ⟨⟨rfl, ?_, hs.tracked, ?_, ?_, ?_, ?_⟩, ?_⟩
  · rw [hr]; exact hs.toPaged
  · intro x hx; cases hx
  · exact Pairwise.nil
  · intro x hx; cases hx
  · intro v _ hreg _
    have hnone : edges s.mem root (index 3 v) = none :=
      edges_of_not_present (by rw [hempty _ hreg.1 hreg.2]; exact isPresent_zero)
    have htab : tableAt s.mem root (tablePath v) = none := by
      rw [tableAt, tablePath, EdgeTree.walk_cons, hnone]; rfl
    rw [Machine.leaf, hr]
    show ((tableAt s.mem root (tablePath v)).map _).getD _ = _
    rw [htab]; rfl
  · intro p f hp hf
    rw [hr] at hf
    exact hs.used hp hf

/-- **Where every run starts.** -/
theorem bootKernel_refined {b : Space} {k : Kernel mmu} (hlow : args.Low)
    (htracked : b.pmm.trackedPages ≤ maxPages) (hboot : bootKernel mmu args b = .ok k) :
    Refined k ∧ Exclusive k ∧ Shallow k.machine.mem k.machine.root := by
  have hpost := bootstrap_post hlow.slot0 b
  cases hr : (bootstrapKernelPageTables args b).1 with
  | error e =>
    unfold bootKernel at hboot
    simp only [hr] at hboot
    cases hboot
  | ok phys =>
    obtain ⟨root, b1, rfl, hroot, hbuild, hb⟩ := hpost.of_ok hr
    rw [bootKernel_eq (Prod.ext hr hb)] at hboot
    obtain rfl := Except.ok.inj hboot
    obtain ⟨hsound, hempty, hshallow⟩ := hbuild.close hroot htracked
    obtain ⟨hrefined, hexclusive⟩ := Kernel.fresh_refined hroot hsound hempty
    exact ⟨hrefined, hexclusive, by rw [Kernel.fresh_root hroot]; exact hshallow⟩

/-! ## Boot ranges in the first GiB -/

/-- The entry bootstrap writes for a table. -/
def tableEntry (g : Nat) : Entry := setPage 0#64 (g * 4096) flagWritable

/-- The entry of a 2 MiB page of the first GiB. -/
def hugeEntry (i : Index) : Entry :=
  setPage 0#64 (i.val * 0x200000) (flagWritable ||| flagPresent ||| flagGlobal ||| flagHuge)

/-- The first GiB is identity mapped by the PDPT `t` and the PD `d`. -/
structure LowMapped (mem : Mem) (root t d : Nat) : Prop where
  pdptSmall : t < 2 ^ 18
  pdSmall : d < 2 ^ 18
  pdpt : mem root 0 = tableEntry t
  pd : mem t 0 = tableEntry d
  huge : ∀ i, mem d i = hugeEntry i

section Low

variable {b : Space} {root t d : Nat} {flags : Entry}

theorem bootTable_present {f g : Nat} {i : Index} (h : b.mem f i = tableEntry g) (hg : g < 2 ^ 18) :
    bootTable b f i = (.ok g, b) := by
  rw [bootTable, h, if_pos (by exact isPresent_setPage _ _ _), tableEntry,
    frame_setPage_low hg]

/-- A page of the first GiB is mapped already. -/
theorem mapKernelPage_low (h : LowMapped b.mem root t d) {virt : Nat} (hv : virt < 2 ^ 30) :
    mapKernelPage root virt virt flags b = (.ok false, b) := by
  have h4 : (levelIndices virt).l4 = 0 := slot_low (by omega)
  have h3 : (levelIndices virt).l3 = 0 := by
    refine Fin.ext ?_
    show (virt >>> 30) % 512 = 0
    rw [Nat.shiftRight_eq_div_pow, Nat.div_eq_of_lt hv]
  have h2 : ((levelIndices virt).l2).val = virt / 2 ^ 21 := by
    show (virt >>> 21) % 512 = _
    omega
  have hpres : isPresent (b.mem d (levelIndices virt).l2) = true := by
    rw [h.huge]; exact isPresent_setPage _ _ _
  have hhuge : isHuge (b.mem d (levelIndices virt).l2) = true := by
    rw [h.huge]; exact isHuge_setPage_huge _ _
  have haddr : Word.sadd (address (b.mem d (levelIndices virt).l2)) (virt &&& 0x1fffff) = virt := by
    have hoff : virt &&& 0x1fffff = virt % 2 ^ 21 := Nat.and_two_pow_sub_one_eq_mod virt 21
    rw [h.huge, show address (hugeEntry _) = _ from address_setPage 0#64 (by decide) (by omega) (by omega),
      Word.sadd_eq (by unfold Word.size; omega)]
    omega
  have hpt : bootTable b d (levelIndices virt).l2 =
      (.ok (frame (b.mem d (levelIndices virt).l2)), b) := by
    rw [bootTable, if_pos hpres]
  rw [mapKernelPage]
  simp only [h4, h3, bootTable_present h.pdpt h.pdptSmall, bootTable_present h.pd h.pdSmall, hpt,
    Space.andThen, if_pos hhuge, if_pos haddr]

theorem mapRangeLoop_low (h : LowMapped b.mem root t d) : ∀ (left current : Nat),
    current + 4096 * left ≤ 2 ^ 30 → mapRangeLoop root flags left current b = (.ok (), b)
  | 0, _, _ => rfl
  | left + 1, current, htop => by
      rw [mapRangeLoop, mapKernelPage_low h (by omega)]
      refine mapRangeLoop_low h left _ ?_
      have hle : Word.sadd current pageSize ≤ current + 4096 := Nat.min_le_left _ _
      omega

theorem mapRangeIdentity_low (h : LowMapped b.mem root t d) {start stop : Nat} (hstop : stop ≤ 2 ^ 30) :
    mapRangeIdentity root start stop flags b = (.ok (), b) := by
  have htop := alignUp_low (by decide) (by decide) hstop
  obtain ⟨left, current, hend, heq⟩ := mapRangeIdentity_pages root start stop flags b
  rw [heq]
  exact mapRangeLoop_low h left current (hend.trans htop)

theorem mapRangeIf_low (h : LowMapped b.mem root t d) {wanted : Prop} [Decidable wanted]
    {start stop : Nat} (hstop : wanted → stop ≤ 2 ^ 30) :
    mapRangeIf wanted root start stop flags b = (.ok (), b) := by
  rw [mapRangeIf]
  split
  · exact mapRangeIdentity_low h (hstop ‹_›)
  · rfl

theorem foldl_set_mem (addr : Index → Nat) (flags : Entry) : ∀ (l : List Index) (b : Space), l.Nodup →
    (l.foldl (fun b i => b.set d i (addr i) flags) b).pmm = b.pmm ∧
    ∀ f i [Decidable (i ∈ l)], (l.foldl (fun b i => b.set d i (addr i) flags) b).mem f i =
      if f = d ∧ i ∈ l then setPage (b.mem d i) (addr i) flags else b.mem f i
  | [], b, _ => ⟨rfl, fun f i _ => (if_neg (by simp)).symm⟩
  | j :: l, b, hnodup => by
      obtain ⟨hj, hl⟩ := nodup_cons.mp hnodup
      obtain ⟨hpmm, hmem⟩ := foldl_set_mem addr flags l (b.set d j (addr j) flags) hl
      have hcell : ∀ f i, (b.set d j (addr j) flags).mem f i =
          if f = d ∧ i = j then setPage (b.mem d j) (addr j) flags else b.mem f i := fun _ _ => rfl
      rw [foldl_cons]
      refine ⟨hpmm, fun f i _ => ?_⟩
      rw [hmem, hcell f i, hcell d i]
      by_cases hij : i = j
      · subst hij
        simp [hj]
      · simp [hij]

/-- The loop of `map_identity_low_mem` in closed form. -/
theorem fillHuge_eq (d : Nat) (b : Space) : fillHuge d b = ⟨fun f i => if f = d then
      setPage (b.mem d i) (i.val * 0x200000) (flagWritable ||| flagPresent ||| flagGlobal ||| flagHuge)
    else b.mem f i, b.pmm⟩ := by
  obtain ⟨hpmm, hmem⟩ := foldl_set_mem (fun i => i.val * 0x200000)
    (flagWritable ||| flagPresent ||| flagGlobal ||| flagHuge) _ b (nodup_finRange 512)
  rw [fillHuge]
  generalize foldl _ b (finRange 512) = s at hpmm hmem ⊢
  obtain ⟨mem, pmm⟩ := s
  simp only [mem_finRange, and_true] at hmem hpmm
  rw [hpmm]
  exact congrArg (Space.mk · b.pmm) (funext fun f => funext fun i => by rw [hmem f i])

end Low

/-- All boot ranges end below 1 GiB. -/
structure BootArgs.First (args : BootArgs) : Prop where
  kernel : args.kernelStart < args.kernelEnd → args.kernelEnd ≤ 2 ^ 30
  bootInfo : 0 < args.bootInfoSize → args.bootInfoPtr + args.bootInfoSize ≤ 2 ^ 30
  framebuffer : 0 < args.framebufferSize → args.framebufferBase + args.framebufferSize ≤ 2 ^ 30
  stack : args.rsp + pageSize ≤ 2 ^ 30

/-- Memory with the PML4 `r`, the PDPT `t` and the PD `d` of the first GiB, entry 511 not yet written. -/
def lowMem (mem : Mem) (r t d : Nat) : Mem := fun f i =>
  if f = r then if i = 0 then tableEntry t else 0#64
  else if f = t then if i = 0 then tableEntry d else 0#64
  else if f = d then hugeEntry i
  else mem f i

/-- Memory after bootstrap. -/
def bootMem (mem : Mem) (r t d : Nat) : Mem := store (lowMem mem r t d) r 511 (tableEntry r)

theorem Space.andThen_ok {α β : Type} (a : α) (b : Space) (f : α → Space → Except String β × Space) :
    Space.andThen (.ok a, b) f = f a b := rfl

theorem allocZeroedTable_eq {b : Space} {g : Nat} {p : Pmm}
    (h : lowPage 4096 b.pmm = (.ok (g * 4096), p)) :
    allocZeroedTable b = (.ok (g * 4096), ⟨clear b.mem g, p⟩) := by
  rw [allocZeroedTable]
  simp only [h, Nat.mul_div_cancel g (show 0 < 4096 by decide)]

/-- Three frames taken one after the other: small, and different from each other. -/
theorem three_frames {p p₁ p₂ p₃ : Pmm} {r t d : Nat} (h1 : lowPage 4096 p = (.ok (r * 4096), p₁))
    (h2 : lowPage 4096 p₁ = (.ok (t * 4096), p₂)) (h3 : lowPage 4096 p₂ = (.ok (d * 4096), p₃)) :
    (r < 2 ^ 18 ∧ t < 2 ^ 18 ∧ d < 2 ^ 18) ∧ t ≠ r ∧ d ≠ r ∧ d ≠ t := by
  have hspec : ∀ {p p' : Pmm} {g : Nat}, lowPage 4096 p = (.ok (g * 4096), p') →
      Grows p p' ∧ g < 2 ^ 18 ∧ p.isUsed g = false ∧ p'.isUsed g = true := by
    intro p p' g h
    obtain ⟨hgrows, hok⟩ := lowPage_spec 4096 p
    obtain ⟨g', heq, hlt, hfree, hused⟩ := hok _ (by rw [h])
    obtain rfl : g = g' := by omega
    rw [h] at hgrows hused
    exact ⟨hgrows, hlt, hfree, hused⟩
  obtain ⟨-, hr, -, hrused⟩ := hspec h1
  obtain ⟨hgrows, ht, htfree, htused⟩ := hspec h2
  obtain ⟨-, hd, hdfree, -⟩ := hspec h3
  -- a frame in use is not one that is free
  have hne : ∀ {p : Pmm} {f g : Nat}, p.isUsed f = true → p.isUsed g = false → g ≠ f := by
    intro p f g hf hg heq
    rw [heq, hf] at hg; cases hg
  exact ⟨⟨hr, ht, hd⟩, hne hrused htfree, hne (hgrows.2 r hrused) hdfree, hne htused hdfree⟩

section ThreeFrames

variable {b : Space} {p₁ p₂ p₃ : Pmm} {r t d : Nat}

theorem mapIdentityLowMem_eq (h1 : lowPage 4096 b.pmm = (.ok (r * 4096), p₁))
    (h2 : lowPage 4096 p₁ = (.ok (t * 4096), p₂)) (h3 : lowPage 4096 p₂ = (.ok (d * 4096), p₃)) :
    mapIdentityLowMem r ⟨clear b.mem r, p₁⟩ = (.ok (), ⟨lowMem b.mem r t d, p₃⟩) := by
  obtain ⟨-, htr, hdr, hdt⟩ := three_frames h1 h2 h3
  rw [mapIdentityLowMem, allocZeroedTable_eq h2, Space.andThen_ok]
  rw [allocZeroedTable_eq h3,
    Space.andThen_ok]
  rw [fillHuge_eq]
  refine congrArg (fun mem => (_, Space.mk mem p₃)) (funext fun f => funext fun i => ?_)
  -- entry by entry: the three frames are different
  simp only [Space.set, store, clear, lowMem, tableEntry, hugeEntry]
  by_cases hfr : f = r
  · subst hfr
    simp [Ne.symm htr, Ne.symm hdr]
  by_cases hft : f = t
  · subst hft
    simp [htr, Ne.symm hdt]
  by_cases hfd : f = d
  · subst hfd
    simp [hdr, hdt]
  · simp [hfr, hft, hfd]

/-- **Bootstrap with all ranges in the first GiB** succeeds with three frames. -/
theorem bootstrap_low (hargs : args.First) (h1 : lowPage 4096 b.pmm = (.ok (r * 4096), p₁))
    (h2 : lowPage 4096 p₁ = (.ok (t * 4096), p₂)) (h3 : lowPage 4096 p₂ = (.ok (d * 4096), p₃)) :
    bootstrapKernelPageTables args b = (.ok (r * 4096), ⟨bootMem b.mem r t d, p₃⟩) := by
  obtain ⟨⟨-, ht, hd⟩, htr, hdr, hdt⟩ := three_frames h1 h2 h3
  have hlow : LowMapped (lowMem b.mem r t d) r t d :=
    ⟨ht, hd, by simp [lowMem], by simp [lowMem, htr], fun i => by simp [lowMem, hdr, hdt]⟩
  have hup : ∀ {stop}, stop ≤ 2 ^ 30 → Word.alignUp stop pageSize ≤ 2 ^ 30 :=
    alignUp_low (by decide) (by decide)
  have hzero : lowMem b.mem r t d r 511 = 0#64 := by simp [lowMem]
  rw [bootstrapKernelPageTables, allocZeroedTable_eq h1, Space.andThen_ok,
    Nat.mul_div_cancel r (by decide)]
  dsimp only
  rw [mapIdentityLowMem_eq h1 h2 h3, Space.andThen_ok,
    mapRangeIf_low hlow hargs.kernel, Space.andThen_ok,
    mapRangeIf_low hlow (fun hw => hup (sadd_low (hargs.bootInfo hw))),
    Space.andThen_ok, mapRangeIf_low hlow
      (fun hw => hup (sadd_low (hargs.framebuffer hw))), Space.andThen_ok, mapBootStack,
    mapRangeIdentity_low hlow (hup (sadd_low hargs.stack)),
    Space.andThen_ok, Space.set]
  simp only [hzero]
  rfl

end ThreeFrames

/-! ## A small machine -/

/-- Nine free pages from `0x1000` on. -/
def smallRegions : List MemoryRegion := [⟨0x1000, 0x9000, .usable⟩]

/-- No boot ranges but a stack in the first pages. -/
def smallArgs : BootArgs where
  framebufferBase := 0
  framebufferSize := 0
  bootInfoPtr := 0
  bootInfoSize := 0
  kernelStart := 0
  kernelEnd := 0
  rsp := 0x8000

/-- The PMM of the small machine after `n` tables. -/
def smallPmm : Nat → Pmm
  | 0 => Memory.init smallRegions
  | n + 1 => (lowPage 4096 (smallPmm n)).2

/-- Bootstrap on the small machine takes the frames 1, 2 and 3. -/
theorem bootstrap_small (mem : Mem) : bootstrapKernelPageTables smallArgs ⟨mem, smallPmm 0⟩ =
    (.ok (1 * 4096), ⟨bootMem mem 1 2 3, smallPmm 3⟩) := by
  have hframe : ∀ n < 3, (lowPage 4096 (smallPmm n)).1 = .ok ((n + 1) * 4096) := by decide
  have h1 : lowPage 4096 (smallPmm 0) = (_, smallPmm 1) := Prod.ext (hframe 0 (by decide)) rfl
  have h2 : lowPage 4096 (smallPmm 1) = (_, smallPmm 2) := Prod.ext (hframe 1 (by decide)) rfl
  have h3 : lowPage 4096 (smallPmm 2) = (_, smallPmm 3) := Prod.ext (hframe 2 (by decide)) rfl
  exact bootstrap_low ⟨fun _ => by decide, fun h => absurd h (by decide), fun h => absurd h (by decide), by decide⟩
    h1 h2 h3

/-! ## On the firmware's tables -/

/-- **Start-up keeps the firmware's tables**: it never fails, and the machine is the firmware's with
    what bootstrap did to memory. -/
theorem startUp_eq (firmware : Machine mmu) (entries : List MemoryRegion) (args : BootArgs) :
    startUp firmware entries args = .ok (⟨{ firmware with
        toSpace := (bootstrapKernelPageTables args ⟨firmware.mem, Memory.init entries⟩).2 },
      { VmmState.new with cr3 := address firmware.cr3, initialized := true }⟩, false) := by
  have hal : ¬isPageAligned (address firmware.cr3) = false := by
    rw [← frame_mul, isPageAligned_frame]; decide
  have hcr3 (m : Machine mmu) (outcome : Except String Nat) : chooseCr3 m outcome = ((address m.cr3, false), m) := by
    cases outcome <;> rfl
  unfold startUp Kernel.init
  simp only [hcr3, if_neg hal]
  rfl

/-- **The recursive slot works exactly if the firmware set it up.** -/
theorem startUp_recursive_iff (firmware : Machine mmu) (entries : List MemoryRegion) (args : BootArgs)
    (hused : (Memory.init entries).isUsed firmware.root = true) :
    ∃ k switched, startUp firmware entries args = .ok (k, switched) ∧ k.vmm.initialized = true ∧
      k.machine.cr3 = firmware.cr3 ∧
      (Recursive k.machine.mem k.machine.root ↔ Recursive firmware.mem firmware.root) ∧
      (Recursive firmware.mem firmware.root → ∀ p : List Index, p.length ≤ 3 →
        (∀ q g i, q ++ [i] <+: p → tableAt k.machine.mem k.machine.root q = some g →
          isHuge (k.machine.mem g i) = false) →
        translatePage k.machine.mem k.machine.root (tablePtrOf p / 4096) =
          tableAt k.machine.mem k.machine.root p) := by
  have hcell := (bootstrap_spares args ⟨firmware.mem, Memory.init entries⟩).cells firmware.root 511 hused
  have hiff : Recursive (bootstrapKernelPageTables args ⟨firmware.mem, Memory.init entries⟩).2.mem
      firmware.root ↔ Recursive firmware.mem firmware.root := by
    constructor
    · intro h
      exact ⟨hcell ▸ h.recPresent, hcell ▸ h.recSmall, (congrArg frame hcell).symm.trans h.recFrame⟩
    · intro h
      refine ⟨?_, ?_, (congrArg frame hcell).trans h.recFrame⟩
      · rw [hcell]; exact h.recPresent
      · rw [hcell]; exact h.recSmall
  exact ⟨_, _, startUp_eq firmware entries args, rfl, rfl, hiff,
    fun h p hlen hsmall => (hiff.mpr h).pages hlen hsmall⟩

/-- The small machine with a firmware PML4 in frame 32, which has `e` in entry 511. -/
def firmwareWith (mmu : Mmu) (e : Entry) : Machine mmu :=
  ⟨⟨store (fun _ _ => 0#64) 32 511 e, smallPmm 0⟩, 0x20000#64, mmu.flushed⟩

/-- A firmware that maps its PML4 into itself. -/
theorem startUp_recursive_self : (Memory.init smallRegions).isUsed 32 = true ∧
    ∃ k switched, startUp (firmwareWith Mmu.walker (tableEntry 32)) smallRegions smallArgs =
      .ok (k, switched) ∧ Recursive k.machine.mem k.machine.root := by
  have hused : (Memory.init smallRegions).isUsed 32 = true := by decide
  have hrec : Recursive (firmwareWith Mmu.walker (tableEntry 32)).mem
      (firmwareWith Mmu.walker (tableEntry 32)).root :=
    ⟨by decide, by decide, by decide⟩
  obtain ⟨k, switched, hstart, -, -, hiff, -⟩ := startUp_recursive_iff
    (firmwareWith Mmu.walker (tableEntry 32)) smallRegions smallArgs hused
  exact ⟨hused, k, switched, hstart, hiff.mpr hrec⟩

/-- **Bootstrap succeeds and the manager is initialised on tables without a recursive slot**: the first
    `map` faults. -/
theorem startUp_without_recursive_slot :
    (bootstrapKernelPageTables smallArgs ⟨(firmwareWith Mmu.walker 0#64).mem, Memory.init smallRegions⟩).1 =
      .ok 4096 ∧
    ∃ k switched, startUp (firmwareWith Mmu.walker 0#64) smallRegions smallArgs = .ok (k, switched) ∧
      k.vmm.initialized = true ∧ isPresent (k.machine.mem k.machine.root 511) = false ∧
      k.map 0xffff800000000000 0 1 0#64 "kernel" = none := by
  have hboot := bootstrap_small (firmwareWith Mmu.walker 0#64).mem
  rw [show smallPmm 0 = Memory.init smallRegions from rfl] at hboot
  refine ⟨by rw [hboot], _, _, startUp_eq _ _ _, rfl, ?_, ?_⟩
  · rw [hboot]; decide
  · rw [hboot]
    exact Option.isNone_iff_eq_none.mp (by decide)

end Saios.Vmm
