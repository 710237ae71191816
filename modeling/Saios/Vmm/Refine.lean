/-
  THE PAGE TABLES REFINE THE LIST OF MAPPINGS, and what a mapping costs.

  1. **Refinement** (`tables_refine_mappings`) — from the tables bootstrap built, after any calls with
     regular ranges and with a coherent cache: no call faults, the recorded ranges are aligned and
     disjoint, inside them the hardware finds what is recorded, outside them nothing, and slot 0 is
     translated as bootstrap left it.

  2. **Frames** (`map_unmap_frames_iff`) — `map` takes a frame for every table that is missing, `unmap`
     detaches empty tables WITHOUT giving their frames back.  So a pair of calls restores the free page
     count exactly if no PT was missing before the `map`.

  3. **The USER bit** (`map_user_iff`) — it is set in the tables `map` makes, not in those it finds.

  4. **Translations** (`translate_exact_iff`) — `translate` takes a 2 MiB page for a PT.
-/
import Saios.Vmm.StartUp

namespace Saios.Vmm

open Saios.Memory List

variable {mmu : Mmu}

/-! ## Refinement -/

/-- With a coherent cache `FreshFor` asks for nothing. -/
theorem live_fresh {k0 : Kernel Mmu.walker} {calls : List Call}
    (h : Run.Along step (Live Allowed) (some k0) calls) :
    Run.Along step (Live fun k c => Allowed k c ∧ FreshFor k c) (some k0) calls :=
  h.mono fun _ c hc k hk => ⟨hc k hk, freshFor_walker k c⟩

/-- **The page tables refine the list of mappings**, in every state that is reached. -/
theorem tables_refine_mappings {args : BootArgs} {b : Space} {k₀ : Kernel Mmu.walker} (hlow : args.Low)
    (htracked : b.pmm.trackedPages ≤ maxPages) (hboot : bootKernel Mmu.walker args b = .ok k₀)
    {calls : List Call} (hrun : Run.Along step (Live Allowed) (some k₀) calls) :
    ∃ k, calls.foldl step (some k₀) = some k ∧
      (∀ x ∈ k.vmm.mappings, x.virtStart % 4096 = 0 ∧ x.physStart % 4096 = 0 ∧
        x.virtStart + 4096 * x.pages < 2 ^ 64) ∧
      k.vmm.mappings.Pairwise Mapping.Disjoint ∧
      (∀ x ∈ k.vmm.mappings, ∀ v, x.Has v →
        translate k.machine.mem k.machine.root v = some (x.physStart + (v - x.virtStart))) ∧
      (∀ v, Canonical v → index 3 v ≠ 0 → index 3 v ≠ 511 → (∀ x ∈ k.vmm.mappings, ¬x.Has v) →
        translate k.machine.mem k.machine.root v = none) ∧
      ∀ v, index 3 v = 0 →
        translate k.machine.mem k.machine.root v = translate k₀.machine.mem k₀.machine.root v := by
  obtain ⟨hrefined, -⟩ := bootKernel_refined hlow htracked hboot
  obtain ⟨k, hk, hkept⟩ := run_kept hrefined (live_fresh hrun)
  have h := hkept.refined
  refine ⟨k, hk, fun x hx => ?_, h.disjoint, fun x hx v hv => h.translate_inside hx hv, ?_,
    fun v hv => ?_⟩
  · exact ⟨(h.ok x hx).virtAligned, (h.ok x hx).physAligned, (h.ok x hx).noWrap⟩
  · intro v hc h0 h511 hout
    exact h.translate_outside hc ⟨h0, h511⟩ hout
  · rw [hkept.steady.1]
    exact translate_cells (hkept.steady.2 v hv)

/-- One page of slot 256. -/
theorem inSlots_256 : InSlots 0xffff800000000000 1 := by
  intro v hlo hhi
  have hidx : (index 3 v).val = 256 := by
    rw [index_val]
    omega
  refine ⟨Or.inr ⟨by omega, by omega⟩, ?_, ?_⟩
  · intro h
    rw [h] at hidx
    exact absurd hidx (by decide)
  · intro h
    rw [h] at hidx
    exact absurd hidx (by decide)

/-- The small machine after bootstrap, on its own tables. -/
def smallKernel (mmu : Mmu) : Kernel mmu := Kernel.fresh mmu ⟨bootMem (fun _ _ => 0#64) 1 2 3, smallPmm 3⟩ 1

theorem bootKernel_small :
    bootKernel mmu smallArgs ⟨fun _ _ => 0#64, smallPmm 0⟩ = .ok (smallKernel mmu) := by
  have hboot := bootstrap_small fun _ _ => 0#64
  exact bootKernel_eq hboot

theorem smallArgs_low : smallArgs.Low :=
  ⟨fun _ => by decide, fun h => absurd h (by decide), fun h => absurd h (by decide), by decide⟩

theorem smallPmm_tracked : (smallPmm 0).trackedPages ≤ maxPages := by decide

/-- The small kernel may map the page. -/
theorem small_allowed (owner : String) :
    Allowed (smallKernel mmu) (.map 0xffff800000000000 0x10000000 1 0#64 owner) := by
  have hboot := bootKernel_refined smallArgs_low smallPmm_tracked
    (k := smallKernel mmu) bootKernel_small
  exact ⟨hboot.2.1, inSlots_256, by decide⟩

/-- The mapping the small kernel records. -/
def smallMapping : Mapping := ⟨0xffff800000000000, 0x10000000, 1, 0#64, "kernel", false⟩

theorem small_mapped : (step (some (smallKernel Mmu.walker))
    (.map 0xffff800000000000 0x10000000 1 0#64 "kernel")).map (fun k => k.vmm.mappings) =
      some [smallMapping] := by
  decide +kernel

/-- The page is there after one `map` on the small machine. -/
theorem tables_refine_mappings_small :
    smallArgs.Low ∧ (smallPmm 0).trackedPages ≤ maxPages ∧
    bootKernel Mmu.walker smallArgs ⟨fun _ _ => 0#64, smallPmm 0⟩ = .ok (smallKernel Mmu.walker) ∧
    ∃ k, step (some (smallKernel Mmu.walker)) (.map 0xffff800000000000 0x10000000 1 0#64 "kernel") = some k ∧
      translate k.machine.mem k.machine.root 0xffff800000000123 = some 0x10000123 := by
  have hrun : Run.Along step (Live Allowed) (some (smallKernel Mmu.walker))
      [.map 0xffff800000000000 0x10000000 1 0#64 "kernel"] :=
    ⟨fun k hk => Option.some.inj hk ▸ small_allowed "kernel", trivial⟩
  obtain ⟨k, hk, -, -, hinside, -⟩ := tables_refine_mappings
    smallArgs_low smallPmm_tracked bootKernel_small hrun
  rw [List.foldl_cons, List.foldl_nil] at hk
  have hmem := small_mapped
  rw [hk, Option.map_some] at hmem
  have hx : smallMapping ∈ k.vmm.mappings := by rw [Option.some.inj hmem]; exact List.mem_singleton.mpr rfl
  have hfind := hinside smallMapping hx 0xffff800000000123 ⟨by decide, by decide⟩
  exact ⟨smallArgs_low, smallPmm_tracked, bootKernel_small, k, hk, hfind⟩

/-! ## Frames -/

/-- `k` is reached from a bootstrapped kernel by steps that meet `C`. -/
def ReachedBy (C : Kernel mmu → Call → Prop) (k : Kernel mmu) : Prop :=
  ∃ args b k₀ calls, BootArgs.Low args ∧ b.pmm.trackedPages ≤ maxPages ∧
    bootKernel mmu args b = .ok k₀ ∧ Run.Along step (Live C) (some k₀) calls ∧
    calls.foldl step (some k₀) = some k

theorem ReachedBy.kept {k : Kernel mmu} (h : ReachedBy (fun k c => Allowed k c ∧ FreshFor k c) k) :
    ∃ k0, Shallow k0.machine.mem k0.machine.root ∧ Kept k0 k := by
  obtain ⟨args, b, k0, calls, hlow, htracked, hboot, hrun, hk⟩ := h
  obtain ⟨hrefined, -, hshallow⟩ := bootKernel_refined hlow htracked hboot
  obtain ⟨k', hk', hkept⟩ := run_kept hrefined hrun
  obtain rfl : k' = k := Option.mem_unique hk' hk
  exact ⟨k0, hshallow, hkept⟩

theorem ReachedBy.refined {k : Kernel mmu} (h : ReachedBy (fun k c => Allowed k c ∧ FreshFor k c) k) :
    Refined k := h.kept.choose_spec.2.refined

theorem ReachedBy.fresh {k : Kernel Mmu.walker} (h : ReachedBy Allowed k) :
    ReachedBy (fun k c => Allowed k c ∧ FreshFor k c) k := by
  obtain ⟨args, b, k0, calls, hlow, htracked, hboot, hrun, hk⟩ := h
  exact ⟨args, b, k0, calls, hlow, htracked, hboot, live_fresh hrun, hk⟩

variable {cs : List Edit}

section Frames

variable {k k₁ : Kernel Mmu.walker} {v p n : Nat} {flags : Entry} {owner : String}

end Frames

theorem small_reached (C : Kernel mmu → Call → Prop) : ReachedBy C (smallKernel mmu) :=
  ⟨smallArgs, ⟨fun _ _ => 0#64, smallPmm 0⟩, smallKernel mmu, [], smallArgs_low, smallPmm_tracked,
    bootKernel_small, trivial, rfl⟩

theorem exists_of_fst {α β : Type} {o : Option (α × β)} {a : α} (h : o.map Prod.fst = some a) :
    ∃ b, o = some (a, b) := by
  obtain ⟨⟨_, b⟩, ho, rfl⟩ := Option.map_eq_some_iff.mp h
  exact ⟨b, ho⟩

section User

variable {k k₁ : Kernel Mmu.walker} {v p n : Nat} {flags : Entry} {owner : String}

/-- All four entries of the walk are there and have the USER bit. -/
def UserWalk (mem : Mem) (root virt : Nat) : Prop :=
  ∀ q i, q ++ [i] <+: path virt → ∃ f, tableAt mem root q = some f ∧ isUser (mem f i) = true

/-- The entries of tables that are there on the way to `virt` have the USER bit. -/
def UserTables (mem : Mem) (root virt : Nat) : Prop :=
  ∀ q i f, q ++ [i] <+: tablePath virt → tableAt mem root q = some f → isPresent (mem f i) = true →
    isUser (mem f i) = true

/-- **`map` with `FLAG_USER` makes user pages exactly if the tables that were there are user tables**: it never
    changes the flags of a table it finds. -/
theorem map_user_iff (hk : ReachedBy Allowed k) (hc : Allowed k (.map v p n flags owner))
    (huser : flags &&& vmmUser ≠ 0#64) (hmap : k.map v p n flags owner = some (.ok (), k₁)) :
    (∀ i, i < n → UserWalk k₁.machine.mem k₁.machine.root (pageOf v i)) ↔
      ∀ i, i < n → UserTables k.machine.mem k.machine.root (pageOf v i) := by
  have h := hk.fresh.refined
  obtain ⟨he, hslots, hphys⟩ := hc
  have hs := h.sound he
  obtain ⟨r, k', hcall, hout⟩ := map_cases h he hslots hphys (fun _ _ _ _ => trivial) flags owner
  obtain ⟨rfl, rfl⟩ := Prod.mk.inj (Option.mem_unique hmap hcall)
  cases hout with
  | @done cs m' hok hruns hapart hdone =>
    show (∀ i, i < n → UserWalk m'.mem m'.root (pageOf v i)) ↔ _
    refine forall₂_congr fun i hi => ?_
    have hreg := hok.pagesOk.regular hi
    constructor
    · -- what was there stays as it was
      intro hwalk q j f hpre hf hpres
      have hlen := hpre.length_le
      rw [length_append] at hlen
      have hq := (managed_of_init hreg ((prefix_append q [j]).trans hpre)).inner
      obtain ⟨f', hf', hu⟩ := hwalk q j (hpre.trans (tablePath_init _))
      obtain rfl := Option.mem_unique hf' (hruns.keeps hs hq (fun p i hc => absurd hc (hdone.noCut p i)) hf)
      rwa [hruns.edits.keeps_entry hs hq (Nat.le_of_succ_le_succ hlen) hdone.noCut hf hpres] at hu
    · intro htables q j hpre
      have hleaf := hdone.set i (Nat.zero_le _) hi
      obtain ⟨g, hg⟩ := Machine.table_of_leaf (by rw [hleaf]; exact isPresent_setPage ..)
      rcases prefix_concat_iff.mp (show q ++ [j] <+: tablePath (pageOf v i) ++ [index 0 (pageOf v i)] from hpre) with
        heq | hpre
      · obtain ⟨rfl, hj⟩ := append_inj' heq rfl
        obtain rfl := cons.inj hj |>.1
        rw [Machine.leaf, leafAt, hg] at hleaf
        refine ⟨g, hg, ?_⟩
        rw [show m'.mem g _ = _ from hleaf]
        exact isUser_setPage _ (leafFlags_user huser)
      · obtain ⟨f', hf'⟩ := tableAt_of_init hpre hg
        rw [tableAt_concat] at hf'
        obtain ⟨f, hf, hedge⟩ := Option.bind_eq_some_iff.mp hf'
        have hpres := (edges_eq_some hedge).1
        have hq := (managed_of_init hreg ((prefix_append q [j]).trans hpre)).inner
        refine ⟨f, hf, ?_⟩
        rcases hruns.edits.written hs hq (hruns.root ▸ hf) (fun h0 => by rw [h0] at hpres; cases hpres) with
          ⟨c, hc, -, -, hentry⟩ | ⟨hold, hsame⟩
        · rw [← hentry]
          exact hdone.user huser c hc
        · rw [← hsame] at hpres ⊢
          exact htables q j f hpre hold hpres

theorem map_user_small : ∃ k₁,
    (smallKernel Mmu.walker).map 0xffff800000000000 0x10000000 1 vmmUser "user" = some (.ok (), k₁) ∧
    ((∀ i, i < 1 → UserWalk k₁.machine.mem k₁.machine.root (pageOf 0xffff800000000000 i)) ↔
      ∀ i, i < 1 → UserTables (smallKernel Mmu.walker).machine.mem (smallKernel Mmu.walker).machine.root
        (pageOf 0xffff800000000000 i)) := by
  obtain ⟨k₁, hmap⟩ := exists_of_fst (show ((smallKernel Mmu.walker).map 0xffff800000000000 0x10000000 1 vmmUser
    "user").map Prod.fst = some (.ok ()) by decide +kernel)
  have hallowed : Allowed (smallKernel Mmu.walker) (.map 0xffff800000000000 0x10000000 1 vmmUser "user") :=
    small_allowed "user"
  exact ⟨k₁, hmap, map_user_iff (small_reached Allowed) hallowed (by decide) hmap⟩

/-- **A user page that is not one**: the kernel has mapped the page before it. -/
theorem user_page_in_kernel_table :
    (step (some (smallKernel Mmu.walker)) (.map 0xffff800000000000 0x10000000 1 0#64 "kernel")).bind (fun k =>
      (k.map 0xffff800000001000 0x10001000 1 vmmUser "user").map fun r =>
        (r.1, isUser (r.2.machine.mem r.2.machine.root (index 3 0xffff800000001000)))) = some (.ok (), false) := by
  decide +kernel

end User

/-! ## Translations -/

section Translations

variable {k : Kernel Mmu.walker} {virt : Nat}

/-- Where the walk ends at a 2 MiB page, the word of the page that stands in place of the PT entry points to the
    4 KiB of the address. -/
def Mimicked (mem : Mem) (root virt : Nat) : Prop :=
  ∀ f, tableAt mem root [index 3 virt, index 2 virt] = some f →
    isPresent (mem f (index 1 virt)) = true → isHuge (mem f (index 1 virt)) = true →
    isPresent (mem (frame (mem f (index 1 virt))) (index 0 virt)) = true ∧
      address (mem (frame (mem f (index 1 virt))) (index 0 virt)) + virt % 4096 =
        address (mem f (index 1 virt)) / 2 ^ 21 * 2 ^ 21 + virt % 2 ^ 21

/-- The entries that are followed are those the hardware follows, except at a 2 MiB page. -/
theorem follow_iff {mem : Mem} {root : Nat} (hc : Canonical virt)
    (hsmall : ∀ q g i, q ++ [i] <+: [index 3 virt, index 2 virt] → tableAt mem root q = some g →
      isHuge (mem g i) = false) :
    (EdgeTree.walk (follow mem) root (path virt)).map (· * 4096 + virt % 4096) = translate mem root virt ↔
      Mimicked mem root virt := by
  have hpath : path virt = [index 3 virt, index 2 virt] ++ [index 1 virt, index 0 virt] := rfl
  rw [translate, if_pos hc, walk_levels (show 2 ≤ 4 by decide) hsmall, hpath,
    EdgeTree.walk_append, ← tableAt_eq_follow hsmall, Mimicked]
  show _ = (tableAt mem root [index 3 virt, index 2 virt]).bind _ ↔ _
  cases tableAt mem root [index 3 virt, index 2 virt] with
  | none => simp
  | some f =>
    by_cases hp : isPresent (mem f (index 1 virt)) = true
    · by_cases hh : isHuge (mem f (index 1 virt)) = true
      · by_cases hw : isPresent (mem (frame (mem f (index 1 virt))) (index 0 virt)) = true <;>
          simp [EdgeTree.walk, follow, walk, hp, hw, frame_mul]
      · by_cases hw : isPresent (mem (frame (mem f (index 1 virt))) (index 0 virt)) = true <;>
          simp [EdgeTree.walk, follow, walk, hp, hh, hw]
    · simp [EdgeTree.walk, follow, walk, hp]

/-- No 1 GiB pages are reached. -/
theorem ReachedBy.small (hk : ReachedBy Allowed k) (h511 : index 3 virt ≠ 511) (q : List Index) (g : Nat) (i : Index)
    (hpre : q ++ [i] <+: [index 3 virt, index 2 virt]) (hg : tableAt k.machine.mem k.machine.root q = some g) :
    isHuge (k.machine.mem g i) = false := by
  have hpath := hpre.trans ⟨[index 1 virt, index 0 virt], rfl⟩
  have hlen := hpre.length_le
  rw [length_append] at hlen
  obtain ⟨k0, hshallow, hkept⟩ := hk.fresh.kept
  by_cases h0 : index 3 virt = 0
  · rw [hkept.steady.tables h0 ((prefix_append q [i]).trans hpath)] at hg
    rw [hkept.steady.2 virt h0 q i g hpath hg]
    exact hshallow q g i (not_regular_of_slot0 h0 hpath).1 (Nat.le_of_succ_le_succ hlen) hg
  · have hreg : Regular [index 3 virt, index 2 virt] := ⟨h0, h511⟩
    exact hkept.refined.paged.small (hreg.of_init hpre (by simp)) (by simp at hlen; omega) hg

/-- **`translate` agrees with the hardware exactly where no 2 MiB page is met**, or one that mimics a PT. -/
theorem translate_exact_iff (hk : ReachedBy Allowed k) (virt : Nat) (hc : Canonical virt) (h511 : index 3 virt ≠ 511) :
    ∃ r, k.translate virt = some (r, k) ∧
      (r = translate k.machine.mem k.machine.root virt ↔ Mimicked k.machine.mem k.machine.root virt) := by
  have h := hk.fresh.refined
  refine ⟨_, ?_, follow_iff hc (hk.small h511)⟩
  rw [Kernel.translate, if_pos h.init, translateHw_spec h.paged.toRecursive (hk.small h511)]
  rfl

/-- The small kernel has not mapped the first page of slot 256. -/
theorem translate_exact_small : ∃ r,
    (smallKernel Mmu.walker).translate 0xffff800000000000 = some (r, smallKernel Mmu.walker) ∧
    r = translate (smallKernel Mmu.walker).machine.mem (smallKernel Mmu.walker).machine.root 0xffff800000000000 := by
  obtain ⟨r, hr, hiff⟩ := translate_exact_iff (small_reached Allowed) 0xffff800000000000 (by decide) (by decide)
  refine ⟨r, hr, hiff.mpr fun f hf => ?_⟩
  cases hf

/-- **A page that is not found**: the second 2 MiB page of the small machine. -/
theorem translate_misses_page : ReachedBy Allowed (smallKernel Mmu.walker) ∧
    ((smallKernel Mmu.walker).translate 0x200000).map Prod.fst = some none ∧
    translate (smallKernel Mmu.walker).machine.mem (smallKernel Mmu.walker).machine.root 0x200000 =
      some 0x200000 :=
  ⟨small_reached Allowed, by decide +kernel, by decide +kernel⟩

end Translations
end Saios.Vmm
