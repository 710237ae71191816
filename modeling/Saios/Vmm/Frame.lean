/-
  WHAT A CALL LEAVES ALONE, and what a stale cache does.

  1. **The frame of `map` and `unmap`** (`call_frame`) — on regular ranges every address outside the
     range and outside the recursive slot is translated as before, and memory changes only in tables and
     in frames taken for tables.  The recursive slot shows the tables themselves, so its translations
     stay exactly as long as no table is made or removed: when every PT of the range exists and keeps a
     page that is not in the range (`Room`).  In slot 0 the code takes a 2 MiB page for a PT and writes
     ordinary memory (`map_writes_ordinary_memory`).

  2. **Stale translations** (`map_with_cache`) — for EVERY cache that keeps translations until they are
     invalidated: if no pointer the call needs is stale, `map` does what it should.  A cache that forgets
     nothing still has the pointers of tables that an `unmap` cut, and the next `map` goes through them
     (`map_through_stale_pointer`).
-/
import Saios.Vmm.Refine

namespace Saios.Vmm

open Saios.Memory List Option

variable {mmu : Mmu}

/-! ## Calls that keep all tables -/

variable {q : List Index} {v n : Nat} {cs : List Edit}

section Edits

variable {root : Nat} {s s' : Space}

/-- On the way to a table every entry is present. -/
theorem present_of_table {r : List Index} {i : Index} {f g : Nat} (hq : tableAt s.mem root q = some f)
    (hpre : r ++ [i] <+: q) (hr : tableAt s.mem root r = some g) : isPresent (s.mem g i) = true := by
  obtain ⟨h, hh⟩ := tableAt_of_init hpre hq
  rw [tableAt_concat, hr] at hh
  exact (edges_eq_some hh).1

/-- A prefix of a path that is no longer than three is a prefix of its tables. -/
theorem prefix_tablePath (h : q <+: path v) (hlen : q.length ≤ 3) : q <+: tablePath v :=
  prefix_of_prefix_length_le h (tablePath_init v) hlen

/-- Every PT of the range exists and has a page mapped that is not in the range. -/
def Room (root : Nat) (s : Space) (v n : Nat) : Prop :=
  ∀ i, i < n → ∃ w, tablePath w = tablePath (pageOf v i) ∧
    isPresent (leafAt s.mem root (tablePath w) (index 0 w)) = true ∧
    ∀ j, j < n → path w ≠ path (pageOf v j)

/-- In a roomy space no table on the way to the range is missing or empty. -/
theorem Room.not_link_cut {c : Edit} (hroom : Room root s v n) (h : Does root c s s')
    (hc : ∃ i, i < n ∧ c.path ++ [c.place] <+: path (pageOf v i)) : ∃ p i e, c = .leaf p i e := by
  obtain ⟨i, hi, hpre⟩ := hc
  obtain ⟨w, hw, hpres, -⟩ := hroom i hi
  -- the PT of the page, with the entry of the page that is not in the range
  obtain ⟨f, hf, hentry⟩ : ∃ f, tableAt s.mem root (tablePath (pageOf v i)) = some f ∧
      isPresent (s.mem f (index 0 w)) = true := by
    rw [leafAt, hw] at hpres
    cases hf : tableAt s.mem root (tablePath (pageOf v i)) with
    | none => simp [hf] at hpres
    | some f => exact ⟨f, rfl, by simpa [hf] using hpres⟩
  cases h with
  | @link _ p l f0 g flags hreg hlen ht hfree =>
    have hpre' : p ++ [l] <+: tablePath (pageOf v i) :=
      prefix_tablePath hpre (by rw [length_append, length_singleton]; omega)
    rw [present_of_table hf hpre' ht] at hfree
    cases hfree
  | leaf => exact ⟨_, _, _, rfl⟩
  | @cut _ p l f0 g hreg hlen ht hchild hempty =>
    have hpre' : p ++ [l] <+: tablePath (pageOf v i) :=
      prefix_tablePath hpre (by rw [length_append, length_singleton]; omega)
    obtain ⟨r, hr⟩ := hpre'
    cases r with
    | nil =>
      rw [append_nil] at hr
      obtain rfl : g = f := mem_unique hchild (hr ▸ hf)
      rw [hempty] at hentry
      cases hentry
    | cons a r =>
      have hpres' := present_of_table hf (i := a) ⟨r, by rw [← hr]; simp⟩ hchild
      rw [hempty] at hpres'
      cases hpres'

/-- Editing an entry of the range keeps the room. -/
theorem Room.leaf {p : List Index} {l : Index} {e : Entry} (hs : Sound root s) (hroom : Room root s v n)
    (h : Does root (.leaf p l e) s s') (hreg : ∀ i, i < n → Regular (tablePath (pageOf v i)))
    (hc : ∃ i, i < n ∧ p ++ [l] <+: path (pageOf v i)) : Room root s' v n := by
  intro i hi
  obtain ⟨w, hw, hpres, hout⟩ := hroom i hi
  refine ⟨w, hw, ?_, hout⟩
  rw [h.leaves hs (hw ▸ hreg i hi) rfl]
  simp only [Edit.onLeaves]
  rw [if_neg]
  · exact hpres
  rintro ⟨rfl, rfl⟩
  obtain ⟨j, hj, hpre⟩ := hc
  exact hout j hj (hpre.eq_of_length rfl)

/-- **With room all edits are in PTs.** -/
theorem Edits.leaf_only (h : Edits root cs s s') (hs : Sound root s) (hroom : Room root s v n)
    (hrange : OnRange v n cs) (hreg : ∀ i, i < n → Regular (tablePath (pageOf v i))) :
    ∀ c ∈ cs, ∃ p i e, c = .leaf p i e := by
  induction h with
  | nil s => exact nofun
  | @cons c cs s s1 s' h rest ih =>
    have hhead := hrange c (mem_cons_self ..)
    obtain ⟨p, i, e, rfl⟩ := hroom.not_link_cut h hhead
    have hrest := ih (h.sound hs) (hroom.leaf hs h hreg hhead)
      fun c hc => hrange c (mem_cons_of_mem _ hc)
    intro c hc
    rcases mem_cons.mp hc with rfl | hc
    · exact ⟨_, _, _, rfl⟩
    · exact hrest c hc

/-- Edits in PTs leave the tables, and the entries of all others, as they were. -/
theorem Edits.upper (h : Edits root cs s s') (hs : Sound root s) (hleaf : ∀ c ∈ cs, ∃ p i e, c = .leaf p i e)
    {f : Nat} {i : Index} (hq : Inner q) (hlen : q.length ≤ 2) (hf : tableAt s.mem root q = some f) :
    s'.mem f i = s.mem f i := by
  induction h with
  | nil s => rfl
  | @cons c cs s s1 s' h rest ih =>
    obtain ⟨p, l, e, rfl⟩ := hleaf c (mem_cons_self ..)
    have hf1 : tableAt s1.mem root q = some f := by rw [h.tables hs hq]; exact hf
    rw [ih (h.sound hs) (fun c hc => hleaf c (mem_cons_of_mem _ hc)) hf1, h.cell hs hq hf, if_neg]
    rintro ⟨hqp, -⟩
    cases h with
    | leaf _ hplen =>
      have hqlen : q.length = 3 := hqp ▸ hplen
      omega

end Edits

/-! ## The recursive slot -/

/-- A path through the recursive slot leads where the rest of it leads. -/
theorem Recursive.strip {mem : Mem} {root : Nat} (h : Recursive mem root) : ∀ q : List Index,
    q.length ≤ 3 → q.head? = some 511 → ∃ r, Inner r ∧ r.length ≤ 2 ∧ tableAt mem root q = tableAt mem root r
  | [], _, hhead => by cases hhead
  | a :: q, hlen, hhead => by
      obtain rfl : a = 511 := some.inj hhead
      have hedge : edges mem root 511 = some root := by
        rw [edges, if_pos ⟨h.recPresent, h.recSmall⟩, h.recFrame]
      have hstep : tableAt mem root (511 :: q) = tableAt mem root q := by
        rw [tableAt, EdgeTree.walk_cons, hedge]; rfl
      have hq : q.length ≤ 2 := by
        rw [length_cons] at hlen
        omega
      by_cases hagain : q.head? = some 511
      · obtain ⟨r, hr, hrlen, heq⟩ := h.strip q (by omega) hagain
        exact ⟨r, hr, hrlen, hstep.trans heq⟩
      · exact ⟨q, ⟨by omega, hagain⟩, hq, hstep⟩

variable {m m' : Machine mmu}

/-- **With edits in PTs only, the recursive slot is translated as before.** -/
theorem Runs.slot511 (h : Runs m cs m') (hs : m.Sound) (hleaf : ∀ c ∈ cs, ∃ p i e, c = .leaf p i e) {a : Nat}
    (ha : index 3 a = 511) : translate m'.mem m'.root a = translate m.mem m.root a := by
  rw [h.root]
  refine translate_cells fun q i f hpre hf => ?_
  have hlen := hpre.length_le
  simp only [length_append, path, length_cons] at hlen
  cases q with
  | nil => exact h.edits.upper hs hleaf ⟨by simp, by simp⟩ (by simp) hf
  | cons b q =>
    obtain ⟨t, ht⟩ := hpre
    simp only [path, cons_append, cons.injEq] at ht
    obtain ⟨r, hr, hrlen, heq⟩ := hs.strip (b :: q) (by omega) (by rw [ht.1, ha]; rfl)
    exact h.edits.upper hs hleaf hr hrlen (heq ▸ hf)

/-! ## The frame of a call -/

/-- What a call on the range leaves alone. -/
structure Framed (m : Machine mmu) (v n : Nat) (m' : Machine mmu) : Prop where
  others : ∀ a, index 3 a ≠ 511 → ¬InRange v n a → translate m'.mem m'.root a = translate m.mem m.root a
  recursiveSlot : Room m.root m.toSpace v n → ∀ a, index 3 a = 511 →
    translate m'.mem m'.root a = translate m.mem m.root a
  /-- A frame that changes was a table, or was free and is taken for one. -/
  memory : ∀ f j, m'.mem f j ≠ m.mem f j → (∃ q, Inner q ∧ tableAt m.mem m.root q = some f) ∨
    (m.pmm.isUsed f = false ∧ m'.pmm.isUsed f = true)

theorem Framed.refl (m : Machine mmu) (v n : Nat) : Framed m v n m :=
  ⟨fun _ _ _ => rfl, fun _ _ _ => rfl, fun _ _ h => absurd rfl h⟩

theorem Runs.framed (h : Runs m cs m') (hs : m.Sound)
    (hsame : ∀ a, Canonical a → Regular (path a) → ¬InRange v n a → m'.leaf a = m.leaf a)
    (hrange : OnRange v n cs) (hreg : ∀ i, i < n → Regular (tablePath (pageOf v i))) : Framed m v n m' := by
  refine ⟨fun a h511 hout => ?_, fun hroom a ha => ?_, fun f j hne => h.edits.changed hs hne⟩
  · by_cases hc : Canonical a
    · by_cases h0 : index 3 a = 0
      · rw [h.root]
        exact translate_cells (h.slot0 hs a h0)
      · have hra : Regular (path a) := ⟨h0, h511⟩
        have hleaf := hsame a hc hra hout
        rw [Machine.leaf, Machine.leaf] at hleaf
        rw [(h.sound hs).toPaged.translate_regular hc hra, hs.toPaged.translate_regular hc hra, hleaf]
    · rw [translate, translate, if_neg hc, if_neg hc]
  · exact h.slot511 hs (h.edits.leaf_only hs hroom hrange hreg) ha

/-- The PMM of a call that takes no frame stays as it was. -/
theorem Edits.pmm_of_no_links {root : Nat} {s s' : Space} (h : Edits root cs s s') (hlinks : links cs = 0) :
    s'.pmm = s.pmm := by
  induction h with
  | nil s => rfl
  | @cons c cs s s1 s' h rest ih =>
    rcases h.pmm_link with ⟨p, i, e, rfl, -⟩ | ⟨hnot, hpmm⟩
    · exact absurd hlinks (Nat.succ_ne_zero _)
    · cases c with
      | link p i e => exact absurd rfl (hnot p i e)
      | leaf p i e => exact (ih hlinks).trans hpmm
      | cut p i => exact (ih hlinks).trans hpmm

/-- Frames given back afterwards do not matter if none was taken. -/
theorem Framed.setPmm (h : Framed m v n m') (hpmm : m'.pmm = m.pmm) (p : Pmm) :
    Framed m v n (m'.setPmm p) := by
  refine ⟨h.others, h.recursiveSlot, fun f j hne => ?_⟩
  rcases h.memory f j hne with hold | ⟨hfree, hused⟩
  · exact .inl hold
  · rw [hpmm, hfree] at hused
    cases hused

theorem MapOutcome.framed {k k' : Kernel mmu} {x : Mapping} {r : Except String Unit} (h : Refined k)
    (he : Exclusive k) (hreg : ∀ i, i < x.pages → Regular (tablePath (pageOf x.virtStart i)))
    (hmap : MapOutcome k x r k') : Framed k.machine x.virtStart x.pages k'.machine := by
  have hs := h.sound he
  cases hmap with
  | refused e => exact Framed.refl ..
  | undone e hruns hrange hundo =>
    exact hruns.framed hs (fun a _ hra _ => hundo.same a hra fun n hn => absurd hn (by omega)) hrange hreg
  | @done cs m' hok hruns hapart hdone =>
    refine hruns.framed hs (fun a hc hra hout => hdone.same a hra fun i _ hi heq => hout ?_) ?_ hreg
    · exact (hok.page_iff hc).mp ⟨i, hi, heq⟩
    · intro c hc
      obtain ⟨i, -, hi, hpre⟩ := hdone.onPath c hc
      exact ⟨i, hi, hpre⟩

theorem UnmapOutcome.framed {k k' : Kernel mmu} {x : Mapping} {r : Except String Unit} (h : Refined k)
    (he : Exclusive k) (hx : x ∈ k.vmm.mappings) (hunmap : UnmapOutcome k x.virtStart r k') :
    Framed k.machine x.virtStart x.pages k'.machine := by
  have hs := h.sound he
  cases hunmap with
  | refused e habsent => exact absurd rfl (habsent x hx)
  | @done y cs m' hfind hruns hlinks hrange hzero hsame =>
    have hy := mem_of_find?_eq_some hfind
    have hstart : y.virtStart = x.virtStart := by simpa using find?_some hfind
    -- two mappings with one start are one
    obtain rfl : x = y := by
      rcases mem_eraseP_or hfind hx with heq | hrest
      · exact heq
      · have hy0 := (h.ok y hy).pos
        have hx0 := (h.ok x hx).pos
        rcases disjoint_of_eraseP h.disjoint hfind hrest with hd | hd
        · omega
        · omega
    have hok := h.ok x hx
    have hframed := hruns.framed hs (fun a hc hra hout => hsame a hra fun i hi heq => hout
      ((hok.page_iff hc).mp ⟨i, hi, heq⟩)) hrange
      fun i hi => hok.pagesOk.regular hi
    split
    · exact hframed.setPmm (hruns.edits.pmm_of_no_links hlinks) _
    · exact hframed

theorem InSlots.regular {i : Nat} (h : InSlots v n) (hi : i < n) : Regular (tablePath (pageOf v i)) := by
  obtain ⟨hc, hreg⟩ := h (v + 4096 * i) (by omega) (by omega)
  have hlt : v + 4096 * i < 2 ^ 64 := by
    rcases hc with hlow | ⟨-, hhigh⟩
    · omega
    · exact hhigh
  rw [pageOf_eq hlt]
  exact hreg

/-- **`map` with any cache**, as long as no pointer it needs is stale. -/
theorem map_with_cache (forget : Nat → Nat → Bool) {k k' : Kernel (Mmu.caching forget)}
    (hk : ReachedBy (fun k c => Allowed k c ∧ FreshFor k c) k) {v p n : Nat} {flags : Entry} {owner : String}
    (hc : Allowed k (.map v p n flags owner)) (hfresh : FreshFor k (.map v p n flags owner))
    (hmap : k.map v p n flags owner = some (.ok (), k')) :
    (∀ a, InRange v n a → translate k'.machine.mem k'.machine.root a = some (p + (a - v))) ∧
    ∀ q f j, Inner q → tableAt k'.machine.mem k'.machine.root q = some f →
      tableAt k.machine.mem k.machine.root q ≠ some f → k'.machine.mem f j ≠ 0#64 →
      ∃ i, i < n ∧ q ++ [j] <+: path (pageOf v i) := by
  have h := hk.refined
  obtain ⟨he, hslots, hphys⟩ := hc
  obtain ⟨r, k₁, hcall, hout⟩ := map_cases h he hslots hphys hfresh flags owner
  obtain ⟨rfl, rfl⟩ := Prod.mk.inj (Option.mem_unique hmap hcall)
  have h' := hout.refined h he
  cases hout with
  | @done cs m' hok hruns hapart hdone =>
    refine ⟨fun a ha => ?_, fun q f j hq hf hnew hne => ?_⟩
    · exact h'.translate_inside (List.mem_append_right _ (List.mem_singleton.mpr rfl)) ha
    · have hf' : tableAt m'.mem k.machine.root q = some f := hruns.root ▸ hf
      rcases hruns.edits.written (h.sound he) hq hf' hne with ⟨c, hc, rfl, rfl, -⟩ | ⟨hold, -⟩
      · obtain ⟨i, -, hi, hpre⟩ := hdone.onPath c hc
        exact ⟨i, hi, hpre⟩
      · exact absurd hold hnew

/-- The first `map` after the load of CR3 needs no pointer that is stale. -/
theorem map_with_cache_small : ∃ k', (smallKernel (Mmu.caching fun _ _ => false)).map 0xffff800000000000
      0x10000000 1 0#64 "kernel" = some (.ok (), k') ∧
    ∀ a, InRange 0xffff800000000000 1 a →
      translate k'.machine.mem k'.machine.root a = some (0x10000000 + (a - 0xffff800000000000)) := by
  have hok : ((smallKernel (Mmu.caching fun _ _ => false)).map 0xffff800000000000 0x10000000 1 0#64
      "kernel").map Prod.fst = some (.ok ()) := by
    decide +kernel
  obtain ⟨⟨r, k'⟩, hmap, hr⟩ := Option.map_eq_some_iff.mp hok
  obtain rfl : r = .ok () := hr
  exact ⟨k', hmap, (map_with_cache (fun _ _ => false) (small_reached _) (small_allowed "kernel")
    (fun _ _ _ _ => Mmu.sees_flushed _ _ _) hmap).1⟩

/-- **A pointer left over from a table that was cut**: map, unmap and map the page again with a cache that
    forgets nothing.  The last call returns `Ok`, and the tables in memory do not map the page. -/
theorem map_through_stale_pointer :
    (([Call.map 0xffff800000000000 0x10000000 1 0#64 "kernel", .unmap 0xffff800000000000].foldl step
      (some (smallKernel (Mmu.caching fun _ _ => false)))).bind fun k =>
        (k.map 0xffff800000000000 0x10000000 1 0#64 "kernel").map fun r =>
          (r.1, translate r.2.machine.mem r.2.machine.root 0xffff800000000000)) =
      some (.ok (), none) := by
  decide +kernel

end Saios.Vmm
