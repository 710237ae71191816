/-
  RANGES of pages: the loops of `map` and `unmap`.

  1. **Pages** — different pages of a canonical range have different paths (`path_inj`), so what is done
     to one page is not seen at another (`Runs.leaf_set`, `Runs.leaf_clear`).

  2. **`unmap`** — while pages of the range are left they are mapped, so no table on their way is empty
     and none is cut: the pointers the loop still needs stay fresh although the TLB is never told about
     the tables it cuts (`unmapLoop_spec`).

  3. **`map`** — either every page is set (`MapDone`), or the pages set so far are cleared again and every
     PT entry is what it was (`MapUndone`); tables made on the way may remain (`mapLoop_cases`).
-/
import Saios.Vmm.PageOps

namespace Saios.Vmm

open Saios.Memory List

variable {mmu : Mmu}

/-! ## Pages -/

theorem index_val (level virt : Nat) : (index level virt).val = virt / 2 ^ (12 + 9 * level) % 512 := by
  simp only [index, Fin.val_ofNat, Nat.shiftRight_eq_div_pow]

variable {v w : Nat}

/-- Canonical addresses with one path lie in one page. -/
theorem path_inj (hv : Canonical v) (hw : Canonical w) (h : path v = path w) : v / 4096 = w / 4096 := by
  simp only [path, cons.injEq, Fin.ext_iff, index_val] at h
  unfold Canonical at hv hw
  omega

theorem path_eq_iff (v w : Nat) :
    path v = path w ↔ tablePath v = tablePath w ∧ index 0 v = index 0 w := by
  simp only [path, tablePath, cons.injEq, and_true, and_assoc]

/-- The PT entry of an address. -/
def Machine.leaf (m : Machine mmu) (virt : Nat) : Entry :=
  leafAt m.mem m.root (tablePath virt) (index 0 virt)

theorem Machine.leaf_congr (m : Machine mmu) (h : path v = path w) : m.leaf v = m.leaf w := by
  obtain ⟨ht, hi⟩ := (path_eq_iff v w).mp h
  rw [Machine.leaf, Machine.leaf, ht, hi]

variable {m : Machine mmu}

theorem Machine.leaf_zero (hs : m.Sound) (hreg : Regular (tablePath v)) (h : isPresent (m.leaf v) = false) :
    m.leaf v = 0#64 := by
  unfold Machine.leaf leafAt at h ⊢
  cases hf : tableAt m.mem m.root (tablePath v) with
  | none => rfl
  | some f =>
    rw [hf] at h
    exact hs.clean (hreg.append _) (Nat.le_refl 3) hf h

theorem Machine.table_of_leaf (h : isPresent (m.leaf v) = true) :
    ∃ f, tableAt m.mem m.root (tablePath v) = some f := by
  unfold Machine.leaf leafAt at h
  cases hf : tableAt m.mem m.root (tablePath v) with
  | none => simp [hf] at h
  | some f => exact ⟨f, rfl⟩

variable {m' : Machine mmu}

/-- Setting the entry of `w`, after links, sets that entry only. -/
theorem Runs.leaf_set {ls : List Edit} {e : Entry} (hs : m.Sound) (hls : OnPath w ls)
    (h : Runs m (ls ++ [.leaf (tablePath w) (index 0 w) e]) m') (hreg : Regular (tablePath v)) :
    m'.leaf v = if path v = path w then e else m.leaf v := by
  have hleaves := h.edits.leaves hs (j := index 0 v) hreg rfl
  rw [foldl_append, hls.leaves] at hleaves
  simp only [foldl_cons, foldl_nil, Edit.onLeaves, ← path_eq_iff] at hleaves
  rw [Machine.leaf, h.root]
  exact hleaves

variable {cs : List Edit}

/-- Clearing the entry of `w`, before cuts, clears that entry only. -/
theorem Runs.leaf_clear (hs : m.Sound) (hcs : Trims w cs m')
    (h : Runs m (.leaf (tablePath w) (index 0 w) 0#64 :: cs) m') (hreg : Regular (tablePath v)) :
    m'.leaf v = if path v = path w then 0#64 else m.leaf v := by
  have hleaves := h.edits.leaves hs (j := index 0 v) hreg rfl
  rw [foldl_cons, hcs.leaves.2] at hleaves
  simp only [Edit.onLeaves, ← path_eq_iff] at hleaves
  rw [Machine.leaf, h.root]
  exact hleaves

/-- Nothing stale is cached for the pointers the page of `virt` needs. -/
def Machine.Fresh (m : Machine mmu) (virt : Nat) : Prop := ∀ q, q <+: tablePath virt → m.Sees q

/-- The pages of a range: regular, and no two of them one page. -/
structure PagesOk (virtStart pages : Nat) : Prop where
  regular : ∀ {n}, n < pages → Regular (tablePath (pageOf virtStart n))
  distinct : ∀ {n n'}, n < pages → n' < pages →
    path (pageOf virtStart n) = path (pageOf virtStart n') → n = n'

theorem tablePath_init (virt : Nat) : tablePath virt <+: path virt := ⟨[index 0 virt], rfl⟩

/-- Every edit is on the way to a page of the range. -/
def OnRange (virtStart pages : Nat) (cs : List Edit) : Prop :=
  ∀ c ∈ cs, ∃ n, n < pages ∧ c.path ++ [c.place] <+: path (pageOf virtStart n)

variable {virtStart pages : Nat}

theorem OnRange.append {ds : List Edit} (h : OnRange virtStart pages cs) (h' : OnRange virtStart pages ds) :
    OnRange virtStart pages (cs ++ ds) := fun c hc =>
  (mem_append.mp hc).elim (h c) (h' c)

/-- Clearing a page of the range and trimming its tables ... -/
theorem Trims.onRange {n : Nat} (hn : n < pages) (h : Trims (pageOf virtStart n) cs m') (e : Entry) :
    OnRange virtStart pages
      (.leaf (tablePath (pageOf virtStart n)) (index 0 (pageOf virtStart n)) e :: cs) := by
  intro c hc
  refine ⟨n, hn, ?_⟩
  rcases mem_cons.mp hc with rfl | hc
  · exact prefix_refl _
  · obtain ⟨p, i, rfl, hpre⟩ := h.cuts c hc
    exact hpre.trans (tablePath_init _)

/-- ... and making its tables and setting it. -/
theorem OnPath.onRange {n : Nat} {ls : List Edit} (hn : n < pages) (h : OnPath (pageOf virtStart n) ls) :
    OnRange virtStart pages ls := by
  intro c hc
  obtain ⟨p, i, e, rfl, hpre⟩ := h c hc
  exact ⟨n, hn, hpre.trans (tablePath_init _)⟩

theorem OnRange.leaf {n : Nat} (hn : n < pages) (e : Entry) : OnRange virtStart pages
    [.leaf (tablePath (pageOf virtStart n)) (index 0 (pageOf virtStart n)) e] := by
  intro c hc
  rw [mem_singleton.mp hc]
  exact ⟨n, hn, prefix_refl _⟩

/-! ## `unmap` -/

/-- **The loop of `unmap`** clears the pages of the range and takes nothing from the PMM. -/
theorem unmapLoop_spec (hok : PagesOk virtStart pages) :
    ∀ (left page : Nat) (m : Machine mmu), page + left ≤ pages → m.Sound →
      (∀ n, page ≤ n → n < page + left →
        isPresent (m.leaf (pageOf virtStart n)) = true ∧ m.Fresh (pageOf virtStart n)) →
      ∃ cs m', unmapLoop virtStart left page m = some m' ∧ Runs m cs m' ∧
        (links cs = 0 ∧ OnRange virtStart pages cs) ∧
        (∀ n, page ≤ n → n < page + left → m'.leaf (pageOf virtStart n) = 0#64) ∧
        (∀ v, Regular (tablePath v) →
          (∀ n, page ≤ n → n < page + left → path v ≠ path (pageOf virtStart n)) →
          m'.leaf v = m.leaf v) := by
  intro left
  induction left with
  | zero =>
    intro page m _ _ _
    exact ⟨[], m, rfl, Runs.refl m, ⟨rfl, nofun⟩,
      fun n h h' => absurd h' (by omega), fun v _ _ => rfl⟩
  | succ left ih =>
    intro page m hle hs hall
    obtain ⟨hpres, hfresh⟩ := hall page (Nat.le_refl _) (by omega)
    have hreg := hok.regular (n := page) (by omega)
    obtain ⟨cs, m1, hcall, hruns, htrims⟩ := unmapPageHw_spec hs hreg hfresh hpres
    have hleaf := fun {v} hv => hruns.leaf_clear (v := v) hs htrims hv
    -- the pages still to come stay mapped, so none of their tables was cut
    have hrest : ∀ n, page + 1 ≤ n → n < page + 1 + left →
        isPresent (m1.leaf (pageOf virtStart n)) = true ∧ m1.Fresh (pageOf virtStart n) := by
      intro n hn hn'
      obtain ⟨hpres', hfresh'⟩ := hall n (by omega) (by omega)
      have hreg' := hok.regular (n := n) (by omega)
      have hne : path (pageOf virtStart n) ≠ path (pageOf virtStart page) := fun heq => by
        have := hok.distinct (by omega) (by omega) heq
        omega
      have hpres1 : isPresent (m1.leaf (pageOf virtStart n)) = true := by
        rw [hleaf hreg', if_neg hne]
        exact hpres'
      refine ⟨hpres1, fun q hq => hruns.sees (managed_of_init hreg' hq) (fun p i hmem heq => ?_)
        (hfresh' q hq)⟩
      have hcut : Edit.cut p i ∈ cs := by simpa using hmem
      obtain ⟨f, hf⟩ := Machine.table_of_leaf hpres1
      obtain ⟨g, hg⟩ := tableAt_of_init hq hf
      rw [heq, htrims.gone p i hcut] at hg
      cases hg
    obtain ⟨ds, m', hcall', hruns', ⟨hlinks, hrange⟩, hzero, hsame⟩ :=
      ih _ m1 (by omega) (hruns.sound hs) hrest
    refine ⟨_, m', ?_, hruns.trans hruns',
      ⟨?_, (Trims.onRange (by omega) htrims 0#64).append hrange⟩, ?_, ?_⟩
    · rw [unmapLoop, hcall]
      exact hcall'
    · rw [links_append, hlinks]
      exact htrims.leaves.1
    · intro n hn hn'
      by_cases heq : n = page
      · subst heq
        rw [hsame _ hreg fun n' h h' hpath => absurd (hok.distinct (by omega) (by omega) hpath) (by omega),
          hleaf hreg, if_pos rfl]
      · exact hzero n (by omega) (by omega)
    · intro v hv hout
      rw [hsame v hv fun n h h' => hout n (by omega) (by omega), hleaf hv,
        if_neg (hout page (Nat.le_refl _) (by omega))]

/-! ## `map` -/

/-- Pages `lo` to `hi` of the range were free and are mapped. -/
structure MapDone (virtStart physStart : Nat) (flags : Entry) (lo hi : Nat) (m : Machine mmu)
    (cs : List Edit) (m' : Machine mmu) : Prop where
  free : ∀ n, lo ≤ n → n < hi → m.leaf (pageOf virtStart n) = 0#64
  set : ∀ n, lo ≤ n → n < hi →
    m'.leaf (pageOf virtStart n) = setPage 0#64 (pageOf physStart n) (leafFlags flags)
  same : ∀ v, Regular (tablePath v) →
    (∀ n, lo ≤ n → n < hi → path v ≠ path (pageOf virtStart n)) → m'.leaf v = m.leaf v
  /-- Every entry that is written lies on the way to one of the pages, -/
  onPath : ∀ c ∈ cs, ∃ n, lo ≤ n ∧ n < hi ∧ c.path ++ [c.place] <+: path (pageOf virtStart n)
  noCut : ∀ p i, Edit.cut p i ∉ cs
  user : MarksUser flags cs
  /-- and in a PT if no PT was missing. -/
  leafOnly : (∀ n, lo ≤ n → n < hi → tableAt m.mem m.root (tablePath (pageOf virtStart n)) ≠ none) →
    ∀ c ∈ cs, ∃ p i e, c = .leaf p i e

/-- A page from `lo` on could not be mapped, and pages 0 to `lo` are cleared. -/
structure MapUndone (virtStart : Nat) (lo hi : Nat) (m m' : Machine mmu) : Prop where
  cleared : ∀ n, n < lo → m'.leaf (pageOf virtStart n) = 0#64
  same : ∀ v, Regular (tablePath v) → (∀ n, n < lo → path v ≠ path (pageOf virtStart n)) →
    m'.leaf v = m.leaf v
  why : ∃ n, lo ≤ n ∧ n < hi ∧ (tableAt m.mem m.root (tablePath (pageOf virtStart n)) = none ∨
    isPresent (m.leaf (pageOf virtStart n)) = true)

/-- **The loop of `map`**, from page `lo` on. -/
theorem mapLoop_cases (hok : PagesOk virtStart pages) (physStart : Nat) (flags : Entry) :
    ∀ (left lo : Nat) (m : Machine mmu), lo + left = pages → m.Sound →
      (∀ n, n < pages → m.Fresh (pageOf virtStart n)) →
      (∀ n, n < lo → isPresent (m.leaf (pageOf virtStart n)) = true) →
      ∃ r cs m', mapLoop virtStart physStart flags left lo m = some (r, m') ∧ Runs m cs m' ∧
        ((r = .ok () ∧ MapDone virtStart physStart flags lo pages m cs m') ∨
          ((∃ e, r = .error e) ∧ OnRange virtStart pages cs ∧ MapUndone virtStart lo pages m m')) := by
  intro left
  induction left with
  | zero =>
    intro lo m hlo _ _ _
    refine ⟨.ok (), [], m, rfl, Runs.refl m, Or.inl ⟨rfl, ?_⟩⟩
    exact ⟨fun n h h' => absurd h' (by omega), fun n h h' => absurd h' (by omega), fun v _ _ => rfl,
      nofun, nofun, nofun,
      nofun⟩
  | succ left ih =>
    intro lo m hlo hs hfresh hdone
    have hreg := hok.regular (n := lo) (by omega)
    obtain ⟨r, cs, m1, hcall, hruns, hpage⟩ :=
      mapPageHw_cases hs hreg (hfresh lo (by omega)) (pageOf physStart lo) flags
    have hs1 := hruns.sound hs
    cases hpage with
    | @ok ls honPath huser hmissing hfree =>
      have hleaf := fun {v} hv => hruns.leaf_set (v := v) hs honPath hv
      have hnocut : ∀ {e : Entry} {q : List Index} {p i}, Edit.cut p i ∈ ls ++ [.leaf (tablePath (pageOf virtStart lo))
          (index 0 (pageOf virtStart lo)) e] → q ≠ p ++ [i] := by
        intro e q p i hmem
        simp [honPath.not_cut] at hmem
      have hne : ∀ {n}, n < pages → n ≠ lo →
          path (pageOf virtStart n) ≠ path (pageOf virtStart lo) :=
        fun hn hne heq => hne (hok.distinct hn (by omega) heq)
      have hzero : m.leaf (pageOf virtStart lo) = 0#64 := Machine.leaf_zero hs hreg hfree
      have hkeeps : ∀ n, n < pages → tableAt m.mem m.root (tablePath (pageOf virtStart n)) ≠ none →
          tableAt m1.mem m1.root (tablePath (pageOf virtStart n)) ≠ none := by
        intro n hn hsome
        obtain ⟨f, hf⟩ := Option.ne_none_iff_exists'.mp hsome
        rw [hruns.keeps hs ((hok.regular hn).inner (Nat.le_refl 3)) (fun _ _ => hnocut) hf]
        simp
      obtain ⟨r, ds, m', hcall', hruns', hcases⟩ := ih (lo + 1) m1 (by omega) hs1
        (fun n hn q hq => hruns.sees (managed_of_init (hok.regular hn) hq) (fun _ _ => hnocut) (hfresh n hn q hq))
        (fun n hn => by
          rw [hleaf (hok.regular (by omega))]
          by_cases heq : n = lo
          · rw [heq, if_pos rfl]; exact isPresent_setPage ..
          · rw [if_neg (hne (by omega) heq)]; exact hdone n (by omega))
      refine ⟨r, _, m', ?_, hruns.trans hruns', ?_⟩
      · rw [mapLoop, hcall]
        exact hcall'
      rcases hcases with ⟨hr, hmap⟩ | ⟨hr, hrange, hundo⟩
      · refine .inl ⟨hr, ?_, ?_, ?_, ?_, ?_, (huser.append fun hf c hc => ?_).append hmap.user, ?_⟩
        · intro n hn hn'
          by_cases heq : n = lo
          · rw [heq]; exact hzero
          · rw [← hmap.free n (by omega) hn', hleaf (hok.regular hn'), if_neg (hne hn' heq)]
        · intro n hn hn'
          by_cases heq : n = lo
          · rw [heq, hmap.same _ hreg fun n h h' hp => hne h' (by omega) hp.symm, hleaf hreg,
              if_pos rfl]
          · exact hmap.set n (by omega) hn'
        · intro v hv hout
          rw [hmap.same v hv fun n h h' => hout n (by omega) h', hleaf hv,
            if_neg (hout lo (Nat.le_refl _) (by omega))]
        · intro c hc
          rcases mem_append.mp hc with hc | hc
          · refine ⟨lo, Nat.le_refl _, by omega, ?_⟩
            rcases mem_append.mp hc with hc | hc
            · obtain ⟨p, i, e, rfl, hpre⟩ := honPath c hc
              exact hpre.trans (tablePath_init _)
            · rw [mem_singleton.mp hc]
              exact prefix_refl _
          · obtain ⟨n, hn, hn', hpre⟩ := hmap.onPath c hc
            exact ⟨n, by omega, hn', hpre⟩
        · intro p i hc
          rcases mem_append.mp hc with hc | hc
          · exact hnocut hc rfl
          · exact hmap.noCut p i hc
        · rw [mem_singleton.mp hc]
          exact isUser_setPage _ (leafFlags_user hf)
        · intro hall c hc
          have hls : ls = [] := by
            by_contra hls
            exact hall lo (Nat.le_refl _) (by omega) (hmissing hls)
          rcases mem_append.mp hc with hc | hc
          · rw [hls] at hc
            exact ⟨_, _, _, mem_singleton.mp hc⟩
          · exact hmap.leafOnly (fun n hn hn' => hkeeps n hn' (hall n (by omega) hn')) c hc
      · refine .inr ⟨hr, ((honPath.onRange (by omega)).append (OnRange.leaf (by omega) _)).append hrange,
          ?_, ?_, ?_⟩
        · exact fun n hn => hundo.cleared n (by omega)
        · intro v hv hout
          by_cases heq : path v = path (pageOf virtStart lo)
          · rw [Machine.leaf_congr m' heq, Machine.leaf_congr m heq, hundo.cleared lo (by omega), hzero]
          · rw [hundo.same v hv fun n hn => ?_, hleaf hv, if_neg heq]
            by_cases hn' : n = lo
            · rw [hn']; exact heq
            · exact hout n (by omega)
        · obtain ⟨n, hn, hn', hwhy⟩ := hundo.why
          refine ⟨n, by omega, hn', hwhy.imp (fun hnone => ?_) fun hpres => ?_⟩
          · by_contra hsome
            exact hkeeps n hn' hsome hnone
          · rwa [hleaf (hok.regular hn'), if_neg (hne hn' (by omega))] at hpres
    | @error _ e honPath hwhy =>
      have hleaves : ∀ v, Regular (tablePath v) → m1.leaf v = m.leaf v := by
        intro v hv
        have hsame := hruns.edits.leaves hs (j := index 0 v) hv rfl
        rw [honPath.leaves] at hsame
        rw [Machine.leaf, hruns.root]
        exact hsame
      obtain ⟨ds, m', hcall', hruns', ⟨-, hrange⟩, hzero, hsame⟩ := unmapLoop_spec hok lo 0 m1 (by omega) hs1
        fun n _ hn => ⟨by rw [hleaves _ (hok.regular (by omega))]; exact hdone n (by omega),
          fun q hq => hruns.sees (managed_of_init (hok.regular (by omega)) hq)
            (fun p i hmem => absurd hmem honPath.not_cut) (hfresh n (by omega) q hq)⟩
      refine ⟨.error e, _, m', ?_, hruns.trans hruns',
        Or.inr ⟨⟨e, rfl⟩, (honPath.onRange (by omega)).append hrange, ?_, ?_, ?_⟩⟩
      · rw [mapLoop, hcall]
        exact congrArg (Option.map fun m => (Except.error e, m)) hcall'
      · exact fun n hn => hzero n (Nat.zero_le _) (by omega)
      · intro v hv hout
        rw [hsame v hv fun n _ hn => hout n (by omega), hleaves v hv]
      · exact ⟨lo, Nat.le_refl _, by omega, hwhy.imp id And.right⟩

end Saios.Vmm
