/-
  BOOTSTRAP: what `bootstrap_kernel_page_tables` builds.

  1. **Frames** — every table is a page below 1 GiB that was free when bootstrap began
     (`lowPage_spec`, `allocZeroedTable_zeroed`).  So bootstrap writes no frame that was in use
     before it, whatever its arguments and however it ends (`bootstrap_spares`).

  2. **The tree under construction** — `Building` is the invariant of the whole function: different
     paths lead to different tables, what is not present is zero, and only the PML4 slots `S` are in
     use.  There are two writes, and a lemma for each: a fresh zeroed table behind an empty entry
     (`Building.link`) and an entry that is no table (`Building.leaf`).

  3. **The result** — with the boot ranges below 512 GiB only slot 0 is in use when entry 511 is
     written, so the tables are `Sound` and nothing regular is mapped (`Building.close`).

  The functions of bootstrap are chained by the `?` operator; `Post` is its rule: `P` holds whenever
  the chain stops, `Q` is handed on.
-/
import Saios.Vmm.Steps

namespace Saios.Vmm

open Saios.Memory List Option

/-! ## The `?` operator -/

/-- After an error `P` holds of the space, after a result `a` it is `Q a`. -/
def Post {α : Type} (P : Space → Prop) (Q : α → Space → Prop) (r : Except String α × Space) : Prop :=
  match r.1 with
  | .error _ => P r.2
  | .ok a => Q a r.2

variable {α : Type} {P : Space → Prop} {Q : α → Space → Prop}

theorem Post.ok {a : α} {b : Space} (h : Q a b) : Post P Q (.ok a, b) := h

variable {r : Except String α × Space}

theorem Post.andThen {β : Type} {R : β → Space → Prop} {f : α → Space → Except String β × Space} (h : Post P Q r)
    (hf : ∀ a b, Q a b → Post P R (f a b)) :
    Post P R (Space.andThen r f) := by
  obtain ⟨r, b⟩ := r
  cases r with
  | error e => exact h
  | ok a => exact hf a b h

theorem Post.of_ok (h : Post P Q r) {a : α} (ha : r.1 = .ok a) : Q a r.2 := by
  unfold Post at h
  rw [ha] at h
  exact h

theorem Post.imp {P' : Space → Prop} (h : Post P Q r) (hP : ∀ b, P b → P' b) :
    Post P' Q r := by
  obtain ⟨r, b⟩ := r
  cases r with
  | error e => exact hP b h
  | ok a => exact h

/-! ## Frames for tables -/

/-- Pages are only taken. -/
def Grows (p p' : Pmm) : Prop :=
  p'.trackedPages = p.trackedPages ∧ ∀ j, p.isUsed j = true → p'.isUsed j = true

theorem Grows.refl (p : Pmm) : Grows p p := ⟨rfl, fun _ h => h⟩

theorem Grows.trans {p q r : Pmm} (h : Grows p q) (h' : Grows q r) : Grows p r :=
  ⟨h'.1.trans h.1, fun j hj => h'.2 j (h.2 j hj)⟩

theorem Grows.free {p p' : Pmm} (h : Grows p p') {j : Nat} (hj : p'.isUsed j = false) :
    p.isUsed j = false := by
  cases hp : p.isUsed j with
  | false => rfl
  | true => rw [h.2 j hp] at hj; exact hj

theorem allocPage_grows (p : Pmm) : Grows p (allocPage p).2 := by
  cases ha : (allocPage p).1 with
  | none => rw [allocPage_none ha]; exact Grows.refl p
  | some addr =>
    obtain ⟨page, -, -, -, ht, -, hused⟩ := allocPage_some ha
    exact ⟨ht, fun j hj => by rw [hused, hj, Bool.or_true]⟩

/-- A page that is taken and given back at once leaves what was in use in use. -/
theorem giveBack_grows {p : Pmm} {addr : Nat} (ha : (allocPage p).1 = some addr) :
    Grows p (freePage (allocPage p).2 addr).2 := by
  obtain ⟨page, haddr, -, hfree, ht, -, hused⟩ := allocPage_some ha
  rcases freePage_cases (allocPage p).2 addr with hno | ⟨-, -, -, -, -, ht', -, hused'⟩
  · rw [hno]; exact allocPage_grows p
  · refine ⟨ht'.trans ht, fun j hj => ?_⟩
    have hpage : addr / pageSize = page := by rw [haddr]; exact Nat.mul_div_cancel _ (by decide)
    have hne : page ≠ j := fun heq => by rw [heq, hj] at hfree; cases hfree
    rw [hused', hused, hj, hpage, decide_eq_false hne]; simp

/-- The search gives a page below 1 GiB that was free. -/
theorem lowPage_spec : ∀ (tries : Nat) (p : Pmm), Grows p (lowPage tries p).2 ∧
    ∀ phys, (lowPage tries p).1 = .ok phys → ∃ g, phys = g * 4096 ∧ g < 2 ^ 18 ∧
      p.isUsed g = false ∧ (lowPage tries p).2.isUsed g = true
  | 0, p => ⟨Grows.refl p, nofun⟩
  | tries + 1, p => by
      rw [lowPage]
      cases ha : (allocPage p).1 with
      | none => exact ⟨allocPage_grows p, nofun⟩
      | some candidate =>
        simp only
        split
        · rename_i hlow
          refine ⟨allocPage_grows p, fun phys h => ?_⟩
          obtain rfl : candidate = phys := by injection h
          obtain ⟨page, haddr, -, hfree, -, -, hused⟩ := allocPage_some ha
          refine ⟨page, haddr, ?_, hfree, by rw [hused, decide_eq_true rfl, Bool.true_or]⟩
          simp only [earlyTableMaxPhys, pageSize] at hlow haddr
          omega
        · -- given back; the rest of the search starts with the same pages in use
          have hback := giveBack_grows ha
          obtain ⟨hgrows, hok⟩ := lowPage_spec tries (freePage (allocPage p).2 candidate).2
          refine ⟨hback.trans hgrows, fun phys h => ?_⟩
          obtain ⟨g, hphys, hg, hfree, hused⟩ := hok phys h
          exact ⟨g, hphys, hg, hback.free hfree, hused⟩

/-- What `alloc_zeroed_table` does. -/
inductive Zeroed (b : Space) : Except String Nat × Space → Prop
  | failed {e : String} {p : Pmm} : Grows b.pmm p → Zeroed b (.error e, ⟨b.mem, p⟩)
  | made {g : Nat} {p : Pmm} : g < 2 ^ 18 → Grows b.pmm p → b.pmm.isUsed g = false →
      p.isUsed g = true → Zeroed b (.ok (g * 4096), ⟨clear b.mem g, p⟩)

theorem allocZeroedTable_zeroed (b : Space) : Zeroed b (allocZeroedTable b) := by
  obtain ⟨hgrows, hok⟩ := lowPage_spec 4096 b.pmm
  rw [allocZeroedTable]
  cases hr : (lowPage 4096 b.pmm).1 with
  | error e => exact .failed hgrows
  | ok phys =>
    obtain ⟨g, rfl, hg, hfree, hused⟩ := hok phys hr
    simp only [Nat.mul_div_cancel g (show 0 < 4096 by decide)]
    exact .made hg hgrows hfree hused

/-- A table entry below 1 GiB points where it should. -/
theorem frame_setPage_low {g : Nat} (hg : g < 2 ^ 18) :
    frame (setPage 0#64 (g * 4096) flagWritable) = g := by
  rw [frame, address_setPage 0#64 (by decide) (by omega) (by omega)]
  omega

/-! ## Tables under construction -/

/-- Frames in use before are in use still, with the same entries. -/
structure Spares (b₀ b : Space) : Prop where
  tracked : b.pmm.trackedPages = b₀.pmm.trackedPages
  used : ∀ f, b₀.pmm.isUsed f = true → b.pmm.isUsed f = true
  cells : ∀ f i, b₀.pmm.isUsed f = true → b.mem f i = b₀.mem f i

/-- Paths to tables. -/
def Short (p : List Index) : Prop := p.length ≤ 3

theorem short_closed ⦃ks ls : List Index⦄ (h : ks <+: ls) (hls : Short ls) : Short ks :=
  h.length_le.trans hls

/-- The tables below `root` while they are built, on frames that were free in `b₀`; of the PML4 only
    the slots `S` are in use. -/
structure Building (S : Index → Prop) (b₀ : Space) (root : Nat) (b : Space) : Prop
    extends Spares b₀ b where
  apart : EdgeTree.Apart (edges b.mem) root Short
  own : ∀ {p f}, Short p → tableAt b.mem root p = some f →
    b.pmm.isUsed f = true ∧ b₀.pmm.isUsed f = false
  clean : ∀ {p f i}, Short p → tableAt b.mem root p = some f → isPresent (b.mem f i) = false →
    b.mem f i = 0#64
  /-- Huge pages are in PDs only. -/
  small : ∀ {p f i}, p.length ≤ 1 → tableAt b.mem root p = some f → isHuge (b.mem f i) = false
  slots : ∀ i, ¬S i → b.mem root i = 0#64

variable {flags : Entry} {stop : Nat}

section Building

variable {S : Index → Prop} {b₀ b : Space} {root f g : Nat} {p : List Index} {i : Index} {pmm : Pmm}

theorem Building.grow (h : Building S b₀ root b) (hp : Grows b.pmm pmm) :
    Building S b₀ root ⟨b.mem, pmm⟩ where
  tracked := hp.1.trans h.tracked
  used f hf := hp.2 f (h.used f hf)
  cells := h.cells
  apart := h.apart
  own hq hf := ⟨hp.2 _ (h.own hq hf).1, (h.own hq hf).2⟩
  clean := h.clean
  small := h.small
  slots := h.slots

/-- The first table: an empty PML4. -/
theorem Building.first (hgrows : Grows b.pmm pmm) (hfree : b.pmm.isUsed g = false)
    (hused : pmm.isUsed g = true) : Building S b g ⟨clear b.mem g, pmm⟩ := by
  have hnone : ∀ i, edges (clear b.mem g) g i = none := fun i =>
    edges_of_not_present (by rw [clear_same]; exact isPresent_zero)
  -- the root has no edges, so the empty path is the only one
  have honly : ∀ {q f}, tableAt (clear b.mem g) g q = some f → q = [] ∧ f = g := by
    intro q f hq
    cases q with
    | nil => exact ⟨rfl, (some.inj hq).symm⟩
    | cons a q =>
      rw [tableAt, EdgeTree.walk_cons, hnone a] at hq
      cases hq
  refine ⟨⟨hgrows.1, hgrows.2, fun f i hf => ?_⟩, ?_, ?_, ?_, ?_, fun i _ => clear_same _ _ _⟩
  · refine clear_other (fun heq => ?_) i
    rw [heq, hfree] at hf; cases hf
  · intro ks ls x _ _ hk hl
    rw [(honly hk).1, (honly hl).1]
  · intro q f _ hq
    rw [(honly hq).2]; exact ⟨hused, hfree⟩
  · intro q f i _ hq _
    rw [(honly hq).2]; exact clear_same _ _ _
  · intro q f i _ hq
    rw [(honly hq).2]; simp only [clear_same, isHuge_zero]

/-- A frame that is free is no table. -/
theorem Building.not_table (h : Building S b₀ root b) (hfree : b.pmm.isUsed g = false)
    {q : List Index} (hq : Short q) : tableAt b.mem root q ≠ some g := by
  intro hg
  rw [(h.own hq hg).1] at hfree; cases hfree

section

variable (h : Building S b₀ root b) (hp : Short p) (ht : tableAt b.mem root p = some f)

include h hp ht

/-- The PML4 is written in the slots `S` only. -/
theorem Building.slot_of_root (hS : p = [] → S i) {j : Index} (hj : ¬S j) :
    ¬(root = f ∧ j = i) := by
  rintro ⟨rfl, rfl⟩
  exact hj (hS (h.apart hp (Nat.zero_le 3) ht rfl))

/-- **An entry that is no table**: a page, or a huge page in a PD. -/
theorem Building.leaf (hfree : isPresent (b.mem f i) = false) {e : Entry} (hpres : isPresent e = true)
    (hkind : p.length = 3 ∨ p.length = 2 ∧ isHuge e = true) :
    Building S b₀ root ⟨store b.mem f i e, b.pmm⟩ ∧
    ∀ q, Short q → tableAt (store b.mem f i e) root q = tableAt b.mem root q := by
  have hlen : p.length ≠ 0 ∧ 2 ≤ p.length := by rcases hkind with h | h <;> omega
  -- the entry is no edge before, and no edge a path can use after
  have hsame : ∀ q, Short q → tableAt (store b.mem f i e) root q = tableAt b.mem root q := by
    intro q hq
    refine EdgeTree.walk_congr fun ks k x hpre hx => ?_
    by_cases hcell : x = f ∧ k = i
    · obtain ⟨rfl, rfl⟩ := hcell
      have hks : Short ks := short_closed ((prefix_append ks [k]).trans hpre) hq
      obtain rfl : ks = p := h.apart hks hp hx ht
      have hle := hpre.length_le.trans hq
      rw [length_append, length_singleton] at hle
      have hhuge : isHuge e = true := by
        rcases hkind with h | h
        · omega
        · exact h.2
      rw [edges_of_not_present hfree]
      exact if_neg (by simp [hhuge])
    · exact edges_congr (store_other hcell)
  have hother : ∀ {q x j}, Short q → tableAt b.mem root q = some x → q ≠ p →
      store b.mem f i e x j = b.mem x j := fun hq hx hne =>
    store_other (fun hcell => hne (h.apart hq hp (hcell.1 ▸ hx) ht))
  refine ⟨⟨⟨h.tracked, h.used, fun x j hx => ?_⟩, ?_, ?_, ?_, ?_, fun j hj => ?_⟩, hsame⟩
  · have hne : ¬(x = f ∧ j = i) := by
      rintro ⟨rfl, rfl⟩
      rw [(h.own hp ht).2] at hx; cases hx
    exact (store_other hne).trans (h.cells x j hx)
  · exact h.apart.of_le fun ls x hls hx => (hsame ls hls).symm.trans hx
  · intro q x hq hx
    exact h.own hq (hsame q hq ▸ hx)
  · intro q x j hq hx hnone
    by_cases hcell : x = f ∧ j = i
    · obtain ⟨rfl, rfl⟩ := hcell
      simp only [store_same, hpres] at hnone; cases hnone
    · simp only [store_other hcell] at hnone ⊢
      exact h.clean hq (hsame q hq ▸ hx) hnone
  · intro q x j hq hx
    have hshort : Short q := by unfold Short; omega
    have hx' := hsame q hshort ▸ hx
    simp only [hother hshort hx' (fun heq => by rw [heq] at hq; omega)]
    exact h.small hq hx'
  · have hne : ¬(root = f ∧ j = i) := h.slot_of_root hp ht (fun heq => absurd (by rw [heq]; rfl) hlen.1) hj
    simp only [store_other hne]
    exact h.slots j hj

end

section

variable (h : Building S b₀ root b) (hp : p.length ≤ 2) (ht : tableAt b.mem root p = some f)
  (hfree : isPresent (b.mem f i) = false) (hS : p = [] → S i)

include h hp ht hfree hS

/-- A new table `g` behind the empty entry `i` of the table at `p`, for any space in which that entry
    points to `g`, `g` is empty and nothing else is written. -/
theorem Building.linked (hfresh : b.pmm.isUsed g = false) (b' : Space) (hgrows : Grows b.pmm b'.pmm)
    (hused : b'.pmm.isUsed g = true) (hpres : isPresent (b'.mem f i) = true) (hsmall : isHuge (b'.mem f i) = false)
    (hframe : frame (b'.mem f i) = g) (hzero : ∀ j, b'.mem g j = 0#64)
    (hrest : ∀ x j, x ≠ g → ¬(x = f ∧ j = i) → b'.mem x j = b.mem x j) :
    Building S b₀ root b' ∧
    ∀ q, Short q → tableAt b'.mem root q = if q = p ++ [i] then some g else tableAt b.mem root q := by
  have hshort : Short p := by unfold Short; omega
  have hnot : ∀ {q}, Short q → tableAt b.mem root q ≠ some g := h.not_table hfresh
  have hedge : edges b'.mem f i = some g := by
    rw [edges, if_pos ⟨hpres, hsmall⟩, hframe]
  have hwalk : ∀ q, Short q →
      tableAt b'.mem root q = if q = p ++ [i] then some g else tableAt b.mem root q := by
    intro q hq
    refine h.apart.walk_link short_closed hshort ht ?_ (edges_of_not_present hfree) hedge
      (fun l => edges_of_not_present (by rw [hzero]; exact isPresent_zero)) hq
    intro ks x l hks hx hne
    exact edges_congr (hrest x l (fun heq => hnot hks (heq ▸ hx)) hne)
  -- a table afterwards is the new one or an old one
  have hcases : ∀ {q x}, Short q → tableAt b'.mem root q = some x →
      (q = p ++ [i] ∧ x = g) ∨ (tableAt b.mem root q = some x ∧ x ≠ g) := by
    intro q x hq hx
    rw [hwalk q hq] at hx
    split at hx
    · exact .inl ⟨‹_›, (some.inj hx).symm⟩
    · exact .inr ⟨hx, fun heq => hnot hq (heq ▸ hx)⟩
  refine ⟨⟨⟨hgrows.1.trans h.tracked, fun x hx => hgrows.2 x (h.used x hx), ?_⟩, ?_, ?_, ?_, ?_, ?_⟩, hwalk⟩
  · intro x j hx
    refine (hrest x j ?_ ?_).trans (h.cells x j hx)
    · rintro rfl
      rw [h.used x hx] at hfresh; cases hfresh
    · rintro ⟨rfl, rfl⟩
      rw [(h.own hshort ht).2] at hx; cases hx
  · exact h.apart.link (fun ls hls => hnot hls) hwalk
  · intro q x hq hx
    rcases hcases hq hx with ⟨-, rfl⟩ | ⟨hx, -⟩
    · exact ⟨hused, Grows.free ⟨h.tracked, h.used⟩ hfresh⟩
    · exact ⟨hgrows.2 x (h.own hq hx).1, (h.own hq hx).2⟩
  · intro q x j hq hx hnone
    rcases hcases hq hx with ⟨-, rfl⟩ | ⟨hx, hxg⟩
    · exact hzero j
    · have hne : ¬(x = f ∧ j = i) := by
        rintro ⟨rfl, rfl⟩
        rw [hpres] at hnone; cases hnone
      rw [hrest x j hxg hne] at hnone ⊢
      exact h.clean hq hx hnone
  · intro q x j hq hx
    have hqs : Short q := by unfold Short; omega
    rcases hcases hqs hx with ⟨-, rfl⟩ | ⟨hx, hxg⟩
    · rw [hzero]; exact isHuge_zero
    · by_cases hne : x = f ∧ j = i
      · rw [hne.1, hne.2]; exact hsmall
      · rw [hrest x j hxg hne]; exact h.small hq hx
  · intro j hj
    have hroot : root ≠ g := fun heq => hnot (q := []) (Nat.zero_le 3) (heq ▸ tableAt_nil _ _)
    rw [hrest root j hroot (h.slot_of_root hshort ht hS hj)]
    exact h.slots j hj

/-- **A fresh zeroed table behind an empty entry.** -/
theorem Building.link (hg : g < 2 ^ 18) (hgrows : Grows b.pmm pmm) (hfresh : b.pmm.isUsed g = false)
    (hused : pmm.isUsed g = true) {b' : Space} (hb' : Space.set ⟨clear b.mem g, pmm⟩ f i (g * 4096) flagWritable = b') :
    Building S b₀ root b' ∧ frame (b'.mem f i) = g ∧ (∀ j, b'.mem g j = 0#64) ∧
    ∀ q, Short q → tableAt b'.mem root q = if q = p ++ [i] then some g else tableAt b.mem root q := by
  subst hb'
  have hshort : Short p := by unfold Short; omega
  have hfg : f ≠ g := fun heq => h.not_table hfresh hshort (heq ▸ ht)
  have hnew : (Space.set ⟨clear b.mem g, pmm⟩ f i (g * 4096) flagWritable).mem f i =
      setPage 0#64 (g * 4096) flagWritable := by
    refine (store_same _ _ _ _).trans ?_
    show setPage (clear b.mem g f i) _ _ = _
    rw [clear_other hfg, h.clean hshort ht hfree]
  have hframe := (congrArg frame hnew).trans (frame_setPage_low hg)
  have hzero : ∀ j, (Space.set ⟨clear b.mem g, pmm⟩ f i (g * 4096) flagWritable).mem g j = 0#64 :=
    fun j => (store_other (fun hc => hfg hc.1.symm)).trans (clear_same _ _ _)
  obtain ⟨hbuild, hwalk⟩ := h.linked hp ht hfree hS hfresh
    (Space.set ⟨clear b.mem g, pmm⟩ f i (g * 4096) flagWritable) hgrows hused
    (by rw [hnew]; exact isPresent_setPage _ _ _) (by rw [hnew]; exact isHuge_setPage _ (by decide))
    hframe hzero (fun x j hx hc => (store_other hc).trans (clear_other hx j))
  exact ⟨hbuild, hframe, hzero, hwalk⟩

end

/-! ## The functions -/

/-- What one level of `map_kernel_page` hands on: the tables stay, and the frame it returns is the
    table behind the entry unless that is a huge page. -/
structure Level (S : Index → Prop) (b₀ b : Space) (root f : Nat) (p : List Index) (i : Index) (g : Nat)
    (b' : Space) : Prop where
  build : Building S b₀ root b'
  stay : ∀ {q x}, Short q → tableAt b.mem root q = some x → tableAt b'.mem root q = some x
  table : isHuge (b'.mem f i) = false → tableAt b'.mem root (p ++ [i]) = some g

theorem bootTable_post (h : Building S b₀ root b) (hp : p.length ≤ 2)
    (ht : tableAt b.mem root p = some f) (hS : p = [] → S i) :
    Post (Building S b₀ root) (Level S b₀ b root f p i) (bootTable b f i) := by
  rw [bootTable]
  split
  · rename_i hpres
    refine ⟨h, fun _ hx => hx, fun hsmall => ?_⟩
    rw [tableAt_concat, ht, bind_some, edges, if_pos ⟨hpres, hsmall⟩]
  · rename_i hpres
    have hfree : isPresent (b.mem f i) = false := by simpa using hpres
    have hz := allocZeroedTable_zeroed b
    generalize allocZeroedTable b = r at hz ⊢
    cases hz with
    | failed hgrows => exact h.grow hgrows
    | @made g pmm hg hgrows hfresh hused =>
      have hshort : Short (p ++ [i]) := by
        rw [Short, length_append, length_singleton]; omega
      show Level S b₀ b root f p i
        (frame ((Space.set ⟨clear b.mem g, pmm⟩ f i (g * 4096) flagWritable).mem f i))
        (Space.set ⟨clear b.mem g, pmm⟩ f i (g * 4096) flagWritable)
      obtain ⟨hbuild, hframe, -, hwalk⟩ := h.link hp ht hfree hS hg hgrows hfresh hused rfl
      refine ⟨hbuild, fun {q x} hq hx => ?_, fun _ => ?_⟩
      · rw [hwalk q hq, if_neg, hx]
        -- the new place held no table
        rintro rfl
        rw [tableAt_concat, ht, bind_some, edges_of_not_present hfree] at hx
        cases hx
      · rw [hwalk _ hshort, if_pos rfl, hframe]

/-- `map_kernel_page` builds below the slots `S` if its address is there. -/
theorem mapKernelPage_post (h : Building S b₀ root b) {virt : Nat} (hS : S (levelIndices virt).l4)
    (phys : Nat) (flags : Entry) :
    Post (Building S b₀ root) (fun _ => Building S b₀ root) (mapKernelPage root virt phys flags b) := by
  refine (bootTable_post h (by simp) (tableAt_nil _ _) (fun _ => hS)).andThen ?_
  intro pdpt b1 h1
  have ht1 := h1.table (h1.build.small (by simp) (tableAt_nil _ _))
  refine (bootTable_post h1.build (by simp) ht1 nofun).andThen ?_
  intro pd b2 h2
  have ht2 := h2.table (h2.build.small (by simp) (h2.stay (by simp [Short]) ht1))
  refine (bootTable_post h2.build (by simp) ht2 nofun).andThen ?_
  intro pt b3 h3
  split
  · split
    · exact h3.build
    · exact h3.build
  rename_i hsmall
  have ht3 := h3.table (by simpa using hsmall)
  split
  · split
    · exact h3.build
    · exact h3.build
  rename_i hfree
  exact (h3.build.leaf (by simp [Short]) ht3 (by simpa using hfree) (isPresent_setPage _ _ _)
    (Or.inl rfl)).1

/-- ... and so does the loop over a range. -/
theorem mapRangeLoop_post {top : Nat} (hS : ∀ v < top, S (levelIndices v).l4) :
    ∀ (left current : Nat) (b : Space), Building S b₀ root b → current + 4096 * left ≤ top →
      Post (Building S b₀ root) (fun _ => Building S b₀ root) (mapRangeLoop root flags left current b)
  | 0, _, b, h, _ => h
  | left + 1, current, b, h, htop => by
      have hpage := mapKernelPage_post h (hS current (by omega)) current flags
      have hnext : Word.sadd current pageSize + 4096 * left ≤ top := by
        have hle : Word.sadd current pageSize ≤ current + 4096 := Nat.min_le_left _ _
        omega
      rw [mapRangeLoop]
      generalize mapKernelPage root current current flags b = r at hpage ⊢
      obtain ⟨r, b'⟩ := r
      cases r with
      | ok fresh => exact mapRangeLoop_post hS left _ b' hpage hnext
      | error e =>
        simp only
        split
        · exact mapRangeLoop_post hS left _ b' hpage hnext
        · exact hpage

/-- The pages of the loop end where the range does. -/
theorem mapRangeIdentity_pages (root start stop : Nat) (flags : Entry) (b : Space) : ∃ left current,
    current + 4096 * left ≤ Word.alignUp stop pageSize ∧
      mapRangeIdentity root start stop flags b = mapRangeLoop root flags left current b := by
  by_cases hlt : Word.alignDown start pageSize ≤ Word.alignUp stop pageSize
  · refine ⟨_, _, ?_, rfl⟩
    have := Nat.mul_div_le (Word.alignUp stop pageSize - Word.alignDown start pageSize) 4096
    simp only [pageSize] at this hlt ⊢
    omega
  · refine ⟨0, 0, Nat.zero_le _, ?_⟩
    rw [mapRangeIdentity, show Word.alignUp stop pageSize - Word.alignDown start pageSize = 0 by omega]
    rfl

theorem mapRangeIdentity_post (h : Building S b₀ root b) {start : Nat}
    (hS : ∀ v < Word.alignUp stop pageSize, S (levelIndices v).l4) :
    Post (Building S b₀ root) (fun _ => Building S b₀ root)
      (mapRangeIdentity root start stop flags b) := by
  obtain ⟨left, current, htop, heq⟩ := mapRangeIdentity_pages root start stop flags b
  rw [heq]
  exact mapRangeLoop_post hS left current b h htop

theorem mapRangeIf_post (h : Building S b₀ root b) {wanted : Prop} [Decidable wanted] {start : Nat}
    (hS : wanted → ∀ v < Word.alignUp stop pageSize, S (levelIndices v).l4) :
    Post (Building S b₀ root) (fun _ => Building S b₀ root)
      (mapRangeIf wanted root start stop flags b) := by
  rw [mapRangeIf]
  split
  · exact mapRangeIdentity_post h (hS ‹_›)
  · exact h

theorem isHuge_setPage_huge (e : Entry) (addr : Nat) :
    isHuge (setPage e addr (flagWritable ||| flagPresent ||| flagGlobal ||| flagHuge)) = true := by
  have hbit : (setPage e addr (flagWritable ||| flagPresent ||| flagGlobal ||| flagHuge) &&&
      flagHuge).getLsbD 7 = true := by
    simp [setPage, flagHuge]
  rw [isHuge, bne_iff_ne]
  intro h0
  rw [h0] at hbit
  exact absurd hbit (by decide)

/-- The loop of `map_identity_low_mem` fills entries of a PD that are still empty. -/
theorem foldl_set_huge (addr : Index → Nat) {pd : Nat} (hp : p.length = 2) : ∀ (l : List Index) (b : Space),
    l.Nodup → Building S b₀ root b → tableAt b.mem root p = some pd → (∀ i ∈ l, b.mem pd i = 0#64) →
    Building S b₀ root (l.foldl (fun b i => b.set pd i (addr i)
      (flagWritable ||| flagPresent ||| flagGlobal ||| flagHuge)) b)
  | [], b, _, h, _, _ => h
  | i :: l, b, hnodup, h, ht, hempty => by
      have hshort : Short p := by unfold Short; omega
      have hi : b.mem pd i = 0#64 := hempty i (mem_cons_self ..)
      obtain ⟨hbuild, hsame⟩ := h.leaf hshort ht (by rw [hi]; exact isPresent_zero)
        (isPresent_setPage (b.mem pd i) (addr i) _)
        (Or.inr ⟨hp, isHuge_setPage_huge (b.mem pd i) (addr i)⟩)
      rw [foldl_cons]
      refine foldl_set_huge addr hp l _ (nodup_cons.mp hnodup).2 hbuild
        ((hsame p hshort).trans ht) fun j hj => ?_
      have hne : j ≠ i := fun heq => (nodup_cons.mp hnodup).1 (heq ▸ hj)
      exact (store_other (fun hc => hne hc.2)).trans (hempty j (mem_cons_of_mem _ hj))

theorem mapIdentityLowMem_post (h : Building S b₀ root b) (hS : S 0)
    (hempty : isPresent (b.mem root 0) = false) :
    Post (Building S b₀ root) (fun _ => Building S b₀ root) (mapIdentityLowMem root b) := by
  rw [mapIdentityLowMem]
  -- the PDPT
  have hz := allocZeroedTable_zeroed b
  generalize allocZeroedTable b = r at hz ⊢
  cases hz with
  | failed hgrows => exact h.grow hgrows
  | @made g pmm hg hgrows hfresh hused =>
    rw [Space.andThen]
    simp only
    generalize hb1 : Space.set ⟨clear b.mem g, pmm⟩ root 0 (g * 4096) flagWritable = b1
    obtain ⟨h1, -, hzero1, hwalk1⟩ :=
      h.link (by simp) (tableAt_nil _ _) hempty (fun _ => hS) hg hgrows hfresh hused hb1
    have ht1 : tableAt b1.mem root [0] = some g := by
      rw [hwalk1 [0] (by simp [Short])]; exact if_pos rfl
    -- the PD
    have hz1 := allocZeroedTable_zeroed b1
    generalize allocZeroedTable b1 = r1 at hz1 ⊢
    cases hz1 with
    | failed hgrows1 => exact h1.grow hgrows1
    | @made d pmm1 hd hgrows1 hfresh1 hused1 =>
      rw [Space.andThen]
      simp only [Nat.mul_div_cancel _ (show 0 < 4096 by decide)]
      generalize hb2 : Space.set ⟨clear b1.mem d, pmm1⟩ g 0 (d * 4096) flagWritable = b2
      obtain ⟨h2, -, hzero2, hwalk2⟩ := h1.link (by simp) ht1 (by rw [hzero1]; exact isPresent_zero)
        nofun hd hgrows1 hfresh1 hused1 hb2
      have ht2 : tableAt b2.mem root [0, 0] = some d := by
        rw [hwalk2 [0, 0] (by simp [Short])]; exact if_pos rfl
      exact Post.ok (foldl_set_huge (fun i => i.val * 0x200000) rfl _ b2 (nodup_finRange 512) h2 ht2
        fun i _ => hzero2 i)

/-- The boot ranges lie below the PML4 slots `S`. -/
structure BootArgs.In (args : BootArgs) (S : Index → Prop) : Prop where
  low : S 0
  kernel : args.kernelStart < args.kernelEnd →
    ∀ v < Word.alignUp args.kernelEnd pageSize, S (levelIndices v).l4
  bootInfo : 0 < args.bootInfoSize →
    ∀ v < Word.alignUp (Word.alignUp (Word.sadd args.bootInfoPtr args.bootInfoSize) pageSize) pageSize,
      S (levelIndices v).l4
  framebuffer : 0 < args.framebufferSize →
    ∀ v < Word.alignUp (Word.alignUp (Word.sadd args.framebufferBase args.framebufferSize) pageSize)
      pageSize, S (levelIndices v).l4
  stack : ∀ v < Word.alignUp (Word.alignUp (Word.sadd args.rsp pageSize) pageSize) pageSize,
    S (levelIndices v).l4

/-- **What bootstrap leaves behind**, however it ends. -/
theorem bootstrap_post {args : BootArgs} (hS : args.In S) (b : Space) :
    Post (Spares b) (fun phys b' => ∃ root b1, phys = root * 4096 ∧ root < 2 ^ 18 ∧
      Building S b root b1 ∧ b' = b1.set root 511 phys flagWritable)
      (bootstrapKernelPageTables args b) := by
  rw [bootstrapKernelPageTables]
  have hz := allocZeroedTable_zeroed b
  generalize allocZeroedTable b = r at hz ⊢
  cases hz with
  | failed hgrows => exact ⟨hgrows.1, hgrows.2, fun _ _ _ => rfl⟩
  | @made root pmm hroot hgrows hfresh hused =>
    have h := Building.first (S := S) hgrows hfresh hused
    have hstop : ∀ b', Building S b root b' → Spares b b' := fun _ h => h.toSpares
    rw [Space.andThen]
    simp only [Nat.mul_div_cancel root (show 0 < 4096 by decide)]
    refine Post.andThen ((mapIdentityLowMem_post h hS.low
      (by simp only [clear_same, isPresent_zero])).imp hstop) fun _ b1 h1 => ?_
    refine Post.andThen ((mapRangeIf_post h1 hS.kernel).imp hstop) fun _ b2 h2 => ?_
    refine Post.andThen ((mapRangeIf_post h2 hS.bootInfo).imp hstop) fun _ b3 h3 => ?_
    refine Post.andThen ((mapRangeIf_post h3 hS.framebuffer).imp hstop) fun _ b4 h4 => ?_
    refine Post.andThen ((mapRangeIdentity_post h4 hS.stack).imp hstop) fun _ b5 h5 => ?_
    exact ⟨root, b5, rfl, hroot, h5, rfl⟩

end Building

/-! ## The result -/

/-- **Bootstrap spares what was in use**, whatever its arguments and however it ends. -/
theorem bootstrap_spares (args : BootArgs) (b : Space) :
    Spares b (bootstrapKernelPageTables args b).2 := by
  have hall : args.In fun _ => True :=
    ⟨trivial, fun _ _ _ => trivial, fun _ _ _ => trivial, fun _ _ _ => trivial, fun _ _ => trivial⟩
  have hpost := bootstrap_post hall b
  generalize bootstrapKernelPageTables args b = r at hpost ⊢
  obtain ⟨r, b'⟩ := r
  cases r with
  | error e => exact hpost
  | ok phys =>
    obtain ⟨root, b1, rfl, -, hbuild, rfl⟩ := hpost
    refine ⟨hbuild.tracked, hbuild.used, fun f i hf => ?_⟩
    -- the last write is to the PML4, which was free
    have hroot := (hbuild.own (p := []) (Nat.zero_le 3) (tableAt_nil _ _)).2
    have hne : ¬(f = root ∧ i = 511) := fun hc => by rw [hc.1, hroot] at hf; cases hf
    exact (store_other hne).trans (hbuild.cells f i hf)

/-- All boot ranges end below 512 GiB. -/
structure BootArgs.Low (args : BootArgs) : Prop where
  kernel : args.kernelStart < args.kernelEnd → args.kernelEnd ≤ 2 ^ 39
  bootInfo : 0 < args.bootInfoSize → args.bootInfoPtr + args.bootInfoSize ≤ 2 ^ 39
  framebuffer : 0 < args.framebufferSize → args.framebufferBase + args.framebufferSize ≤ 2 ^ 39
  stack : args.rsp + pageSize ≤ 2 ^ 39

theorem alignUp_low {top : Nat} (hal : top % 4096 = 0) (htop : top ≤ 2 ^ 39) (h : stop ≤ top) :
    Word.alignUp stop pageSize ≤ top := by
  have hfit : stop + (2 ^ 12 - 1) < Word.size := by unfold Word.size; omega
  rw [show pageSize = 2 ^ 12 from rfl, Word.alignUp_eq (by omega) hfit]
  omega

theorem sadd_low {a n top : Nat} (h : a + n ≤ top) : Word.sadd a n ≤ top :=
  (Nat.min_le_left _ _).trans h

theorem slot_low {v : Nat} (h : v < 2 ^ 39) : (levelIndices v).l4 = 0 := by
  refine Fin.ext ?_
  show (v >>> 39) % 512 = 0
  rw [Nat.shiftRight_eq_div_pow, Nat.div_eq_of_lt h]

theorem slot_alignUp {v : Nat} (hstop : stop ≤ 2 ^ 39) (hv : v < Word.alignUp stop pageSize) :
    (levelIndices v).l4 = 0 :=
  slot_low (hv.trans_le (alignUp_low (by decide) (by decide) hstop))

theorem BootArgs.Low.slot0 {args : BootArgs} (h : args.Low) : args.In (· = 0) where
  low := rfl
  kernel hw _ hv := slot_alignUp (h.kernel hw) hv
  bootInfo hw _ hv :=
    slot_alignUp (alignUp_low (by decide) (by decide) (sadd_low (h.bootInfo hw))) hv
  framebuffer hw _ hv :=
    slot_alignUp (alignUp_low (by decide) (by decide) (sadd_low (h.framebuffer hw))) hv
  stack _ hv := slot_alignUp (alignUp_low (by decide) (by decide) (sadd_low h.stack)) hv

/-- The tables of a building in slot 0, closed by the recursive entry. -/
theorem Building.close {b₀ b : Space} {root : Nat} (h : Building (· = 0) b₀ root b)
    (hroot : root < 2 ^ 18) (htracked : b₀.pmm.trackedPages ≤ maxPages) :
    Sound root (b.set root 511 (root * 4096) flagWritable) ∧
    (∀ i, i ≠ 0 → i ≠ 511 → (b.set root 511 (root * 4096) flagWritable).mem root i = 0#64) ∧
    Shallow (b.set root 511 (root * 4096) flagWritable).mem root := by
  have hnew : (b.set root 511 (root * 4096) flagWritable).mem root 511 =
      setPage 0#64 (root * 4096) flagWritable := by
    refine (store_same _ _ _ _).trans ?_
    rw [h.slots 511 (by decide)]
  have hempty : ∀ i, i ≠ 0 → i ≠ 511 →
      (b.set root 511 (root * 4096) flagWritable).mem root i = 0#64 := fun i h0 h511 =>
    (store_other (fun hc => h511 hc.2)).trans (h.slots i h0)
  have hrest : ∀ f i, ¬(f = root ∧ i = 511) →
      (b.set root 511 (root * 4096) flagWritable).mem f i = b.mem f i := fun f i hne => store_other hne
  have hpmm : (b.set root 511 (root * 4096) flagWritable).pmm = b.pmm := rfl
  generalize b.set root 511 (root * 4096) flagWritable = b' at *
  -- a path that avoids slot 511 does not meet the new entry
  have hsame : ∀ q, Inner q → tableAt b'.mem root q = tableAt b.mem root q := by
    intro q hq
    refine EdgeTree.walk_congr fun ks k x hpre hx => edges_congr (hrest x k ?_)
    rintro ⟨rfl, rfl⟩
    have hks : Inner ks := inner_closed ((prefix_append ks [511]).trans hpre) hq
    obtain rfl : ks = [] := h.apart hks.1 (Nat.zero_le 3) hx rfl
    exact (inner_closed hpre hq).2 rfl
  -- nothing hangs below a regular slot, so of the regular entries only the PML4's exist
  have honly : ∀ {p f i}, Regular (p ++ [i]) → p.length ≤ 3 → tableAt b'.mem root p = some f →
      b'.mem f i = 0#64 := by
    intro p f i hreg hlen hf
    cases p with
    | nil =>
      obtain rfl : root = f := some.inj hf
      exact hempty i hreg.1 hreg.2
    | cons a p =>
      have hzero : edges b'.mem root a = none :=
        edges_of_not_present (by rw [hempty a hreg.1 hreg.2]; exact isPresent_zero)
      rw [tableAt, EdgeTree.walk_cons, hzero] at hf
      cases hf
  have hlast : isHuge (b'.mem root 511) = false := by
    rw [hnew]; exact isHuge_setPage _ (by decide)
  refine ⟨⟨⟨⟨?_, hlast, ?_⟩, ?_, ?_, ?_⟩, ?_, ?_⟩, hempty, ?_⟩
  · rw [hnew]; exact isPresent_setPage _ _ _
  · rw [hnew]; exact frame_setPage_low hroot
  · intro ks ls x hks hls hk hl
    exact h.apart hks.1 hls.1 ((hsame ks hks).symm.trans hk) ((hsame ls hls).symm.trans hl)
  · exact fun hreg hlen hf _ => honly hreg hlen hf
  · intro p f i hreg hlen hf
    rw [honly hreg (by omega) hf]; exact isHuge_zero
  · intro q f hq hf
    rw [hpmm]; exact (h.own hq.1 ((hsame q hq).symm.trans hf)).1
  · rw [hpmm, h.tracked]; exact htracked
  · intro p f i hp hlen hf
    by_cases hi : f = root ∧ i = 511
    · rw [hi.1, hi.2]; exact hlast
    · rw [hrest f i hi]
      exact h.small hlen ((hsame p hp).symm.trans hf)

end Saios.Vmm
