/-
  EDITS: the three ways in which the manager changes a tree of tables.

  1. **`Edit`** — hang a fresh, cleared table into an empty place (`link`), set or clear a PT entry
     (`leaf`), unhook a table without present entries (`cut`).  Each writes ONE entry, in place `i` of
     the table at path `p`; a `link` also clears the new table and takes its frame from the PMM.
     `Does` gives each edit its guard and its effect.

  2. **Effects** — what an edit does to the table at every path (`Does.tables`), to every entry
     (`Does.cell`) and to every PT entry (`Does.leaves`).  `Does.sound`: the invariant is kept.

  3. **Runs of edits** — `Edits` is a sequence; its lemmas are the induction over it, and every
     operation of the manager is shown to be such a sequence.
-/
import Saios.Vmm.Tree

namespace Saios.Vmm

open Saios.Memory List Option

inductive Edit
  | link (p : List Index) (i : Index) (e : Entry)
  | leaf (p : List Index) (i : Index) (e : Entry)
  | cut (p : List Index) (i : Index)

namespace Edit

/-- The path of the table that is written. -/
def path : Edit → List Index
  | link p _ _ | leaf p _ _ | cut p _ => p

/-- The place in it. -/
def place : Edit → Index
  | link _ i _ | leaf _ i _ | cut _ i => i

/-- The entry written there. -/
def entry : Edit → Entry
  | link _ _ e | leaf _ _ e => e
  | cut _ _ => 0#64

/-- The tables afterwards. -/
def onTables : Edit → (List Index → Option Nat) → List Index → Option Nat
  | link p i e, t => fun q => if q = p ++ [i] then some (frame e) else t q
  | leaf _ _ _, t => t
  | cut p i, t => fun q => if q = p ++ [i] then none else t q

/-- The PT entries afterwards. -/
def onLeaves : Edit → (List Index → Index → Entry) → List Index → Index → Entry
  | leaf p i e, l => fun q j => if q = p ∧ j = i then e else l q j
  | _, l => l

end Edit

/-- `Does root c s s'`: edit `c` is allowed in `s` and leads to `s'`. -/
inductive Does (root : Nat) : Edit → Space → Space → Prop
  | link {s : Space} {p : List Index} {i : Index} {f g : Nat} {flags : Entry}
      (hreg : Regular (p ++ [i])) (hlen : p.length ≤ 2) (ht : tableAt s.mem root p = some f)
      (hfree : isPresent (s.mem f i) = false) (halloc : (allocPage s.pmm).1 = some (g * 4096))
      (hflags : flags &&& addrMask = 0#64) (hhuge : isHuge flags = false) :
      Does root (.link p i (setPage 0#64 (g * 4096) flags)) s
        ⟨clear (store s.mem f i (setPage 0#64 (g * 4096) flags)) g, (allocPage s.pmm).2⟩
  | leaf {s : Space} {p : List Index} {i : Index} {f : Nat} {e : Entry}
      (hreg : Regular p) (hlen : p.length = 3) (ht : tableAt s.mem root p = some f)
      (hentry : isPresent (s.mem f i) = false ∧ isPresent e = true ∨
        isPresent (s.mem f i) = true ∧ e = 0#64) :
      Does root (.leaf p i e) s { s with mem := store s.mem f i e }
  | cut {s : Space} {p : List Index} {i : Index} {f g : Nat}
      (hreg : Regular (p ++ [i])) (hlen : p.length ≤ 2) (ht : tableAt s.mem root p = some f)
      (hchild : tableAt s.mem root (p ++ [i]) = some g)
      (hempty : ∀ j, isPresent (s.mem g j) = false) :
      Does root (.cut p i) s { s with mem := store s.mem f i 0#64 }

variable {q : List Index} {f : Nat} {j : Index}

section Effects

variable {root : Nat} {c : Edit} {s s' : Space}

/-- The frame a `link` takes is not a table. -/
theorem Sound.fresh (hs : Sound root s) {g : Nat} (halloc : (allocPage s.pmm).1 = some (g * 4096))
    (hq : Inner q) (hf : tableAt s.mem root q = some f) : f ≠ g := by
  obtain ⟨page, haddr, -, hfree, -⟩ := allocPage_some halloc
  have hpage : g = page := by
    simp only [pageSize] at haddr
    omega
  rintro rfl
  have hused := hs.used hq hf
  rw [hpage, hfree] at hused
  cases hused

theorem frame_setPage_table (hs : Sound root s) {g : Nat}
    (halloc : (allocPage s.pmm).1 = some (g * 4096)) {flags : Entry}
    (hflags : flags &&& addrMask = 0#64) : frame (setPage 0#64 (g * 4096) flags) = g := by
  obtain ⟨page, haddr, hlt, -⟩ := allocPage_some halloc
  have htracked := hs.tracked
  simp only [pageSize, maxPages, maxTrackedMemoryBytes] at haddr htracked
  rw [frame, address_setPage 0#64 hflags (by omega) (by omega)]
  omega

theorem Does.inner (h : Does root c s s') : Inner c.path := by
  cases h with
  | link hreg hlen => exact hreg.inner_init (by omega)
  | leaf hreg hlen => exact hreg.inner (by omega)
  | cut hreg hlen => exact hreg.inner_init (by omega)

theorem Does.regular (h : Does root c s s') : Regular (c.path ++ [c.place]) := by
  cases h with
  | link hreg => exact hreg
  | leaf hreg => exact hreg.append _
  | cut hreg => exact hreg

/-- **One entry is written**, as far as the tables of `s` go. -/
theorem Does.cell (hs : Sound root s) (h : Does root c s s') (hq : Inner q)
    (hf : tableAt s.mem root q = some f) :
    s'.mem f j = if q = c.path ∧ j = c.place then c.entry else s.mem f j := by
  have hin := h.inner
  -- a frame is at `q` and at the edit's path only if they are one path
  have hstore : ∀ {p : List Index} {i : Index} {f0 : Nat} (e : Entry), Inner p →
      tableAt s.mem root p = some f0 →
      store s.mem f0 i e f j = if q = p ∧ j = i then e else s.mem f j := by
    intro p i f0 e hp ht
    by_cases hqp : q = p ∧ j = i
    · obtain ⟨rfl, rfl⟩ := hqp
      obtain rfl : f = f0 := mem_unique hf ht
      rw [store_same, if_pos ⟨rfl, rfl⟩]
    · rw [if_neg hqp, store_other]
      rintro ⟨rfl, rfl⟩
      exact hqp ⟨hs.apart hq hp hf ht, rfl⟩
  cases h with
  | link hreg hlen ht hfree halloc =>
    exact (clear_other (hs.fresh halloc hq hf) j).trans (hstore _ hin ht)
  | leaf hreg hlen ht => exact hstore _ hin ht
  | cut hreg hlen ht => exact hstore _ hin ht

/-- **The tables after an edit.** -/
theorem Does.tables (hs : Sound root s) (h : Does root c s s') (hq : Inner q) :
    tableAt s'.mem root q = c.onTables (tableAt s.mem root) q := by
  have hin := h.inner
  have hcell := fun {q f j} => h.cell hs (q := q) (f := f) (j := j)
  have hsame : ∀ {f0 : Nat}, tableAt s.mem root c.path = some f0 → ∀ ks q l, Inner ks →
      EdgeTree.walk (edges s.mem) root ks = some q → ¬(q = f0 ∧ l = c.place) →
      edges s'.mem q l = edges s.mem q l := by
    intro f0 ht ks q l hks hwalk hne
    refine edges_congr ?_
    rw [hcell hks hwalk, if_neg]
    rintro ⟨rfl, rfl⟩
    exact hne ⟨mem_unique hwalk ht, rfl⟩
  cases h with
  | @link _ p i f g flags hreg hlen ht hfree halloc hflags hhuge =>
    refine hs.apart.walk_link (k := i) inner_closed hin ht (hsame ht) (edges_of_not_present hfree) ?_ ?_ hq
    · have hentry := hcell (j := i) hin ht
      rw [if_pos ⟨rfl, rfl⟩] at hentry
      rw [edges, hentry]
      exact if_pos ⟨isPresent_setPage .., isHuge_setPage _ hhuge⟩
    · intro l
      rw [frame_setPage_table hs halloc hflags]
      exact edges_of_not_present (by simp only [clear_same, isPresent_zero])
  | @leaf _ p i f e hreg hlen ht hentry =>
    refine hs.apart.walk_off inner_closed hin ht (hsame ht) hq ?_
    intro hpre
    have hle := hpre.length_le
    rw [length_append, length_singleton] at hle
    have := hq.1
    simp only [Edit.path] at hle
    omega
  | @cut _ p i f g hreg hlen ht hchild hempty =>
    have hedge : edges s.mem f i = some g := by
      rw [tableAt_concat, ht] at hchild
      exact hchild
    refine hs.apart.walk_cut (k := i) inner_closed hin ht (hsame ht) hedge
      (fun l => edges_of_not_present (hempty l)) ?_ hq
    have hentry := hcell (j := i) hin ht
    rw [if_pos ⟨rfl, rfl⟩] at hentry
    exact edges_of_not_present (by rw [hentry]; exact isPresent_zero)

/-- The table a `link` hangs in is empty. -/
theorem Does.linked (hs : Sound root s) {p : List Index} {i : Index} {e : Entry}
    (h : Does root (.link p i e) s s') (j : Index) : s'.mem (frame e) j = 0#64 := by
  cases h with
  | link hreg hlen ht hfree halloc hflags =>
    rw [frame_setPage_table hs halloc hflags]
    exact clear_same ..

/-- **The PT entries after an edit.** -/
theorem Does.leaves (hs : Sound root s) (h : Does root c s s') (hreg : Regular q) (hlen : q.length = 3) :
    leafAt s'.mem root q j = c.onLeaves (leafAt s.mem root) q j := by
  have hq : Inner q := hreg.inner (by omega)
  have htab := h.tables hs hq
  have hcell := fun {f} => h.cell hs (f := f) (j := j) hq
  -- where the table at `q` stays, its entry is what `cell` says
  have hstay : tableAt s'.mem root q = tableAt s.mem root q → (q = c.path → ¬ j = c.place) →
      leafAt s'.mem root q j = leafAt s.mem root q j := by
    intro hsame hne
    unfold leafAt
    rw [hsame]
    cases hf : tableAt s.mem root q with
    | none => rfl
    | some f =>
      simp only [map_some]
      rw [hcell hf, if_neg fun hc => hne hc.1 hc.2]
  have hlink := fun p i e (hc : c = .link p i e) => (hc ▸ h).linked hs (j := j)
  cases h with
  | @link _ p i f g flags hreg hplen ht hfree halloc hflags hhuge =>
    by_cases hqp : q = p ++ [i]
    · have hnone : tableAt s.mem root q = none := by
        rw [hqp, tableAt_concat, ht, bind_some, edges_of_not_present hfree]
      simp only [Edit.onTables, if_pos hqp] at htab
      simp only [Edit.onLeaves, leafAt, htab, hnone]
      exact hlink p i _ rfl
    · simp only [Edit.onTables, if_neg hqp] at htab
      refine hstay htab fun hpath => ?_
      rw [hpath] at hlen
      exact absurd hlen (by simp only [Edit.path]; omega)
  | @leaf _ p i f e hreg hplen ht hentry =>
    by_cases hqp : q = p ∧ j = i
    · obtain ⟨rfl, rfl⟩ := hqp
      have hnew := hcell ht
      rw [if_pos ⟨rfl, rfl⟩] at hnew
      simp only [Edit.onTables] at htab
      simp only [leafAt, htab, ht, Edit.onLeaves]
      exact hnew
    · rw [hstay htab fun hpath hplace => hqp ⟨hpath, hplace⟩]
      exact (if_neg hqp).symm
  | @cut _ p i f g hreg hplen ht hchild hempty =>
    by_cases hqp : q = p ++ [i]
    · simp only [Edit.onTables, if_pos hqp] at htab
      have hold : s.mem g j = 0#64 :=
        hs.clean ((hqp ▸ hreg : Regular q).append _) (by omega) (hqp ▸ hchild) (hempty j)
      have hg : tableAt s.mem root q = some g := hqp ▸ hchild
      simp only [Edit.onLeaves, leafAt, htab, hg, map_none, getD_none,
        map_some, getD_some, hold]
    · simp only [Edit.onTables, if_neg hqp] at htab
      refine hstay htab fun hpath => ?_
      rw [hpath] at hlen
      exact absurd hlen (by simp only [Edit.path]; omega)

/-! ## The PMM -/

theorem Does.pmm_link (h : Does root c s s') :
    (∃ p i e, c = .link p i e ∧ s.pmm.freePages = s'.pmm.freePages + 1) ∨
    ((∀ p i e, c ≠ .link p i e) ∧ s'.pmm = s.pmm) := by
  cases h with
  | link hreg hlen ht hfree halloc =>
    obtain ⟨page, -, -, -, -, hcount, -⟩ := allocPage_some halloc
    exact .inl ⟨_, _, _, rfl, hcount⟩
  | leaf => exact .inr ⟨nofun, rfl⟩
  | cut => exact .inr ⟨nofun, rfl⟩

theorem Does.used_mono (h : Does root c s s') (hf : s.pmm.isUsed f = true) : s'.pmm.isUsed f = true := by
  cases h with
  | link hreg hlen ht hfree halloc =>
    obtain ⟨page, -, -, -, -, -, hused⟩ := allocPage_some halloc
    simp only [hused, hf, Bool.or_true]
  | leaf => exact hf
  | cut => exact hf

/-- A linked frame was free, and is used afterwards. -/
theorem Does.link_used (hs : Sound root s) {p : List Index} {i : Index} {e : Entry}
    (h : Does root (.link p i e) s s') :
    s.pmm.isUsed (frame e) = false ∧ s'.pmm.isUsed (frame e) = true := by
  cases h with
  | link hreg hlen ht hfree halloc hflags =>
    obtain ⟨page, haddr, -, hfree', -, -, hused⟩ := allocPage_some halloc
    have hpage := frame_setPage_table hs halloc hflags
    rw [hpage, Nat.eq_of_mul_eq_mul_right (by decide) haddr]
    exact ⟨hfree', by simp only [hused, decide_true, Bool.true_or]⟩

/-! ## The invariant is kept -/

theorem Does.tracked (h : Does root c s s') : s'.pmm.trackedPages = s.pmm.trackedPages := by
  cases h with
  | link hreg hlen ht hfree halloc =>
    obtain ⟨page, -, -, -, htracked, -⟩ := allocPage_some halloc
    exact htracked
  | leaf => rfl
  | cut => rfl

section

variable (hs : Sound root s) (h : Does root c s s')

include hs h

/-- A table after an edit is a table from before, or the one just linked. -/
theorem Does.table_cases (hq : Inner q) (hf : tableAt s'.mem root q = some f) :
    tableAt s.mem root q = some f ∨
      ∃ p i e, c = .link p i e ∧ q = p ++ [i] ∧ f = frame e := by
  rw [h.tables hs hq] at hf
  cases c with
  | link p i e =>
    by_cases hqp : q = p ++ [i]
    · simp only [Edit.onTables, if_pos hqp, some.injEq] at hf
      exact .inr ⟨p, i, e, rfl, hqp, hf.symm⟩
    · simp only [Edit.onTables, if_neg hqp] at hf
      exact .inl hf
  | leaf p i e => exact .inl hf
  | cut p i =>
    by_cases hqp : q = p ++ [i]
    · simp [Edit.onTables, if_pos hqp] at hf
    · simp only [Edit.onTables, if_neg hqp] at hf
      exact .inl hf

/-- **An edit keeps the invariant.** -/
theorem Does.sound : Sound root s' := by
  -- the recursive entry is not in a regular place
  have hrec : s'.mem root 511 = s.mem root 511 := by
    rw [h.cell hs (q := []) ⟨by simp, by simp⟩ rfl, if_neg]
    rintro ⟨hpath, hplace⟩
    have hreg := h.regular
    rw [← hpath, ← hplace] at hreg
    exact hreg.2 rfl
  refine ⟨⟨⟨?_, ?_, ?_⟩, ?_, ?_, ?_⟩, ?_, ?_⟩
  · rw [hrec]; exact hs.recPresent
  · rw [hrec]; exact hs.recSmall
  · rw [hrec]; exact hs.recFrame
  · cases c with
    | link p i e =>
      refine hs.apart.link (fun ls hls hwalk => ?_) (fun ls hls => h.tables hs hls)
      have hused := hs.used hls hwalk
      rw [(h.link_used hs).1] at hused
      cases hused
    | leaf p i e => exact hs.apart.of_le fun ls j hls hj => (h.tables hs hls).symm.trans hj
    | cut p i =>
      refine hs.apart.of_le fun ls j hls hj => ?_
      rcases h.table_cases hs hls hj with hj | ⟨p, i, e, hc, -⟩
      · exact hj
      · cases hc
  · intro q f j hreg hlen hf hnot
    rcases h.table_cases hs (hreg.inner_init hlen) hf with hold | ⟨p, i, e, rfl, -, rfl⟩
    · rw [h.cell hs (hreg.inner_init hlen) hold] at hnot ⊢
      split at hnot
      · rename_i hc
        rw [if_pos hc]
        cases h with
        | link => simp [Edit.entry] at hnot
        | leaf _ _ _ hentry =>
          rcases hentry with ⟨-, he⟩ | ⟨-, he⟩
          · rw [Edit.entry, he] at hnot
            cases hnot
          · exact he
        | cut => rfl
      · rename_i hc
        rw [if_neg hc]
        exact hs.clean hreg hlen hold hnot
    · exact h.linked hs j
  · intro q f j hreg hlen hf
    rcases h.table_cases hs (hreg.inner_init (by omega)) hf with hold | ⟨p, i, e, rfl, -, rfl⟩
    · rw [h.cell hs (hreg.inner_init (by omega)) hold]
      split
      · rename_i hc
        cases h with
        | link _ _ _ _ _ _ hhuge => exact isHuge_setPage _ hhuge
        | leaf _ hplen =>
          have := congrArg List.length hc.1
          simp only [Edit.path] at this
          omega
        | cut => exact isHuge_zero
      · exact hs.small hreg hlen hold
    · rw [h.linked hs j]; exact isHuge_zero
  · intro q f hq hf
    rcases h.table_cases hs hq hf with hold | ⟨p, i, e, rfl, -, rfl⟩
    · exact h.used_mono (hs.used hq hold)
    · exact (h.link_used hs).2
  · rw [h.tracked]; exact hs.tracked

/-! ## What an edit leaves alone -/

/-- Outside the regular slots every table and every entry stays. -/
theorem Does.outer (hq : Inner q) (hreg : ¬Regular q) :
    tableAt s'.mem root q = tableAt s.mem root q := by
  rw [h.tables hs hq]
  have hplace := h.regular
  cases c with
  | link p i e => exact if_neg fun hqp : q = p ++ [i] => hreg (hqp ▸ hplace)
  | leaf p i e => rfl
  | cut p i => exact if_neg fun hqp : q = p ++ [i] => hreg (hqp ▸ hplace)

theorem Does.outer_cell (hq : Inner q) (hf : tableAt s.mem root q = some f) (hreg : ¬Regular (q ++ [j])) :
    s'.mem f j = s.mem f j := by
  rw [h.cell hs hq hf, if_neg]
  rintro ⟨rfl, rfl⟩
  exact hreg h.regular

/-- Memory changes only in tables and in frames just taken for one. -/
theorem Does.changed (hne : s'.mem f j ≠ s.mem f j) :
    (∃ q, Inner q ∧ tableAt s.mem root q = some f) ∨
      (s.pmm.isUsed f = false ∧ s'.pmm.isUsed f = true) := by
  have hin := h.inner
  have hlink := fun p i e (hc : c = .link p i e) => (hc ▸ h).link_used hs
  have hstore : ∀ {f0 : Nat} {i : Index} {e : Entry}, store s.mem f0 i e f j ≠ s.mem f j → f = f0 := by
    intro f0 i e hne
    by_contra hf
    exact hne (store_other fun hc => hf hc.1)
  cases h with
  | @link _ p i f0 g flags hreg hlen ht hfree halloc hflags =>
    by_cases hg : f = g
    · have hframe := frame_setPage_table hs halloc hflags
      have hused := hlink p i _ rfl
      rw [hframe, ← hg] at hused
      exact .inr hused
    · have hf : f = f0 := hstore (fun heq => hne ((clear_other hg j).trans heq))
      exact .inl ⟨p, hin, hf ▸ ht⟩
  | leaf hreg hlen ht => exact .inl ⟨_, hin, hstore hne ▸ ht⟩
  | cut hreg hlen ht => exact .inl ⟨_, hin, hstore hne ▸ ht⟩

/-- A table stays where it is unless it is cut. -/
theorem Does.keeps (hq : Inner q) (hcut : ∀ p i, c = .cut p i → q ≠ p ++ [i]) (hf : tableAt s.mem root q = some f) :
    tableAt s'.mem root q = some f := by
  rw [h.tables hs hq]
  cases h with
  | @link _ p i f0 g flags hreg hlen ht hfree =>
    refine (if_neg ?_).trans hf
    rintro rfl
    rw [tableAt_concat, ht, bind_some, edges_of_not_present hfree] at hf
    cases hf
  | leaf => exact hf
  | cut => exact (if_neg (hcut _ _ rfl)).trans hf

end

end Effects

/-! ## Sequences of edits -/

inductive Edits (root : Nat) : List Edit → Space → Space → Prop
  | nil (s : Space) : Edits root [] s s
  | cons {c : Edit} {cs : List Edit} {s s₁ s' : Space} (h : Does root c s s₁)
      (rest : Edits root cs s₁ s') : Edits root (c :: cs) s s'

/-- The number of frames a sequence takes from the PMM. -/
def links : List Edit → Nat
  | [] => 0
  | .link _ _ _ :: cs => links cs + 1
  | _ :: cs => links cs

theorem links_append (cs ds : List Edit) : links (cs ++ ds) = links cs + links ds := by
  induction cs with
  | nil => simp [links]
  | cons c cs ih =>
    cases c with
    | link p i e =>
      simp only [cons_append, links]
      omega
    | leaf p i e => exact ih
    | cut p i => exact ih

namespace Edits

variable {root : Nat} {cs ds : List Edit} {s s₁ s' : Space}

theorem one {c : Edit} (h : Does root c s s') : Edits root [c] s s' := .cons h (.nil s')

theorem append (h : Edits root cs s s₁) (h' : Edits root ds s₁ s') : Edits root (cs ++ ds) s s' := by
  induction h with
  | nil s => exact h'
  | cons h rest ih => exact .cons h (ih h')

section

variable (h : Edits root cs s s')

include h

theorem sound (hs : Sound root s) : Sound root s' := by
  induction h with
  | nil s => exact hs
  | cons h rest ih => exact ih (h.sound hs)

/-- The PT entries after a sequence. -/
theorem leaves (hs : Sound root s) (hreg : Regular q) (hlen : q.length = 3) :
    leafAt s'.mem root q j = (cs.foldl (fun l c => c.onLeaves l) (leafAt s.mem root)) q j := by
  suffices hgen : ∀ l : List Index → Index → Entry,
      (∀ q j, Regular q → q.length = 3 → leafAt s.mem root q j = l q j) →
      leafAt s'.mem root q j = (cs.foldl (fun l c => c.onLeaves l) l) q j from
    hgen _ fun _ _ _ _ => rfl
  induction h with
  | nil s => exact fun l hl => hl q j hreg hlen
  | @cons c cs s s₁ s' h rest ih =>
    intro l hl
    refine ih (h.sound hs) _ fun q j hreg hlen => ?_
    rw [h.leaves hs hreg hlen]
    cases c with
    | leaf p i e =>
      simp only [Edit.onLeaves]
      split
      · rfl
      · exact hl q j hreg hlen
    | link p i e => exact hl q j hreg hlen
    | cut p i => exact hl q j hreg hlen

theorem outer_cell (hs : Sound root s) (hq : Inner q) (hf : tableAt s.mem root q = some f) (hreg : ¬Regular q)
    (hplace : ¬Regular (q ++ [j])) :
    s'.mem f j = s.mem f j := by
  induction h with
  | nil s => rfl
  | cons h rest ih =>
    rw [ih (h.sound hs) ((h.outer hs hq hreg).trans hf), h.outer_cell hs hq hf hplace]

/-- What is not cut stays. -/
theorem keeps (hs : Sound root s) (hq : Inner q) (hcut : ∀ p i, Edit.cut p i ∈ cs → q ≠ p ++ [i])
    (hf : tableAt s.mem root q = some f) :
    tableAt s'.mem root q = some f := by
  induction h with
  | nil s => exact hf
  | cons h rest ih =>
    refine ih (h.sound hs) (fun p i hmem => hcut p i (mem_cons_of_mem _ hmem)) ?_
    exact h.keeps hs hq (fun p i hc => hcut p i (hc ▸ mem_cons_self ..)) hf

theorem used_mono (hf : s.pmm.isUsed f = true) : s'.pmm.isUsed f = true := by
  induction h with
  | nil s => exact hf
  | cons h rest ih => exact ih (h.used_mono hf)

/-- Every frame a sequence takes is counted. -/
theorem freePages : s.pmm.freePages = s'.pmm.freePages + links cs := by
  induction h with
  | nil s => rfl
  | @cons c cs s s₁ s' h rest ih =>
    rcases h.pmm_link with ⟨p, i, e, rfl, hcount⟩ | ⟨hnot, hpmm⟩
    · simp only [links]
      omega
    · rw [hpmm] at ih
      cases c with
      | link p i e => exact absurd rfl (hnot p i e)
      | leaf p i e => exact ih
      | cut p i => exact ih

/-- Without links no table appears. -/
theorem old_of_no_links (hs : Sound root s) (hlinks : links cs = 0) (hq : Inner q)
    (hf : tableAt s'.mem root q = some f) : tableAt s.mem root q = some f := by
  induction h with
  | nil s => exact hf
  | @cons c cs s s₁ s' h rest ih =>
    cases c with
    | link p i e => exact absurd hlinks (Nat.succ_ne_zero _)
    | leaf p i e | cut p i =>
      rcases h.table_cases hs hq (ih (h.sound hs) hlinks hf) with hold | ⟨_, _, _, hc, -⟩
      · exact hold
      · cases hc

/-- **Memory changes only in tables and in frames the sequence took for tables.** -/
theorem changed (hs : Sound root s) (hne : s'.mem f j ≠ s.mem f j) :
    (∃ q, Inner q ∧ tableAt s.mem root q = some f) ∨
      (s.pmm.isUsed f = false ∧ s'.pmm.isUsed f = true) := by
  induction h with
  | nil s => exact absurd rfl hne
  | @cons c cs s s₁ s' h rest ih =>
    by_cases hstep : s₁.mem f j = s.mem f j
    · rcases ih (h.sound hs) (by rwa [hstep]) with ⟨q, hq, hf⟩ | ⟨hfree, hused⟩
      · rcases h.table_cases hs hq hf with hold | ⟨p, i, e, rfl, -, rfl⟩
        · exact .inl ⟨q, hq, hold⟩
        · obtain ⟨hfree, hused⟩ := h.link_used hs
          exact .inr ⟨hfree, rest.used_mono hused⟩
      · refine .inr ⟨?_, hused⟩
        rw [Bool.eq_false_iff]
        intro hold
        rw [h.used_mono hold] at hfree
        cases hfree
    · rcases h.changed hs hstep with hold | ⟨hfree, hused⟩
      · exact .inl hold
      · exact .inr ⟨hfree, rest.used_mono hused⟩

/-- An entry of a table at the end was written by the sequence, or was there in that table before. -/
theorem written (hs : Sound root s) (hq : Inner q) (hf : tableAt s'.mem root q = some f) (hne : s'.mem f j ≠ 0#64) :
    (∃ c ∈ cs, c.path = q ∧ c.place = j ∧ c.entry = s'.mem f j) ∨
      (tableAt s.mem root q = some f ∧ s.mem f j = s'.mem f j) := by
  induction h with
  | nil s => exact .inr ⟨hf, rfl⟩
  | @cons c cs s s₁ s' h rest ih =>
    rcases ih (h.sound hs) hf hne with ⟨c', hc', hplace⟩ | ⟨hf1, hsame⟩
    · exact .inl ⟨c', mem_cons_of_mem c hc', hplace⟩
    · rcases h.table_cases hs hq hf1 with hold | ⟨p, i, e, rfl, -, rfl⟩
      · rw [h.cell hs hq hold] at hsame
        by_cases hc : q = c.path ∧ j = c.place
        · rw [if_pos hc] at hsame
          exact .inl ⟨c, mem_cons_self .., hc.1.symm, hc.2.symm, hsame⟩
        · rw [if_neg hc] at hsame
          exact .inr ⟨hold, hsame⟩
      · exact absurd (hsame.symm.trans (h.linked hs j)) hne

/-- Where nothing is cut, the entry of a table stays. -/
theorem keeps_entry (hs : Sound root s) (hq : Inner q) (hlen : q.length ≤ 2) (hcut : ∀ p i, Edit.cut p i ∉ cs)
    (hf : tableAt s.mem root q = some f) (hp : isPresent (s.mem f j) = true) :
    s'.mem f j = s.mem f j := by
  induction h with
  | nil s => rfl
  | @cons c cs s s₁ s' h rest ih =>
    have hcell : s₁.mem f j = s.mem f j := by
      rw [h.cell hs hq hf, if_neg]
      rintro ⟨rfl, rfl⟩
      cases h with
      | link _ _ ht hfree =>
        rw [Option.mem_unique ht hf, ← Bool.not_eq_true] at hfree
        exact hfree hp
      | leaf _ hplen => exact absurd hlen (by simp only [Edit.path, hplen]; decide)
      | cut => exact hcut _ _ (mem_cons_self ..)
    have hkeep := h.keeps hs hq (fun p i hc => absurd (hc ▸ mem_cons_self ..) (hcut p i)) hf
    rw [ih (h.sound hs) (fun p i hmem => hcut p i (mem_cons_of_mem _ hmem)) hkeep (hcell ▸ hp), hcell]

end

end Edits

end Saios.Vmm
