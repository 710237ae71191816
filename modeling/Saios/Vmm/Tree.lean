/-
  The TREE OF TABLES that a PML4 spans, and the one invariant everything about it follows from.

  1. **Paths** — a table is named by the indices that lead to it (`tableAt`): `[]` is the PML4, `[l4]` a
     PDPT, `[l4, l3]` a PD, `[l4, l3, l2]` a PT.  Slot 511 leads back to the PML4, so paths that start
     with it are not admissible (`Inner`); slot 0 holds what bootstrap built, huge pages included.
     `Regular` paths avoid both.

  2. **`Paged`** — entry 511 is the recursive entry; different admissible paths lead to different
     frames; in regular places a non-present entry is zero and no entry above a PT is huge.  `Sound`
     adds that the PMM counts every table frame as used.

  3. **What the hardware sees** — at a recursive pointer the walk finds exactly the table of that path
     (`pages_tablePtrOf`), and at a regular address the entry of its PT (`translate_regular`).
-/
import Saios.Vmm.Manager
import Saios.Lib.EdgeTree

namespace Saios.Vmm

open Saios.Memory List Option

/-! ## Paths -/

/-- The table behind an entry above the PT level. -/
def edges (mem : Mem) (f : Nat) (i : Index) : Option Nat :=
  if isPresent (mem f i) = true ∧ isHuge (mem f i) = false then some (frame (mem f i)) else none

/-- The frame an entry points to, whatever its huge bit says. -/
def follow (mem : Mem) (f : Nat) (i : Index) : Option Nat :=
  if isPresent (mem f i) = true then some (frame (mem f i)) else none

/-- The frame of the table the indices `p` lead to. -/
def tableAt (mem : Mem) (root : Nat) (p : List Index) : Option Nat := EdgeTree.walk (edges mem) root p

/-- Paths to tables that do not go through the recursive slot. -/
def Inner (p : List Index) : Prop := p.length ≤ 3 ∧ p.head? ≠ some 511

/-- Paths below a PML4 slot that is neither bootstrap's nor the recursive one. -/
def Regular : List Index → Prop
  | [] => False
  | a :: _ => a ≠ 0 ∧ a ≠ 511

/-- Huge pages are in PDs only. -/
def Shallow (mem : Mem) (root : Nat) : Prop :=
  ∀ p f i, Inner p → p.length ≤ 1 → tableAt mem root p = some f → isHuge (mem f i) = false

variable {mem : Mem} {f : Nat} {i : Index}

theorem edges_eq_some {g : Nat} (h : edges mem f i = some g) :
    isPresent (mem f i) = true ∧ isHuge (mem f i) = false ∧ frame (mem f i) = g := by
  unfold edges at h
  split at h
  · rename_i hc
    exact ⟨hc.1, hc.2, some.inj h⟩
  · cases h

theorem edges_of_not_present (h : isPresent (mem f i) = false) : edges mem f i = none := if_neg (by simp [h])

theorem edges_congr {mem' : Mem} (h : mem' f i = mem f i) : edges mem' f i = edges mem f i := by
  unfold edges
  rw [h]

@[simp] theorem tableAt_nil (mem : Mem) (root : Nat) : tableAt mem root [] = some root := rfl

theorem tableAt_concat (mem : Mem) (root : Nat) (p : List Index) (i : Index) :
    tableAt mem root (p ++ [i]) = (tableAt mem root p).bind fun f => edges mem f i :=
  EdgeTree.walk_concat root p i

variable {root : Nat} {p : List Index}

theorem tableAt_of_init {q : List Index} (h : p <+: q) (hq : tableAt mem root q = some f) :
    ∃ g, tableAt mem root p = some g := by
  obtain ⟨r, rfl⟩ := h
  rw [tableAt, EdgeTree.walk_append] at hq
  obtain ⟨g, hg, -⟩ := bind_eq_some_iff.mp hq
  exact ⟨g, hg⟩

/-- Where no entry is huge the two are the same. -/
theorem tableAt_eq_follow
    (hsmall : ∀ q g i, q ++ [i] <+: p → tableAt mem root q = some g → isHuge (mem g i) = false) :
    tableAt mem root p = EdgeTree.walk (follow mem) root p :=
  (EdgeTree.walk_congr fun q i g hpre hg => by simp [edges, follow, hsmall q g i hpre hg]).symm

theorem inner_closed ⦃ks ls : List Index⦄ (h : ks <+: ls) (hls : Inner ls) : Inner ks := by
  obtain ⟨ms, rfl⟩ := h
  refine ⟨?_, ?_⟩
  · have := hls.1
    rw [length_append] at this
    omega
  · cases ks with
    | nil => simp
    | cons a ks => simpa using hls.2

theorem Regular.inner (h : Regular p) (hlen : p.length ≤ 3) : Inner p := by
  cases p with
  | nil => exact absurd h id
  | cons a p => exact ⟨hlen, fun heq => h.2 (by simpa using heq)⟩

theorem Regular.append (h : Regular p) (q : List Index) : Regular (p ++ q) := by
  cases p with
  | nil => exact absurd h id
  | cons a p => exact h

/-- A path with a regular extension is admissible. -/
theorem Regular.inner_init (h : Regular (p ++ [i])) (hlen : p.length ≤ 3) : Inner p := by
  cases p with
  | nil => exact ⟨by simp, by simp⟩
  | cons a p => exact Regular.inner h hlen

theorem Regular.of_init {q : List Index} (h : Regular q) (hp : p <+: q) (hne : p ≠ []) : Regular p := by
  obtain ⟨r, rfl⟩ := hp
  cases p with
  | nil => exact absurd rfl hne
  | cons a p => exact h

/-! ## The invariant -/

/-- Entry 511 of the PML4 points to the PML4. -/
structure Recursive (mem : Mem) (root : Nat) : Prop where
  recPresent : isPresent (mem root 511) = true
  recSmall : isHuge (mem root 511) = false
  recFrame : frame (mem root 511) = root

/-- The tables below `root` as the manager keeps them. -/
structure Paged (mem : Mem) (root : Nat) : Prop extends Recursive mem root where
  /-- Different paths lead to different tables. -/
  apart : EdgeTree.Apart (edges mem) root Inner
  /-- What is not present is zero. -/
  clean : ∀ {p f i}, Regular (p ++ [i]) → p.length ≤ 3 → tableAt mem root p = some f →
    isPresent (mem f i) = false → mem f i = 0#64
  /-- No huge pages. -/
  small : ∀ {p f i}, Regular (p ++ [i]) → p.length ≤ 2 → tableAt mem root p = some f →
    isHuge (mem f i) = false

/-- ... and the PMM hands out none of their frames. -/
structure Sound (root : Nat) (s : Space) : Prop extends Paged s.mem root where
  used : ∀ {p f}, Inner p → tableAt s.mem root p = some f → s.pmm.isUsed f = true
  tracked : s.pmm.trackedPages ≤ maxPages

/-! ## Walking down tables -/

/-- The indices of `virt` for `j` levels from level `hi` down. -/
def levels (virt : Nat) : Nat → Nat → List Index
  | hi + 1, j + 1 => index hi virt :: levels virt hi j
  | _, _ => []

variable {virt : Nat}

theorem walk_next {level : Nat} (hp : isPresent (mem f (index level virt)) = true)
    (hh : isHuge (mem f (index level virt)) = false) :
    walk mem virt (level + 1) f = walk mem virt level (frame (mem f (index level virt))) := by
  rw [walk]
  simp [hp, hh]

theorem walk_stop {level : Nat} (hp : isPresent (mem f (index level virt)) = false) :
    walk mem virt (level + 1) f = none := by
  rw [walk]
  simp [hp]

/-- While no entry on the way is huge, the hardware follows the edges. -/
theorem walk_levels : ∀ {j hi f : Nat}, j ≤ hi →
    (∀ q g i, q ++ [i] <+: levels virt hi j → EdgeTree.walk (edges mem) f q = some g →
      isHuge (mem g i) = false) →
    walk mem virt hi f =
      (EdgeTree.walk (edges mem) f (levels virt hi j)).bind fun g => walk mem virt (hi - j) g
  | 0, hi, f, _, _ => by simp [levels]
  | j + 1, 0, f, h, _ => by omega
  | j + 1, hi + 1, f, h, hsmall => by
      have hh : isHuge (mem f (index hi virt)) = false :=
        hsmall [] f (index hi virt) (by simp [levels]) rfl
      rw [levels, EdgeTree.walk_cons]
      by_cases hp : isPresent (mem f (index hi virt)) = true
      · have hedge : edges mem f (index hi virt) = some (frame (mem f (index hi virt))) :=
          if_pos ⟨hp, hh⟩
        rw [walk_next hp hh, hedge, bind_some, show hi + 1 - (j + 1) = hi - j by omega]
        refine walk_levels (by omega) fun q g i hpre hq => ?_
        refine hsmall (index hi virt :: q) g i ?_ ?_
        · simpa [levels] using hpre
        · rw [EdgeTree.walk_cons, hedge, bind_some, hq]
      · rw [Bool.not_eq_true] at hp
        rw [walk_stop hp, edges_of_not_present hp]
        rfl

/-- In regular places it does so from the PML4 to the PTs. -/
theorem Paged.walk_levels {j hi : Nat} (h : Paged mem root) (hj : j ≤ hi)
    (hlen : (levels virt hi j).length ≤ 3) (hreg : Regular (levels virt hi j)) :
    walk mem virt hi root =
      (tableAt mem root (levels virt hi j)).bind fun g => walk mem virt (hi - j) g := by
  refine Vmm.walk_levels hj fun q g i hpre hq => ?_
  have hq' := hpre.length_le
  rw [length_append, length_singleton] at hq'
  exact h.small (hreg.of_init hpre (by simp)) (by omega) hq

/-! ## Recursive pointers -/

/-- The four parts of a recursive pointer do not overlap. -/
theorem tablePtr_eq {b c d : Nat} (hb : b < 512) (hc : c < 512) (hd : d < 512) :
    tablePtr recursiveSlot b c d =
      0xFFFF000000000000 + 511 * 2 ^ 39 + b * 2 ^ 30 + c * 2 ^ 21 + d * 2 ^ 12 := by
  have hsum : (recursiveSlot <<< 39) ||| (b <<< 30) ||| (c <<< 21) ||| (d <<< 12) =
      511 * 2 ^ 39 + (b * 2 ^ 30 + (c * 2 ^ 21 + d * 2 ^ 12)) := by
    rw [Nat.or_assoc, Nat.or_assoc]
    rw [← Nat.shiftLeft_add_eq_or_of_lt (by omega) c]
    rw [← Nat.shiftLeft_add_eq_or_of_lt
      (by omega) b]
    rw [← Nat.shiftLeft_add_eq_or_of_lt
      (by omega)
      recursiveSlot]
    simp only [Nat.shiftLeft_eq, recursiveSlot]
  have hbit : (511 * 2 ^ 39 + (b * 2 ^ 30 + (c * 2 ^ 21 + d * 2 ^ 12))) &&& (1 <<< 47) ≠ 0 := by
    rw [Nat.shiftLeft_eq, Nat.one_mul, Nat.and_two_pow, Nat.testBit_eq_decide_div_mod_eq,
      decide_eq_true (by omega)]
    decide
  rw [tablePtr, hsum, canonicalize48, if_pos hbit, Nat.or_comm,
    show 0xFFFF000000000000 = 0xFFFF <<< 48 from rfl, ← Nat.shiftLeft_add_eq_or_of_lt (by omega)]
  omega

section Pointer

variable (b c d : Index)

theorem index_tablePtr :
    index 3 (tablePtr recursiveSlot b c d) = 511 ∧ index 2 (tablePtr recursiveSlot b c d) = b ∧
    index 1 (tablePtr recursiveSlot b c d) = c ∧ index 0 (tablePtr recursiveSlot b c d) = d := by
  have hb := b.isLt
  have hc := c.isLt
  have hd := d.isLt
  rw [tablePtr_eq hb hc hd]
  refine ⟨?_, ?_, ?_, ?_⟩ <;>
  · refine Fin.ext ?_
    simp only [index, Fin.val_ofNat]
    omega

theorem path_tablePtr : path (tablePtr recursiveSlot b c d) = [511, b, c, d] := by
  obtain ⟨h3, h2, h1, h0⟩ := index_tablePtr b c d
  rw [path, h3, h2, h1, h0]

theorem canonical_tablePtr : Canonical (tablePtr recursiveSlot b c d) := by
  rw [tablePtr_eq b.isLt c.isLt d.isLt]
  exact .inr (by omega)

theorem tablePtr_mod : tablePtr recursiveSlot b c d % 4096 = 0 := by
  rw [tablePtr_eq b.isLt c.isLt d.isLt]
  omega

/-- The hardware's view of a recursive pointer is a walk of its own address. -/
theorem translatePage_tablePtr (mem : Mem) (root : Nat) :
    translatePage mem root (tablePtr recursiveSlot b c d / 4096) =
      (walk mem (tablePtr recursiveSlot b c d) 4 root).map (· / 4096) := by
  have hmod := tablePtr_mod b c d
  rw [translatePage, Nat.div_mul_cancel (Nat.dvd_of_mod_eq_zero hmod), translate,
    if_pos (canonical_tablePtr b c d)]

end Pointer

/-- The pointer at which the table of a path appears. -/
def tablePtrOf : List Index → Nat
  | [] => pml4TablePtr
  | [l4] => pdptTablePtr l4
  | [l4, l3] => pdTablePtr l4 l3
  | [l4, l3, l2] => ptTablePtr l4 l3 l2
  | _ => 0

theorem Recursive.walk_rec {level : Nat} (h : Recursive mem root) (hi : index level virt = 511) :
    walk mem virt (level + 1) root = walk mem virt level root := by
  rw [walk_next (by rw [hi]; exact h.recPresent) (by rw [hi]; exact h.recSmall), hi, h.recFrame]

/-- **At the pointer of a path the hardware finds the table of that path**, if no entry above the last is huge.
    The recursive entry is followed once per level that the path is short of four, and the last entry is read
    as one of a PT, where there are no huge pages. -/
theorem Recursive.pages_concat (h : Recursive mem root) {q : List Index} (hlen : q.length ≤ 2) (i : Index)
    (hsmall : ∀ p g j, p ++ [j] <+: q → tableAt mem root p = some g → isHuge (mem g j) = false) :
    translatePage mem root (tablePtrOf (q ++ [i]) / 4096) = EdgeTree.walk (follow mem) root (q ++ [i]) := by
  have hrest : ∀ virt : Nat, virt % 4096 = 0 → levels virt (q.length + 1) q.length = q → index 0 virt = i →
      (walk mem virt (q.length + 1) root).map (· / 4096) = EdgeTree.walk (follow mem) root (q ++ [i]) := by
    intro virt hv hlv hi
    rw [walk_levels (Nat.le_add_right _ 1) (by rw [hlv]; exact hsmall), hlv, ← tableAt,
      EdgeTree.walk_concat, ← tableAt_eq_follow hsmall]
    cases tableAt mem root q with
    | none => rfl
    | some g => by_cases hp : isPresent (mem g i) = true <;> simp [walk, follow, hi, hp, hv]
  match q, hlen, hrest with
  | [], _, hrest =>
    obtain ⟨h3, h2, h1, h0⟩ := index_tablePtr 511 511 i
    rw [← hrest _ (tablePtr_mod 511 511 i) rfl h0]
    exact (translatePage_tablePtr 511 511 i mem root).trans
      (by rw [h.walk_rec h3, h.walk_rec h2, h.walk_rec h1]; rfl)
  | [a], _, hrest =>
    obtain ⟨h3, h2, h1, h0⟩ := index_tablePtr 511 a i
    rw [← hrest _ (tablePtr_mod 511 a i) (by simp only [length_singleton, levels, h1]) h0]
    exact (translatePage_tablePtr 511 a i mem root).trans (by rw [h.walk_rec h3, h.walk_rec h2]; rfl)
  | [a, b], _, hrest =>
    obtain ⟨h3, h2, h1, h0⟩ := index_tablePtr a b i
    rw [← hrest _ (tablePtr_mod a b i) (by simp only [length_cons, length_nil, levels, h2, h1]) h0]
    exact (translatePage_tablePtr a b i mem root).trans (by rw [h.walk_rec h3]; rfl)

/-- So it does if no entry on the path is huge. -/
theorem Recursive.pages (h : Recursive mem root) (hlen : p.length ≤ 3)
    (hsmall : ∀ q g i, q ++ [i] <+: p → tableAt mem root q = some g → isHuge (mem g i) = false) :
    translatePage mem root (tablePtrOf p / 4096) = tableAt mem root p := by
  rw [tableAt_eq_follow hsmall]
  cases p using reverseRecOn with
  | nil =>
    obtain ⟨h3, h2, h1, h0⟩ := index_tablePtr 511 511 511
    refine (translatePage_tablePtr 511 511 511 mem root).trans ?_
    rw [h.walk_rec h3, h.walk_rec h2, h.walk_rec h1, h.walk_rec h0, walk, tablePtr_mod 511 511 511]
    simp
  | append_singleton q i =>
    rw [length_append, length_singleton] at hlen
    exact h.pages_concat (by omega) i fun p g j hpre => hsmall p g j (hpre.trans (prefix_append q [i]))

/-- In regular places nothing is huge. -/
theorem Paged.pages_tablePtrOf (h : Paged mem root) (hp : p = [] ∨ Regular p) (hlen : p.length ≤ 3) :
    translatePage mem root (tablePtrOf p / 4096) = tableAt mem root p := by
  refine h.pages hlen fun q g i hpre hq => ?_
  have hle := hpre.length_le
  rw [length_append, length_singleton] at hle
  rcases hp with rfl | hreg
  · simp at hle
  · exact h.small (hreg.of_init hpre (by simp)) (by omega) hq

/-! ## Regular addresses -/

/-- The path to the PT of an address. -/
def tablePath (virt : Nat) : List Index := [index 3 virt, index 2 virt, index 1 virt]

/-- The entry in place `i` of the PT at `p`; zero where there is no PT. -/
def leafAt (mem : Mem) (root : Nat) (p : List Index) (i : Index) : Entry :=
  ((tableAt mem root p).map fun f => mem f i).getD 0#64

theorem frame_mul (e : Entry) : frame e * 4096 = address e := by
  have hbits : address e % 4096 = 0 := by
    have : (address e) &&& 4095 = 0 := by
      rw [address, BitVec.toNat_and, Nat.and_assoc, show addrMask.toNat &&& 4095 = 0 by decide,
        Nat.and_zero]
    rwa [show (4095 : Nat) = 2 ^ 12 - 1 from rfl, Nat.and_two_pow_sub_one_eq_mod] at this
  rw [frame]
  omega

/-- **At a regular address the hardware finds what its PT says.** -/
theorem Paged.translate_regular (h : Paged mem root) (hc : Canonical virt) (hreg : Regular (path virt)) :
    translate mem root virt =
      if isPresent (leafAt mem root (tablePath virt) (index 0 virt)) = true then
        some (address (leafAt mem root (tablePath virt) (index 0 virt)) + virt % 4096)
      else none := by
  have hwalk : walk mem virt 4 root =
      (tableAt mem root (levels virt 4 3)).bind fun g => walk mem virt (4 - 3) g :=
    h.walk_levels (by decide) (by simp [levels]) hreg
  rw [translate, if_pos hc, hwalk, show levels virt 4 3 = tablePath virt from rfl, leafAt]
  cases tableAt mem root (tablePath virt) with
  | none => simp
  | some f =>
    simp only [bind_some, map_some, getD_some]
    by_cases hp : isPresent (mem f (index 0 virt)) = true
    · simp [hp, walk, frame_mul]
    · rw [if_neg hp, walk_stop (by simpa using hp)]

/-! ## What a walk reads -/

/-- The walk of `virt` reads one entry in each table on its path: memories that agree there translate it
    alike.  The induction is on the levels left below the table at `q`. -/
theorem walk_cells {mem' : Mem}
    (hcells : ∀ q i f, q ++ [i] <+: path virt → tableAt mem root q = some f → mem' f i = mem f i) :
    ∀ (level : Nat) (q : List Index) (f : Nat), q ++ levels virt level level = path virt →
      tableAt mem root q = some f → walk mem' virt level f = walk mem virt level f
  | 0, q, f, _, _ => rfl
  | level + 1, q, f, hq, hf => by
      have hpath : q ++ [index level virt] ++ levels virt level level = path virt := by
        rw [← hq, levels, append_assoc]
        rfl
      have hcell := hcells q (index level virt) f ⟨_, hpath⟩ hf
      rw [walk, walk, hcell]
      by_cases hp : isPresent (mem f (index level virt)) = false
      · rw [if_pos hp, if_pos hp]
      rw [if_neg hp, if_neg hp]
      by_cases hh : isHuge (mem f (index level virt)) = true ∧ level ≠ 0
      · rw [if_pos hh, if_pos hh]
      rw [if_neg hh, if_neg hh]
      by_cases hlast : level = 0
      · rw [hlast]; rfl
      · refine walk_cells hcells level (q ++ [index level virt]) _ hpath ?_
        rw [tableAt_concat, hf, bind_some, edges, if_pos]
        exact ⟨by simpa using hp, by simpa [hlast] using hh⟩

theorem translate_cells {mem' : Mem}
    (hcells : ∀ q i f, q ++ [i] <+: path virt → tableAt mem root q = some f → mem' f i = mem f i) :
    translate mem' root virt = translate mem root virt := by
  unfold translate
  rw [walk_cells hcells 4 [] root rfl rfl]

/-! ## The self-map -/

/-- A translation keeps the place in the page. -/
theorem walk_mod : ∀ {level f a : Nat}, walk mem virt level f = some a → a % 4096 = virt % 4096
  | 0, f, a, h => by
      rw [walk, some.injEq] at h
      omega
  | level + 1, f, a, h => by
      rw [walk] at h
      split at h
      · cases h
      split at h
      · split at h
        · cases h
        · rw [some.injEq, Nat.pow_add] at h
          rw [← h, Nat.mul_left_comm, Nat.mul_add_mod, Nat.mod_mul_right_mod]
      · exact walk_mod h

/-- A pointer has one recursive index for each level its path is short of four, ... -/
theorem tablePtrOf_eq : ∀ {p : List Index}, p.length ≤ 3 → ∃ b c d : Index,
    tablePtrOf p = tablePtr recursiveSlot b c d ∧ [511, b, c, d] = replicate (4 - p.length) 511 ++ p
  | [], _ => ⟨511, 511, 511, rfl, rfl⟩
  | [a], _ => ⟨511, 511, a, rfl, rfl⟩
  | [a, b], _ => ⟨511, a, b, rfl, rfl⟩
  | [a, b, c], _ => ⟨a, b, c, rfl, rfl⟩

theorem canonical_tablePtrOf (hlen : p.length ≤ 3) : Canonical (tablePtrOf p) := by
  obtain ⟨b, c, d, hptr, -⟩ := tablePtrOf_eq hlen
  rw [hptr]
  exact canonical_tablePtr b c d

/-- ... so it names one table only. -/
theorem Inner.drop_path (h : Inner p) : (path (tablePtrOf p)).dropWhile (· == 511) = p := by
  obtain ⟨b, c, d, hptr, hpath⟩ := tablePtrOf_eq h.1
  rw [hptr, path_tablePtr, hpath,
    dropWhile_append_of_pos fun i hi => by simp [eq_of_mem_replicate hi]]
  cases p with
  | nil => rfl
  | cons a p => exact dropWhile_cons_of_neg fun ha => h.2 (congrArg some (eq_of_beq ha))

theorem tablePtrOf_inj {q : List Index} (hp : Inner p) (hq : Inner q) (heq : tablePtrOf p = tablePtrOf q) :
    p = q := by
  rw [← hp.drop_path, heq, hq.drop_path]

/-- The hardware finds the first byte of the table there. -/
theorem Recursive.translate_ptr (h : Recursive mem root) (hlen : p.length ≤ 3)
    (hp : tableAt mem root p = some f) : translate mem root (tablePtrOf p) = some (f * 4096) := by
  have hsmall : ∀ q g i, q ++ [i] <+: p → tableAt mem root q = some g → isHuge (mem g i) = false := by
    intro q g i hpre hq
    obtain ⟨g', hg⟩ := tableAt_of_init hpre hp
    rw [tableAt_concat, hq, bind_some] at hg
    exact (edges_eq_some hg).2.1
  have hpage := h.pages hlen hsmall
  obtain ⟨b, c, d, hptr, -⟩ := tablePtrOf_eq hlen
  rw [hptr, translatePage_tablePtr, hp, map_eq_some_iff] at hpage
  obtain ⟨a, ha, hf⟩ := hpage
  have hmod := walk_mod ha
  rw [tablePtr_mod] at hmod
  rw [hptr, translate, if_pos (canonical_tablePtr b c d), ha, show a = f * 4096 by omega]

/-- **The recursive pointers are the tables.**  Where the entries on the way are present and not huge, the
    pointers to the PML4, a PDPT, a PD and a PT translate to the tables a walk with the same indices
    reaches; all are canonical, and no two of them are the same. -/
theorem self_map (h : Recursive mem root) :
    (∀ l4 l3 l2 : Index, l4 ≠ 511 →
      translate mem root pml4TablePtr = some (root * 4096) ∧
      (∀ f, tableAt mem root [l4] = some f → translate mem root (pdptTablePtr l4) = some (f * 4096)) ∧
      (∀ f, tableAt mem root [l4, l3] = some f →
        translate mem root (pdTablePtr l4 l3) = some (f * 4096)) ∧
      (∀ f, tableAt mem root [l4, l3, l2] = some f →
        translate mem root (ptTablePtr l4 l3 l2) = some (f * 4096)) ∧
      (∀ ptr ∈ [pml4TablePtr, pdptTablePtr l4, pdTablePtr l4 l3, ptTablePtr l4 l3 l2], Canonical ptr) ∧
      [pml4TablePtr, pdptTablePtr l4, pdTablePtr l4 l3, ptTablePtr l4 l3 l2].Nodup) ∧
    ∀ p q, Inner p → Inner q → tablePtrOf p = tablePtrOf q → p = q := by
  refine ⟨fun l4 l3 l2 hl4 => ?_, fun p q hp hq => tablePtrOf_inj hp hq⟩
  have hinner : ∀ p ∈ [[], [l4], [l4, l3], [l4, l3, l2]], Inner p := by simp [Inner, hl4]
  refine ⟨h.translate_ptr (by simp) (tableAt_nil mem root), fun f => h.translate_ptr (by simp),
    fun f => h.translate_ptr (by simp), fun f => h.translate_ptr (by simp), ?_, ?_⟩
  · have hcan : ∀ p ∈ [[], [l4], [l4, l3], [l4, l3, l2]], Canonical (tablePtrOf p) := fun p hp =>
      canonical_tablePtrOf (hinner p hp).1
    exact forall_mem_map.mpr hcan
  · have hdistinct : [[], [l4], [l4, l3], [l4, l3, l2]].Nodup := by simp
    have hptrs : ([[], [l4], [l4, l3], [l4, l3, l2]].map tablePtrOf).Nodup :=
      pairwise_map.mpr (hdistinct.imp_of_mem fun hp hq hne heq =>
        hne (tablePtrOf_inj (hinner _ hp) (hinner _ hq) heq))
    exact hptrs

/-- Four tables in a row, in frames 1 to 4. -/
def chain : Mem := fun f i =>
  if f = 1 ∧ i = 511 then 0x1003#64 else if i = 0 then setPage 0#64 ((f + 1) * 4096) flagWritable else 0#64

theorem self_map_chain : translate chain 1 (ptTablePtr 0 0 0) = some (4 * 4096) :=
  ((self_map ⟨by decide, by decide, by decide⟩).1 0 0 0 (by decide)).2.2.2.1 4 (by decide)

end Saios.Vmm
