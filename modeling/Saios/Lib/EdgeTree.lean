/-
  TREES GIVEN BY NAMED EDGES: a partial function `e : node → label → node`.

  `walk e i ks` follows the labels `ks` from `i`.  When no node is the end of two edges and the root is
  the end of none (`Tree`), a node is reached from the root along at most one path (`Tree.walk_inj`).
  Edges read off a memory exist at nodes that nobody reaches, so `Tree` asks too much of them.  `Apart`
  asks only that different ADMISSIBLE paths (a set `D` closed under prefixes) lead to different nodes.
  The other lemmas say what one change of the edges does to ALL walks from the root:

  1. `Apart.walk_link` — a new edge to a node without edges adds one path;
  2. `Apart.walk_cut` — taking away the edge to a node without edges takes away one path;
  3. `walk_move` — moving an edge moves the paths through it: those below the new place are the old
     ones below the old place, those below the old place are gone, all others stay;
  4. `Tree.walk_undisturbed` — what stays when a node is moved from anywhere to anywhere, below itself
     and out of reach included.
-/
import Mathlib.Data.List.Basic
import Mathlib.Data.List.Infix

namespace EdgeTree

open List Option

variable {ι κ : Type*} {e e' : ι → κ → Option ι} {root i p q : ι}

/-- The node that the labels lead to. -/
def walk (e : ι → κ → Option ι) : ι → List κ → Option ι
  | i, [] => some i
  | i, k :: ks => (e i k).bind fun j => walk e j ks

@[simp] theorem walk_nil (i : ι) : walk e i [] = some i := rfl

theorem walk_cons (i : ι) (k : κ) (ks : List κ) :
    walk e i (k :: ks) = (e i k).bind fun j => walk e j ks := rfl

theorem walk_append (i : ι) (ks ls : List κ) :
    walk e i (ks ++ ls) = (walk e i ks).bind fun j => walk e j ls := by
  induction ks generalizing i with
  | nil => rfl
  | cons k ks ih =>
    rw [cons_append, walk_cons, walk_cons]
    cases e i k with
    | none => rfl
    | some j => simp only [bind_some, ih]

theorem walk_concat (i : ι) (ks : List κ) (k : κ) :
    walk e i (ks ++ [k]) = (walk e i ks).bind fun j => e j k := by
  rw [walk_append]
  cases walk e i ks with
  | none => rfl
  | some j =>
    simp only [bind_some, walk_cons]
    cases e j k <;> rfl

/-- No node is the end of two edges, and the root is the end of none. -/
structure Tree (e : ι → κ → Option ι) (root : ι) : Prop where
  inj : ∀ {p q k l i}, e p k = some i → e q l = some i → p = q ∧ k = l
  root_free : ∀ p k, e p k ≠ some root

/-- **A node has at most one path.** -/
theorem Tree.walk_inj (h : Tree e root) {ks ls : List κ} (hk : walk e root ks = some i)
    (hl : walk e root ls = some i) : ks = ls := by
  induction ks using reverseRecOn generalizing i ls with
  | nil =>
    obtain rfl : root = i := some.inj hk
    cases ls using reverseRecOn with
    | nil => rfl
    | append_singleton ls l =>
      rw [walk_concat] at hl
      obtain ⟨j, -, hj⟩ := bind_eq_some_iff.mp hl
      exact absurd hj (h.root_free j l)
  | append_singleton ks k ih =>
    rw [walk_concat] at hk
    obtain ⟨j, hj, hjk⟩ := bind_eq_some_iff.mp hk
    cases ls using reverseRecOn with
    | nil =>
      obtain rfl : root = i := some.inj hl
      exact absurd hjk (h.root_free j k)
    | append_singleton ls l =>
      rw [walk_concat] at hl
      obtain ⟨j', hj', hjl⟩ := bind_eq_some_iff.mp hl
      obtain ⟨rfl, rfl⟩ := h.inj hjk hjl
      rw [ih hj hj']

/-- Walks that meet the same edges end at the same node. -/
theorem walk_congr {ls : List κ}
    (h : ∀ ks k q, ks ++ [k] <+: ls → walk e root ks = some q → e' q k = e q k) :
    walk e' root ls = walk e root ls := by
  induction ls using reverseRecOn with
  | nil => rfl
  | append_singleton ls l ih =>
    rw [walk_concat, walk_concat,
      ih fun ks k q hpre => h ks k q (hpre.trans (prefix_append ls [l]))]
    cases hw : walk e root ls with
    | none => rfl
    | some q => exact h ls l q (prefix_refl _) hw

theorem not_concat_init (ps : List κ) (k : κ) : ¬(ps ++ [k]) <+: ps := fun hpre => by
  have hle := hpre.length_le
  rw [length_append, length_singleton] at hle
  omega

/-- **The edge** `p —k→ i` **moved** to `q —l→ i`, when `q` is not below it.  Three cases for a path:
    below the new place, below the old place, elsewhere. -/
theorem walk_move (h : Tree e root) {ps qs : List κ} {k l : κ} (hp : walk e root ps = some p)
    (hedge : e p k = some i) (hq : walk e root qs = some q) (hout : ¬(ps ++ [k]) <+: qs)
    (hfree : e q l = none) (hnew : e' q l = some i) (hgone : ¬(p = q ∧ k = l) → e' p k = none)
    (hsame : ∀ r m, ¬(r = p ∧ m = k) → ¬(r = q ∧ m = l) → e' r m = e r m) :
    (∀ ms, walk e' root (qs ++ [l] ++ ms) = walk e root (ps ++ [k] ++ ms)) ∧
    (∀ ms, (ps ++ [k]) <+: ms → ¬(qs ++ [l]) <+: ms → walk e' root ms = none) ∧
    (∀ ms, ¬(ps ++ [k]) <+: ms → ¬(qs ++ [l]) <+: ms → walk e' root ms = walk e root ms) := by
  have hi : walk e root (ps ++ [k]) = some i := by rw [walk_concat, hp, bind_some, hedge]
  have hne : ¬(p = q ∧ k = l) := by
    rintro ⟨rfl, rfl⟩
    rw [hedge] at hfree; cases hfree
  -- paths that avoid both places meet the old edges
  have helse : ∀ ms, ¬(ps ++ [k]) <+: ms → ¬(qs ++ [l]) <+: ms → walk e' root ms = walk e root ms := by
    intro ms hps hqs
    refine walk_congr fun ks m r hpre hw => hsame r m ?_ ?_
    · rintro ⟨rfl, rfl⟩
      exact hps (h.walk_inj hw hp ▸ hpre)
    · rintro ⟨rfl, rfl⟩
      exact hqs (h.walk_inj hw hq ▸ hpre)
  -- the places themselves
  have hq' : walk e' root (qs ++ [l]) = some i := by
    rw [walk_concat, helse qs hout (not_concat_init qs l), hq, bind_some, hnew]
  -- below `i` the edges are the old ones: neither `p` nor `q` is below `i`
  have hbelow : ∀ ms, walk e' i ms = walk e i ms := by
    intro ms
    refine walk_congr fun ks m r _ hw => ?_
    have hr : walk e root (ps ++ [k] ++ ks) = some r := by
      rw [walk_append, hi, bind_some, hw]
    refine hsame r m ?_ ?_
    · rintro ⟨rfl, rfl⟩
      have hlen := congrArg List.length (h.walk_inj hr hp)
      simp at hlen
    · rintro ⟨rfl, rfl⟩
      exact hout (by rw [← h.walk_inj hr hq]; exact prefix_append _ _)
  refine ⟨fun ms => ?_, ?_, helse⟩
  · rw [walk_append, hq', bind_some, walk_append, hi, bind_some, hbelow]
  · rintro ms ⟨ns, rfl⟩ hqs
    -- up to `p` the walk is the old one, and then its edge is missing
    have hqp : ¬(qs ++ [l]) <+: ps := fun hpre =>
      hqs ((hpre.trans (prefix_append _ _)).trans (prefix_append _ _))
    rw [walk_append, walk_concat, helse ps (not_concat_init ps k) hqp, hp, bind_some, hgone hne]; rfl

/-- A way to a node from anywhere is the end of the way from the root. -/
theorem Tree.walk_back (h : Tree e root) {ls ks : List κ} {j : ι} (hl : walk e root ls = some j)
    (hk : walk e i ks = some j) : ∃ ms, walk e root ms = some i ∧ ls = ms ++ ks := by
  induction ks using reverseRecOn generalizing j ls with
  | nil =>
    obtain rfl : i = j := some.inj hk
    exact ⟨ls, hl, (append_nil ls).symm⟩
  | append_singleton ks k ih =>
    rw [walk_concat] at hk
    obtain ⟨r, hr, hrk⟩ := bind_eq_some_iff.mp hk
    cases ls using reverseRecOn with
    | nil =>
      obtain rfl : root = j := some.inj hl
      exact absurd hrk (h.root_free r k)
    | append_singleton ls l =>
      rw [walk_concat] at hl
      obtain ⟨r', hr', hrl⟩ := bind_eq_some_iff.mp hl
      obtain ⟨rfl, rfl⟩ := h.inj hrk hrl
      obtain ⟨ms, hms, rfl⟩ := ih hr' hr
      exact ⟨ms, hms, by rw [append_assoc]⟩

/-- **A node leaves its place and lands at free places** `S` of one node, wherever it and they are: a path
    on which nothing was lost and nothing is found leads to the same node as before. -/
theorem Tree.walk_undisturbed (h : Tree e root) {S : ι → κ → Prop} (hi : i ≠ root)
    (hone : ∀ r m r' m', S r m → S r' m' → r = r') (hfree : ∀ r m, S r m → e r m = none)
    (hland : ∀ r m j, S r m → e' r m = some j → j = i)
    (hgone : ∀ r m, e r m = some i → e' r m = none)
    (hsame : ∀ r m, e r m ≠ some i → ¬S r m → e' r m = e r m) {ms : List κ}
    (hlost : ∀ ks, walk e root ks = some i → ks <+: ms → walk e root ms = none)
    (hfound : ∀ qs r l ns, walk e root qs = some r → S r l → ms = qs ++ [l] ++ ns → walk e i ns = none) :
    walk e' root ms = walk e root ms := by
  -- a path that leads somewhere and does not go through `i` is walked as before
  have hstay : ∀ {ns : List κ} {j : ι}, walk e root ns = some j →
      (∀ ks, walk e root ks = some i → ¬ks <+: ns) → walk e' root ns = some j := by
    intro ns j hj hout
    rw [← hj]
    refine walk_congr fun ks k r hpre hr => hsame r k ?_ ?_
    · intro hki
      exact hout _ (by rw [walk_concat, hr, bind_some, hki]) hpre
    · intro hS
      obtain ⟨tail, rfl⟩ := hpre
      rw [walk_append, walk_concat, hr, bind_some, hfree r k hS] at hj
      cases hj
  by_cases hthrough : ∃ ks, walk e root ks = some i ∧ ks <+: ms
  · obtain ⟨ks, hks, hpre⟩ := hthrough
    rw [hlost ks hks hpre]
    obtain ⟨tail, rfl⟩ := hpre
    cases ks using reverseRecOn with
    | nil => exact absurd (some.inj hks).symm hi
    | append_singleton ks k =>
      have hks' := hks
      rw [walk_concat] at hks'
      obtain ⟨r, hr, hrk⟩ := bind_eq_some_iff.mp hks'
      have hr' : walk e' root ks = some r := hstay hr fun ns hns hpre =>
        not_concat_init ks k (h.walk_inj hks hns ▸ hpre)
      rw [walk_append, walk_concat, hr', bind_some, hgone r k hrk]; rfl
  have hout : ∀ ks, walk e root ks = some i → ¬ks <+: ms := fun ks hks hpre => hthrough ⟨ks, hks, hpre⟩
  by_cases hspot : ∃ qs r l ns, walk e root qs = some r ∧ S r l ∧ ms = qs ++ [l] ++ ns
  · obtain ⟨qs, r, l, ns, hqs, hS, rfl⟩ := hspot
    have hqs' : walk e' root qs = some r := hstay hqs fun ks hks hpre =>
      hout ks hks ((hpre.trans (prefix_append qs [l])).trans (prefix_append _ ns))
    rw [walk_append, walk_concat, hqs', walk_append, walk_concat, hqs, bind_some, bind_some,
      hfree r l hS]
    cases hnew : e' r l with
    | none => rfl
    | some j =>
      obtain rfl := hland r l j hS hnew
      -- below the node there are no other edges than before, since no free place is below it
      have hsub : ∀ {ks : List κ} {b : ι}, walk e' j ks = some b → walk e j ks = some b := by
        intro ks
        induction ks using reverseRecOn with
        | nil => exact fun hb => hb
        | append_singleton ks k ih =>
          intro b hb
          rw [walk_concat] at hb ⊢
          obtain ⟨a, ha, hab⟩ := bind_eq_some_iff.mp hb
          rw [ih ha, bind_some]
          by_cases haS : S a k
          · -- then the way to the free place goes through the node
            obtain rfl := hone a k r l haS hS
            obtain ⟨is, his, rfl⟩ := h.walk_back hqs (ih ha)
            exact absurd (((prefix_append is ks).trans (prefix_append _ [l])).trans
              (prefix_append _ ns)) (hout is his)
          · by_cases haj : e a k = some j
            · rw [hgone a k haj] at hab; cases hab
            · rw [← hsame a k haj haS, hab]
      cases hns : walk e' j ns with
      | none => exact hns
      | some b => cases (hfound qs r l ns hqs hS rfl).symm.trans (hsub hns)
  · refine walk_congr fun ks k r hpre hr => hsame r k ?_ ?_
    · intro hki
      exact hout _ (by rw [walk_concat, hr, bind_some, hki]) hpre
    · rintro hS
      obtain ⟨tail, rfl⟩ := hpre
      exact hspot ⟨ks, r, k, tail, hr, hS, rfl⟩

/-! ## Trees seen along admissible paths -/

/-- Different paths of `D` lead to different nodes. -/
def Apart (e : ι → κ → Option ι) (root : ι) (D : List κ → Prop) : Prop :=
  ∀ ⦃ks ls : List κ⦄ ⦃i : ι⦄, D ks → D ls → walk e root ks = some i → walk e root ls = some i →
    ks = ls

/-- In a tree all paths are apart. -/
theorem Tree.apart (h : Tree e root) : Apart e root fun _ => True := fun _ _ _ _ _ hk hl => h.walk_inj hk hl

section Apart

variable {D : List κ → Prop} {ps ls : List κ} {k : κ}

section Edge

variable (h : Apart e root D) (hD : ∀ ⦃ks ls⦄, ks <+: ls → D ls → D ks) (hps : D ps) (hp : walk e root ps = some p)
  (hsame : ∀ ks q l, D ks → walk e root ks = some q → ¬(q = p ∧ l = k) → e' q l = e q l)

include h hD hps hp hsame

/-- A change of the edge `p —k→`, and of edges nobody reaches, is seen only below that edge. -/
theorem Apart.walk_off (hls : D ls) (hoff : ¬(ps ++ [k]) <+: ls) : walk e' root ls = walk e root ls := by
  refine walk_congr fun ks l q hpre hq => ?_
  have hks : D ks := hD ((prefix_append ks [l]).trans hpre) hls
  refine hsame ks q l hks hq ?_
  rintro ⟨rfl, rfl⟩
  exact hoff (h hks hps hq hp ▸ hpre)

/-- The edge leads elsewhere, and below it there was nothing and is nothing. -/
theorem Apart.walk_edge [DecidableEq κ] (hbefore : ∀ i, e p k = some i → ∀ l, e i l = none)
    (hafter : ∀ i, e' p k = some i → ∀ l, e' i l = none) (hls : D ls) :
    walk e' root ls = if ls = ps ++ [k] then e' p k else walk e root ls := by
  by_cases hpre : (ps ++ [k]) <+: ls
  · obtain ⟨ms, rfl⟩ := hpre
    have hi : walk e' root (ps ++ [k]) = e' p k := by
      rw [walk_concat, h.walk_off hD hps hp hsame hps (not_concat_init ps k), hp, bind_some]
    cases ms with
    | nil => rw [append_nil, if_pos rfl, hi]
    | cons m ms =>
      rw [if_neg (by simp), walk_append, hi, walk_append, walk_concat, hp, bind_some]
      cases hold : e p k <;> cases hnew : e' p k <;> simp_all [walk_cons]
  · have hne : ls ≠ ps ++ [k] := fun heq => hpre (heq ▸ prefix_refl _)
    rw [if_neg hne, h.walk_off hD hps hp hsame hls hpre]

/-- **A new edge** `p —k→ i` to an unreached node that has no edges afterwards. -/
theorem Apart.walk_link [DecidableEq κ] (hnone : e p k = none) (hnew : e' p k = some i) (hleaf : ∀ l, e' i l = none)
    (hls : D ls) : walk e' root ls = if ls = ps ++ [k] then some i else walk e root ls := by
  rw [h.walk_edge hD hps hp hsame (by simp [hnone]) (by simpa [hnew] using hleaf) hls, hnew]

/-- **The edge** `p —k→ i` **taken away**, when `i` has no edges. -/
theorem Apart.walk_cut [DecidableEq κ] (hedge : e p k = some i) (hleaf : ∀ l, e i l = none) (hgone : e' p k = none)
    (hls : D ls) : walk e' root ls = if ls = ps ++ [k] then none else walk e root ls := by
  rw [h.walk_edge hD hps hp hsame (by simpa [hedge] using hleaf) (by simp [hgone]) hls, hgone]

end Edge

/-- Paths stay apart when one new path to an unreached node appears ... -/
theorem Apart.link [DecidableEq κ] (h : Apart e root D) (hfresh : ∀ ls, D ls → walk e root ls ≠ some i)
    (hwalk : ∀ ls, D ls → walk e' root ls = if ls = ps ++ [k] then some i else walk e root ls) :
    Apart e' root D := by
  intro ks ls j hks hls hkj hlj
  rw [hwalk ks hks] at hkj
  rw [hwalk ls hls] at hlj
  split at hkj <;> split at hlj
  · rename_i hk hl
    rw [hk, hl]
  · cases hkj
    exact absurd hlj (hfresh ls hls)
  · cases hlj
    exact absurd hkj (hfresh ks hks)
  · exact h hks hls hkj hlj

/-- ... and when paths disappear. -/
theorem Apart.of_le (h : Apart e root D)
    (hwalk : ∀ ls i, D ls → walk e' root ls = some i → walk e root ls = some i) : Apart e' root D :=
  fun _ _ _ hks hls hkj hlj => h hks hls (hwalk _ _ hks hkj) (hwalk _ _ hls hlj)

end Apart

end EdgeTree
