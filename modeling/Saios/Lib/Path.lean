/-
  PATHS, as strings and as lists of components.

  A string is the list of its characters (`Str`).  A path string is read by splitting it at the
  slashes and dropping the empty pieces (`components`); it is written by joining components with
  slashes (`join`, `absolute`).  The two are inverse to each other on lists of proper components
  (`components_absolute`), which is what lets everything above work with component lists only.

  `resolveDots` is the usual stack machine: a name is pushed, `.` is skipped, `..` pops.  A path whose
  components are all names passes through it unchanged (`resolveDots_names`).

  The third section turns the string test "`b` is `a`, or continues `a` with a slash" into the prefix
  order on component lists (`extends_absolute`); the last one sorts lists of names.
-/
import Mathlib.Data.Char
import Mathlib.Data.List.Basic
import Mathlib.Data.List.Infix
import Mathlib.Data.List.Lex
import Mathlib.Data.List.Sort

/-- A string as the list of its characters. -/
abbrev Str := List Char

namespace Path

open List

/-! ## Reading and writing -/

/-- The non-empty pieces between slashes. -/
def components (s : Str) : List Str := (s.splitOn '/').filter (fun c => c ≠ [])

def join (cs : List Str) : Str := ['/'].intercalate cs

/-- The absolute path of a component list; the empty list is the root `/`. -/
def absolute (cs : List Str) : Str := '/' :: join cs

/-- A piece that can stand between two slashes. -/
def IsComp (c : Str) : Prop := c ≠ [] ∧ '/' ∉ c

/-- A component that names something: not `.` and not `..`. -/
def IsName (c : Str) : Prop := IsComp c ∧ c ≠ ['.'] ∧ c ≠ ['.', '.']

instance (c : Str) : Decidable (IsComp c) := inferInstanceAs (Decidable (_ ∧ _))

instance (c : Str) : Decidable (IsName c) := inferInstanceAs (Decidable (_ ∧ _))

@[simp] theorem components_nil : components [] = [] := rfl

/-- A slash cuts a path in two. -/
theorem components_append_slash (s t : Str) :
    components (s ++ '/' :: t) = components s ++ components t := by
  rw [components, splitOn_append_cons_self, filter_append]; rfl

@[simp] theorem components_slash_cons (s : Str) : components ('/' :: s) = components s := by
  have := components_append_slash [] s
  rwa [components_nil] at this

variable {c : Str}

/-- No piece of a split contains the separator. -/
theorem notMem_of_mem_splitOn {s : Str} (h : c ∈ s.splitOn '/') : '/' ∉ c := by
  induction s generalizing c with
  | nil =>
    rw [mem_singleton.mp h]; exact not_mem_nil
  | cons x xs ih =>
    rw [splitOn_cons_eq_if_modifyHead] at h
    split at h
    · rcases mem_cons.mp h with rfl | h
      · exact not_mem_nil
      · exact ih h
    · rename_i hx
      cases hs : xs.splitOn '/' with
      | nil => exact absurd hs (splitOn_ne_nil _ _)
      | cons p ps =>
        rw [hs] at h
        rcases mem_cons.mp h with rfl | h
        · have hp : '/' ∉ p := ih (by rw [hs]; exact mem_cons_self)
          intro hmem
          rcases mem_cons.mp hmem with rfl | hmem
          · exact hx (by simp)
          · exact hp hmem
        · exact ih (by rw [hs]; exact mem_cons_of_mem _ h)

theorem isComp_of_mem {s : Str} (h : c ∈ components s) : IsComp c := by
  obtain ⟨hmem, hne⟩ := mem_filter.mp h
  exact ⟨by simpa using hne, notMem_of_mem_splitOn hmem⟩

variable {cs : List Str}

/-- **Reading back what was joined.** -/
theorem components_join (h : ∀ c ∈ cs, IsComp c) : components (join cs) = cs := by
  cases cs with
  | nil => rfl
  | cons c cs =>
    rw [components, join, splitOn_intercalate '/' (fun l hl => (h l hl).2) (cons_ne_nil _ _)]
    exact filter_eq_self.mpr fun a ha => by simpa using (h a ha).1

theorem components_absolute (h : ∀ c ∈ cs, IsComp c) : components (absolute cs) = cs := by
  rw [absolute, components_slash_cons, components_join h]

variable {ds : List Str}

theorem absolute_inj (hc : ∀ c ∈ cs, IsComp c) (hd : ∀ c ∈ ds, IsComp c) (h : absolute cs = absolute ds) :
    cs = ds := by
  rw [← components_absolute hc, h, components_absolute hd]

/-! ## Dots -/

/-- One component of a path on the stack of the components before it. -/
def push (stack : List Str) (c : Str) : List Str :=
  if c = ['.'] then stack
  else if c = ['.', '.'] then stack.dropLast
  else stack ++ [c]

def resolveDots (start cs : List Str) : List Str := cs.foldl push start

theorem push_name {stack : List Str} (h : IsName c) : push stack c = stack ++ [c] := by
  rw [push, if_neg h.2.1, if_neg h.2.2]

theorem push_names {stack : List Str} (hs : ∀ d ∈ stack, IsName d) (hc : IsComp c) :
    ∀ d ∈ push stack c, IsName d := by
  intro d hd
  unfold push at hd
  split at hd
  · exact hs d hd
  split at hd
  · exact hs d (mem_of_mem_dropLast hd)
  · rename_i h1 h2
    rcases mem_append.mp hd with hd | hd
    · exact hs d hd
    · rw [mem_singleton.mp hd]; exact ⟨hc, h1, h2⟩

/-- The stack holds names only. -/
theorem resolveDots_isName {start : List Str} (hs : ∀ d ∈ start, IsName d) (hc : ∀ c ∈ cs, IsComp c) :
    ∀ d ∈ resolveDots start cs, IsName d := by
  induction cs generalizing start with
  | nil => exact hs
  | cons c cs ih =>
    exact ih (push_names hs (hc c mem_cons_self)) fun d hd => hc d (mem_cons_of_mem _ hd)

/-- Names are pushed one after the other. -/
theorem resolveDots_names {start : List Str} (h : ∀ c ∈ cs, IsName c) :
    resolveDots start cs = start ++ cs := by
  induction cs generalizing start with
  | nil => exact (append_nil _).symm
  | cons c cs ih =>
    show resolveDots (push start c) cs = _
    rw [push_name (h c mem_cons_self), ih fun d hd => h d (mem_cons_of_mem _ hd),
      append_assoc, singleton_append]

/-! ## Prefixes -/

/-- Each component behind a slash of its own. -/
def slashed (cs : List Str) : Str := cs.flatMap (fun c => '/' :: c)

theorem slashed_cons (c : Str) (cs : List Str) : slashed (c :: cs) = '/' :: (c ++ slashed cs) := rfl

theorem join_cons (c : Str) (cs : List Str) : join (c :: cs) = c ++ slashed cs := by
  induction cs generalizing c with
  | nil => simp [join, slashed]
  | cons d ds ih =>
    show c ++ '/' :: join (d :: ds) = c ++ slashed (d :: ds)
    rw [ih, slashed_cons]

theorem absolute_eq_slashed (h : cs ≠ []) : absolute cs = slashed cs := by
  cases cs with
  | nil => exact absurd rfl h
  | cons c cs => rw [absolute, join_cons, slashed_cons]

theorem absolute_append (h : cs ≠ []) : absolute (cs ++ ds) = absolute cs ++ slashed ds := by
  have hne : cs ++ ds ≠ [] := fun hn => h (append_eq_nil_iff.mp hn).1
  rw [absolute_eq_slashed hne, absolute_eq_slashed h, slashed, flatMap_append]; rfl

/-- `s` is `p`, or goes on from `p` with a slash. -/
def Extends (p s : Str) : Prop := ∃ rest, s = p ++ rest ∧ (rest = [] ∨ ∃ t, rest = '/' :: t)

/-- **The string test is the prefix order.**  For absolute paths of proper components. -/
theorem extends_absolute (hne : cs ≠ []) (hc : ∀ c ∈ cs, IsComp c) (hd : ∀ c ∈ ds, IsComp c) :
    Extends (absolute cs) (absolute ds) ↔ cs <+: ds := by
  constructor
  · rintro ⟨rest, hrest, rfl | ⟨t, rfl⟩⟩
    · rw [append_nil] at hrest
      rw [absolute_inj hd hc hrest]
    · -- reading both sides: the components of the longer path start with those of the shorter
      have := congrArg components hrest
      rw [components_absolute hd, components_append_slash, components_absolute hc] at this
      exact ⟨_, this.symm⟩
  · rintro ⟨es, rfl⟩
    refine ⟨slashed es, absolute_append hne, ?_⟩
    cases es with
    | nil => exact .inl rfl
    | cons e es => exact .inr ⟨_, rfl⟩

/-! ## Sorting names -/

/-- Names in ascending order, by code point (which is also the order of their UTF-8 bytes). -/
def sortNames (names : List Str) : List Str := names.mergeSort (fun a b => decide (a ≤ b))

theorem sortNames_perm (names : List Str) : (sortNames names).Perm names := mergeSort_perm _ _

theorem sortNames_pairwise (names : List Str) : (sortNames names).Pairwise (· ≤ ·) := by
  have h : (sortNames names).Pairwise (fun a b => decide (a ≤ b)) := by
    refine pairwise_mergeSort (fun a b c hab hbc => ?_) (fun a b => ?_) names
    · simp only [decide_eq_true_eq] at hab hbc ⊢
      exact le_trans hab hbc
    · simp only [Bool.or_eq_true, decide_eq_true_eq]
      exact le_total a b
  exact h.imp fun hab => by simpa using hab

end Path
