/-
  `grep`'s REGULAR EXPRESSIONS: the backtracking matcher against what a pattern means.

  1. **The code** — `matchHere` reads the next atom off the pattern AGAIN at each place, `matchRepeat` takes all it can
     and gives back byte by byte.  A slice is the rest of a list.

  2. **What it is for** — the pieces that a pattern spells (`Spells`) and the texts they fit (`Fits`), in no order of
     trying.  `isMatch_spec`: what spells is accepted, nothing else is, and the answer is whether it fits.
-/
import Mathlib.Data.List.Basic

namespace Saios.Shell.Regex

open List

/-! ## Atoms -/

inductive Atom
  | byte (b : UInt8)
  | any
  | cls (negated : Bool) (body : List UInt8)

def isQuantifier (ch : UInt8) : Bool := ch == '*'.toUInt8 || ch == '+'.toUInt8 || ch == '?'.toUInt8

def parseClassChar : List UInt8 → Option (UInt8 × List UInt8)
  | [] => none
  | ch :: rest => if ch = '\\'.toUInt8 then rest.head?.map fun c => (c, rest.tail) else some (ch, rest)

theorem parseClassChar_lt {body rest : List UInt8} {c : UInt8} (h : parseClassChar body = some (c, rest)) :
    rest.length < body.length := by
  cases body <;> grind [parseClassChar, Option.map_eq_some_iff]

def classContains (body : List UInt8) (ch : UInt8) : Bool :=
  match _ : parseClassChar body with
  | none => false
  | some (first, rest) =>
      if rest.head? = some '-'.toUInt8 ∧ 1 < rest.length then
        match _ : parseClassChar rest.tail with
        | none => false
        | some (last, more) => (min first last ≤ ch && ch ≤ max first last) || classContains more ch
      else ch == first || classContains rest ch
termination_by body.length
decreasing_by all_goals grind [→ parseClassChar_lt]

def atomMatches : Atom → UInt8 → Bool
  | .byte b, ch => b == ch
  | .any, _ => true
  | .cls negated body, ch => if negated then !classContains body ch else classContains body ch

/-- The loop of `parse_class`: the body up to the closing bracket, and what follows. -/
def classBody (hasMember : Bool) : List UInt8 → Option (List UInt8 × List UInt8)
  | [] => none
  | c :: rest =>
      if c = '\\'.toUInt8 then
        match rest with
        | [] => none
        | e :: rest => (classBody true rest).map fun (body, after) => (c :: e :: body, after)
      else if c = ']'.toUInt8 then if hasMember then some ([], rest) else none
      else (classBody true rest).map fun (body, after) => (c :: body, after)

/-- `parse_class` behind the opening bracket. -/
def parseClass (p : List UInt8) : Option (Atom × List UInt8) :=
  let negated := p.head? == some '^'.toUInt8
  (classBody false (if negated then p.tail else p)).map fun (body, after) => (.cls negated body, after)

def parseAtom : List UInt8 → Option (Atom × List UInt8)
  | [] => none
  | first :: rest =>
      if first = '.'.toUInt8 then some (.any, rest)
      else if first = '\\'.toUInt8 then rest.head?.map fun ch => (.byte ch, rest.tail)
      else if first = '['.toUInt8 then parseClass rest
      else if isQuantifier first then none
      else some (.byte first, rest)

variable {p rest text : List UInt8} {atom : Atom}

theorem classBody_lt {b : Bool} {body : List UInt8} (h : classBody b p = some (body, rest)) :
    rest.length < p.length := by
  fun_induction classBody b p generalizing body <;> grind [Option.map_eq_some_iff]

theorem parseAtom_lt (h : parseAtom p = some (atom, rest)) : rest.length < p.length := by
  cases p <;> grind [parseAtom, parseClass, → classBody_lt, Option.map_eq_some_iff]

/-! ## Matching -/

/-- The last loop of `match_repeat`. -/
def giveBack (next : List UInt8 → Bool) (text : List UInt8) (consumed : Nat) : Nat → Bool
  | 0 => if 0 < consumed then false else next text
  | i + 1 => if i + 1 < consumed then false else next (text.drop (i + 1)) || giveBack next text consumed i

def matchRepeat (atom : Atom) (minCount : Nat) (next : List UInt8 → Bool) (text : List UInt8) : Bool :=
  -- the first two loops count what matches; the first of them fails below `minCount`
  let max := (text.takeWhile (atomMatches atom)).length
  if max < minCount then false else giveBack next text minCount max

def matchHere (pattern text : List UInt8) : Bool :=
  if pattern = [] then true
  else if pattern = ['$'.toUInt8] then text.isEmpty
  else
    match _ : parseAtom pattern with
    | none => false
    | some (atom, rest) =>
        if rest.head? = some '*'.toUInt8 then matchRepeat atom 0 (fun t => matchHere rest.tail t) text
        else if rest.head? = some '+'.toUInt8 then matchRepeat atom 1 (fun t => matchHere rest.tail t) text
        else if rest.head? = some '?'.toUInt8 then
          matchHere rest.tail text || (text.head?.any (atomMatches atom) && matchHere rest.tail text.tail)
        else text.head?.any (atomMatches atom) && matchHere rest text.tail
termination_by pattern.length
decreasing_by all_goals grind [→ parseAtom_lt]

/-- The loop of `is_match`: every start, the end included. -/
def search (pattern : List UInt8) : List UInt8 → Bool
  | [] => matchHere pattern []
  | ch :: text => matchHere pattern (ch :: text) || search pattern text

/-- The loop of `validate_pattern`. -/
def validateFrom (prevWasAtom : Bool) (p : List UInt8) : Except String Unit :=
  if p = [] ∨ p = ['$'.toUInt8] then .ok ()
  else if p.head?.any isQuantifier then
    if prevWasAtom then validateFrom false p.tail else .error "grep: invalid regex (quantifier without atom)"
  else
    match _ : parseAtom p with
    | none => .error "grep: invalid regex (bad atom)"
    | some (_, rest) => validateFrom true rest
termination_by p.length
decreasing_by all_goals grind [→ parseAtom_lt, length_eq_zero_iff]

def isMatch (pattern text : List UInt8) : Except String Bool :=
  let anchored := pattern.head? == some '^'.toUInt8
  let body := if anchored then pattern.tail else pattern
  (validateFrom false body).map fun _ => if anchored then matchHere body text else search body text

/-! ## What it is for -/

/-- An atom, and how often it may stand. -/
structure Piece where
  atom : Atom
  least : Nat
  most : Option Nat

/-- An atom with the quantifier behind it, if there is one, and what follows. -/
def quantify (atom : Atom) (rest : List UInt8) : Piece × List UInt8 :=
  if rest.head? = some '*'.toUInt8 then (⟨atom, 0, none⟩, rest.tail)
  else if rest.head? = some '+'.toUInt8 then (⟨atom, 1, none⟩, rest.tail)
  else if rest.head? = some '?'.toUInt8 then (⟨atom, 0, some 1⟩, rest.tail)
  else (⟨atom, 1, some 1⟩, rest)

/-- How a pattern reads: quantified atoms, and a dollar at the very end. -/
inductive Spells : List UInt8 → List Piece → Bool → Prop
  | nil : Spells [] [] false
  | dollar : Spells ['$'.toUInt8] [] true
  | piece {q r a ps e} (hq : q ≠ ['$'.toUInt8]) (ha : parseAtom q = some (a, r)) (h : Spells (quantify a r).2 ps e) :
      Spells q ((quantify a r).1 :: ps) e

/-- The text starts with the pieces in turn, each as often as it may stand, and ends there if it has to. -/
def Fits : List Piece → Bool → List UInt8 → Prop
  | [], atEnd, text => atEnd = true → text = []
  | piece :: ps, atEnd, text => ∃ k ≤ text.length, piece.least ≤ k ∧ (∀ m ∈ piece.most, k ≤ m) ∧
      (∀ ch ∈ text.take k, atomMatches piece.atom ch = true) ∧ Fits ps atEnd (text.drop k)

/-! ## The matcher -/

variable {ps : List Piece} {atEnd : Bool}

theorem giveBack_iff {next : List UInt8 → Bool} {consumed i : Nat} :
    giveBack next text consumed i = true ↔ ∃ k, consumed ≤ k ∧ k ≤ i ∧ next (text.drop k) = true := by
  induction i <;> grind [giveBack]

theorem le_length_takeWhile {f : UInt8 → Bool} {l : List UInt8} {k : Nat} :
    k ≤ (l.takeWhile f).length ↔ k ≤ l.length ∧ ∀ x ∈ l.take k, f x = true := by
  induction l generalizing k with
  | nil => simp
  | cons a l ih =>
    cases k with
    | zero => simp
    | succ k => by_cases ha : f a <;> simp [ha, ih]

theorem matchRepeat_iff {minCount : Nat} {next : List UInt8 → Bool} (hnext : ∀ t, next t = true ↔ Fits ps atEnd t) :
    matchRepeat atom minCount next text = true ↔ Fits (⟨atom, minCount, none⟩ :: ps) atEnd text := by
  have hback : matchRepeat atom minCount next text = true ↔
      ∃ k, minCount ≤ k ∧ k ≤ (text.takeWhile (atomMatches atom)).length ∧ next (text.drop k) = true := by
    grind [matchRepeat, giveBack_iff]
  simp only [hback, le_length_takeWhile, hnext, Fits]
  grind

theorem fits_once : Fits (⟨atom, 1, some 1⟩ :: ps) atEnd text ↔
    text.head?.any (atomMatches atom) = true ∧ Fits ps atEnd text.tail := by
  constructor
  · rintro ⟨k, hlen, hmin, hmost, hall, ht⟩
    obtain rfl : k = 1 := Nat.le_antisymm (hmost 1 rfl) hmin
    cases text <;> simp_all
  · rintro ⟨hhead, ht⟩
    cases text with
    | nil => cases hhead
    | cons ch text => exact ⟨1, by simp_all⟩

theorem fits_opt : Fits (⟨atom, 0, some 1⟩ :: ps) atEnd text ↔
    Fits ps atEnd text ∨ Fits (⟨atom, 1, some 1⟩ :: ps) atEnd text := by
  constructor
  · rintro ⟨_ | k, hlen, hmin, h⟩
    · exact .inl h.2.2
    · exact .inr ⟨k + 1, hlen, by simp, h⟩
  · rintro (h | ⟨k, hlen, -, h⟩)
    · exact ⟨0, by simp, by simp, by simp, by simp, h⟩
    · exact ⟨k, hlen, by simp, h⟩

/-- **The matcher finds the words.** -/
theorem matchHere_iff (h : Spells p ps atEnd) (text : List UInt8) :
    matchHere p text = true ↔ Fits ps atEnd text := by
  induction h generalizing text with
  | nil => simp [matchHere, Fits]
  | dollar => simp [matchHere, Fits]
  | @piece q r a ps e hq ha h ih =>
    have hne : q ≠ [] := by rintro rfl; cases ha
    rw [matchHere, if_neg hne, if_neg hq]
    split
    · simp_all
    rename_i heq
    obtain ⟨rfl, rfl⟩ := Prod.mk.inj (Option.some.inj (ha.symm.trans heq))
    unfold quantify at ih ⊢
    split_ifs at ih ⊢
    · exact matchRepeat_iff ih
    · exact matchRepeat_iff ih
    · rw [fits_opt, fits_once, Bool.or_eq_true, Bool.and_eq_true, ih, ih]
    · rw [fits_once, Bool.and_eq_true, ih]

theorem search_iff (h : Spells p ps atEnd) (text : List UInt8) :
    search p text = true ↔ ∃ before t, text = before ++ t ∧ Fits ps atEnd t := by
  induction text with
  | nil => simp [search, matchHere_iff h]
  | cons ch text ih =>
    rw [search, Bool.or_eq_true, matchHere_iff h, ih]
    constructor
    · rintro (hfits | ⟨before, t, rfl, hfits⟩)
      · exact ⟨[], _, rfl, hfits⟩
      · exact ⟨ch :: before, t, rfl, hfits⟩
    · rintro ⟨_ | ⟨c, before⟩, t, heq, hfits⟩
      · exact .inl (heq ▸ hfits)
      · exact .inr ⟨before, t, (cons.inj heq).2, hfits⟩

/-! ## The validator -/

theorem validateFrom_atom (hp : p ≠ ['$'.toUInt8]) (ha : parseAtom p = some (atom, rest)) :
    validateFrom false p = validateFrom true rest := by
  have hne : p ≠ [] := by rintro rfl; cases ha
  have hno : isQuantifier '.'.toUInt8 = false ∧ isQuantifier '\\'.toUInt8 = false ∧ isQuantifier '['.toUInt8 = false :=
    ⟨rfl, rfl, rfl⟩
  have hhead : p.head?.any isQuantifier = false := by cases p <;> grind [parseAtom]
  rw [validateFrom, if_neg (by simp [hne, hp]), if_neg (by simp [hhead])]
  grind

theorem validateFrom_true (a : Atom) :
    validateFrom true rest = .ok () ↔ validateFrom false (quantify a rest).2 = .ok () := by
  cases rest with
  | nil => simp [quantify, validateFrom]
  | cons q tail => ?_
  by_cases hq : isQuantifier q = true
  · have htail : (quantify a (q :: tail)).2 = tail := by grind [quantify, isQuantifier]
    rw [htail, validateFrom]
    grind [validateFrom]
  · have hsame : (quantify a (q :: tail)).2 = q :: tail := by grind [quantify, isQuantifier]
    rw [hsame]
    grind [validateFrom]

theorem validateFrom_iff : validateFrom false p = .ok () ↔ ∃ ps atEnd, Spells p ps atEnd := by
  constructor
  · intro h
    induction hn : p.length using Nat.strongRecOn generalizing p with
    | ind n ih =>
      by_cases hnil : p = []
      · exact ⟨[], false, hnil ▸ .nil⟩
      by_cases hp : p = ['$'.toUInt8]
      · exact ⟨[], true, hp ▸ .dollar⟩
      cases ha : parseAtom p with
      | none => grind [validateFrom]
      | some r =>
        obtain ⟨a, rest⟩ := r
        rw [validateFrom_atom hp ha, validateFrom_true a] at h
        have hlt : (quantify a rest).2.length < n := by grind [quantify, → parseAtom_lt]
        obtain ⟨ps, atEnd, hs⟩ := ih _ hlt h rfl
        exact ⟨_, _, .piece hp ha hs⟩
  · rintro ⟨ps, atEnd, h⟩
    induction h with
    | nil => simp [validateFrom]
    | dollar => simp [validateFrom]
    | piece hp ha _ ih => rwa [validateFrom_atom hp ha, validateFrom_true]

/-- **`grep` matches what the pattern means**: a pattern that reads is answered by whether some part of the text, from
its start behind a caret, fits; one that does not read is refused. -/
theorem isMatch_spec (pattern text : List UInt8) :
    let anchored := pattern.head? = some '^'.toUInt8
    let body := if anchored then pattern.tail else pattern
    (∃ ps atEnd b, Spells body ps atEnd ∧ isMatch pattern text = .ok b ∧
      (b = true ↔ ∃ before t, text = before ++ t ∧ (anchored → before = []) ∧ Fits ps atEnd t)) ∨
    (∃ e, isMatch pattern text = .error e) ∧ ¬∃ ps atEnd, Spells body ps atEnd := by
  intro anchored body
  have hbody : isMatch pattern text = (validateFrom false body).map fun _ =>
      if anchored then matchHere body text else search body text := by
    simp only [isMatch, beq_iff_eq]
    rfl
  rw [← validateFrom_iff, hbody]
  cases hv : validateFrom false body with
  | error e => exact .inr ⟨⟨e, rfl⟩, nofun⟩
  | ok =>
    obtain ⟨ps, atEnd, hs⟩ := validateFrom_iff.mp hv
    refine .inl ⟨ps, atEnd, _, hs, rfl, ?_⟩
    split_ifs with hanch
    · rw [matchHere_iff hs]
      simp [hanch]
    · rw [search_iff hs]
      simp [hanch]

end Saios.Shell.Regex
