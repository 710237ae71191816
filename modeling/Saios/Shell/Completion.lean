/-
  TAB: what `complete_for_console` makes of the line.

  1. **The code** (`completeForConsole`) — it takes the editor's cursor, a number of CHARACTERS, for a BYTE index; a
     slice off a character boundary panics (the outer `none`).

  2. **What it is for** (`Completes`) — the token in front of the cursor, by characters, gives way to its completion.

  3. **`completed_safely_iff`** — the lines and cursors where that holds whatever the commands and directories are.
-/
import Saios.Shell.Slices
import Mathlib.Data.List.DropRight
import Mathlib.Data.List.Dedup

namespace Saios.Shell

open Text List Option

/-! ## The code -/

structure CompletionSnapshot where
  commands : List Str
  aliases : List Str

/-- `COMPLETION`, and `saifs::list(dir).ok()`. -/
structure Completion where
  snapshot : Option CompletionSnapshot
  list : Str → Option (List Str)

-- Sorting and `dedup` leave one match iff all matches are equal.
def completeCommandToken (env : Completion) (token : Str) : Option Str :=
  let names := (env.snapshot.map fun s => s.commands ++ s.aliases).getD []
  match (names.filter token.isPrefixOf).dedup with
  | [name] => some name
  | _ => none

/-- `dir` and `prefix` of a path token: `rsplit_once('/')`. -/
def dirAndPrefix (token : Str) : Str × Str :=
  match token.rdropWhile (· ≠ '/') with
  | [] => (['.'], token)
  | ['/'] => (['/'], token.rtakeWhile (· ≠ '/'))
  | left => (left.dropLast, token.rtakeWhile (· ≠ '/'))

def completePathToken (env : Completion) (token : Str) : Option Str :=
  let (dir, start) := dirAndPrefix token
  (env.list dir).bind fun entries =>
    match entries.filter start.isPrefixOf with
    | [completed] => some <|
        if '/' ∈ token then (if dir = ['/'] then '/' :: completed else dir ++ '/' :: completed) else completed
    | _ => none

/-- A text up to its last white space, and the token behind it. -/
def front (head : Str) : Str := head.rdropWhile (!isWhite ·)
def token (head : Str) : Str := head.rtakeWhile (!isWhite ·)

/-- `token_start`: one BYTE behind where `rfind` sees the last white space. -/
def tokenStart (head : Str) : Nat :=
  ((front head).getLast?.map fun c => byteLen (front head) - c.utf8Size + 1).getD 0

/-- The completion of a token behind `before`; a first token gets a space. -/
def replacement (env : Completion) (before token : Str) : Option Str :=
  if trim before = [] then (completeCommandToken env token).map (· ++ [' ']) else completePathToken env token

/-- The slices are the two sides of two cuts, at the cursor and where the token starts. -/
def completeForConsole (env : Completion) (line : Str) (cursor : Nat) : Option (Option Str) :=
  (splitBytes line (min cursor (byteLen line))).bind fun (head, back) =>
    (splitBytes head (tokenStart head)).map fun (before, token) =>
      if token = [] then none else (replacement env before token).map (before ++ · ++ back)

/-! ## What it is for -/

/-- `out` is the line with the token in front of the cursor replaced by its completion. -/
def Completes (env : Completion) (line : Str) (cursor : Nat) (out : Str) : Prop :=
  token (line.take cursor) ≠ [] ∧
    ∃ word, replacement env (front (line.take cursor)) (token (line.take cursor)) = some word ∧
      out = front (line.take cursor) ++ word ++ line.drop cursor

/-- No panic, and a returned line is the completed one. -/
def CompletedSafely (env : Completion) (line : Str) (cursor : Nat) : Prop :=
  ∃ reply, completeForConsole env line cursor = some reply ∧ ∀ out, reply = some out → Completes env line cursor out

/-- The last white space, if any, has one byte. -/
def Narrow (head : Str) : Prop := ∀ c, (front head).getLast? = some c → c.utf8Size = 1

/-- The cursor as a BYTE index is on a boundary, with a narrow white space in front of it if any, and either it is
    where the cursor is or no token ends there. -/
def ByteCursor (line : Str) (cursor : Nat) : Prop :=
  ∃ head rest, line = head ++ rest ∧ byteLen head = min cursor (byteLen line) ∧ Narrow head ∧
    (head = line.take cursor ∨ token head = [])

/-! ## The cuts -/

theorem splitBytes_eq_some {s a b : Str} {n : Nat} : splitBytes s n = some (a, b) ↔ s = a ++ b ∧ byteLen a = n := by
  refine ⟨fun h => ?_, fun ⟨hs, hn⟩ => by rw [hs, ← hn, splitBytes_append]⟩
  induction s, n using splitBytes.induct generalizing a b with
  | case1 s =>
    rw [splitBytes] at h
    cases h
    exact ⟨rfl, rfl⟩
  | case2 => cases h
  | case3 c s n hle ih =>
    rw [splitBytes, if_pos hle, map_eq_some_iff] at h
    obtain ⟨⟨a', b'⟩, hr, heq⟩ := h
    cases heq
    obtain ⟨rfl, hlen⟩ := ih hr
    exact ⟨rfl, by rw [byteLen, hlen]; omega⟩
  | case4 c s n hle =>
    rw [splitBytes, if_neg hle] at h
    cases h

/-- One byte into a wider character. -/
theorem splitBytes_inside (a b : Str) {c : Char} (hc : c.utf8Size ≠ 1) :
    splitBytes (a ++ c :: b) (byteLen a + 1) = none := by
  refine eq_none_iff_forall_ne_some.mpr fun ⟨l, r⟩ h => ?_
  obtain ⟨heq, hlen⟩ := splitBytes_eq_some.mp h
  have hpos := Char.utf8Size_pos c
  obtain ⟨t, rfl, ht⟩ | ⟨t, rfl, -⟩ := append_eq_append_iff.mp heq
  · rw [byteLen_append] at hlen
    cases t with
    | nil => simp [byteLen] at hlen
    | cons d t =>
      obtain rfl := (cons.inj ht).1
      rw [byteLen] at hlen
      omega
  · rw [byteLen_append] at hlen
    omega

theorem tokenStart_cases (head : Str) :
    Narrow head ∧ splitBytes head (tokenStart head) = some (front head, token head) ∨
      ¬Narrow head ∧ splitBytes head (tokenStart head) = none := by
  have hhead : front head ++ token head = head := rdropWhile_append_rtakeWhile ..
  have hcut := splitBytes_append (front head) (token head)
  unfold tokenStart Narrow
  rw [hhead] at hcut
  cases hfront : front head using reverseRecOn with
  | nil =>
    rw [hfront] at hcut
    exact .inl ⟨fun _ => nofun, hcut⟩
  | append_singleton l c =>
    have hlen : byteLen (l ++ [c]) = byteLen l + c.utf8Size := byteLen_append l [c]
    rw [getLast?_concat, map_some, hlen, Nat.add_sub_cancel]
    rw [hfront, hlen] at hcut
    by_cases hc : c.utf8Size = 1
    · exact .inl ⟨fun d hd => some.inj hd ▸ hc, hc ▸ hcut⟩
    · have hnone := splitBytes_inside l (token head) hc
      rw [append_cons, ← hfront, hhead] at hnone
      exact .inr ⟨fun h => hc (h c rfl), hnone⟩

/-- The replies of the code. -/
theorem completeForConsole_eq_some {env : Completion} {line : Str} {cursor : Nat} {reply : Option Str} :
    completeForConsole env line cursor = some reply ↔
      ∃ head rest, (line = head ++ rest ∧ byteLen head = min cursor (byteLen line)) ∧ Narrow head ∧
        reply = if token head = [] then none else
          (replacement env (front head) (token head)).map (front head ++ · ++ rest) := by
  simp only [completeForConsole, bind_eq_some_iff, Prod.exists, splitBytes_eq_some]
  refine exists_congr fun head => exists_congr fun rest => and_congr_right fun _ => ?_
  obtain ⟨hnarrow, h⟩ | ⟨hwide, h⟩ := tokenStart_cases head
  · rw [h, map_some, some_inj, and_iff_right hnarrow, eq_comm]
  · rw [h]
    exact ⟨nofun, fun h => absurd h.1 hwide⟩

/-! ## Every line and cursor -/

/-- One command and one file, which complete `token` by the character `c`. -/
def oneMore (c : Char) (token : Str) : Completion where
  snapshot := some ⟨[token ++ [c]], []⟩
  list _ := some [(dirAndPrefix token).2 ++ [c]]

theorem replacement_oneMore (c : Char) (before token : Str) :
    ∃ word, replacement (oneMore c token) before token = some word := by
  have hfilter : ∀ s : Str, [s ++ [c]].filter s.isPrefixOf = [s ++ [c]] := fun s => by simp
  rw [replacement]
  split
  · exact ⟨token ++ [c] ++ [' '], by simp [completeCommandToken, oneMore]⟩
  · rw [completePathToken, oneMore]
    dsimp only [bind_some]
    rw [hfilter]
    exact ⟨_, rfl⟩

/-- Whatever the token, a completion from there ends in `c` or in the space. -/
theorem getLast_oneMore {c : Char} {t before token word : Str}
    (h : replacement (oneMore c t) before token = some word) :
    word.getLast? = some c ∨ word.getLast? = some ' ' := by
  rw [replacement] at h
  split at h
  · obtain ⟨w, -, rfl⟩ := map_eq_some_iff.mp h
    exact .inr (getLast?_concat ..)
  · rw [completePathToken, oneMore] at h
    dsimp only [bind_some] at h
    split at h
    · next completed hmatch =>
      obtain rfl := mem_singleton.mp (mem_of_mem_filter (hmatch ▸ mem_singleton_self completed))
      cases h
      repeat' split
      all_goals simp [getLast?_cons]
    · cases h

theorem length_le_byteLen (s : Str) : s.length ≤ byteLen s := by
  induction s with
  | nil => exact Nat.le_refl _
  | cons c s ih =>
    have := Char.utf8Size_pos c
    rw [length_cons, byteLen]
    omega

/-- **The completion keeps the rest of the line, for every set of commands and every directory, exactly where the
    cursor is also the byte index**, or no token ends at that byte. -/
theorem completed_safely_iff (line : Str) (cursor : Nat) :
    (∀ env, CompletedSafely env line cursor) ↔ ByteCursor line cursor := by
  constructor
  · intro hall
    obtain ⟨reply, hreply, -⟩ := hall (oneMore 'x' [])
    obtain ⟨head, rest, ⟨rfl, hlen⟩, hnarrow, -⟩ := completeForConsole_eq_some.mp hreply
    refine ⟨head, rest, rfl, hlen, hnarrow, or_iff_not_imp_right.mpr fun htoken => ?_⟩
    -- The byte index is not behind the cursor: `mid` is what lies between the two.
    have hle : head.length ≤ cursor := (length_le_byteLen head).trans (hlen ▸ Nat.min_le_left _ _)
    rw [take_append, take_of_length_le hle]
    cases hmid : rest.take (cursor - head.length) using reverseRecOn with
    | nil => exact (append_nil _).symm
    | append_singleton mid l =>
      exfalso
      obtain ⟨c, hc⟩ : ∃ c, l ≠ c := ⟨if l = 'x' then 'y' else 'x', by split <;> simp_all⟩
      obtain ⟨word, hword⟩ := replacement_oneMore c _ _
      obtain ⟨reply, hreply, hsafe⟩ := hall _
      rw [completeForConsole_eq_some.mpr ⟨head, rest, ⟨rfl, hlen⟩, hnarrow, rfl⟩, if_neg htoken, hword] at hreply
      obtain ⟨hends, word', hword', hout⟩ := hsafe _ (some.inj hreply).symm
      rw [take_append, take_of_length_le hle, hmid, ← append_assoc] at hends hword' hout
      rw [drop_append, drop_of_length_le hle] at hout
      have hsame : front head ++ word ++ (mid ++ [l]) = front (head ++ mid ++ [l]) ++ word' := by
        rw [← append_cancel_right_eq _ _, append_assoc _ _, ← hmid,
          take_append_drop]
        exact hout
      -- The completed line would end in the new name here, the returned one ends in the last character of `mid`.
      have hlast := congrArg getLast? hsame
      rw [← append_assoc, getLast?_concat, getLast?_append] at hlast
      obtain h | h := getLast_oneMore hword'
      · rw [h] at hlast
        exact hc (some.inj hlast)
      · rw [h] at hlast
        obtain rfl : l = ' ' := some.inj hlast
        exact hends (rtakeWhile_concat_neg _ _ _ (by decide))
  · rintro ⟨head, rest, rfl, hlen, hnarrow, hwhere⟩ env
    refine ⟨_, completeForConsole_eq_some.mpr ⟨head, rest, ⟨rfl, hlen⟩, hnarrow, rfl⟩, fun out hout => ?_⟩
    split at hout
    · cases hout
    · next htoken =>
      have heq := hwhere.resolve_right htoken
      obtain ⟨word, hword, rfl⟩ := map_eq_some_iff.mp hout
      have hrest := take_append_drop cursor (head ++ rest)
      rw [← heq] at hrest
      rw [Completes, ← heq, append_cancel_left hrest]
      exact ⟨htoken, word, hword, rfl⟩

theorem tab_inside_character : ¬CompletedSafely ⟨none, fun _ => none⟩ ['é'] 1 := by
  rintro ⟨reply, hreply, -⟩
  cases hreply

end Saios.Shell
