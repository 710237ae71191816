/-
  TWO PASSES, ONE SCAN: the pieces of a line.

  1. **Byte indices** — the source cuts with `&line[start..i]`, which panics off a character boundary.  `slice` is
     `none` there, and the two loops with indices return what the loops on characters collect
     (`splitStatementsBytes_eq`, `splitPipelineBytes_eq`): operators have one byte, so every cut is on a boundary.

  2. **One scan** (`scan`) — with ONE quote state, cutting at every operator.  Both loops of the source follow that
     state (`splitStatementsFrom_next`, `splitPipelineFrom_next`), and the second pass starts unquoted because the
     first one cuts only there.

  3. **`line_pieces`** — the stages of the statements are the pieces of the scan, for EVERY line: an open quote at
     its end makes no difference, since the last piece of either pass runs to the end.
-/
import Saios.Shell.Parser

namespace Saios.Shell

open Text List

/-! ## Slices -/

def byteLen : Str → Nat
  | [] => 0
  | c :: s => c.utf8Size + byteLen s

theorem byteLen_append (a b : Str) : byteLen (a ++ b) = byteLen a + byteLen b := by
  induction a with
  | nil => simp [byteLen]
  | cons c a ih => simp [byteLen, ih, Nat.add_assoc]

/-- A text in two at a byte index, unless that is inside a character or past the end. -/
def splitBytes : Str → Nat → Option (Str × Str)
  | s, 0 => some ([], s)
  | [], _ + 1 => none
  | c :: s, n + 1 =>
      if c.utf8Size ≤ n + 1 then (splitBytes s (n + 1 - c.utf8Size)).map fun r => (c :: r.1, r.2) else none

/-- `&line[start..stop]`. -/
def slice (line : Str) (start stop : Nat) : Option Str :=
  (splitBytes line stop).bind fun r => (splitBytes r.1 start).map (·.2)

theorem splitBytes_append (a b : Str) : splitBytes (a ++ b) (byteLen a) = some (a, b) := by
  induction a with
  | nil => cases b <;> rfl
  | cons c a ih =>
    have hpos : 0 < c.utf8Size := Char.utf8Size_pos c
    obtain ⟨n, hn⟩ : ∃ n, byteLen (c :: a) = n + 1 := Nat.exists_eq_succ_of_ne_zero (by simp [byteLen]; omega)
    have hrest : n + 1 - c.utf8Size = byteLen a := by rw [← hn]; simp [byteLen]
    rw [hn, cons_append, splitBytes, if_pos (by rw [← hn]; simp [byteLen]), hrest, ih]
    rfl

theorem slice_append (a b c : Str) : slice (a ++ b ++ c) (byteLen a) (byteLen (a ++ b)) = some b := by
  rw [slice, splitBytes_append, Option.bind_some, splitBytes_append]
  rfl

/-- `out.push` of a slice, and what the rest of the loop pushes. -/
def pushSlice {α : Type} (tag : Str → α) (part : Option Str) (rest : Option (List α)) : Option (List α) :=
  part.bind fun part => rest.map (emit tag part ++ ·)

/-- The loop of `split_statements`, at byte index `i`; the last slice began at `start`. -/
def splitStatementsAt (line : Str) (inSingle inDouble : Bool) (pending : ControlOperator) (start i : Nat) :
    Str → Option (List (Str × ControlOperator))
  | [] => pushSlice (·, pending) (slice line start (byteLen line)) (some [])
  | c :: rest =>
      if c = '\'' ∧ inDouble = false then
        splitStatementsAt line (!inSingle) inDouble pending start (i + c.utf8Size) rest
      else if c = '"' ∧ inSingle = false then
        splitStatementsAt line inSingle (!inDouble) pending start (i + c.utf8Size) rest
      else if inSingle = false ∧ inDouble = false then
        match c, rest with
        | '&', '&' :: rest' => pushSlice (·, pending) (slice line start i)
            (splitStatementsAt line inSingle inDouble .andAnd (i + 2) (i + 2) rest')
        | '&', rest => pushSlice (·, pending) (slice line start i)
            (splitStatementsAt line inSingle inDouble .background (i + 1) (i + 1) rest)
        | '|', '|' :: rest' => pushSlice (·, pending) (slice line start i)
            (splitStatementsAt line inSingle inDouble .orOr (i + 2) (i + 2) rest')
        | ';', rest => pushSlice (·, pending) (slice line start i)
            (splitStatementsAt line inSingle inDouble .sequential (i + 1) (i + 1) rest)
        | c, rest => splitStatementsAt line inSingle inDouble pending start (i + c.utf8Size) rest
      else splitStatementsAt line inSingle inDouble pending start (i + c.utf8Size) rest

def splitStatementsBytes (line : Str) : Option (List (Str × ControlOperator)) :=
  splitStatementsAt line false false .sequential 0 0 line

/-- The loop of `split_pipeline`. -/
def splitPipelineAt (statement : Str) (inSingle inDouble : Bool) (start i : Nat) : Str → Option (List Str)
  | [] => pushSlice id (slice statement start (byteLen statement)) (some [])
  | c :: rest =>
      if c = '\'' ∧ inDouble = false then
        splitPipelineAt statement (!inSingle) inDouble start (i + c.utf8Size) rest
      else if c = '"' ∧ inSingle = false then
        splitPipelineAt statement inSingle (!inDouble) start (i + c.utf8Size) rest
      else if c = '|' ∧ inSingle = false ∧ inDouble = false then
        pushSlice id (slice statement start i)
          (splitPipelineAt statement inSingle inDouble (i + c.utf8Size) (i + c.utf8Size) rest)
      else splitPipelineAt statement inSingle inDouble start (i + c.utf8Size) rest

def splitPipelineBytes (statement : Str) : Option (List Str) :=
  splitPipelineAt statement false false 0 0 statement

theorem pushSlice_last {α : Type} (tag : Str → α) (before part : Str) :
    pushSlice tag (slice (before ++ part) (byteLen before) (byteLen (before ++ part))) (some []) =
      some (emit tag part) := by
  have h := slice_append before part []
  rw [append_nil] at h
  rw [h, pushSlice, Option.bind_some, Option.map_some, append_nil]

/-- A cut at the operator `op`, for a loop `f` that goes on behind it. -/
theorem pushSlice_cut {α : Type} (tag : Str → α) (before part op rest : Str) (f : Str → Nat → Nat → Option (List α))
    {l : List α} (h : f (before ++ part ++ op ++ [] ++ rest) (byteLen (before ++ part ++ op))
      (byteLen (before ++ part ++ op ++ [])) = some l) :
    pushSlice tag (slice (before ++ part ++ (op ++ rest)) (byteLen before) (byteLen (before ++ part)))
      (f (before ++ part ++ (op ++ rest)) (byteLen (before ++ part) + byteLen op)
        (byteLen (before ++ part) + byteLen op)) = some (emit tag part ++ l) := by
  rw [append_nil, byteLen_append _, append_assoc] at h
  rw [slice_append, h]
  rfl

/-- One character more in the part. -/
theorem line_step (before part : Str) (c : Char) (rest : Str) :
    before ++ part ++ c :: rest = before ++ (part ++ [c]) ++ rest := by
  simp

theorem byteLen_step (before part : Str) (c : Char) :
    byteLen (before ++ part) + c.utf8Size = byteLen (before ++ (part ++ [c])) := by
  simp [byteLen, byteLen_append, Nat.add_assoc]

theorem splitStatementsAt_eq (s d : Bool) (pending : ControlOperator) (part text : Str) :
    ∀ before : Str, splitStatementsAt (before ++ part ++ text) s d pending (byteLen before) (byteLen (before ++ part)) text
      = some (splitStatementsFrom s d pending part text) := by
  fun_induction splitStatementsFrom s d pending part text with
  | case1 s d pending part =>
    intro before
    rw [append_nil, splitStatementsAt, pushSlice_last]
  | case2 s d pending part c rest h ih =>
    intro before
    rw [splitStatementsAt.eq_def, line_step]
    dsimp only
    rw [if_pos h, byteLen_step, ih before]
  | case3 s d pending part c rest h h' ih =>
    intro before
    rw [splitStatementsAt.eq_def, line_step]
    dsimp only
    rw [if_neg h, if_pos h', byteLen_step, ih before]
  | case4 s d pending part hq rest h h' ih =>
    intro before
    obtain ⟨rfl, rfl⟩ := hq
    exact pushSlice_cut _ before part ['&', '&'] rest
      (fun line start i => splitStatementsAt line false false .andAnd start i rest) (ih _)
  | case5 s d pending part hq rest hne h h' ih =>
    intro before
    obtain ⟨rfl, rfl⟩ := hq
    rw [splitStatementsAt.eq_def]
    dsimp only
    rw [if_neg h, if_neg h', if_pos ⟨rfl, rfl⟩]
    split
    · exact absurd rfl (hne _)
    · exact pushSlice_cut _ before part ['&'] _
        (fun line start i => splitStatementsAt line false false .background start i _) (ih _)
    all_goals contradiction
  | case6 s d pending part hq rest h h' ih =>
    intro before
    obtain ⟨rfl, rfl⟩ := hq
    exact pushSlice_cut _ before part ['|', '|'] rest
      (fun line start i => splitStatementsAt line false false .orOr start i rest) (ih _)
  | case7 s d pending part hq rest h h' ih =>
    intro before
    obtain ⟨rfl, rfl⟩ := hq
    exact pushSlice_cut _ before part [';'] rest
      (fun line start i => splitStatementsAt line false false .sequential start i rest) (ih _)
  | case8 s d pending part hq c rest handand hand horor hsemi h h' ih =>
    intro before
    obtain ⟨rfl, rfl⟩ := hq
    rw [splitStatementsAt.eq_def]
    dsimp only
    rw [if_neg h, if_neg h', if_pos ⟨rfl, rfl⟩]
    split
    · exact absurd rfl (handand _ rfl)
    · exact absurd rfl hand
    · exact absurd rfl (horor _ rfl)
    · exact absurd rfl hsemi
    · rw [line_step, byteLen_step, ih before]
  | case9 s d pending part c rest h h' hq ih =>
    intro before
    rw [splitStatementsAt.eq_def, line_step]
    dsimp only
    rw [if_neg h, if_neg h', if_neg hq, byteLen_step, ih before]

/-- **`split_statements` makes every slice on a character boundary.** -/
theorem splitStatementsBytes_eq (line : Str) : splitStatementsBytes line = some (splitStatements line) :=
  splitStatementsAt_eq false false .sequential [] line []

theorem splitPipelineAt_eq (s d : Bool) (part text : Str) :
    ∀ before : Str, splitPipelineAt (before ++ part ++ text) s d (byteLen before) (byteLen (before ++ part)) text
      = some (splitPipelineFrom s d part text) := by
  fun_induction splitPipelineFrom s d part text with
  | case1 s d part =>
    intro before
    rw [append_nil, splitPipelineAt, pushSlice_last]
  | case2 s d part c rest h ih =>
    intro before
    rw [splitPipelineAt, if_pos h, line_step, byteLen_step, ih before]
  | case3 s d part c rest h h' ih =>
    intro before
    rw [splitPipelineAt, if_neg h, if_pos h', line_step, byteLen_step, ih before]
  | case4 s d part c rest h h' hq ih =>
    intro before
    rw [splitPipelineAt, if_neg h, if_neg h', if_pos hq]
    exact pushSlice_cut _ before part [c] rest (fun line start i => splitPipelineAt line s d start i rest) (ih _)
  | case5 s d part c rest h h' hq ih =>
    intro before
    rw [splitPipelineAt, if_neg h, if_neg h', if_neg hq, line_step, byteLen_step, ih before]

/-- ... and so does `split_pipeline`. -/
theorem splitPipelineBytes_eq (statement : Str) : splitPipelineBytes statement = some (splitPipeline statement) :=
  splitPipelineAt_eq false false [] statement []

/-! ## One scan -/

/-- Cut at every operator outside quotes, trim the pieces and drop the empty ones. -/
def scan (quote : Option Char) (part : Str) : Str → List Str
  | [] => emit id part
  | c :: rest =>
      if quote = none then
        match c, rest with
        | '&', '&' :: rest' => emit id part ++ scan none [] rest'
        | '|', '|' :: rest' => emit id part ++ scan none [] rest'
        | '&', rest => emit id part ++ scan none [] rest
        | '|', rest => emit id part ++ scan none [] rest
        | ';', rest => emit id part ++ scan none [] rest
        | c, rest => scan (nextQuote none c) (part ++ [c]) rest
      else scan (nextQuote quote c) (part ++ [c]) rest

variable {quote : Option Char} {c : Char}

/-! ## The two passes -/

theorem splitStatementsFrom_background (pending : ControlOperator) (part : Str) {rest : Str}
    (h : ∀ rest', rest = '&' :: rest' → False) : splitStatementsFrom false false pending part ('&' :: rest) =
      emit (·, pending) part ++ splitStatementsFrom false false .background [] rest := by
  rw [splitStatementsFrom.eq_def]
  dsimp only
  rw [if_neg (by decide), if_neg (by decide), if_pos (by decide)]
  split
  · exact absurd rfl (h _)
  · rfl
  all_goals contradiction

/-- The second pass over the statements of the first. -/
def stages (statements : List (Str × ControlOperator)) : List Str := statements.flatMap fun s => splitPipeline s.1

/-- The stages of a statement are those of its text before it was trimmed. -/
theorem stages_emit (pending : ControlOperator) (text : Str) (l : List (Str × ControlOperator)) :
    stages (emit (·, pending) text ++ l) = splitPipeline text ++ stages l := by
  rw [stages, flatMap_append, emit, ← splitPipeline_trim text]
  split
  · next h => rw [h]; rfl
  · rw [flatMap_cons, flatMap_nil, append_nil]; rfl

/-- The second pass, having read `acc`, has made the pieces `done` and is in the middle of `part`. -/
def Halfway (quote : Option Char) (acc : Str) (done : List Str) (part : Str) : Prop :=
  ∀ more, splitPipelineFrom false false [] (acc ++ more) =
    done ++ splitPipelineFrom (inSingle quote) (inDouble quote) part more

variable {acc part : Str} {done : List Str}

theorem Halfway.done_eq (h : Halfway quote acc done part) : splitPipeline acc = done ++ emit id part := by
  have hend := h []
  rwa [append_nil] at hend

theorem Halfway.next (h : Halfway quote acc done part) (hquote : IsQuote quote) (hplain : quote ≠ none ∨ c ≠ '|') :
    Halfway (nextQuote quote c) (acc ++ [c]) done (part ++ [c]) := by
  intro more
  rw [append_assoc, singleton_append, h, splitPipelineFrom_next hquote part more hplain]

theorem Halfway.pipe (h : Halfway none acc done part) : Halfway none (acc ++ ['|']) (done ++ emit id part) [] := by
  intro more
  rw [append_assoc, h, append_assoc]
  rfl

/-- A cut of the first pass. -/
theorem Halfway.cut (h : Halfway none acc done part) {pieces : List Str} (pending : ControlOperator)
    {l : List (Str × ControlOperator)} (hl : stages l = pieces) :
    stages (emit (·, pending) acc ++ l) = done ++ (emit id part ++ pieces) := by
  rw [stages_emit, h.done_eq, hl, append_assoc]

/-- **The two passes are one scan.** -/
theorem statements_scan (quote : Option Char) (part text : Str) (hquote : IsQuote quote) :
    ∀ (pending : ControlOperator) (acc : Str) (done : List Str), Halfway quote acc done part →
      stages (splitStatementsFrom (inSingle quote) (inDouble quote) pending acc text) =
        done ++ scan quote part text := by
  have hstart : Halfway none [] [] [] := fun _ => rfl
  fun_induction scan quote part text with
  | case1 quote part =>
    intro pending acc done h
    rw [splitStatementsFrom, ← append_nil (emit _ _), stages_emit, h.done_eq]
    exact append_nil _
  | case2 part rest ih =>
    intro pending acc done h
    exact h.cut pending (ih (.inl rfl) _ [] [] hstart)
  | case3 part rest ih =>
    intro pending acc done h
    exact h.cut pending (ih (.inl rfl) _ [] [] hstart)
  | case4 part rest hne ih =>
    intro pending acc done h
    rw [show inSingle none = false from rfl, show inDouble none = false from rfl,
      splitStatementsFrom_background pending acc hne]
    exact h.cut pending (ih (.inl rfl) _ [] [] hstart)
  | case5 part rest hne ih =>
    intro pending acc done h
    rw [splitStatementsFrom_next hquote pending acc rest (.inr ⟨by decide, by decide, fun _ hhead => ?_⟩)]
    · have hpipe := ih (.inl rfl) pending _ _ h.pipe
      rwa [append_assoc] at hpipe
    · obtain ⟨rest', rfl⟩ := head?_eq_some_iff.mp hhead
      exact hne _ rfl
  | case6 part rest ih =>
    intro pending acc done h
    exact h.cut pending (ih (.inl rfl) _ [] [] hstart)
  | case7 part c rest h1 h2 hand hpipe hsemi ih =>
    intro pending acc done h
    rw [splitStatementsFrom_next hquote pending acc rest (.inr ⟨hand, hsemi, fun hc => absurd hc hpipe⟩)]
    exact ih (hquote.next c) pending _ _ (h.next hquote (.inr hpipe))
  | case8 quote part c rest hne ih =>
    intro pending acc done h
    rw [splitStatementsFrom_next hquote pending acc rest (.inl hne)]
    exact ih (hquote.next c) pending _ _ (h.next hquote (.inl hne))

/-! ## The result -/

/-- **The pieces of a line.**  Every slice of the two passes is on character boundaries; the stages of the statements
    are the pieces of one scan; and a loop that meets a quoted region takes it as a whole. -/
theorem line_pieces (line : Str) :
    splitStatementsBytes line = some (splitStatements line) ∧
    (∀ s ∈ splitStatements line, splitPipelineBytes s.1 = some (splitPipeline s.1)) ∧
    stages (splitStatements line) = scan none [] line ∧
    ∀ q body, q = '\'' ∨ q = '"' → q ∉ body → ∀ part rest,
      (∀ pending, splitStatementsFrom false false pending part (q :: (body ++ [q]) ++ rest) =
        splitStatementsFrom false false pending (part ++ q :: (body ++ [q])) rest) ∧
      splitPipelineFrom false false part (q :: (body ++ [q]) ++ rest) =
        splitPipelineFrom false false (part ++ q :: (body ++ [q])) rest := by
  refine ⟨splitStatementsBytes_eq line, fun s _ => splitPipelineBytes_eq s.1, ?_, fun q body hq hbody part rest => ?_⟩
  · exact statements_scan none [] line (.inl rfl) .sequential [] [] fun _ => rfl
  · have hsealed : isSealed false false (q :: (body ++ [q])) = true := isSealed_quoted hq hbody []
    exact ⟨fun pending => splitStatementsFrom_sealed pending rest part hsealed,
      splitPipelineFrom_sealed rest part hsealed⟩

end Saios.Shell
