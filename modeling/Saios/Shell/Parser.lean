/-
  THE PARSER of the shell: a line, its statements, their pipeline stages, the words of a stage.

  1. **Four scanners** — `split_statements`, `split_pipeline` and `tokenize` go through the characters with two
     flags, one for each kind of quote; `parse_command` goes through the tokens.  Slices between byte indices
     are the characters collected since the last cut.

  2. **The quote state** — the two flags are one state, the quote that is open (`nextQuote`).  A text that meets
     no unquoted operator and ends unquoted is SEALED: the scanners that cut at operators take it as a whole
     (`splitStatementsFrom_sealed`, `splitPipelineFrom_sealed`).

  3. **Stages** — white space around a statement is not seen by `split_pipeline` (`splitPipeline_trim`), so
     the stages of a statement are its texts between the pipes, trimmed.
-/
import Saios.Lib.Text

namespace Saios.Shell

open Text List

/-! ## Data -/

inductive RedirectKind
  | read
  | write
  | append
  deriving DecidableEq, Repr

structure Redirection where
  kind : RedirectKind
  path : Str
  deriving DecidableEq

structure ParsedCommand where
  command : Str
  args : List Str
  redirections : List Redirection
  deriving DecidableEq

inductive ControlOperator
  | sequential
  | andAnd
  | orOr
  | background
  deriving DecidableEq, Repr

structure ParsedPipeline where
  commands : List ParsedCommand
  deriving DecidableEq

structure ParsedStatement where
  pipelines : List ParsedPipeline
  operator : ControlOperator
  deriving DecidableEq

/-! ## Scanners -/

/-- A collected part, trimmed, unless nothing is left of it. -/
def emit {α : Type} (tag : Str → α) (part : Str) : List α := if trim part = [] then [] else [tag (trim part)]

/-- The loop of `split_statements`: `part` is what was collected since the last cut. -/
def splitStatementsFrom (inSingle inDouble : Bool) (pending : ControlOperator) (part : Str) :
    Str → List (Str × ControlOperator)
  | [] => emit (·, pending) part
  | c :: rest =>
      if c = '\'' ∧ inDouble = false then
        splitStatementsFrom (!inSingle) inDouble pending (part ++ [c]) rest
      else if c = '"' ∧ inSingle = false then
        splitStatementsFrom inSingle (!inDouble) pending (part ++ [c]) rest
      else if inSingle = false ∧ inDouble = false then
        match c, rest with
        | '&', '&' :: rest' => emit (·, pending) part ++ splitStatementsFrom inSingle inDouble .andAnd [] rest'
        | '&', rest => emit (·, pending) part ++ splitStatementsFrom inSingle inDouble .background [] rest
        | '|', '|' :: rest' => emit (·, pending) part ++ splitStatementsFrom inSingle inDouble .orOr [] rest'
        | ';', rest => emit (·, pending) part ++ splitStatementsFrom inSingle inDouble .sequential [] rest
        | c, rest => splitStatementsFrom inSingle inDouble pending (part ++ [c]) rest
      else splitStatementsFrom inSingle inDouble pending (part ++ [c]) rest

def splitStatements (line : Str) : List (Str × ControlOperator) :=
  splitStatementsFrom false false .sequential [] line

/-- The loop of `split_pipeline`. -/
def splitPipelineFrom (inSingle inDouble : Bool) (part : Str) : Str → List Str
  | [] => emit id part
  | c :: rest =>
      if c = '\'' ∧ inDouble = false then splitPipelineFrom (!inSingle) inDouble (part ++ [c]) rest
      else if c = '"' ∧ inSingle = false then splitPipelineFrom inSingle (!inDouble) (part ++ [c]) rest
      else if c = '|' ∧ inSingle = false ∧ inDouble = false then
        emit id part ++ splitPipelineFrom inSingle inDouble [] rest
      else splitPipelineFrom inSingle inDouble (part ++ [c]) rest

def splitPipeline (statement : Str) : List Str := splitPipelineFrom false false [] statement

/-- `if !current.is_empty() { out.push(take(current)) }`. -/
def flush (current : Str) : List Str := if current = [] then [] else [current]

/-- The loop of `tokenize`. -/
def tokenizeFrom (inSingle inDouble : Bool) (current : Str) : Str → List Str
  | [] => flush current
  | c :: rest =>
      if c = '\'' ∧ inDouble = false then tokenizeFrom (!inSingle) inDouble current rest
      else if c = '"' ∧ inSingle = false then tokenizeFrom inSingle (!inDouble) current rest
      else if inSingle = false ∧ inDouble = false then
        match c, rest with
        | ' ', rest => flush current ++ tokenizeFrom inSingle inDouble [] rest
        | '\t', rest => flush current ++ tokenizeFrom inSingle inDouble [] rest
        | '>', '>' :: rest' => flush current ++ ['>', '>'] :: tokenizeFrom inSingle inDouble [] rest'
        | '>', rest => flush current ++ ['>'] :: tokenizeFrom inSingle inDouble [] rest
        | '<', rest => flush current ++ ['<'] :: tokenizeFrom inSingle inDouble [] rest
        | c, rest => tokenizeFrom inSingle inDouble (current ++ [c]) rest
      else tokenizeFrom inSingle inDouble (current ++ [c]) rest

def tokenize (part : Str) : List Str := tokenizeFrom false false [] part

/-- The redirection that a token announces. -/
def redirectKind (token : Str) : Option RedirectKind :=
  if token = ['>'] then some .write
  else if token = ['>', '>'] then some .append
  else if token = ['<'] then some .read
  else none

/-- The loop of `parse_command`. -/
def parseTokens (command : Option Str) (args : List Str) (redirections : List Redirection) :
    List Str → Option ParsedCommand
  | [] => command.map fun c => { command := c, args := args, redirections := redirections }
  | token :: rest =>
      match redirectKind token with
      | some kind =>
          match rest with
          | [] => none
          | path :: rest => parseTokens command args (redirections ++ [{ kind := kind, path := path }]) rest
      | none =>
          match command with
          | none => parseTokens (some token) args redirections rest
          | some c => parseTokens (some c) (args ++ [token]) redirections rest

def parseCommand (part : Str) : Option ParsedCommand := parseTokens none [] [] (tokenize part)

/-- The body of the loop of `parse_line`. -/
def parseStatement (statement : Str × ControlOperator) : Option ParsedStatement :=
  let commands := (splitPipeline statement.1).filterMap parseCommand
  if commands = [] then none else some { pipelines := [{ commands := commands }], operator := statement.2 }

def parseLine (line : Str) : List ParsedStatement := (splitStatements line).filterMap parseStatement

/-! ## Sealed texts -/

/-- Read from the flags of the two quotes, a text meets no unquoted control operator or pipe and ends unquoted. -/
def isSealed : Bool → Bool → Str → Bool
  | inSingle, inDouble, [] => !inSingle && !inDouble
  | inSingle, inDouble, c :: rest =>
      if c = '\'' ∧ inDouble = false then isSealed (!inSingle) inDouble rest
      else if c = '"' ∧ inSingle = false then isSealed inSingle (!inDouble) rest
      else (inSingle || inDouble || (c != '&' && c != '|' && c != ';')) && isSealed inSingle inDouble rest

/-- The quote that is open behind a character. -/
def nextQuote : Option Char → Char → Option Char
  | some q, c => if c = q then none else some q
  | none, c => if c = '\'' ∨ c = '"' then some c else none

/-- Quotes are single or double. -/
def IsQuote (quote : Option Char) : Prop := quote = none ∨ quote = some '\'' ∨ quote = some '"'

variable {quote : Option Char} {c : Char}

theorem IsQuote.next (h : IsQuote quote) (c : Char) : IsQuote (nextQuote quote c) := by
  rcases h with rfl | rfl | rfl
  · rw [nextQuote]
    split
    · next hc => exact hc.elim (fun hc => .inr (.inl (congrArg some hc))) fun hc => .inr (.inr (congrArg some hc))
    · exact .inl rfl
  all_goals
    rw [nextQuote]
    split
    · exact .inl rfl
    · simp [IsQuote]

def inSingle (quote : Option Char) : Bool := decide (quote = some '\'')

def inDouble (quote : Option Char) : Bool := decide (quote = some '"')

/-- The flags of the source follow the quote state of the scan. -/
theorem flags_next (h : IsQuote quote) (c : Char) {α : Type} (f : Bool → Bool → α) :
    (if c = '\'' ∧ inDouble quote = false then f (!inSingle quote) (inDouble quote)
      else if c = '"' ∧ inSingle quote = false then f (inSingle quote) (!inDouble quote)
      else f (inSingle quote) (inDouble quote)) =
    f (inSingle (nextQuote quote c)) (inDouble (nextQuote quote c)) := by
  by_cases hs : c = '\''
  · subst hs
    rcases h with rfl | rfl | rfl <;> rfl
  · by_cases hd : c = '"'
    · subst hd
      rcases h with rfl | rfl | rfl <;> rfl
    · rcases h with rfl | rfl | rfl <;> simp [nextQuote, hs, hd]

theorem flags_of_quoted (h : IsQuote quote) (hquote : quote ≠ none) :
    inSingle quote = true ∨ inDouble quote = true := by
  rcases h with rfl | rfl | rfl
  · exact absurd rfl hquote
  · exact .inl rfl
  · exact .inr rfl

theorem splitStatementsFrom_plain {s d : Bool} {c : Char} (pending : ControlOperator) (part rest : Str)
    (hsingle : ¬(c = '\'' ∧ d = false)) (hdouble : ¬(c = '"' ∧ s = false))
    (hplain : s = true ∨ d = true ∨ c ≠ '&' ∧ c ≠ ';' ∧ (c = '|' → rest.head? ≠ some '|')) :
    splitStatementsFrom s d pending part (c :: rest) = splitStatementsFrom s d pending (part ++ [c]) rest := by
  rw [splitStatementsFrom.eq_def]
  dsimp only
  rw [if_neg hsingle, if_neg hdouble]
  split
  · next hquote =>
    obtain ⟨rfl, rfl⟩ := hquote
    obtain ⟨hamp, hsemi, hpipe⟩ : c ≠ '&' ∧ c ≠ ';' ∧ (c = '|' → rest.head? ≠ some '|') := by simpa using hplain
    split
    · exact absurd rfl hamp
    · exact absurd rfl hamp
    · exact absurd rfl (hpipe rfl)
    · exact absurd rfl hsemi
    · rfl
  · rfl

theorem splitStatementsFrom_next (h : IsQuote quote) (pending : ControlOperator) (part rest : Str)
    (hplain : quote ≠ none ∨ c ≠ '&' ∧ c ≠ ';' ∧ (c = '|' → rest.head? ≠ some '|')) :
    splitStatementsFrom (inSingle quote) (inDouble quote) pending part (c :: rest) =
      splitStatementsFrom (inSingle (nextQuote quote c)) (inDouble (nextQuote quote c)) pending (part ++ [c]) rest := by
  rw [← flags_next h c fun s d => splitStatementsFrom s d pending _ rest]
  split
  · next hs =>
    rw [splitStatementsFrom.eq_def]
    dsimp only
    rw [if_pos hs]
  · next hs =>
    split
    · next hd =>
      rw [splitStatementsFrom.eq_def]
      dsimp only
      rw [if_neg hs, if_pos hd]
    · refine splitStatementsFrom_plain _ _ _ ‹_› ‹_› ?_
      rcases hplain with hquote | hplain
      · exact (flags_of_quoted h hquote).imp_right .inl
      · exact .inr (.inr hplain)

theorem splitPipelineFrom_next (h : IsQuote quote) (part rest : Str) (hplain : quote ≠ none ∨ c ≠ '|') :
    splitPipelineFrom (inSingle quote) (inDouble quote) part (c :: rest) =
      splitPipelineFrom (inSingle (nextQuote quote c)) (inDouble (nextQuote quote c)) (part ++ [c]) rest := by
  have hno : ¬(c = '|' ∧ inSingle quote = false ∧ inDouble quote = false) := by
    rintro ⟨hc, hs, hd⟩
    rcases hplain with hquote | hplain
    · have := flags_of_quoted h hquote
      rw [hs, hd] at this
      simp at this
    · exact hplain hc
  rw [← flags_next h c fun s d => splitPipelineFrom s d _ rest, splitPipelineFrom, if_neg hno]

theorem isSealed_next (h : IsQuote quote) (rest : Str) :
    isSealed (inSingle quote) (inDouble quote) (c :: rest) = true ↔
      (quote ≠ none ∨ c ≠ '&' ∧ c ≠ '|' ∧ c ≠ ';') ∧
        isSealed (inSingle (nextQuote quote c)) (inDouble (nextQuote quote c)) rest = true := by
  rw [← flags_next h c fun s d => isSealed s d rest, isSealed]
  split
  · next hc => simp [hc.1]
  · split
    · next hc => simp [hc.1]
    · rcases h with rfl | rfl | rfl <;> simp [inSingle, inDouble, and_assoc]

/-- A loop that collects what is not an unquoted operator takes a sealed text as a whole. -/
theorem sealed_next {β : Type} {f : Bool → Bool → Str → Str → β} {text : Str} (more : Str)
    (hnext : ∀ {quote : Option Char} {c : Char} (part rest : Str), IsQuote quote →
      (quote ≠ none ∨ c ≠ '&' ∧ c ≠ '|' ∧ c ≠ ';') → f (inSingle quote) (inDouble quote) part (c :: rest) =
        f (inSingle (nextQuote quote c)) (inDouble (nextQuote quote c)) (part ++ [c]) rest) :
    ∀ {quote : Option Char} (part : Str), IsQuote quote → isSealed (inSingle quote) (inDouble quote) text = true →
      f (inSingle quote) (inDouble quote) part (text ++ more) = f false false (part ++ text) more := by
  induction text with
  | nil =>
    intro quote part hq h
    obtain ⟨hs, hd⟩ : inSingle quote = false ∧ inDouble quote = false := by simpa [isSealed] using h
    rw [hs, hd, nil_append, append_nil]
  | cons c text ih =>
    intro quote part hq h
    obtain ⟨hplain, h⟩ := (isSealed_next hq text).mp h
    rw [cons_append, hnext part _ hq hplain, ih _ (hq.next c) h, append_assoc,
      singleton_append]

theorem splitStatementsFrom_sealed {text : Str} (pending : ControlOperator) (more part : Str)
    (h : isSealed false false text = true) : splitStatementsFrom false false pending part (text ++ more)
      = splitStatementsFrom false false pending (part ++ text) more := by
  refine sealed_next (f := fun s d => splitStatementsFrom s d pending) more (fun part rest hq hplain => ?_) part
    (.inl rfl) h
  exact splitStatementsFrom_next hq pending part rest
    (hplain.imp_right fun hc => ⟨hc.1, hc.2.2, fun heq => absurd heq hc.2.1⟩)

theorem splitPipelineFrom_sealed {text : Str} (more part : Str) (h : isSealed false false text = true) :
    splitPipelineFrom false false part (text ++ more) = splitPipelineFrom false false (part ++ text) more :=
  sealed_next more (fun part rest hq hplain => splitPipelineFrom_next hq part rest (hplain.imp_right fun hc => hc.2.1))
    part (.inl rfl) h

/-- A quoted region is sealed, whatever is in it. -/
theorem isSealed_quoted {q : Char} (hq : q = '\'' ∨ q = '"') {body : Str} (hbody : q ∉ body) (more : Str) :
    isSealed false false (q :: (body ++ q :: more)) = isSealed false false more := by
  have hquote : IsQuote (some q) := .inr (hq.imp (congrArg some) (congrArg some))
  have hinside : isSealed (inSingle (some q)) (inDouble (some q)) (body ++ q :: more) = isSealed false false more := by
    induction body with
    | nil =>
      rw [Bool.eq_iff_iff, nil_append, isSealed_next hquote, show nextQuote (some q) q = none from if_pos rfl]
      simp [inSingle, inDouble]
    | cons c body ih =>
      obtain ⟨hc, hbody⟩ := ne_and_not_mem_of_not_mem_cons hbody
      rw [← ih hbody, Bool.eq_iff_iff, cons_append, isSealed_next hquote,
        show nextQuote (some q) c = some q from if_neg hc.symm]
      simp
  have hopen := isSealed_next (c := q) (.inl rfl) (body ++ q :: more)
  rw [show nextQuote none q = some q from if_pos hq, hinside] at hopen
  refine Bool.eq_iff_iff.mpr (hopen.trans ⟨fun h => h.2, fun h => ⟨.inr ?_, h⟩⟩)
  rcases hq with rfl | rfl <;> decide

/-! ## White space around a statement -/

variable {ws : Str}

theorem splitPipelineFrom_blank_part (hws : Blank ws) (text : Str) :
    ∀ (s d : Bool) (part : Str), splitPipelineFrom s d (ws ++ part) text = splitPipelineFrom s d part text := by
  induction text with
  | nil =>
    intro s d part
    rw [splitPipelineFrom, splitPipelineFrom, emit, emit, trim_append_left hws]
  | cons c text ih =>
    intro s d part
    rw [splitPipelineFrom, splitPipelineFrom, append_assoc, ih, ih, ih, emit, emit, trim_append_left hws]

theorem splitPipelineFrom_blank (hws : Blank ws) :
    ∀ (s d : Bool) (part more : Str),
      splitPipelineFrom s d part (ws ++ more) = splitPipelineFrom s d (part ++ ws) more := by
  induction ws with
  | nil => exact fun s d part more => by rw [nil_append, append_nil]
  | cons c ws ih =>
    intro s d part more
    have hwhite : isWhite c = true := hws c mem_cons_self
    have hne : ∀ q, isWhite q = false → c ≠ q := fun q hq heq => by rw [heq, hq] at hwhite; cases hwhite
    rw [cons_append, splitPipelineFrom, if_neg (fun h => hne _ (by decide) h.1),
      if_neg (fun h => hne _ (by decide) h.1), if_neg (fun h => hne _ (by decide) h.1),
      ih (fun e he => hws e (mem_cons_of_mem _ he)), append_assoc, singleton_append]

theorem splitPipelineFrom_append_blank (hws : Blank ws) (text : Str) :
    ∀ (s d : Bool) (part : Str), splitPipelineFrom s d part (text ++ ws) = splitPipelineFrom s d part text := by
  induction text with
  | nil =>
    intro s d part
    have h := splitPipelineFrom_blank hws s d part []
    rw [append_nil] at h
    rw [nil_append, h, splitPipelineFrom, splitPipelineFrom, emit, emit, trim_append_right hws]
  | cons c text ih =>
    intro s d part
    rw [cons_append, splitPipelineFrom, splitPipelineFrom, ih, ih, ih, ih]

/-- White space around a statement makes no difference to its stages. -/
theorem splitPipeline_trim (text : Str) : splitPipeline (trim text) = splitPipeline text := by
  obtain ⟨l, r, hl, hr, htext⟩ := exists_trim text
  calc splitPipeline (trim text)
      = splitPipelineFrom false false (l ++ []) (trim text) := (splitPipelineFrom_blank_part hl _ _ _ _).symm
    _ = splitPipelineFrom false false [] (l ++ trim text) := by
        rw [splitPipelineFrom_blank hl, nil_append, append_nil]
    _ = splitPipelineFrom false false [] (l ++ trim text ++ r) :=
        (splitPipelineFrom_append_blank hr _ _ _ _).symm
    _ = splitPipeline text := by rw [← htext, splitPipeline]

end Saios.Shell
