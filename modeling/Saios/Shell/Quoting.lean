/-
  WORDS IN SINGLE QUOTES.

  The quotes of a word hold back the parser's operators, so a line of quoted words is one command
  (`parseLine_quotedLine`).  They are gone when the tokens come out, and three things are then done to a word as
  if it had never been quoted: an EMPTY token is dropped, a token that reads like a redirection is one, and
  variables are expanded in it.  `quoted_words_iff` says that nothing else is.
-/
import Saios.Shell.Dispatcher

namespace Saios.Shell

open Text List Option

/-! ## One command -/

/-- The command that a line of one command is carried out as. -/
def commandOf (s : Session) (line : Str) : Option ParsedCommand :=
  match parseLine line with
  | [{ pipelines := [{ commands := [cmd] }], operator := _ }] => some (expandAliasAndEnv s cmd)
  | _ => none

/-- A line has one command, and dispatching it, on any machine, is carrying this command out. -/
def ExecutedAs (s : Session) (line : Str) (cmd : ParsedCommand) : Prop :=
  commandOf s line = some cmd ∧
    ∀ {σ η : Type} (host : Host σ η) (depth : Nat) (st : Context σ), st.session = s →
      dispatch host (depth + 1) line st
        = andThen (dispatchCommand host (runScript host (dispatch host depth)) none false cmd st)
            fun _ st => (.ok (), st)

variable {cmd : ParsedCommand}

theorem dispatch_commandOf {σ η : Type} (host : Host σ η) (depth : Nat) {st : Context σ} {line : Str}
    (h : commandOf st.session line = some cmd) :
    dispatch host (depth + 1) line st
      = andThen (dispatchCommand host (runScript host (dispatch host depth)) none false cmd st)
          fun _ st => (.ok (), st) := by
  unfold commandOf at h
  split at h
  · next parsed operator hline =>
    obtain rfl : expandAliasAndEnv st.session parsed = cmd := some.inj h
    rw [dispatch, hline, dispatchFrom]
    rw [runPipelines, dispatchPipeline, dispatchCommands]
    rw [isEmpty_nil, Bool.not_true]
    generalize dispatchCommand host _ none false (expandAliasAndEnv st.session parsed) st = r
    rcases r with ⟨_ | ⟨pipeInput, good⟩, st'⟩
    · rfl
    · cases good <;> cases operator <;> rfl
  · cases h

variable {s : Session}

theorem executedAs_iff {line : Str} : ExecutedAs s line cmd ↔ commandOf s line = some cmd := by
  refine ⟨fun h => h.1, fun h => ⟨h, fun host depth st hs => ?_⟩⟩
  subst hs
  exact dispatch_commandOf host depth h

/-! ## The line -/

def quoted (w : Str) : Str := '\'' :: (w ++ ['\''])

/-- The words in single quotes, a space between any two. -/
def quotedLine : List Str → Str
  | [] => []
  | w :: ws => quoted w ++ ws.flatMap fun v => ' ' :: quoted v

variable {w : Str}

theorem quoted_append (w more : Str) : quoted w ++ more = '\'' :: (w ++ '\'' :: more) := by simp [quoted]

variable {ws : List Str}

theorem isSealed_quotedLine (h : ∀ v ∈ w :: ws, '\'' ∉ v) :
    isSealed false false (quotedLine (w :: ws)) = true := by
  obtain ⟨hw, hws⟩ := forall_mem_cons.mp h
  rw [quotedLine, quoted_append, isSealed_quoted (.inl rfl) hw]
  clear hw h
  induction ws with
  | nil => rfl
  | cons v ws ih =>
    obtain ⟨hv, hws⟩ := forall_mem_cons.mp hws
    rw [flatMap_cons, cons_append, isSealed, quoted_append,
      isSealed_quoted (.inl rfl) hv, ih hws]
    rfl

theorem quotedLine_ends (w : Str) (ws : List Str) : ∃ text, quotedLine (w :: ws) = text ++ ['\''] := by
  rcases eq_nil_or_concat ws with rfl | ⟨ws, v, rfl⟩
  · exact ⟨'\'' :: w, by rw [quotedLine, quoted, flatMap_nil, append_nil, cons_append]⟩
  · refine ⟨quoted w ++ (ws.flatMap fun v => ' ' :: quoted v) ++ ' ' :: '\'' :: v, ?_⟩
    rw [quotedLine, concat_eq_append]
    simp [quoted]

theorem trim_quotedLine (w : Str) (ws : List Str) : trim (quotedLine (w :: ws)) = quotedLine (w :: ws) := by
  refine trim_eq_self (fun c hc => ?_) fun c hc => ?_
  · obtain rfl : '\'' = c := some.inj hc
    decide
  · obtain ⟨text, htext⟩ := quotedLine_ends w ws
    rw [htext, getLast?_concat] at hc
    obtain rfl : '\'' = c := some.inj hc
    decide

/-- The line is one statement of one stage. -/
theorem parseLine_quotedLine (h : ∀ v ∈ w :: ws, '\'' ∉ v) :
    parseLine (quotedLine (w :: ws))
      = (parseCommand (quotedLine (w :: ws))).toList.map fun cmd =>
          { pipelines := [{ commands := [cmd] }], operator := .sequential } := by
  have hsealed := isSealed_quotedLine h
  have hne : quotedLine (w :: ws) ≠ [] := by
    exact cons_ne_nil _ _
  have hemit : ∀ {α : Type} (tag : Str → α), emit tag (quotedLine (w :: ws)) = [tag (quotedLine (w :: ws))] := by
    intro α tag
    rw [emit, trim_quotedLine, if_neg hne]
  have hstatements : splitStatements (quotedLine (w :: ws)) = [(quotedLine (w :: ws), .sequential)] := by
    have hscan := splitStatementsFrom_sealed .sequential [] [] hsealed
    rw [append_nil] at hscan
    rw [splitStatements, hscan]
    exact hemit _
  have hstages : splitPipeline (quotedLine (w :: ws)) = [quotedLine (w :: ws)] := by
    have hscan := splitPipelineFrom_sealed [] [] hsealed
    rw [append_nil] at hscan
    rw [splitPipeline, hscan]
    exact hemit id
  rw [parseLine, hstatements, filterMap_cons, parseStatement]
  rw [hstages, filterMap_cons]
  cases parseCommand (quotedLine (w :: ws)) <;> rfl

/-! ## Its tokens -/

theorem tokenizeFrom_quoted (hw : '\'' ∉ w) (current more : Str) :
    tokenizeFrom false false current (quoted w ++ more) = tokenizeFrom false false (current ++ w) more := by
  have hinside : ∀ {w : Str} (current : Str), '\'' ∉ w →
      tokenizeFrom true false current (w ++ '\'' :: more) = tokenizeFrom false false (current ++ w) more := by
    intro w
    induction w with
    | nil =>
      intro current _
      rw [append_nil]
      rfl
    | cons c w ih =>
      intro current hw
      rw [mem_cons, not_or] at hw
      rw [cons_append, tokenizeFrom.eq_def]
      dsimp only
      rw [if_neg fun h => hw.1 h.1.symm, if_neg (by simp), if_neg (by simp), ih _ hw.2, append_assoc,
        singleton_append]
  rw [quoted, cons_append, append_assoc, tokenizeFrom.eq_def]
  exact hinside current hw

theorem flush_append_filter (w : Str) (ws : List Str) :
    flush w ++ ws.filter (· ≠ []) = (w :: ws).filter (· ≠ []) := by
  rw [filter_cons]
  by_cases hnil : w = []
  · rw [flush, if_pos hnil, if_neg (by simpa using hnil), nil_append]
  · rw [flush, if_neg hnil, if_pos (by simpa using hnil), singleton_append]

theorem tokenizeFrom_quotedWords :
    (∀ v ∈ ws, '\'' ∉ v) → ∀ current : Str,
      tokenizeFrom false false current (ws.flatMap fun v => ' ' :: quoted v)
        = flush current ++ ws.filter (· ≠ []) := by
  induction ws with
  | nil => exact fun _ current => (append_nil _).symm
  | cons v ws ih =>
    intro h current
    obtain ⟨hv, hws⟩ := forall_mem_cons.mp h
    have hspace : ∀ more : Str, tokenizeFrom false false current (' ' :: more)
        = flush current ++ tokenizeFrom false false [] more := fun _ => rfl
    rw [flatMap_cons, cons_append, hspace, tokenizeFrom_quoted hv, ih hws, nil_append,
      flush_append_filter]

/-- **The tokens are the words that are not empty.** -/
theorem tokenize_quotedLine (h : ∀ v ∈ w :: ws, '\'' ∉ v) :
    tokenize (quotedLine (w :: ws)) = (w :: ws).filter (· ≠ []) := by
  obtain ⟨hw, hws⟩ := forall_mem_cons.mp h
  rw [tokenize, quotedLine, tokenizeFrom_quoted hw, tokenizeFrom_quotedWords hws, nil_append,
    flush_append_filter]

/-! ## The command of the tokens -/

variable {tokens : List Str}

theorem parseTokens_words (h : ∀ t ∈ tokens, redirectKind t = none) (c : Str) (rs : List Redirection) :
    ∀ args : List Str, parseTokens (some c) args rs tokens
      = some { command := c, args := args ++ tokens, redirections := rs } := by
  induction tokens with
  | nil => exact fun args => by rw [append_nil]; rfl
  | cons t tokens ih =>
    intro args
    obtain ⟨ht, htokens⟩ := forall_mem_cons.mp h
    rw [parseTokens, ht]
    rw [ih htokens, append_assoc, singleton_append]

section tokens

variable {command : Option Str} {args : List Str} {rs : List Redirection}
  (h : parseTokens command args rs tokens = some cmd)

include h

/-- Redirections are only ever added. -/
theorem parseTokens_redirections : ∃ more, cmd.redirections = rs ++ more := by
  fun_induction parseTokens command args rs tokens with
  | case1 command args rs =>
    obtain ⟨c, -, rfl⟩ := map_eq_some_iff.mp h
    exact ⟨[], (append_nil rs).symm⟩
  | case2 => cases h
  | case3 command args rs token kind hkind path rest ih =>
    obtain ⟨more, hmore⟩ := ih h
    exact ⟨_, by rw [hmore, append_assoc]⟩
  | case4 args rs token rest hkind ih => exact ih h
  | case5 args rs token rest hkind c ih => exact ih h

/-- A command without redirections has all tokens for its words. -/
theorem words_of_parseTokens (hnone : cmd.redirections = []) (hargs : command = none → args = []) :
    (∀ t ∈ tokens, redirectKind t = none) ∧ command.toList ++ args ++ tokens = cmd.command :: cmd.args := by
  fun_induction parseTokens command args rs tokens with
  | case1 command args rs =>
    obtain ⟨c, rfl, rfl⟩ := map_eq_some_iff.mp h
    exact ⟨nofun, by simp⟩
  | case2 => cases h
  | case3 command args rs token kind hkind path rest ih =>
    obtain ⟨more, hmore⟩ := parseTokens_redirections h
    rw [hnone] at hmore
    simp at hmore
  | case4 args rs token rest hkind ih =>
    obtain rfl := hargs rfl
    obtain ⟨hkinds, hwords⟩ := ih h nofun
    exact ⟨forall_mem_cons.mpr ⟨hkind, hkinds⟩, hwords⟩
  | case5 args rs token rest hkind c ih =>
    obtain ⟨hkinds, hwords⟩ := ih h nofun
    refine ⟨forall_mem_cons.mpr ⟨hkind, hkinds⟩, ?_⟩
    rw [← hwords]
    simp

end tokens

theorem parseTokens_iff (hnone : cmd.redirections = []) :
    parseTokens none [] [] tokens = some cmd ↔
      (∀ t ∈ tokens, redirectKind t = none) ∧ tokens = cmd.command :: cmd.args := by
  refine ⟨fun h => words_of_parseTokens h hnone fun _ => rfl, ?_⟩
  rintro ⟨hkinds, rfl⟩
  obtain ⟨hkind, hkinds⟩ := forall_mem_cons.mp hkinds
  rw [parseTokens, hkind]
  rw [parseTokens_words hkinds, nil_append, ← hnone]

/-! ## What comes of the words -/

theorem expandAlias_none (h : s.aliases = []) (rounds : Nat) (name : Str) (args : List Str) :
    expandAlias s rounds name args = (name, args) := by
  cases rounds with
  | zero => rfl
  | succ rounds =>
    have hget : s.aliasGet name = none := by
      rw [Session.aliasGet, h]
      rfl
    rw [expandAlias, hget]

theorem expandAliasAndEnv_words (h : s.aliases = []) (cmd : ParsedCommand) (name : Str) (args : List Str) :
    expandAliasAndEnv s cmd = { command := name, args := args, redirections := [] } ↔
      cmd.redirections = [] ∧ (cmd.command :: cmd.args).map (expandVars s) = name :: args := by
  rw [expandAliasAndEnv, expandAlias_none h, ParsedCommand.mk.injEq, map_eq_nil_iff,
    map_cons, cons.injEq]
  exact ⟨fun ⟨hc, ha, hr⟩ => ⟨hr, hc, ha⟩, fun ⟨hr, hc, ha⟩ => ⟨hc, ha, hr⟩⟩

theorem redirectKind_eq_none : redirectKind w = none ↔ w ∉ [['>'], ['>', '>'], ['<']] := by
  rw [redirectKind]
  by_cases hwrite : w = ['>']
  · simp [hwrite]
  · by_cases happend : w = ['>', '>']
    · simp [happend]
    · by_cases hread : w = ['<'] <;> simp [hwrite, hread]

theorem commandOf_quotedLine {name : Str} {args : List Str} (hquote : ∀ w ∈ name :: args, '\'' ∉ w) :
    commandOf s (quotedLine (name :: args)) = some cmd ↔
      ∃ parsed, parseTokens none [] [] ((name :: args).filter (· ≠ [])) = some parsed ∧
        expandAliasAndEnv s parsed = cmd := by
  rw [commandOf, parseLine_quotedLine hquote, parseCommand, tokenize_quotedLine hquote]
  cases parseTokens none [] [] ((name :: args).filter (· ≠ [])) with
  | none => simp
  | some parsed => simp

/-- **A line of words in single quotes is carried out as the one command with these words EXACTLY when no word is
    empty, none reads like a redirection, and none is changed by the expansion of variables.** -/
theorem quoted_words_iff (s : Session) (haliases : s.aliases = []) (name : Str) (args : List Str)
    (hquote : ∀ w ∈ name :: args, '\'' ∉ w) :
    ExecutedAs s (quotedLine (name :: args)) { command := name, args := args, redirections := [] } ↔
      ∀ w ∈ name :: args, w ≠ [] ∧ w ∉ [['>'], ['>', '>'], ['<']] ∧ expandVars s w = w := by
  rw [executedAs_iff, commandOf_quotedLine hquote]
  constructor
  · rintro ⟨parsed, hparsed, hexpand⟩
    obtain ⟨hnone, hmap⟩ := (expandAliasAndEnv_words haliases parsed name args).mp hexpand
    obtain ⟨hkinds, htokens⟩ := (parseTokens_iff hnone).mp hparsed
    -- expansion keeps the number of words, so no word was dropped
    have hlength : ((name :: args).filter (· ≠ [])).length = (name :: args).length := by
      rw [htokens, ← hmap, List.length_map]
    have hall := List.length_filter_eq_length_iff.mp hlength
    rw [List.filter_eq_self.mpr hall] at htokens hkinds
    rw [← htokens] at hmap
    have hfix := List.map_inj_left.mp (hmap.trans (List.map_id _).symm)
    exact fun w hw => ⟨of_decide_eq_true (hall w hw), redirectKind_eq_none.mp (hkinds w hw), hfix w hw⟩
  · intro h
    have hkeep : (name :: args).filter (· ≠ []) = name :: args :=
      List.filter_eq_self.mpr fun w hw => decide_eq_true (h w hw).1
    refine ⟨{ command := name, args := args, redirections := [] }, ?_, ?_⟩
    · rw [hkeep]
      exact (parseTokens_iff rfl).mpr ⟨fun w hw => redirectKind_eq_none.mpr (h w hw).2.1, rfl⟩
    · refine (expandAliasAndEnv_words haliases _ name args).mpr ⟨rfl, ?_⟩
      exact (List.map_congr_left fun w hw => (h w hw).2.2).trans (List.map_id _)

/-- Spaces, pipes, operators and a `$` that names nothing are kept. -/
theorem quoted_words_kept :
    ExecutedAs ⟨[], [], 0⟩ (quotedLine ["a b".toList, "|&;".toList, "5$".toList])
      { command := "a b".toList, args := ["|&;".toList, "5$".toList], redirections := [] } :=
  (quoted_words_iff _ rfl _ _ (by decide)).mpr (by decide)

/-- `'a' ''` loses its argument, `'a' '>'` is no command at all, and `'a' '$?'` is given the exit code. -/
theorem quoted_words_changed :
    commandOf ⟨[], [], 0⟩ (quotedLine [['a'], []]) = some { command := ['a'], args := [], redirections := [] } ∧
      parseLine (quotedLine [['a'], ['>']]) = [] ∧
      commandOf ⟨[], [], 0⟩ (quotedLine [['a'], ['$', '?']])
        = some { command := ['a'], args := [['0']], redirections := [] } ∧
      ¬ExecutedAs ⟨[], [], 0⟩ (quotedLine [['a'], []]) { command := ['a'], args := [[]], redirections := [] } := by
  refine ⟨by decide, by decide, by decide, fun h => absurd h.1 (by decide)⟩

end Saios.Shell
