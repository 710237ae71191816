/-
  THE DISPATCHER of the shell: a parsed line, carried out pipeline by pipeline.

  1. **The host** — everything the dispatcher calls (the command registry, `process::exec`, the console's
     output capture, SAIFS) is a parameter, with a state of its own; the shell's state is the session and the
     state of the host.  A call leaves its state behind when it fails, so results are pairs.

  2. **`source`** — a script line is dispatched like any other, so `dispatch`, `dispatch_pipeline` and
     `run_script` call each other.  A pipeline takes the way to run a script as an argument, and `dispatch`
     closes the circle with a depth of nested scripts (`Failure.tooDeep` is the stack that does not suffice).

  3. **The loop of `dispatch`** — it takes the runner of a pipeline as an argument too, with the position of
     the statement, which `dispatch` itself does not look at (`dispatchFrom`).
-/
import Saios.Lib.First
import Saios.Shell.Parser

namespace Saios.Shell

open Text

/-! ## The session -/

structure Session where
  environment : List (Str × Str)
  aliases : List (Str × Str)
  lastExitCode : Int
  deriving DecidableEq

def Session.envGet (s : Session) (key : Str) : Option Str := (s.environment.find? (·.1 = key)).map (·.2)

def Session.envSet (s : Session) (key value : Str) : Session :=
  if s.environment.any (·.1 = key) then
    { s with environment := s.environment.modifyFirst (·.1 = key) fun kv => (kv.1, value) }
  else { s with environment := s.environment ++ [(key, value)] }

def Session.envUnset (s : Session) (key : Str) : Session :=
  { s with environment := s.environment.filter (·.1 ≠ key) }

def Session.aliasGet (s : Session) (key : Str) : Option Str := (s.aliases.find? (·.1 = key)).map (·.2)

/-! ## Expansion -/

def isKeyChar (c : Char) : Bool := c.isAlphanum || c == '_'

/-- The key that follows a `$`, and what follows the key. -/
def readKey : Str → Str × Str
  | '{' :: rest => (rest.takeWhile (· ≠ '}'), (rest.dropWhile (· ≠ '}')).drop 1)
  | rest => (rest.takeWhile isKeyChar, rest.dropWhile isKeyChar)

/-- The loop of `expand_vars`, with a bound on its rounds. -/
def expandVarsFrom (s : Session) : Nat → Str → Str
  | 0, _ => []
  | _ + 1, [] => []
  | rounds + 1, c :: rest =>
      if c ≠ '$' then c :: expandVarsFrom s rounds rest
      else
        match rest with
        | [] => ['$']
        | '?' :: rest => (toString s.lastExitCode).toList ++ expandVarsFrom s rounds rest
        | rest =>
            if (readKey rest).1 = [] then '$' :: expandVarsFrom s rounds rest
            else (s.envGet (readKey rest).1).getD [] ++ expandVarsFrom s rounds (readKey rest).2

def expandVars (s : Session) (input : Str) : Str := expandVarsFrom s input.length input

theorem readKey_length (rest : Str) : (readKey rest).2.length ≤ rest.length := by
  unfold readKey
  split
  · next rest =>
    have h := (List.dropWhile_sublist (fun c => decide (c ≠ '}')) (l := rest)).length_le
    rw [List.length_drop, List.length_cons]
    omega
  · exact (List.dropWhile_sublist _).length_le

/-- Every round goes one character further at least, so the bound is not met. -/
theorem expandVarsFrom_enough (s : Session) :
    ∀ {rounds : Nat} {input : Str}, input.length ≤ rounds →
      expandVarsFrom s (rounds + 1) input = expandVarsFrom s rounds input := by
  intro rounds
  induction rounds with
  | zero =>
    intro input h
    rw [List.length_eq_zero_iff.mp (Nat.le_zero.mp h)]
    rfl
  | succ rounds ih =>
    intro input h
    cases input with
    | nil => rfl
    | cons c rest =>
      have hrest : rest.length ≤ rounds := Nat.le_of_succ_le_succ h
      rw [expandVarsFrom.eq_def s _, expandVarsFrom.eq_def s _]
      dsimp only
      split
      · rw [ih hrest]
      · split
        · rfl
        · rw [ih (Nat.le_of_succ_le hrest)]
        · rw [ih hrest, ih (le_trans (readKey_length _) hrest)]

def splitWhitespace (s : Str) : List Str := (s.splitOnP isWhite).filter (· ≠ [])

/-- The loop over aliases: the name, and the arguments that aliases put before those of the line. -/
def expandAlias (s : Session) : Nat → Str → List Str → Str × List Str
  | 0, name, aliasArgs => (name, aliasArgs)
  | rounds + 1, name, aliasArgs =>
      match s.aliasGet name with
      | none => (name, aliasArgs)
      | some text =>
          match splitWhitespace text with
          | [] => (name, aliasArgs)
          | token :: tokens => expandAlias s rounds token (aliasArgs ++ tokens)

def expandAliasAndEnv (s : Session) (cmd : ParsedCommand) : ParsedCommand :=
  { command := expandVars s (expandAlias s 8 cmd.command []).1
    args := ((expandAlias s 8 cmd.command []).2 ++ cmd.args).map (expandVars s)
    redirections := cmd.redirections.map fun r => { r with path := expandVars s r.path } }

/-! ## The host -/

inductive Failure
  | message (text : Str)
  | tooDeep
  deriving DecidableEq

structure Host (σ η : Type) where
  /-- `registry.find`, and what the command found does with its context. -/
  find : Str → Option (List Str → Session → σ → Except Str Unit × Session × σ)
  /-- `process::exec`. -/
  exec : Str → List Str → List (Str × Str) → σ → Option Int × σ
  beginOutputCapture : Bool → σ → σ
  endOutputCapture : σ → Str × σ
  println : Str → σ → σ
  pwd : σ → Str
  readText : Str → σ → Option Str × σ
  remove : Str → σ → σ
  touch : Str → σ → σ
  openHandle : Str → σ → Option η × σ
  write : η → Str → σ → Option Unit × σ

structure Context (σ : Type) where
  session : Session
  host : σ

section Pipelines

variable {σ η α β : Type}

/-- The `?` of the source: go on with the value, or leave with the error. -/
def andThen {τ : Type} (r : Except Failure α × τ) (next : α → τ → Except Failure β × τ) : Except Failure β × τ :=
  match r with
  | (.ok a, t) => next a t
  | (.error e, t) => (.error e, t)

def fail (text : String) (st : Context σ) : Except Failure α × Context σ := (.error (.message text.toList), st)

def Context.onHost (st : Context σ) (f : σ → σ) : Context σ := { st with host := f st.host }

def Context.onSession (st : Context σ) (f : Session → Session) : Context σ := { st with session := f st.session }

/-- A call of the host, an error of which is answered with a text of the dispatcher's own. -/
def ask (call : σ → Option α × σ) (text : String) (st : Context σ) : Except Failure α × Context σ :=
  match call st.host with
  | (some a, h) => (.ok a, { st with host := h })
  | (none, h) => fail text { st with host := h }

def sishStdin : Str := "SISH_STDIN".toList

/-- `env_set` or `env_unset` of the variable that holds a command's standard input. -/
def setStdin : Option Str → Session → Session
  | some input, s => s.envSet sishStdin input
  | none, s => s.envUnset sishStdin

/-- The `match registry.find(..)` of `execute_command`: the exit code and the result. -/
def runCommand (host : Host σ η) (cmd : ParsedCommand) (suppressConsole : Bool) (st : Context σ) :
    Int × Except Str Unit × Context σ :=
  match host.find cmd.command with
  | some command =>
      match command cmd.args st.session st.host with
      | (.ok (), s, h) => (0, .ok (), { session := s, host := h })
      | (.error e, s, h) => (1, .error e, { session := s, host := h })
  | none =>
      match host.exec cmd.command cmd.args st.session.environment st.host with
      | (some code, h) =>
          let st := { session := { st.session with lastExitCode := code }, host := h : Context σ }
          (code, .ok (), if code ≠ 0 ∧ suppressConsole = false then
              st.onHost (host.println ("exit ".toList ++ (toString code).toList)) else st)
      | (none, h) =>
          let st := { st with host := h }
          (127, .ok (), if suppressConsole = false then
              st.onHost (host.println ("Unknown command: ".toList ++ cmd.command)) else st)

def executeCommand (host : Host σ η) (cmd : ParsedCommand) (stdinData : Option Str) (suppressConsole : Bool)
    (st : Context σ) : Except Failure (Int × Str) × Context σ :=
  let previousStdin := st.session.envGet sishStdin
  let st := (st.onSession (setStdin stdinData)).onHost (host.beginOutputCapture suppressConsole)
  let (exitCode, result, st) := runCommand host cmd suppressConsole st
  let (captured, h) := host.endOutputCapture st.host
  let st := ({ st with host := h } : Context σ).onSession (setStdin previousStdin)
  match result with
  | .error e => (.error (.message e), st)
  | .ok () => (.ok (exitCode, captured), st.onSession fun s => { s with lastExitCode := exitCode })

def resolveShellPath (host : Host σ η) (path : Str) (st : Context σ) : Str :=
  if path.head? = some '/' then path
  else if host.pwd st.host = ['/'] then '/' :: path
  else host.pwd st.host ++ '/' :: path

def writeRedirect (host : Host σ η) (path data : Str) (append : Bool) (st : Context σ) :
    Except Failure Unit × Context σ :=
  let path := resolveShellPath host path st
  let (finalData, st) :=
    if append then
      let (text, h) := host.readText path st.host
      (text.getD [] ++ data, { st with host := h })
    else (data, st)
  let st := (st.onHost (host.remove path)).onHost (host.touch path)
  andThen (ask (host.openHandle path) "redirect: output open failed" st) fun handle st =>
    ask (host.write handle finalData) "redirect: output write failed" st

/-- The loop over the redirections of a command: its standard input, and where its output goes. -/
def redirect (host : Host σ η) :
    Option Str → Option (Str × Bool) → List Redirection → Context σ →
      Except Failure (Option Str × Option (Str × Bool)) × Context σ
  | stdinData, outRedirect, [], st => (.ok (stdinData, outRedirect), st)
  | stdinData, outRedirect, r :: rest, st =>
      match r.kind with
      | .read =>
          andThen (ask (host.readText r.path) "redirect: input open failed" st) fun text st =>
            redirect host (some text) outRedirect rest st
      | .write => redirect host stdinData (some (r.path, false)) rest st
      | .append => redirect host stdinData (some (r.path, true)) rest st

def isSource (name : Str) : Bool := name = ['.'] || name.map Char.toLower = "source".toList

/-- The body of the loop of `dispatch_pipeline`, for a command that is expanded: what the next command reads, and
    whether this one succeeded.  A sourced script leaves the input of the pipe for the command behind it. -/
def dispatchCommand (host : Host σ η) (runScript : Str → Context σ → Except Failure Unit × Context σ)
    (pipeInput : Option Str) (more : Bool) (cmd : ParsedCommand) (st : Context σ) :
    Except Failure (Option Str × Bool) × Context σ :=
  if isSource cmd.command then
    match cmd.args with
    | [] => fail "source: missing path" st
    | path :: _ => andThen (runScript path st) fun _ st => (.ok (pipeInput, true), st)
  else
    andThen (redirect host pipeInput none cmd.redirections st) fun (stdinData, outRedirect) st =>
      andThen (executeCommand host cmd stdinData (more || outRedirect.isSome) st) fun (exitCode, captured) st =>
        match outRedirect with
        | some (path, append) =>
            andThen (writeRedirect host path captured append st) fun _ st => (.ok (none, exitCode == 0), st)
        | none => (.ok (if more then some captured else none, exitCode == 0), st)

/-- The loop of `dispatch_pipeline` over the commands of a pipeline. -/
def dispatchCommands (host : Host σ η) (runScript : Str → Context σ → Except Failure Unit × Context σ) :
    Option Str → Bool → List ParsedCommand → Context σ → Except Failure Bool × Context σ
  | _, ok, [], st => (.ok ok, st)
  | pipeInput, ok, cmd :: rest, st =>
      andThen (dispatchCommand host runScript pipeInput (!rest.isEmpty) (expandAliasAndEnv st.session cmd) st)
        fun (pipeInput, good) st => dispatchCommands host runScript pipeInput (ok && good) rest st

def dispatchPipeline (host : Host σ η) (runScript : Str → Context σ → Except Failure Unit × Context σ)
    (pipeline : ParsedPipeline) (st : Context σ) : Except Failure Bool × Context σ :=
  dispatchCommands host runScript none true pipeline.commands st

end Pipelines

/-! ## The loop of `dispatch` -/

section Loop

variable {τ : Type}

/-- The loop over the pipelines of a statement: whether none of them failed. -/
def runPipelines (run : ParsedPipeline → τ → Except Failure Bool × τ) :
    List ParsedPipeline → τ → Except Failure Bool × τ
  | [], t => (.ok true, t)
  | p :: rest, t => andThen (run p t) fun ok t => if ok then runPipelines run rest t else (.ok false, t)

/-- The loop over the statements, from position `i` on. -/
def dispatchFrom (run : Nat → ParsedPipeline → τ → Except Failure Bool × τ) :
    Nat → Bool → List ParsedStatement → τ → Except Failure Unit × τ
  | _, _, [], t => (.ok (), t)
  | i, previousOk, statement :: rest, t =>
      andThen (runPipelines (run i) statement.pipelines t) fun ok t =>
        let previousOk := previousOk && ok
        match statement.operator with
        | .andAnd => if previousOk then dispatchFrom run (i + 1) previousOk rest t else (.ok (), t)
        | .orOr => if previousOk then (.ok (), t) else dispatchFrom run (i + 1) previousOk rest t
        | .background => dispatchFrom run (i + 1) true rest t
        | .sequential => dispatchFrom run (i + 1) previousOk rest t

end Loop

/-! ## Lines and scripts -/

section Dispatch

variable {σ η : Type}

/-- `str::lines`. -/
def lines (text : Str) : List Str :=
  let parts := text.splitOnP (· = '\n')
  let parts := if parts.getLast? = some [] then parts.dropLast else parts
  parts.map fun l => if l.getLast? = some '\r' then l.dropLast else l

/-- The loop of `run_script` over the lines of a script. -/
def runLines (dispatch : Str → Context σ → Except Failure Unit × Context σ) :
    List Str → Context σ → Except Failure Unit × Context σ
  | [], st => (.ok (), st)
  | raw :: rest, st =>
      let line := trim raw
      if line = [] ∨ line.head? = some '#' then runLines dispatch rest st
      else andThen (dispatch line st) fun _ st => runLines dispatch rest st

def runScript (host : Host σ η) (dispatch : Str → Context σ → Except Failure Unit × Context σ) (path : Str)
    (st : Context σ) : Except Failure Unit × Context σ :=
  andThen (ask (host.readText (resolveShellPath host path st)) "source: read failed" st) fun script st =>
    runLines dispatch (lines script) st

def dispatch (host : Host σ η) : Nat → Str → Context σ → Except Failure Unit × Context σ
  | 0, _, st => (.error .tooDeep, st)
  | depth + 1, line, st =>
      dispatchFrom (fun _ => dispatchPipeline host (runScript host (dispatch host depth))) 0 true
        (parseLine line) st

end Dispatch

end Saios.Shell
