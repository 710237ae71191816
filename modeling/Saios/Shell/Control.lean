/-
  WHICH PIPELINES OF A LINE RUN.

  The parser puts an operator with the statement BEHIND it, the dispatcher reads it as the operator in front
  of the next statement, remembers a failure until the next `&`, and never skips: it stops, or it goes on.
  The usual meaning of a line (`usual`) decides pipeline by pipeline.

  1. **Lines** — pipelines of sealed stages joined by operators; the parser gives back exactly those
     (`parseLine_text`).

  2. **The loop** — pipeline `i` is the last one to run when it `Stops` the loop.

  3. **`runs_usual_iff`** — the two agree exactly when there is a number `k` of pipelines such that the first
     `k` are called for by their operators and none but the last of them stops the loop, while the operators
     behind them skip everything else.
-/
import Saios.Shell.Dispatcher

namespace Saios.Shell

open Text List

/-! ## Lines -/

/-- The text of one command of a pipeline. -/
structure Stage where
  text : Str
  closed : isSealed false false text = true
  command : ParsedCommand
  parsed : parseCommand (trim text) = some command

structure Pipe where
  first : Stage
  rest : List Stage

inductive CommandLine
  | empty
  | joined (first : Pipe) (rest : List (ControlOperator × Pipe))

def ControlOperator.text : ControlOperator → Str
  | .sequential => [';']
  | .andAnd => ['&', '&']
  | .orOr => ['|', '|']
  | .background => ['&']

def pipedText (stages : List Stage) : Str := stages.flatMap fun s => '|' :: s.text

def Pipe.text (p : Pipe) : Str := p.first.text ++ pipedText p.rest

def Pipe.stages (p : Pipe) : List Stage := p.first :: p.rest

def Pipe.parsed (p : Pipe) : ParsedPipeline := { commands := p.stages.map Stage.command }

def joinedText (rest : List (ControlOperator × Pipe)) : Str := rest.flatMap fun op => op.1.text ++ op.2.text

def CommandLine.text : CommandLine → Str
  | .empty => []
  | .joined first rest => first.text ++ joinedText rest

/-- The pipelines of a line, each with the operator in front of it. -/
def CommandLine.pipelines : CommandLine → List (ControlOperator × Pipe)
  | .empty => []
  | .joined first rest => (.sequential, first) :: rest

/-! ## The parser on a line -/

theorem Stage.not_blank (s : Stage) : ¬Blank s.text := by
  intro hblank
  have h := s.parsed
  rw [trim_blank hblank] at h
  cases h

theorem Stage.head {s : Stage} {c : Char} (more : Str) (hc : c = '&' ∨ c = '|') :
    (s.text ++ more).head? ≠ some c := by
  have hclosed := s.closed
  have hblank := s.not_blank
  cases htext : s.text with
  | nil =>
    rw [htext] at hblank
    exact absurd nofun hblank
  | cons d text =>
    intro heq
    obtain rfl : d = c := Option.some.inj heq
    rw [htext] at hclosed
    rcases hc with rfl | rfl <;> exact absurd hclosed (by simp [isSealed])

theorem emit_stage {α : Type} (tag : Str → α) (s : Stage) : emit tag s.text = [tag (trim s.text)] := by
  rw [emit, if_neg fun h => s.not_blank (trim_eq_nil.mp h)]

theorem splitPipelineFrom_piped (stages : List Stage) :
    ∀ part : Str, splitPipelineFrom false false part (pipedText stages)
      = emit id part ++ stages.map fun s => trim s.text := by
  induction stages with
  | nil => exact fun part => (append_nil _).symm
  | cons s stages ih =>
    intro part
    rw [pipedText, flatMap_cons, cons_append, splitPipelineFrom,
      splitPipelineFrom_sealed _ _ s.closed, nil_append, ← pipedText, ih, emit_stage]
    rfl

theorem splitPipeline_text (p : Pipe) : splitPipeline p.text = p.stages.map fun s => trim s.text := by
  rw [splitPipeline, Pipe.text, splitPipelineFrom_sealed _ _ p.first.closed, splitPipelineFrom_piped,
    nil_append, emit_stage]
  rfl

theorem parseStatement_text (p : Pipe) (operator : ControlOperator) :
    parseStatement (trim p.text, operator) = some { pipelines := [p.parsed], operator := operator } := by
  have hcommands : (splitPipeline p.text).filterMap parseCommand = p.stages.map Stage.command := by
    rw [splitPipeline_text, filterMap_map, ← filterMap_eq_map]
    exact filterMap_congr fun s _ => s.parsed
  rw [parseStatement]
  rw [splitPipeline_trim, hcommands, if_neg (by simp [Pipe.stages]), Pipe.parsed]

theorem splitStatementsFrom_piped (pending : ControlOperator) (more : Str) (stages : List Stage) :
    ∀ part : Str, splitStatementsFrom false false pending part (pipedText stages ++ more)
      = splitStatementsFrom false false pending (part ++ pipedText stages) more := by
  induction stages with
  | nil => exact fun part => by rw [pipedText, flatMap_nil, nil_append, append_nil]
  | cons s stages ih =>
    intro part
    have htext : pipedText (s :: stages) = '|' :: (s.text ++ pipedText stages) := by
      rw [pipedText, flatMap_cons, ← pipedText, cons_append]
    rw [htext, cons_append, append_assoc, splitStatementsFrom_plain _ _ _ (by decide) (by decide)
      (.inr (.inr ⟨by decide, by decide, fun _ => Stage.head _ (.inr rfl)⟩)),
      splitStatementsFrom_sealed _ _ _ s.closed, ih]
    simp

theorem splitStatementsFrom_pipe (pending : ControlOperator) (p : Pipe) (more : Str) :
    splitStatementsFrom false false pending [] (p.text ++ more)
      = splitStatementsFrom false false pending p.text more := by
  rw [Pipe.text, append_assoc, splitStatementsFrom_sealed _ _ _ p.first.closed, splitStatementsFrom_piped,
    nil_append]

theorem splitStatementsFrom_operator (pending operator : ControlOperator) (part : Str) (p : Pipe) (more : Str) :
    splitStatementsFrom false false pending part (operator.text ++ (p.text ++ more))
      = emit (·, pending) part ++ splitStatementsFrom false false operator [] (p.text ++ more) := by
  have hhead : (p.text ++ more).head? ≠ some '&' := by
    rw [Pipe.text, append_assoc]
    exact Stage.head _ (.inl rfl)
  generalize p.text ++ more = text at hhead ⊢
  cases operator with
  | sequential => rfl
  | andAnd => rfl
  | orOr => rfl
  | background =>
    cases text with
    | nil => rfl
    | cons c text =>
      rw [ControlOperator.text, singleton_append, splitStatementsFrom.eq_def]
      dsimp only
      rw [if_neg (by decide), if_neg (by decide), if_pos (by decide)]
      split
      · next heq =>
        cases heq
        exact absurd rfl hhead
      all_goals first | rfl | contradiction

theorem splitStatementsFrom_joined (rest : List (ControlOperator × Pipe)) :
    ∀ (pending : ControlOperator) (p : Pipe),
      splitStatementsFrom false false pending p.text (joinedText rest)
        = ((pending, p) :: rest).map fun op => (trim op.2.text, op.1) := by
  have hemit : ∀ (pending : ControlOperator) (p : Pipe), emit (·, pending) p.text = [(trim p.text, pending)] := by
    intro pending p
    rw [emit, if_neg]
    exact fun h => p.first.not_blank fun c hc => trim_eq_nil.mp h c (mem_append_left _ hc)
  induction rest with
  | nil => exact fun pending p => hemit pending p
  | cons op rest ih =>
    intro pending p
    rw [joinedText, flatMap_cons, ← joinedText, append_assoc, splitStatementsFrom_operator,
      splitStatementsFrom_pipe, ih, hemit]
    rfl

/-- **The parser gives back the line**: its pipelines in order, each with the operator IN FRONT of it. -/
theorem parseLine_text (line : CommandLine) :
    parseLine line.text = line.pipelines.map fun op => { pipelines := [op.2.parsed], operator := op.1 } := by
  cases line with
  | empty => rfl
  | joined first rest =>
    rw [parseLine, splitStatements, CommandLine.text, splitStatementsFrom_pipe, splitStatementsFrom_joined,
      filterMap_map, ← filterMap_eq_map]
    exact filterMap_congr fun op _ => parseStatement_text op.2 op.1

/-! ## The usual meaning of a line -/

def succeeded : Except Failure Bool → Bool
  | .ok ok => ok
  | .error _ => false

/-- Whether an operator lets the pipeline behind it run, by the status of the last pipeline that ran. -/
def ControlOperator.calls : ControlOperator → Bool → Bool
  | .andAnd, status => status
  | .orOr, status => !status
  | .sequential, _ => true
  | .background, _ => true

/-- The pipelines that run from position `i` on; one that is skipped does not change the status. -/
def usualFrom (outcome : Nat → Except Failure Bool) :
    Nat → Bool → List (ControlOperator × Pipe) → List (Nat × ParsedPipeline)
  | _, _, [] => []
  | i, status, (operator, p) :: rest =>
      if operator.calls status then (i, p.parsed) :: usualFrom outcome (i + 1) (succeeded (outcome i)) rest
      else usualFrom outcome (i + 1) status rest

def usual (outcome : Nat → Except Failure Bool) (line : CommandLine) : List (Nat × ParsedPipeline) :=
  usualFrom outcome 0 true line.pipelines

variable {rest : List (ControlOperator × Pipe)} {outcome : Nat → Except Failure Bool}

theorem le_of_mem_usualFrom :
    ∀ {i : Nat} {status : Bool} {e : Nat × ParsedPipeline}, e ∈ usualFrom outcome i status rest → i ≤ e.1 := by
  induction rest with
  | nil => exact nofun
  | cons op rest ih =>
    intro i status e h
    rw [usualFrom] at h
    split at h
    · rcases mem_cons.mp h with rfl | h
      · exact le_rfl
      · exact Nat.le_of_succ_le (ih h)
    · exact Nat.le_of_succ_le (ih h)

theorem usualFrom_eq_nil :
    ∀ {i : Nat} {status : Bool},
      usualFrom outcome i status rest = [] ↔ ∀ op ∈ rest, op.1.calls status = false := by
  induction rest with
  | nil => exact fun {_ _} => ⟨nofun, fun _ => rfl⟩
  | cons op rest ih =>
    intro i status
    rw [usualFrom, forall_mem_cons]
    split
    · next hcalls => simp [hcalls]
    · next hcalls => rw [ih, Bool.not_eq_true] at *; exact ⟨fun h => ⟨hcalls, h⟩, fun h => h.2⟩

/-! ## The loop -/

variable {i : Nat} {ok : Bool} {op : ControlOperator × Pipe}

section Loop

variable {τ : Type}

/-- A runner that writes down which pipelines it ran. -/
def logged (run : Nat → ParsedPipeline → τ → Except Failure Bool × τ) (i : Nat) (p : ParsedPipeline)
    (t : τ × List (Nat × ParsedPipeline)) : Except Failure Bool × τ × List (Nat × ParsedPipeline) :=
  ((run i p t.1).1, (run i p t.1).2, t.2 ++ [(i, p)])

/-- The pipelines that `dispatch` runs on a line. -/
def runs (run : Nat → ParsedPipeline → τ → Except Failure Bool × τ) (line : Str) (t : τ) :
    List (Nat × ParsedPipeline) :=
  (dispatchFrom (logged run) 0 true (parseLine line) (t, [])).2.2

/-- What the dispatcher does with the operator of a statement that ran. -/
def ControlOperator.stops : ControlOperator → Bool → Bool
  | .andAnd, previousOk => !previousOk
  | .orOr, previousOk => previousOk
  | .sequential, _ => false
  | .background, _ => false

def statementOf (op : ControlOperator × Pipe) : ParsedStatement :=
  { pipelines := [op.2.parsed], operator := op.1 }

section dispatched

variable {run : Nat → ParsedPipeline → τ → Except Failure Bool × τ} {rest : List ParsedStatement} {t : τ}
  {log : List (Nat × ParsedPipeline)}

theorem dispatchFrom_error {e : Failure} (hrun : (run i op.2.parsed t).1 = .error e) :
    (dispatchFrom (logged run) i ok (statementOf op :: rest) (t, log)).2.2 = log ++ [(i, op.2.parsed)] := by
  rw [dispatchFrom, statementOf, runPipelines, logged, hrun]
  rfl

theorem dispatchFrom_ok {b : Bool} (hrun : (run i op.2.parsed t).1 = .ok b) :
    (dispatchFrom (logged run) i ok (statementOf op :: rest) (t, log)).2.2
      = if op.1.stops (ok && b) then log ++ [(i, op.2.parsed)]
        else (dispatchFrom (logged run) (i + 1) (op.1 = .background || ok && b) rest
          ((run i op.2.parsed t).2, log ++ [(i, op.2.parsed)])).2.2 := by
  have hpipelines : runPipelines (logged run i) [op.2.parsed] (t, log)
      = (.ok b, (run i op.2.parsed t).2, log ++ [(i, op.2.parsed)]) := by
    rw [runPipelines, logged, hrun]
    cases b <;> rfl
  rw [dispatchFrom, statementOf]
  rw [hpipelines, andThen]
  rcases op with ⟨operator, p⟩
  cases operator <;> cases hok : ok && b <;> rfl

end dispatched

/-- The pipeline at the front of the loop runs, whatever its operator. -/
theorem dispatchFrom_log (run : Nat → ParsedPipeline → τ → Except Failure Bool × τ)
    (rest : List (ControlOperator × Pipe)) : ∀ (i : Nat) (ok : Bool) (t : τ) (log : List (Nat × ParsedPipeline)),
      ∃ more, (dispatchFrom (logged run) i ok (rest.map statementOf) (t, log)).2.2 = log ++ more ∧
        ∀ op ∈ rest.head?, (i, op.2.parsed) ∈ more := by
  induction rest with
  | nil => exact fun _ _ _ log => ⟨[], (append_nil log).symm, nofun⟩
  | cons op rest ih =>
    intro i ok t log
    have hhead : ∀ more, ∀ op' ∈ (op :: rest).head?, (i, op'.2.parsed) ∈ (i, op.2.parsed) :: more := by
      rintro more _ ⟨⟩
      exact mem_cons_self
    rw [map_cons]
    cases hrun : (run i op.2.parsed t).1 with
    | error e => exact ⟨_, dispatchFrom_error hrun, hhead []⟩
    | ok b =>
      rw [dispatchFrom_ok hrun]
      split
      · exact ⟨_, rfl, hhead []⟩
      · obtain ⟨more, hmore, -⟩ := ih (i + 1) _ (run i op.2.parsed t).2 (log ++ [(i, op.2.parsed)])
        exact ⟨_, by rw [hmore, append_assoc, singleton_append], hhead more⟩

end Loop

/-! ## When the two agree -/

section Agreement

variable (pairs : List (ControlOperator × Pipe)) (outcome : Nat → Except Failure Bool)

def operatorAt (i : Nat) : ControlOperator := (pairs[i]?.map Prod.fst).getD .sequential

/-- Nothing has failed since the last `&`, pipeline `i` included: a `&` in front of a pipeline makes the
    dispatcher forget that this pipeline, or one before it, failed. -/
def Clean (i : Nat) : Prop :=
  ∀ j ≤ i, (∀ m, j ≤ m → m < i → operatorAt pairs m ≠ .background) → succeeded (outcome j) = true

/-- Pipeline `i` ends the line: it gives an error, or its operator ends the loop. -/
def Stops (i : Nat) : Prop :=
  (∃ e, outcome i = .error e) ∨
    operatorAt pairs i = .andAnd ∧ ¬Clean pairs outcome i ∨ operatorAt pairs i = .orOr ∧ Clean pairs outcome i

/-- From position `i` on, the pipelines before position `k` are those that run. -/
structure Agreed (i k : Nat) : Prop where
  start : i ≤ k
  bound : k ≤ pairs.length
  started : i < pairs.length → i < k
  called : ∀ j, i ≤ j → j < k → (operatorAt pairs j).calls (succeeded (outcome (j - 1))) = true
  through : ∀ j, i ≤ j → j + 1 < k → ¬Stops pairs outcome j
  skipped : k < pairs.length →
    Stops pairs outcome (k - 1) ∧ ∀ op ∈ pairs.drop k, op.1.calls (succeeded (outcome (k - 1))) = false

variable {pairs outcome}

/-- What the dispatcher remembers when it comes to position `i`. -/
def Remembers (pairs : List (ControlOperator × Pipe)) (outcome : Nat → Except Failure Bool) (i : Nat) (ok : Bool) :
    Prop :=
  ok = true ↔ ∀ j < i, (∀ m, j ≤ m → m < i → operatorAt pairs m ≠ .background) → succeeded (outcome j) = true

theorem Remembers.clean (h : Remembers pairs outcome i ok) :
    Clean pairs outcome i ↔ (ok && succeeded (outcome i)) = true := by
  rw [Bool.and_eq_true, show ok = true ↔ _ from h]
  constructor
  · intro hclean
    exact ⟨fun j hj => hclean j (Nat.le_of_lt hj),
      hclean i le_rfl fun m him hmi => absurd him (Nat.not_le.mpr hmi)⟩
  · rintro ⟨hbefore, hi⟩ j hj hno
    rcases Nat.lt_or_eq_of_le hj with hj | rfl
    · exact hbefore j hj hno
    · exact hi

theorem Remembers.succ (h : Remembers pairs outcome i ok) :
    Remembers pairs outcome (i + 1) (operatorAt pairs i = .background || ok && succeeded (outcome i)) := by
  rw [Remembers, Bool.or_eq_true, decide_eq_true_iff, ← h.clean]
  constructor
  · rintro (hback | hclean) j hj hno
    · exact absurd hback (hno i (Nat.le_of_lt_succ hj) (Nat.lt_succ_self i))
    · exact hclean j (Nat.le_of_lt_succ hj) fun m hjm hmi => hno m hjm (Nat.lt_succ_of_lt hmi)
  · intro hbefore
    by_cases hback : operatorAt pairs i = .background
    · exact .inl hback
    · refine .inr fun j hj hno => hbefore j (Nat.lt_succ_of_le hj) fun m hjm hmi => ?_
      rcases Nat.lt_or_eq_of_le (Nat.le_of_lt_succ hmi) with hmi | rfl
      · exact hno m hjm hmi
      · exact hback

theorem Remembers.stops {b : Bool} (h : Remembers pairs outcome i ok) (hb : outcome i = .ok b) :
    Stops pairs outcome i ↔ (operatorAt pairs i).stops (ok && b) = true := by
  have hclean := h.clean
  rw [hb, show succeeded (.ok b) = b from rfl] at hclean
  unfold Stops
  rw [hclean, hb]
  cases operatorAt pairs i <;> cases ok && b <;> simp [ControlOperator.stops]

section

variable (hi : i < pairs.length) (hcalls : (operatorAt pairs i).calls (succeeded (outcome (i - 1))) = true)

include hi hcalls

/-- One pipeline of a line that stops the loop: nothing else may be called for. -/
theorem Agreed.iff_stop (hstops : Stops pairs outcome i) :
    (∃ k, Agreed pairs outcome i k) ↔ ∀ op ∈ pairs.drop (i + 1), op.1.calls (succeeded (outcome i)) = false := by
  constructor
  · rintro ⟨k, h⟩
    have hik := h.started hi
    obtain rfl : k = i + 1 := by
      by_contra hne
      exact h.through i le_rfl (by omega) hstops
    by_cases hk : i + 1 < pairs.length
    · exact (h.skipped hk).2
    · rw [drop_eq_nil_of_le (by omega)]
      exact nofun
  · intro hskip
    refine ⟨i + 1, Nat.le_succ i, hi, fun _ => Nat.lt_succ_self i, fun j hij hj => ?_, fun j hij hj => ?_,
      fun _ => ⟨hstops, hskip⟩⟩
    · obtain rfl : j = i := by omega
      exact hcalls
    · omega

/-- One pipeline of a line that does not stop the loop. -/
theorem Agreed.iff_through (hstops : ¬Stops pairs outcome i) :
    (∃ k, Agreed pairs outcome i k) ↔ ∃ k, Agreed pairs outcome (i + 1) k := by
  constructor
  · rintro ⟨k, h⟩
    have hik := h.started hi
    refine ⟨k, hik, h.bound, fun hlen => ?_, fun j hij => h.called j (by omega),
      fun j hij => h.through j (by omega), h.skipped⟩
    by_contra hk
    obtain rfl : k = i + 1 := by omega
    exact hstops (h.skipped hlen).1
  · rintro ⟨k, h⟩
    refine ⟨k, Nat.le_of_succ_le h.start, h.bound, fun _ => h.start, fun j hij hj => ?_, fun j hij hj => ?_, h.skipped⟩
    · rcases Nat.lt_or_eq_of_le hij with hij | rfl
      · exact h.called j hij hj
      · exact hcalls
    · rcases Nat.lt_or_eq_of_le hij with hij | rfl
      · exact h.through j hij hj
      · exact hstops

end

variable {τ : Type} {run : Nat → ParsedPipeline → τ → Except Failure Bool × τ}

/-- The loop from position `i` on, against the usual meaning of the rest of the line. -/
theorem log_usualFrom_iff
    (hrun : ∀ i op, pairs[i]? = some op → ∀ t, (run i op.2.parsed t).1 = outcome i)
    (rest : List (ControlOperator × Pipe)) :
    ∀ {i : Nat} {ok status : Bool} (t : τ) (log : List (Nat × ParsedPipeline)), i ≤ pairs.length →
      pairs.drop i = rest → Remembers pairs outcome i ok →
      (operatorAt pairs i).calls status = (operatorAt pairs i).calls (succeeded (outcome (i - 1))) →
      ((dispatchFrom (logged run) i ok (rest.map statementOf) (t, log)).2.2
          = log ++ usualFrom outcome i status rest
        ↔ ∃ k, Agreed pairs outcome i k) := by
  induction rest with
  | nil =>
    intro i ok status t log hlen hdrop _ _
    obtain rfl : i = pairs.length := le_antisymm hlen (drop_eq_nil_iff.mp hdrop)
    refine ⟨fun _ => ⟨pairs.length, le_rfl, le_rfl, id, ?_, ?_, ?_⟩, fun _ => (append_nil log).symm⟩
    · exact fun j hij hj => absurd hij (Nat.not_le.mpr hj)
    · exact fun j hij hj => absurd hij (by omega)
    · exact fun h => absurd h (Nat.lt_irrefl _)
  | cons op rest ih =>
    intro i ok status t log _ hdrop hrem hstatus
    have hi : i < pairs.length := by
      by_contra hge
      rw [drop_eq_nil_of_le (Nat.not_lt.mp hge)] at hdrop
      cases hdrop
    have hget : pairs[i]? = some op := by
      rw [← head?_drop, hdrop]
      rfl
    have hoperator : operatorAt pairs i = op.1 := by
      rw [operatorAt, hget]
      rfl
    have hdrop' : pairs.drop (i + 1) = rest := by
      rw [← drop_drop, hdrop]
      rfl
    have hout := hrun i op hget t
    rw [usualFrom]
    by_cases hcalls : op.1.calls status = true
    · rw [if_pos hcalls, map_cons]
      rw [hoperator, hcalls, ← hoperator] at hstatus
      -- the loop stops here, by an error or by the operator, or goes on with what it remembers
      by_cases hstops : Stops pairs outcome i
      · have hlog : (dispatchFrom (logged run) i ok (statementOf op :: rest.map statementOf) (t, log)).2.2
            = log ++ [(i, op.2.parsed)] := by
          cases hb : outcome i with
          | error e => exact dispatchFrom_error (hout.trans hb)
          | ok b => rw [dispatchFrom_ok (hout.trans hb), ← hoperator, if_pos ((hrem.stops hb).mp hstops)]
        rw [hlog, Agreed.iff_stop hi hstatus.symm hstops, hdrop', ← usualFrom_eq_nil,
          append_cancel_left_eq, cons.injEq]
        exact ⟨fun h => h.2.symm, fun h => ⟨rfl, h.symm⟩⟩
      · cases hb : outcome i with
        | error e => exact absurd (.inl ⟨e, hb⟩) hstops
        | ok b =>
          have hrem' := hrem.succ
          rw [hoperator] at hrem'
          have hrest := ih (run i op.2.parsed t).2 (log ++ [(i, op.2.parsed)]) hi hdrop' hrem'
            (rfl : _ = (operatorAt pairs (i + 1)).calls (succeeded (outcome i)))
          rw [hb, append_assoc] at hrest
          rw [dispatchFrom_ok (hout.trans hb), if_neg fun h => hstops ((hrem.stops hb).mpr (hoperator ▸ h)),
            Agreed.iff_through hi hstatus.symm hstops, ← hrest]
          rfl
    · -- the loop runs a pipeline that is not called for, and no condition is met
      rw [if_neg hcalls]
      refine ⟨fun heq => ?_, fun ⟨k, h⟩ => ?_⟩
      · obtain ⟨more, hmore, hhead⟩ := dispatchFrom_log run (op :: rest) i ok t log
        rw [hmore, append_cancel_left_eq] at heq
        exact absurd (le_of_mem_usualFrom (heq ▸ hhead op rfl)) (Nat.not_succ_le_self i)
      · have hcalled := h.called i le_rfl (h.started hi)
        rw [← hstatus, hoperator] at hcalled
        exact absurd hcalled hcalls

/-- **The dispatcher runs the pipelines of a line that the usual meaning runs, in order, EXACTLY when some first
    `k` pipelines are called for one by one and none but the last of them stops the loop, and the operators
    behind them skip all the others.** -/
theorem runs_usual_iff (line : CommandLine)
    (hrun : ∀ i op, line.pipelines[i]? = some op → ∀ t, (run i op.2.parsed t).1 = outcome i) (t : τ) :
    runs run line.text t = usual outcome line ↔ ∃ k, Agreed line.pipelines outcome 0 k := by
  have hstart : Remembers line.pipelines outcome 0 true :=
    ⟨fun _ j hj => absurd hj (Nat.not_lt_zero j), fun _ => rfl⟩
  have hfirst : (operatorAt line.pipelines 0).calls true
      = (operatorAt line.pipelines 0).calls (succeeded (outcome (0 - 1))) := by
    cases line <;> rfl
  have h := log_usualFrom_iff hrun line.pipelines t [] (Nat.zero_le _) List.drop_zero hstart hfirst
  rw [runs, parseLine_text]
  exact h

end Agreement

def oneWord (c : Char) (text : Str) (closed : isSealed false false text = true)
    (parsed : parseCommand (trim text) = some { command := [c], args := [], redirections := [] }) : Pipe :=
  { first := { text := text, closed := closed, command := _, parsed := parsed }, rest := [] }

/-- The line `a && b`. -/
def aAndB : CommandLine :=
  .joined (oneWord 'a' ['a', ' '] (by decide) (by decide)) [(.andAnd, oneWord 'b' [' ', 'b'] (by decide) (by decide))]

theorem runs_usual_all_succeed :
    runs (fun _ _ t => (.ok true, t)) aAndB.text () = usual (fun _ => .ok true) aAndB := by
  refine (runs_usual_iff aAndB (fun _ _ _ _ => rfl) ()).mpr ⟨2, by decide, by decide, fun _ => by decide, ?_, ?_, ?_⟩
  · intro j _ hj
    match j, hj with
    | 0, _ => rfl
    | 1, _ => rfl
  · rintro j _ hj (⟨e, herr⟩ | ⟨hop, _⟩ | ⟨hop, _⟩)
    · cases herr
    · obtain rfl : j = 0 := by omega
      cases hop
    · obtain rfl : j = 0 := by omega
      cases hop
  · exact fun h => absurd h (by decide)

/-- A machine on which every program exits with 1, and which remembers the programs it ran. -/
def failing : Host (List Str) Unit where
  find := fun _ => none
  exec := fun name _ _ ran => (some 1, ran ++ [name])
  beginOutputCapture := fun _ ran => ran
  endOutputCapture := fun ran => ([], ran)
  println := fun _ ran => ran
  pwd := fun _ => ['/']
  readText := fun _ ran => (none, ran)
  remove := fun _ ran => ran
  touch := fun _ ran => ran
  openHandle := fun _ ran => (none, ran)
  write := fun _ _ ran => (none, ran)

/-- `a && b` runs `b` after `a` has failed. -/
theorem failed_and_runs_second :
    aAndB.text = "a && b".toList ∧
      (dispatch failing 1 aAndB.text { session := ⟨[], [], 0⟩, host := [] }).2.host = [['a'], ['b']] ∧
      usual (fun _ => .ok false) aAndB = [(0, ⟨[⟨['a'], [], []⟩]⟩)] ∧
      runs (fun _ _ t => (.ok false, t)) aAndB.text () ≠ usual (fun _ => .ok false) aAndB := by
  refine ⟨by decide, by decide, by decide, by decide⟩

end Saios.Shell
