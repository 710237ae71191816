/-
  The INTERRUPT FLAG across context switches (`hal/src/arch/x86_64/interrupt.rs` with
  `yield_now`, `do_schedule`, `idle_entry` and `thread_trampoline` of `scheduler.rs`).

  1. **Machine** — the scheduler, ONE flag bit for the CPU, and for every thread the local
     `enabled` of the `without_interrupts` frame it is suspended in (`none` before its first run).
     `saios_context_switch` neither saves nor restores the flag: a switch happens with the flag
     clear, and what the incoming thread does next is decided by ITS frame.  A resumed thread
     finishes its own `without_interrupts`; a new one starts in `thread_trampoline`, whose
     `without_interrupts` finds the flag clear and leaves it clear.

  2. **Between steps** the current thread runs its own code, so the flag of a state between steps
     is the flag that code runs with: a thread's entry function, idle's `hlt` loop, the kernel's
     own main path.  A timer interrupt is delivered only while the flag is set.

  3. **Result** (`flag_set_iff_next_resumes_enabled`) — from `enable()` on, thread code always runs
     with the flag set if and only if no switch goes to a thread that has not been switched out
     before with its interrupts on.
-/
import Saios.Sched.Running

namespace Saios.Sched

open Scheduler

variable {E : Type}

/-! ## The program -/

structure Machine (E : Type) where
  sched : Scheduler E
  /-- RFLAGS.IF. -/
  interruptFlag : Bool
  /-- The local `enabled` on the stack of a thread suspended in `yield_now`. -/
  frame : Nat → Option Bool

namespace Machine

/-- `sti`. -/
def enable (m : Machine E) : Machine E := { m with interruptFlag := true }

/-- `cli`. -/
def disable (m : Machine E) : Machine E := { m with interruptFlag := false }

/-- The end of `without_interrupts`, with the `enabled` of the frame it belongs to. -/
def leave (enabled : Bool) (m : Machine E) : Machine E := if enabled then m.enable else m

def withoutInterrupts (f : Machine E → Machine E) (m : Machine E) : Machine E :=
  let enabled := m.interruptFlag
  let m := if enabled then m.disable else m
  let m := f m
  leave enabled m

/-- What a thread given the CPU does before its own code goes on. -/
def dispatch (m : Machine E) : Machine E :=
  match m.frame m.sched.current with
  | some enabled => leave enabled m
  -- `thread_trampoline` reads the entry function under `without_interrupts`, then calls it
  | none => withoutInterrupts id m

/-- `without_interrupts(do_schedule)`: the closure returns in the thread that called it only if
    `do_schedule` did not switch. -/
def yieldNow (m : Machine E) : Machine E :=
  let enabled := m.interruptFlag
  let m := if enabled then m.disable else m
  let old := m.sched.current
  let m := { m with sched := doSchedule m.sched }
  if m.sched.current = old then leave enabled m
  else dispatch { m with frame := Function.update m.frame old (some enabled) }

def maybePreempt (m : Machine E) : Machine E :=
  let shouldReschedule := m.sched.initialized && m.sched.needsReschedule
  let m := withoutInterrupts id m
  if shouldReschedule then yieldNow m else m

end Machine

/-- A scheduler step of the current thread, a timer interrupt, or the kernel's `enable()`. -/
inductive MachineStep (E : Type)
  | sched (a : Step E)
  | enable

def machineStep (m : Machine E) : MachineStep E → Machine E
  | .enable => m.enable
  | .sched a =>
      match a with
      | .spawn e => m.withoutInterrupts fun m => { m with sched := (spawn m.sched e).2 }
      | .yieldNow => m.yieldNow
      | .maybePreempt => m.maybePreempt
      -- masked unless the flag is set; the handler runs with it clear and `iretq` sets it again
      | .timerTick =>
          if m.interruptFlag then
            (m.disable.withoutInterrupts fun m => { m with sched := onTimerTick m.sched }).enable
          else m
      | .threadExit => m.withoutInterrupts fun m => { m with sched := threadExit m.sched }

/-- The machine after `scheduler::init`; `kernel_main` has disabled interrupts before. -/
def boot (b i : E) : Machine E where
  sched := init b i
  interruptFlag := false
  frame := fun _ => none

def machineRun (m : Machine E) (steps : List (MachineStep E)) : Machine E :=
  steps.foldl machineStep m

/-! ## Who gets the CPU -/

/-- The first Ready thread of the queue other than idle, or idle if there is none. -/
def nextUp (s : Scheduler E) : Nat :=
  (s.runQueue.find? fun i => decide (s.stateAt i = some .ready ∧ i ≠ s.idle)).getD s.idle

theorem pickLoop_fst (s : Scheduler E) : ∀ (q : List Nat) (cand : Option Nat),
    (∀ i ∈ cand, i = s.idle) → (pickLoop s q cand).1 =
      (q.find? fun i => decide (s.stateAt i = some .ready ∧ i ≠ s.idle)).getD s.idle
  | [], none, _ => rfl
  | [], some c, hc => by
      obtain rfl : c = s.idle := hc c rfl
      simp only [pickLoop]
      split <;> rfl
  | i :: q, cand, hc => by
      rw [pickLoop]
      by_cases hr : s.stateAt i = some .ready
      · rw [if_neg (not_not.mpr hr)]
        by_cases hi : i = s.idle
        · rw [if_pos hi, List.find?_cons_of_neg (by simp [hi])]
          refine pickLoop_fst s q (some i) fun j hj => ?_
          rw [← Option.mem_some_iff.mp hj]
          exact hi
        · rw [if_neg hi, List.find?_cons_of_pos (by simp [hr, hi])]
          rfl
      · rw [if_pos hr, List.find?_cons_of_neg (by simp [hr])]
        exact pickLoop_fst s q cand hc

/-- The step gives the CPU to a thread that has not been switched out with interrupts on: a new
    thread, or one whose last yield was made with interrupts off. -/
def ResumesMasked (m : Machine E) : MachineStep E → Prop
  | .sched a => Schedules m.sched a ∧ nextUp m.sched ≠ m.sched.current ∧
      m.frame (nextUp m.sched) ≠ some true
  | .enable => False

/-! ## The flag over one step -/

@[simp] theorem flag_leave (enabled : Bool) (m : Machine E) :
    (m.leave enabled).interruptFlag = (enabled || m.interruptFlag) := by
  cases enabled <;> rfl

@[simp] theorem sched_leave (enabled : Bool) (m : Machine E) :
    (m.leave enabled).sched = m.sched := by
  cases enabled <;> rfl

/-- A critical section gives back the flag it found, whatever it does to the scheduler. -/
theorem flag_withoutInterrupts (f : Machine E → Machine E)
    (hf : ∀ m, (f m).interruptFlag = m.interruptFlag) (m : Machine E) :
    (m.withoutInterrupts f).interruptFlag = m.interruptFlag := by
  cases h : m.interruptFlag with
  | true => simp [Machine.withoutInterrupts, h]
  | false => simp [Machine.withoutInterrupts, h, hf]

theorem sched_withoutInterrupts_id (m : Machine E) : (m.withoutInterrupts id).sched = m.sched := by
  cases h : m.interruptFlag <;> simp [Machine.withoutInterrupts, h, Machine.disable]

variable {m : Machine E}

/-- A thread gets the CPU with the flag clear; only a frame with `enabled` set sets it. -/
theorem flag_dispatch (hf : m.interruptFlag = false) :
    m.dispatch.interruptFlag = (m.frame m.sched.current).getD false := by
  rw [Machine.dispatch]
  split
  next enabled hfr => rw [hfr, flag_leave, hf, Bool.or_false]; rfl
  next hfr => rw [hfr, flag_withoutInterrupts id (fun _ => rfl), hf]; rfl

/-- `yield_now` clears the flag first, whichever way it was. -/
theorem disable_if_enabled (m : Machine E) :
    (if m.interruptFlag then m.disable else m) = m.disable := by
  cases hf : m.interruptFlag
  · rw [if_neg Bool.false_ne_true, Machine.disable, ← hf]
  · rfl

theorem yieldNow_eq (m : Machine E) : m.yieldNow =
    if (doSchedule m.sched).current = m.sched.current then
      ({ m.disable with sched := doSchedule m.sched } : Machine E).leave m.interruptFlag
    else Machine.dispatch
      { m.disable with sched := doSchedule m.sched,
                       frame := Function.update m.frame m.sched.current (some m.interruptFlag) } := by
  rw [Machine.yieldNow]
  simp only [disable_if_enabled]
  rfl

theorem sched_yieldNow (m : Machine E) : m.yieldNow.sched = doSchedule m.sched := by
  rw [yieldNow_eq]
  split
  · exact sched_leave _ _
  · rw [Machine.dispatch]
    split
    · exact sched_leave _ _
    · exact sched_withoutInterrupts_id _

/-- The flag after a yield: the yielder's own flag if it keeps the CPU, otherwise what the incoming
    thread's frame restores, clear for a new thread. -/
theorem flag_yieldNow (h : Inv m.sched) : m.yieldNow.interruptFlag =
    if nextUp m.sched = m.sched.current then m.interruptFlag
    else (m.frame (nextUp m.sched)).getD false := by
  have hcur : (doSchedule m.sched).current = nextUp m.sched := by
    rw [h.current_doSchedule.1]
    exact pickLoop_fst _ _ none (by simp)
  rw [yieldNow_eq, hcur]
  by_cases hstay : nextUp m.sched = m.sched.current
  · rw [if_pos hstay, if_pos hstay, flag_leave]
    exact Bool.or_false _
  · rw [if_neg hstay, if_neg hstay, flag_dispatch rfl]
    show (Function.update m.frame m.sched.current _ (doSchedule m.sched).current).getD false = _
    rw [hcur, Function.update_of_ne hstay]

theorem maybePreempt_eq (hi : m.sched.initialized = true) : m.maybePreempt =
    if m.sched.needsReschedule = true then (m.withoutInterrupts id).yieldNow
    else m.withoutInterrupts id := by
  rw [Machine.maybePreempt, hi, Bool.true_and]

/-- Whatever the machine does, its scheduler takes a scheduler step or stays as it is. -/
theorem inv_machineStep (h : Inv m.sched) (a : MachineStep E) : Inv (machineStep m a).sched := by
  cases a with
  | enable => exact h
  | sched a =>
    cases a with
    | spawn e =>
      show Inv (m.withoutInterrupts _).sched
      rw [Machine.withoutInterrupts, sched_leave, disable_if_enabled]
      exact inv_spawn h e
    | yieldNow =>
      show Inv m.yieldNow.sched
      rw [sched_yieldNow]
      exact inv_doSchedule h
    | maybePreempt =>
      show Inv m.maybePreempt.sched
      rw [maybePreempt_eq h.initialized]
      split
      · rw [sched_yieldNow, sched_withoutInterrupts_id]
        exact inv_doSchedule h
      · rw [sched_withoutInterrupts_id]
        exact h
    | timerTick =>
      rw [machineStep]
      split
      · exact inv_onTimerTick h
      · exact h
    | threadExit =>
      show Inv (m.withoutInterrupts _).sched
      rw [Machine.withoutInterrupts, sched_leave, disable_if_enabled]
      exact inv_threadExit h

/-- One step from a state with the flag set: the flag stays set unless the CPU goes to a thread that
    was not switched out with interrupts on. -/
theorem flag_machineStep_iff (h : Inv m.sched) (hf : m.interruptFlag = true) (a : MachineStep E) :
    (machineStep m a).interruptFlag = true ↔ ¬ ResumesMasked m a := by
  have hyield : m.yieldNow.interruptFlag = true ↔
      ¬ (nextUp m.sched ≠ m.sched.current ∧ m.frame (nextUp m.sched) ≠ some true) := by
    rw [flag_yieldNow h]
    by_cases hstay : nextUp m.sched = m.sched.current
    · simp [hstay, hf]
    · rcases m.frame (nextUp m.sched) with _ | _ | _ <;> simp [hstay]
  cases a with
  | enable => exact ⟨fun _ hh => hh, fun _ => rfl⟩
  | sched a =>
    cases a with
    | spawn e =>
      refine ⟨fun _ hh => hh.1, fun _ => ?_⟩
      show (m.withoutInterrupts _).interruptFlag = true
      rw [flag_withoutInterrupts]
      · exact hf
      · exact fun _ => rfl
    | yieldNow =>
      refine hyield.trans (not_congr ?_)
      exact ⟨fun hh => ⟨trivial, hh⟩, fun hh => hh.2⟩
    | maybePreempt =>
      have hid : m.withoutInterrupts id = m := by
        cases m
        subst hf
        rfl
      show m.maybePreempt.interruptFlag = true ↔ _
      rw [maybePreempt_eq h.initialized, hid]
      by_cases hn : m.sched.needsReschedule = true
      · rw [if_pos hn]
        refine hyield.trans (not_congr ?_)
        exact ⟨fun hh => ⟨hn, hh⟩, fun hh => hh.2⟩
      · rw [if_neg hn]
        exact ⟨fun _ hh => hn hh.1, fun _ => hf⟩
    | timerTick =>
      refine ⟨fun _ hh => hh.1, fun _ => ?_⟩
      rw [machineStep, if_pos hf]
      rfl
    | threadExit =>
      refine ⟨fun _ hh => hh.1, fun _ => ?_⟩
      show (m.withoutInterrupts _).interruptFlag = true
      rw [flag_withoutInterrupts]
      · exact hf
      · exact fun _ => rfl

/-! ## From `enable()` on -/

/-- **The interrupt flag in thread code.**  Whatever happened before, from `enable()` on every state
    between steps has the flag set if and only if no step gives the CPU to a thread that was not
    switched out with its interrupts on. -/
theorem flag_set_iff_next_resumes_enabled (b i : E) (before after : List (MachineStep E)) :
    Run.Along machineStep (fun m a => (machineStep m a).interruptFlag = true)
        (machineStep (machineRun (boot b i) before) .enable) after ↔
    Run.Along machineStep (fun m a => ¬ ResumesMasked m a)
        (machineStep (machineRun (boot b i) before) .enable) after := by
  have hinv : Inv (machineRun (boot b i) before).sched :=
    Run.foldl_inv (I := fun m : Machine E => Inv m.sched) (fun _ a h => inv_machineStep h a) before
      (inv_init b i)
  refine Run.along_iff_along (I := fun m : Machine E => Inv m.sched ∧ m.interruptFlag = true)
    ?_ ?_ ⟨inv_machineStep hinv .enable, rfl⟩ after
  · rintro m a ⟨h, hf⟩
    exact flag_machineStep_iff h hf a
  · rintro m a ⟨h, hf⟩ hn
    exact ⟨inv_machineStep h a, (flag_machineStep_iff h hf a).mpr hn⟩

/-- The bootstrap thread yields with interrupts on, a thread spawned before does the same: from the
    third switch on every thread comes back with the flag set. -/
theorem flag_set_two_yielders :
    let before : List (MachineStep Unit) :=
      [.enable, .sched (.spawn ()), .sched .yieldNow, .enable, .sched .yieldNow]
    let after : List (MachineStep Unit) := [.sched .yieldNow, .sched .timerTick, .sched .yieldNow]
    Run.Along machineStep (fun m a => ¬ ResumesMasked m a)
        (machineStep (machineRun (boot () ()) before) .enable) after ∧
    Run.Along machineStep (fun m a => (machineStep m a).interruptFlag = true)
        (machineStep (machineRun (boot () ()) before) .enable) after := by
  intro before after
  have hgood : Run.Along machineStep (fun m a => ¬ ResumesMasked m a)
      (machineStep (machineRun (boot () ()) before) .enable) after :=
    ⟨fun h => h.2.2 (by decide), fun h => h.1, fun h => h.2.2 (by decide), trivial⟩
  exact ⟨hgood, (flag_set_iff_next_resumes_enabled () () before after).mpr hgood⟩

/-- A freshly booted kernel enables interrupts and yields: idle starts inside the yielder's critical
    section and halts with the flag clear.  A spawned thread's entry function fares the same. -/
theorem flag_clear_in_new_thread :
    (machineRun (boot () ()) [.enable, .sched .yieldNow]).interruptFlag = false ∧
    (machineRun (boot () ()) [.enable, .sched (.spawn ()), .sched .yieldNow]).interruptFlag = false ∧
    ¬ Run.Along machineStep (fun m a => (machineStep m a).interruptFlag = true)
        (machineStep (machineRun (boot () ()) []) .enable) [.sched .yieldNow] := by
  refine ⟨by decide, by decide, fun h => ?_⟩
  exact absurd h.1 (by decide)

end Saios.Sched
