/-
  The thread SCHEDULER (`seed/saios/src/scheduler.rs`): a thread table, a run queue of thread
  INDICES and a round-robin policy that puts the idle thread aside while anything else can run.

  1. **Program** — `Scheduler` and its operations under the source's names.  Everything the source
     runs inside `without_interrupts` is one atomic step here; the assembly switch
     `saios_context_switch` moves callee-saved registers between the two `CpuContext`s and touches
     nothing the scheduler decides on, so contexts and stacks stay outside the model.

  2. **Invariant** (`Inv`) — the queue is duplicate-free and holds exactly the Ready threads, idle
     being the one Ready thread that may be missing; `current` is Running, or Dead between its exit
     and its last switch.  All the queue facts follow from these few fields.

  3. **Runs** — `step` is one of spawn / yield / preempt / tick / exit, a run is a list of them.
     Thread ids are handed out by a WRAPPING 64-bit counter that `init` has already advanced twice
     (bootstrap and idle), so ids stay distinct for `2^64 - 2` spawns and collide at the next one.
-/
import Mathlib.Data.List.Nodup
import Mathlib.Data.List.Perm.Basic
import Mathlib.Data.List.Count
import Mathlib.Data.BitVec
import Saios.Lib.Run

namespace Saios.Sched

open List

/-- Execution state of a scheduler thread. -/
inductive ThreadState
  | ready | running | sleeping | blocked | dead
  deriving DecidableEq, Repr

/-- A kernel thread: its identifier (a `u64`) and its execution state. -/
structure Thread where
  id : BitVec 64
  state : ThreadState
  deriving DecidableEq, Repr

/-- A thread-table slot: the thread and its entry function (any type of entries `E`). -/
structure ThreadRecord (E : Type) where
  thread : Thread
  entry : E

structure Scheduler (E : Type) where
  initialized : Bool
  threads : List (ThreadRecord E)
  runQueue : List Nat
  current : Nat
  idle : Nat
  nextId : BitVec 64
  quantumTicks : Nat
  ticksSinceSwitch : Nat
  needsReschedule : Bool

variable {E : Type}

def defaultQuantumTicks : Nat := 10

namespace Scheduler

def new : Scheduler E where
  initialized := false
  threads := []
  runQueue := []
  current := 0
  idle := 0
  nextId := 0
  quantumTicks := defaultQuantumTicks
  ticksSinceSwitch := 0
  needsReschedule := false

/-- `threads[i].thread.state`; `none` is the source's out-of-bounds panic. -/
def stateAt (s : Scheduler E) (i : Nat) : Option ThreadState :=
  s.threads[i]?.map (·.thread.state)

/-- `threads[i].thread.state = st`. -/
def setState (s : Scheduler E) (i : Nat) (st : ThreadState) : Scheduler E :=
  let update (r : ThreadRecord E) := { r with thread := { r.thread with state := st } }
  { s with threads := s.threads.modify i update }

/-- The next id; the counter WRAPS. -/
def allocId (s : Scheduler E) : BitVec 64 × Scheduler E :=
  (s.nextId, { s with nextId := s.nextId + 1 })

def spawnInternal (s : Scheduler E) (entry : E) : BitVec 64 × Scheduler E :=
  let (id, s) := s.allocId
  let record : ThreadRecord E := { thread := { id := id, state := .ready }, entry := entry }
  let s := { s with threads := s.threads ++ [record] }
  let idx := s.threads.length - 1
  (id, { s with runQueue := s.runQueue ++ [idx] })

end Scheduler

open Scheduler

/-- The pop loop of `pick_next`, with the idle index it has put aside so far.  Returns the chosen
    index and the queue that is left. -/
def pickLoop (s : Scheduler E) : List Nat → Option Nat → Nat × List Nat
  | [], idleCandidate =>
      match idleCandidate with
      | some idleIdx => if s.stateAt idleIdx = some .ready then (idleIdx, []) else (s.idle, [])
      | none => (s.idle, [])
  | idx :: queue, idleCandidate =>
      if s.stateAt idx ≠ some .ready then pickLoop s queue idleCandidate
      else if idx = s.idle then pickLoop s queue (some idx)
      else (idx, queue ++ idleCandidate.toList)

def pickNext (s : Scheduler E) : Nat × Scheduler E :=
  let (idx, queue) := pickLoop s s.runQueue none
  (idx, { s with runQueue := queue })

def doSchedule (s : Scheduler E) : Scheduler E :=
  if s.initialized then
    let oldIdx := s.current
    let (nextIdx, s) := pickNext s
    if oldIdx = nextIdx then
      { s with needsReschedule := false, ticksSinceSwitch := 0 }
    else
      let s :=
        if s.stateAt oldIdx = some .running ∧ oldIdx ≠ s.idle then
          let s := s.setState oldIdx .ready
          { s with runQueue := s.runQueue ++ [oldIdx] }
        else s
      let s := s.setState nextIdx .running
      { s with current := nextIdx, needsReschedule := false, ticksSinceSwitch := 0 }
  else s

/-- `scheduler::init`: the bootstrap thread is Running and current, idle is the first spawn. -/
def init (bootstrapEntry idleEntry : E) : Scheduler E :=
  let (id, s) := (Scheduler.new : Scheduler E).allocId
  let bootstrap : Thread := { id := id, state := .running }
  let record : ThreadRecord E := { thread := bootstrap, entry := bootstrapEntry }
  let s := { s with threads := s.threads ++ [record] }
  let s := { s with current := 0 }
  let (idleId, s) := s.spawnInternal idleEntry
  let idleIdx := s.threads.findIdx (fun t => t.thread.id == idleId)
  { s with idle := idleIdx, initialized := true }

def spawn (s : Scheduler E) (entry : E) : BitVec 64 × Scheduler E := s.spawnInternal entry

def onTimerTick (s : Scheduler E) : Scheduler E :=
  if s.initialized then
    let ticks := min (s.ticksSinceSwitch + 1) (2 ^ 64 - 1)
    { s with ticksSinceSwitch := ticks,
             needsReschedule := if s.quantumTicks ≤ ticks then true else s.needsReschedule }
  else s

def yieldNow (s : Scheduler E) : Scheduler E := doSchedule s

def maybePreempt (s : Scheduler E) : Scheduler E :=
  if s.initialized && s.needsReschedule then yieldNow s else s

/-- The end of `thread_trampoline`: the entry function has returned.  `idle_entry` loops forever,
    so the idle thread never gets here. -/
def threadExit (s : Scheduler E) : Scheduler E :=
  if s.current = s.idle then s else s.setState s.current .dead

/-- One scheduler step, by whichever thread is current. -/
inductive Step (E : Type)
  | spawn (entry : E)
  | yieldNow
  | maybePreempt
  | timerTick
  | threadExit

def step (s : Scheduler E) : Step E → Scheduler E
  | .spawn entry => (spawn s entry).2
  | .yieldNow => yieldNow s
  | .maybePreempt => maybePreempt s
  | .timerTick => onTimerTick s
  | .threadExit => threadExit s

def run (s : Scheduler E) (steps : List (Step E)) : Scheduler E := steps.foldl step s

/-- Number of spawns in a run. -/
def spawns (steps : List (Step E)) : Nat :=
  steps.countP (fun a => match a with | .spawn _ => true | _ => false)

/-! ## What each operation does to the thread states -/

theorem stateAt_setState (s : Scheduler E) (i j : Nat) (st : ThreadState) :
    (s.setState i st).stateAt j = if i = j then (s.stateAt j).map (fun _ => st) else s.stateAt j := by
  simp only [setState, stateAt]
  by_cases h : i = j
  · simp [h, Function.comp_def]
  · simp [h]

variable {i : Nat}

theorem stateAt_setState_ne (s : Scheduler E) {j : Nat} (st : ThreadState) (h : i ≠ j) :
    (s.setState i st).stateAt j = s.stateAt j := by
  rw [stateAt_setState, if_neg h]

theorem stateAt_setState_self (s : Scheduler E) {st st' : ThreadState} (h : s.stateAt i = some st') :
    (s.setState i st).stateAt i = some st := by
  rw [stateAt_setState, if_pos rfl, h]; rfl

variable {s : Scheduler E}

theorem stateAt_lt {st : ThreadState} (h : s.stateAt i = some st) : i < s.threads.length := by
  by_contra hn
  simp [stateAt, getElem?_eq_none (not_lt.mp hn)] at h

theorem stateAt_spawn (s : Scheduler E) (e : E) (j : Nat) :
    (spawn s e).2.stateAt j = if j = s.threads.length then some .ready else s.stateAt j := by
  simp only [spawn, spawnInternal, allocId, stateAt]
  rcases Nat.lt_trichotomy j s.threads.length with h | h | h
  · rw [getElem?_append_left h, if_neg (by omega)]
  · simp [h]
  · rw [getElem?_eq_none (by simp; omega), getElem?_eq_none (by omega),
      if_neg (by omega)]

@[simp] theorem runQueue_spawn (s : Scheduler E) (e : E) :
    (spawn s e).2.runQueue = s.runQueue ++ [s.threads.length] := by
  simp [spawn, spawnInternal, allocId]

/-! ## The pop loop on a queue of Ready threads

  Under the invariant every queued thread is Ready, so the loop skips nothing: it either walks past
  idle to the first other thread, or runs dry and falls back to idle. -/

/-- The loop runs dry: only idle was queued. -/
theorem pickLoop_idle (s : Scheduler E) : ∀ (q : List Nat) (cand : Option Nat),
    (∀ i ∈ q, i = s.idle) → (∀ i ∈ cand, i = s.idle) → pickLoop s q cand = (s.idle, [])
  | [], none, _, _ => rfl
  | [], some c, _, hc => by
      have hci : c = s.idle := hc c rfl
      subst hci
      simp only [pickLoop]
      split <;> rfl
  | i :: q, cand, hq, hc => by
      have hi : i = s.idle := hq i (mem_cons_self ..)
      have hq' : ∀ j ∈ q, j = s.idle := fun j hj => hq j (mem_cons_of_mem i hj)
      rw [pickLoop]
      by_cases hr : s.stateAt i ≠ some .ready
      · rw [if_pos hr]
        exact pickLoop_idle s q cand hq' hc
      · rw [if_neg hr, if_pos hi]
        exact pickLoop_idle s q (some i) hq' (fun j hj => by
          obtain rfl : i = j := Option.mem_some_iff.mp hj
          exact hi)

/-- The loop stops at a thread other than idle: nothing but that thread leaves the queue. -/
theorem pickLoop_other (s : Scheduler E) : ∀ (q : List Nat) (cand : Option Nat),
    (∀ i ∈ q, s.stateAt i = some .ready) → (∀ i ∈ cand, i = s.idle) → (cand.toList ++ q).Nodup →
    (∃ i ∈ q, i ≠ s.idle) →
    (pickLoop s q cand).1 ≠ s.idle ∧
      ((pickLoop s q cand).1 :: (pickLoop s q cand).2).Perm (cand.toList ++ q)
  | [], _, _, _, _, hex => by
      obtain ⟨i, hi, _⟩ := hex
      exact absurd hi (not_mem_nil)
  | i :: q, cand, hr, hc, hnd, hex => by
      have hri : s.stateAt i = some .ready := hr i (mem_cons_self ..)
      rw [pickLoop, if_neg (not_not.mpr hri)]
      by_cases hi : i = s.idle
      · rw [if_pos hi]
        have hcn : cand = none := by
          -- idle is already put aside only if it was queued twice
          cases cand with
          | none => rfl
          | some c =>
            exfalso
            have hci : c = i := by rw [hi]; exact hc c rfl
            subst hci
            simp at hnd
        subst hcn
        obtain ⟨j, hj, hji⟩ := hex
        have hjq : j ∈ q := by
          rcases mem_cons.mp hj with h | h
          · exact absurd (h.trans hi) hji
          · exact h
        exact pickLoop_other s q (some i) (fun k hk => hr k (mem_cons_of_mem i hk))
          (fun k hk => by rw [← Option.mem_some_iff.mp hk]; exact hi) hnd ⟨j, hjq, hji⟩
      · rw [if_neg hi]
        refine ⟨hi, ?_⟩
        show (i :: (q ++ cand.toList)).Perm (cand.toList ++ i :: q)
        exact ((perm_append_comm.cons i)).trans perm_middle.symm

/-! ## The invariant -/

structure Inv (s : Scheduler E) : Prop where
  initialized : s.initialized = true
  /-- Idle exists and is not Dead. -/
  idle_alive : s.stateAt s.idle = some .ready ∨ s.stateAt s.idle = some .running
  /-- The current thread runs, or has just exited. -/
  current_state : s.stateAt s.current = some .running ∨ s.stateAt s.current = some .dead
  /-- Exactly Ready threads are queued ... -/
  queue_ready : ∀ i ∈ s.runQueue, s.stateAt i = some .ready
  /-- ... each once ... -/
  queue_nodup : s.runQueue.Nodup
  /-- ... and all of them, idle apart. -/
  ready_queued : ∀ i, s.stateAt i = some .ready → i ≠ s.idle → i ∈ s.runQueue

theorem Inv.current_not_queued (h : Inv s) : s.current ∉ s.runQueue := by
  intro hq
  have hr := h.queue_ready _ hq
  rcases h.current_state with hc | hc <;> rw [hr] at hc <;> cases hc

/-- What `pick_next` returns under the invariant: idle with nothing else queued, or another Ready
    thread, the queue keeping all the others. -/
theorem Inv.pick_cases (h : Inv s) :
    ((pickLoop s s.runQueue none).1 = s.idle ∧ (pickLoop s s.runQueue none).2 = [] ∧
      ∀ i ∈ s.runQueue, i = s.idle) ∨
    ((pickLoop s s.runQueue none).1 ≠ s.idle ∧
      ((pickLoop s s.runQueue none).1 :: (pickLoop s s.runQueue none).2).Perm s.runQueue) := by
  by_cases hex : ∃ i ∈ s.runQueue, i ≠ s.idle
  · right
    exact pickLoop_other s s.runQueue none h.queue_ready (by simp) (by simpa using h.queue_nodup) hex
  · left
    push Not at hex
    have hp := pickLoop_idle s s.runQueue none hex (by simp)
    rw [hp]
    exact ⟨rfl, rfl, hex⟩

/-! ## One step keeps the invariant -/

theorem inv_init (b i : E) : Inv (init b i) := by
  refine ⟨rfl, Or.inl rfl, Or.inl rfl, ?_, nodup_singleton _, ?_⟩
  · intro j hj
    obtain rfl : j = 1 := by simpa [init, spawnInternal, allocId, Scheduler.new] using hj
    rfl
  · intro j hj hne
    match j, hj, hne with
    | 0, hj, _ => exact absurd hj (by simp [init, spawnInternal, allocId, Scheduler.new, stateAt])
    | 1, _, hne => exact absurd rfl hne
    | j + 2, hj, _ =>
      exact absurd (stateAt_lt hj) (by simp [init, spawnInternal, allocId, Scheduler.new])

theorem inv_spawn (h : Inv s) (e : E) : Inv (spawn s e).2 := by
  have hold : ∀ {i st}, s.stateAt i = some st → (spawn s e).2.stateAt i = some st := by
    intro i st hi
    rw [stateAt_spawn, if_neg (by have := stateAt_lt hi; omega)]
    exact hi
  refine ⟨h.initialized, h.idle_alive.imp hold hold, h.current_state.imp hold hold, ?_, ?_, ?_⟩
  · intro i hi
    rw [runQueue_spawn] at hi
    rcases mem_append.mp hi with hi | hi
    · exact hold (h.queue_ready i hi)
    · rw [stateAt_spawn, if_pos (mem_singleton.mp hi)]
  · rw [runQueue_spawn]
    refine h.queue_nodup.append (nodup_singleton _) ?_
    intro i hi hi'
    have hlt := stateAt_lt (h.queue_ready i hi)
    rw [mem_singleton.mp hi'] at hlt
    omega
  · intro i hi hne
    rw [runQueue_spawn]
    rw [stateAt_spawn] at hi
    by_cases heq : i = s.threads.length
    · exact mem_append_right _ (mem_singleton.mpr heq)
    · rw [if_neg heq] at hi
      exact mem_append_left _ (h.ready_queued i hi hne)

theorem inv_onTimerTick (h : Inv s) : Inv (onTimerTick s) := by
  rw [onTimerTick, if_pos h.initialized]
  exact { h with }

theorem inv_threadExit (h : Inv s) : Inv (threadExit s) := by
  rw [threadExit]
  by_cases hci : s.current = s.idle
  · rw [if_pos hci]; exact h
  · rw [if_neg hci]
    have hne : ∀ {i}, s.stateAt i = some .ready → s.current ≠ i := by
      rintro i hi rfl
      rcases h.current_state with hc | hc <;> rw [hi] at hc <;> cases hc
    refine ⟨h.initialized, ?_, Or.inr ?_, ?_, h.queue_nodup, ?_⟩
    · show (s.setState s.current .dead).stateAt s.idle = _ ∨ (s.setState s.current .dead).stateAt s.idle = _
      rw [stateAt_setState_ne s _ hci]; exact h.idle_alive
    · rcases h.current_state with hc | hc <;> exact stateAt_setState_self s hc
    · intro i hi
      have hr := h.queue_ready i hi
      rw [stateAt_setState_ne s _ (hne hr)]; exact hr
    · intro i hi hni
      by_cases hic : s.current = i
      · -- the exited thread is Dead now
        subst hic
        rcases h.current_state with hc | hc <;> rw [stateAt_setState_self s hc] at hi <;> cases hi
      · rw [stateAt_setState_ne s _ hic] at hi
        exact h.ready_queued i hi hni

/-- The thread table after a switch from `old` to `next`: the outgoing thread goes back to Ready
    unless it is idle or not Running, the incoming one is Running, nobody else changes. -/
theorem stateAt_switch (s : Scheduler E) {old next : Nat} (hon : old ≠ next) :
    ((if s.stateAt old = some .running ∧ old ≠ s.idle then s.setState old .ready else s).setState
        next .running).stateAt i =
      if i = next then (s.stateAt i).map (fun _ => .running)
      else if i = old ∧ s.stateAt old = some .running ∧ old ≠ s.idle then some .ready
      else s.stateAt i := by
  by_cases hc : s.stateAt old = some .running ∧ old ≠ s.idle
  · rw [if_pos hc, stateAt_setState]
    by_cases hin : i = next
    · subst hin
      rw [if_pos rfl, if_pos rfl, stateAt_setState_ne s _ hon]
    · rw [if_neg (Ne.symm hin), if_neg hin]
      by_cases hio : i = old
      · subst hio
        rw [stateAt_setState_self s hc.1, if_pos ⟨rfl, hc⟩]
      · rw [stateAt_setState_ne s _ (Ne.symm hio), if_neg (fun hh => hio hh.1)]
  · rw [if_neg hc, stateAt_setState]
    by_cases hin : i = next
    · subst hin; rw [if_pos rfl, if_pos rfl]
    · rw [if_neg (Ne.symm hin), if_neg hin, if_neg (fun hh => hc hh.2)]

/-- The thread `pick_next` chooses in `s`. -/
def chosen (s : Scheduler E) : Nat := (pickLoop s s.runQueue none).1

/-- The queue `pick_next` leaves in `s`. -/
def leftover (s : Scheduler E) : List Nat := (pickLoop s s.runQueue none).2

/-- Everything `do_schedule` does when it stays on the current thread. -/
theorem doSchedule_stay (hi : s.initialized = true) (h : s.current = chosen s) :
    doSchedule s = { s with runQueue := leftover s, needsReschedule := false,
                            ticksSinceSwitch := 0 } := by
  rw [doSchedule, if_pos hi]
  exact if_pos h

/-- Everything `do_schedule` does when it switches. -/
theorem doSchedule_switch (hi : s.initialized = true) (h : s.current ≠ chosen s) :
    (doSchedule s).initialized = true ∧ (doSchedule s).idle = s.idle ∧
    (doSchedule s).current = chosen s ∧
    (doSchedule s).runQueue = leftover s ++
      (if s.stateAt s.current = some .running ∧ s.current ≠ s.idle then [s.current] else []) ∧
    ∀ i, (doSchedule s).stateAt i =
      if i = chosen s then (s.stateAt i).map (fun _ => .running)
      else if i = s.current ∧ s.stateAt s.current = some .running ∧ s.current ≠ s.idle then
        some .ready
      else s.stateAt i := by
  have hsw := fun i => stateAt_switch s (i := i) h
  have heq : doSchedule s =
      (let t := if s.stateAt s.current = some .running ∧ s.current ≠ s.idle then
                  { s.setState s.current .ready with runQueue := leftover s ++ [s.current] }
                else { s with runQueue := leftover s }
       { t.setState (chosen s) .running with
           current := chosen s, needsReschedule := false, ticksSinceSwitch := 0 }) := by
    rw [doSchedule, if_pos hi]
    exact if_neg h
  by_cases hc : s.stateAt s.current = some .running ∧ s.current ≠ s.idle
  · simp only [if_pos hc] at heq hsw
    rw [heq, if_pos hc]
    exact ⟨hi, rfl, rfl, rfl, hsw⟩
  · simp only [if_neg hc] at heq hsw
    rw [heq, if_neg hc]
    exact ⟨hi, rfl, rfl, (append_nil _).symm, hsw⟩

section

variable (h : Inv s)

include h

/-- Under the invariant the chosen thread is never Dead, and what is left in the queue was queued. -/
theorem Inv.leftover_subset : ∀ i ∈ leftover s, i ∈ s.runQueue := by
  rcases h.pick_cases with ⟨_, hq, _⟩ | ⟨_, hp⟩
  · intro i hi
    rw [show leftover s = [] from hq] at hi
    exact absurd hi (not_mem_nil)
  · exact fun i hi => hp.subset (mem_cons_of_mem _ hi)

theorem Inv.leftover_nodup : (leftover s).Nodup := by
  rcases h.pick_cases with ⟨_, hq, _⟩ | ⟨_, hp⟩
  · rw [show leftover s = [] from hq]; exact nodup_nil
  · exact (nodup_cons.mp (hp.nodup_iff.mpr h.queue_nodup)).2

/-- The chosen thread is out of the queue. -/
theorem Inv.chosen_not_left : chosen s ∉ leftover s := by
  rcases h.pick_cases with ⟨_, hq, _⟩ | ⟨_, hp⟩
  · rw [show leftover s = [] from hq]; exact not_mem_nil
  · exact (nodup_cons.mp (hp.nodup_iff.mpr h.queue_nodup)).1

/-- Queued threads other than idle are chosen or stay queued. -/
theorem Inv.queued_left (hi : i ∈ s.runQueue) (hne : i ≠ s.idle) :
    i = chosen s ∨ i ∈ leftover s := by
  rcases h.pick_cases with ⟨_, _, hall⟩ | ⟨_, hp⟩
  · exact absurd (hall i hi) hne
  · exact mem_cons.mp (hp.symm.subset hi)

/-- The chosen thread is Ready, or idle. -/
theorem Inv.chosen_state :
    s.stateAt (chosen s) = some .ready ∨ s.stateAt (chosen s) = some .running := by
  rcases h.pick_cases with ⟨hi, _, _⟩ | ⟨_, hp⟩
  · rw [show chosen s = s.idle from hi]; exact h.idle_alive
  · exact .inl (h.queue_ready _ (hp.subset (mem_cons_self ..)))

/-- `pick_next` never returns a Dead thread. -/
theorem Inv.chosen_not_dead : s.stateAt (chosen s) ≠ some .dead := by
  rcases h.chosen_state with hc | hc <;> rw [hc] <;> decide

/-- Staying on the current thread happens only on idle. -/
theorem Inv.stay_idle (hs : s.current = chosen s) : s.current = s.idle ∧ leftover s = [] := by
  rcases h.pick_cases with ⟨hi, hq, _⟩ | ⟨_, hp⟩
  · exact ⟨hs.trans hi, hq⟩
  · refine absurd ?_ h.current_not_queued
    rw [hs]
    exact hp.subset (mem_cons_self ..)

theorem inv_doSchedule : Inv (doSchedule s) := by
  by_cases hstay : s.current = chosen s
  · obtain ⟨hci, hq⟩ := h.stay_idle hstay
    rw [doSchedule_stay h.initialized hstay]
    refine ⟨h.initialized, h.idle_alive, h.current_state, ?_, ?_, ?_⟩
    · rw [hq]; exact nofun
    · rw [hq]; exact nodup_nil
    · intro i hi hne
      rcases h.queued_left (h.ready_queued i hi hne) hne with hic | hil
      · exact absurd (hic.trans (hstay.symm.trans hci)) hne
      · exact hil
  · obtain ⟨hinit, hidle, hcur, hqueue, hst⟩ := doSchedule_switch h.initialized hstay
    have hcn : s.current ∉ leftover s := fun hm => h.current_not_queued (h.leftover_subset _ hm)
    have hchosen : (doSchedule s).stateAt (chosen s) = some .running := by
      rw [hst, if_pos rfl]
      rcases h.chosen_state with hc | hc <;> rw [hc] <;> rfl
    refine ⟨hinit, ?_, ?_, ?_, ?_, ?_⟩
    · rw [hidle]
      by_cases hic : s.idle = chosen s
      · rw [hic]; exact .inr hchosen
      · rw [hst, if_neg hic, if_neg (fun hh => hh.2.2 hh.1.symm)]
        exact h.idle_alive
    · rw [hcur]; exact .inl hchosen
    · intro i hi
      rw [hqueue] at hi
      rcases mem_append.mp hi with hi | hi
      · have hir := h.queue_ready i (h.leftover_subset i hi)
        rw [hst, if_neg (by rintro rfl; exact h.chosen_not_left hi),
          if_neg (by rintro ⟨rfl, -, -⟩; exact hcn hi)]
        exact hir
      · by_cases hc : s.stateAt s.current = some .running ∧ s.current ≠ s.idle
        · rw [if_pos hc] at hi
          obtain rfl : i = s.current := mem_singleton.mp hi
          rw [hst, if_neg hstay, if_pos ⟨rfl, hc⟩]
        · rw [if_neg hc] at hi
          exact absurd hi (not_mem_nil)
    · rw [hqueue]
      by_cases hc : s.stateAt s.current = some .running ∧ s.current ≠ s.idle
      · rw [if_pos hc]
        refine h.leftover_nodup.append (nodup_singleton _) ?_
        intro i hi hi'
        rw [mem_singleton.mp hi'] at hi
        exact hcn hi
      · rw [if_neg hc, append_nil]; exact h.leftover_nodup
    · intro i hi hne
      rw [hidle] at hne
      rw [hqueue]
      by_cases hic : i = chosen s
      · rw [hic, hchosen] at hi; cases hi
      · rw [hst, if_neg hic] at hi
        by_cases hc : i = s.current ∧ s.stateAt s.current = some .running ∧ s.current ≠ s.idle
        · rw [if_pos hc.2, hc.1]
          exact mem_append_right _ (mem_singleton_self _)
        · rw [if_neg hc] at hi
          rcases h.queued_left (h.ready_queued i hi hne) hne with hic' | hil
          · exact absurd hic' hic
          · exact mem_append_left _ hil

theorem inv_step (a : Step E) : Inv (step s a) := by
  cases a with
  | spawn e => exact inv_spawn h e
  | yieldNow => exact inv_doSchedule h
  | maybePreempt =>
    show Inv (maybePreempt s)
    rw [maybePreempt]
    split
    · exact inv_doSchedule h
    · exact h
  | timerTick => exact inv_onTimerTick h
  | threadExit => exact inv_threadExit h

theorem inv_run (steps : List (Step E)) : Inv (run s steps) :=
  Run.foldl_inv (I := Inv) (fun _ a hs => inv_step hs a) steps h

/-! ## Dead threads stay dead, and ids -/

theorem doSchedule_dead (hd : s.stateAt i = some .dead) :
    (doSchedule s).stateAt i = some .dead := by
  by_cases hstay : s.current = chosen s
  · rw [doSchedule_stay h.initialized hstay]; exact hd
  · obtain ⟨_, _, _, _, hst⟩ := doSchedule_switch h.initialized hstay
    rw [hst, if_neg, if_neg]
    · exact hd
    · rintro ⟨rfl, hr, -⟩
      rw [hd] at hr; cases hr
    · rintro rfl
      exact h.chosen_not_dead hd

end

/-- A Dead thread is never revived, by whichever step. -/
theorem step_dead (h : Inv s) (hd : s.stateAt i = some .dead) (a : Step E) :
    (step s a).stateAt i = some .dead := by
  cases a with
  | spawn e =>
    show (spawn s e).2.stateAt i = _
    rw [stateAt_spawn, if_neg (by have := stateAt_lt hd; omega)]; exact hd
  | yieldNow => exact doSchedule_dead h hd
  | maybePreempt =>
    show (maybePreempt s).stateAt i = _
    rw [maybePreempt]
    split
    · exact doSchedule_dead h hd
    · exact hd
  | timerTick =>
    show (onTimerTick s).stateAt i = _
    rw [onTimerTick, if_pos h.initialized]; exact hd
  | threadExit =>
    show (threadExit s).stateAt i = _
    rw [threadExit]
    split
    · exact hd
    · rw [stateAt_setState]
      split
      · rw [hd]; rfl
      · exact hd

/-- The ids in table order. -/
def ids (s : Scheduler E) : List (BitVec 64) := s.threads.map (·.thread.id)

@[simp] theorem ids_setState (s : Scheduler E) (i : Nat) (st : ThreadState) :
    ids (s.setState i st) = ids s := by
  apply ext_getElem?
  intro j
  simp only [ids, setState, getElem?_map, getElem?_modify]
  cases s.threads[j]? with
  | none => rfl
  | some r => by_cases h : i = j <;> simp [h]

theorem ids_doSchedule (s : Scheduler E) :
    ids (doSchedule s) = ids s ∧ (doSchedule s).nextId = s.nextId := by
  rw [doSchedule]
  split
  · dsimp only [pickNext]
    split
    · exact ⟨rfl, rfl⟩
    · split
      · exact ⟨(ids_setState _ _ _).trans (ids_setState _ _ _), rfl⟩
      · exact ⟨ids_setState _ _ _, rfl⟩
  · exact ⟨rfl, rfl⟩

/-- Table slot `k` carries id `k`, and the counter is at the table's length — all modulo `2^64`. -/
def Numbered (s : Scheduler E) : Prop :=
  ids s = (List.range s.threads.length).map (BitVec.ofNat 64) ∧
    s.nextId = BitVec.ofNat 64 s.threads.length

theorem numbered_init (b i : E) : Numbered (init b i) := ⟨rfl, rfl⟩

theorem numbered_of_eq {t : Scheduler E} (h : Numbered s) (hids : ids t = ids s) (hn : t.nextId = s.nextId) :
    Numbered t := by
  have hl : t.threads.length = s.threads.length := by
    have := congrArg List.length hids
    simpa [ids] using this
  exact ⟨by rw [hids, hl]; exact h.1, by rw [hn, hl]; exact h.2⟩

theorem length_threads_spawn (s : Scheduler E) (e : E) :
    (spawn s e).2.threads.length = s.threads.length + 1 := by
  simp [spawn, spawnInternal, allocId]

theorem numbered_spawn (h : Numbered s) (e : E) : Numbered (spawn s e).2 := by
  have hids : ids (spawn s e).2 = ids s ++ [s.nextId] := by
    simp [ids, spawn, spawnInternal, allocId]
  refine ⟨?_, ?_⟩
  · rw [hids, length_threads_spawn, range_succ, map_append, ← h.1, h.2]; rfl
  · show s.nextId + 1 = _
    rw [length_threads_spawn, h.2, BitVec.ofNat_add]; rfl

/-- Steps other than spawn leave the ids and the counter alone. -/
theorem ids_step {a : Step E} (ha : ∀ e, a ≠ .spawn e) :
    ids (step s a) = ids s ∧ (step s a).nextId = s.nextId := by
  cases a with
  | spawn e => exact absurd rfl (ha e)
  | yieldNow => exact ids_doSchedule s
  | maybePreempt =>
    show ids (maybePreempt s) = _ ∧ (maybePreempt s).nextId = _
    rw [maybePreempt]
    split
    · exact ids_doSchedule s
    · exact ⟨rfl, rfl⟩
  | timerTick =>
    show ids (onTimerTick s) = _ ∧ (onTimerTick s).nextId = _
    rw [onTimerTick]
    split <;> exact ⟨rfl, rfl⟩
  | threadExit =>
    show ids (threadExit s) = _ ∧ (threadExit s).nextId = _
    rw [threadExit]
    split
    · exact ⟨rfl, rfl⟩
    · exact ⟨ids_setState _ _ _, rfl⟩

theorem numbered_run (steps : List (Step E)) : ∀ {s : Scheduler E}, Numbered s →
    Numbered (run s steps) ∧
      (run s steps).threads.length = s.threads.length + spawns steps := by
  induction steps with
  | nil => exact fun h => ⟨h, rfl⟩
  | cons a steps ih =>
    intro s h
    by_cases ha : ∃ e, a = .spawn e
    · obtain ⟨e, rfl⟩ := ha
      obtain ⟨hn, hl⟩ := ih (numbered_spawn h e)
      refine ⟨hn, hl.trans ?_⟩
      rw [length_threads_spawn, spawns, spawns, countP_cons_of_pos rfl]
      omega
    · push Not at ha
      obtain ⟨hids, hnx⟩ := ids_step ha
      obtain ⟨hn, hl⟩ := ih (numbered_of_eq h hids hnx)
      have hlen : (step s a).threads.length = s.threads.length := by
        simpa [ids] using congrArg List.length hids
      refine ⟨hn, hl.trans ?_⟩
      rw [hlen, spawns, spawns, countP_cons_of_neg]
      cases a with
      | spawn e => exact absurd rfl (ha e)
      | yieldNow | maybePreempt | timerTick | threadExit => exact Bool.false_ne_true

/-- Ids are distinct as long as the counter has not come back to its first value. -/
theorem Numbered.ids_nodup (h : Numbered s) (hl : s.threads.length ≤ 2 ^ 64) : (ids s).Nodup := by
  rw [h.1]
  refine (nodup_map_iff_inj_on nodup_range).mpr ?_
  intro i hi j hj hij
  have hi' := mem_range.mp hi
  have hj' := mem_range.mp hj
  have hmod := congrArg BitVec.toNat hij
  simp only [BitVec.toNat_ofNat] at hmod
  omega

theorem ids_nodup_run (b i : E) (steps : List (Step E)) (hspawns : spawns steps < 2 ^ 64 - 1) :
    (ids (run (init b i) steps)).Nodup := by
  obtain ⟨hn, hl⟩ := numbered_run steps (numbered_init b i)
  refine hn.ids_nodup ?_
  rw [hl]
  show 2 + spawns steps ≤ 2 ^ 64
  omega

/-! ## The scheduler over whole runs -/

end Saios.Sched
