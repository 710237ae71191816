/-
  WHO GETS THE CPU BACK: liveness of the scheduler over infinite runs.

  1. **What a thread can do** (`Possible`) — the idle thread's code is `loop { hlt }`: it makes no
     call, and the timer interrupt that wakes it only counts ticks.  A thread whose entry function
     has returned only yields.  Everything else is up to the thread's own code.

  2. **Fair runs** (`Fair`) — timer interrupts keep arriving, and every other thread that has the CPU
     calls `yield_now` or exits at some point.

  3. **The trap** — `do_schedule` picks the next thread BEFORE it queues the one that yields.  A
     thread that yields while nobody else is Ready therefore hands the CPU to idle, and idle never
     hands it back: no preemption point runs on idle.

  4. **Order** (`selected_in_order`) — the queue is a FIFO: `do_schedule` selects a waiting thread after exactly
     the threads that were ahead of it.

  5. **Result** (`served_iff_never_yields_alone`) — a fair run serves everybody exactly when no
     Running thread ever yields alone.  While nobody does, the number of threads ahead of a waiting
     one (`ahead`) is the rank that `Run.eventually_of_rank` needs.
-/
import Saios.Sched.Running

namespace Saios.Sched

open Scheduler List

variable {E : Type}

/-! ## Runs of the real threads -/

/-- The current thread's code can take this step. -/
def Possible (s : Scheduler E) : Step E → Prop
  | .timerTick => True
  | .yieldNow => s.current ≠ s.idle
  | .spawn _ | .maybePreempt | .threadExit =>
      s.current ≠ s.idle ∧ s.stateAt s.current ≠ some .dead

/-- The state after `n` steps of an infinite run from `init`. -/
abbrev after (b i : E) (as : ℕ → Step E) (n : ℕ) : Scheduler E := Run.trace step (init b i) as n

/-- Timer interrupts keep arriving, and every thread other than idle that has the CPU eventually
    calls `yield_now` (itself or through a preemption point) or exits. -/
structure Fair (b i : E) (as : ℕ → Step E) : Prop where
  possible : ∀ n, Possible (after b i as n) (as n)
  ticks : ∀ n, ∃ m, n ≤ m ∧ as m = .timerTick
  gives : ∀ n, (after b i as n).current ≠ (after b i as n).idle →
    ∃ m, n ≤ m ∧ (Schedules (after b i as m) (as m) ∨ as m = .threadExit)

def RunsAt (s : Scheduler E) (t : Nat) : Prop := s.current = t ∧ s.stateAt t = some .running

/-- Nobody starves. -/
structure Served (b i : E) (as : ℕ → Step E) : Prop where
  /-- Every Ready thread other than idle runs after finitely many steps ... -/
  ready : ∀ n t, t ≠ (after b i as n).idle → (after b i as n).stateAt t = some .ready →
    ∃ m, n ≤ m ∧ RunsAt (after b i as m) t
  /-- ... and so does every thread that yields while Running ... -/
  yielded : ∀ n, Schedules (after b i as n) (as n) →
    (after b i as n).stateAt (after b i as n).current = some .running →
    ∃ m, n < m ∧ RunsAt (after b i as m) (after b i as n).current
  /-- ... idle does not keep the CPU while another thread is Ready ... -/
  idle_leaves : ∀ n t, t ≠ (after b i as n).idle → (after b i as n).stateAt t = some .ready →
    ∃ m, n ≤ m ∧ (after b i as m).current ≠ (after b i as m).idle
  /-- ... and has its turn when nobody else is Ready. -/
  idle_turn : ∀ n, Schedules (after b i as n) (as n) →
    (∀ t, t ≠ (after b i as n).idle → (after b i as n).stateAt t ≠ some .ready) →
    RunsAt (after b i as (n + 1)) (after b i as n).idle

/-- A Running thread enters `do_schedule` while no other thread but idle is Ready. -/
def YieldsAlone (s : Scheduler E) (a : Step E) : Prop :=
  Schedules s a ∧ s.stateAt s.current = some .running ∧
    ∀ t, t ≠ s.idle → s.stateAt t ≠ some .ready

/-! ## The queue is a FIFO -/

/-- The threads other than idle that are queued before `t`. -/
def ahead (s : Scheduler E) (t : Nat) : Nat :=
  (s.runQueue.takeWhile (fun i => decide (i ≠ t))).countP (fun i => decide (i ≠ s.idle))

variable {t : Nat}

theorem takeWhile_append_of_mem {q : List Nat} (r : List Nat) (ht : t ∈ q) :
    (q ++ r).takeWhile (fun i => decide (i ≠ t)) = q.takeWhile (fun i => decide (i ≠ t)) := by
  rw [takeWhile_append, if_neg]
  intro hlen
  rw [← ( takeWhile_prefix _).eq_of_length hlen] at ht
  simpa using all_eq_true.mp all_takeWhile t ht

/-- A prefix without `t` is wholly before it. -/
theorem takeWhile_append_of_notMem {p : List Nat} (q : List Nat) (ht : t ∉ p) :
    (p ++ q).takeWhile (fun i => decide (i ≠ t)) = p ++ q.takeWhile (fun i => decide (i ≠ t)) :=
  takeWhile_append_of_pos fun _ hi => decide_eq_true (ne_of_mem_of_not_mem hi ht)

/-- The pop loop passes idle entries only, and what follows its choice keeps its place. -/
theorem pickLoop_split (s : Scheduler E) : ∀ (q : List Nat) (cand : Option Nat),
    (∀ i ∈ q, s.stateAt i = some .ready) → (∃ i ∈ q, i ≠ s.idle) →
    ∃ skipped rest extra, q = skipped ++ (pickLoop s q cand).1 :: rest ∧
      (∀ i ∈ skipped, i = s.idle) ∧ (pickLoop s q cand).1 ≠ s.idle ∧
      (pickLoop s q cand).2 = rest ++ extra
  | [], _, _, hex => by
      obtain ⟨i, hi, _⟩ := hex
      exact absurd hi (not_mem_nil)
  | i :: q, cand, hr, hex => by
      rw [pickLoop, if_neg (not_not.mpr (hr i (mem_cons_self ..)))]
      by_cases hi : i = s.idle
      · rw [if_pos hi]
        obtain ⟨j, hj, hji⟩ := hex
        have hjq : j ∈ q := (mem_cons.mp hj).resolve_left fun h => hji (h.trans hi)
        obtain ⟨skipped, rest, extra, hq, hskip, hne, hleft⟩ :=
          pickLoop_split s q (some i) (fun k hk => hr k (mem_cons_of_mem i hk)) ⟨j, hjq, hji⟩
        refine ⟨i :: skipped, rest, extra, ?_, ?_, hne, hleft⟩
        · rw [cons_append, ← hq]
        · intro k hk
          rcases mem_cons.mp hk with hk | hk
          · rw [hk]; exact hi
          · exact hskip k hk
      · rw [if_neg hi]
        exact ⟨[], q, cand.toList, rfl, fun k hk => absurd hk not_mem_nil, hi, rfl⟩

variable {s : Scheduler E}

/-- One `do_schedule` runs a queued thread or brings it one place forward. -/
theorem ahead_doSchedule (h : Inv s) (ht : s.stateAt t = some .ready) (hne : t ≠ s.idle) (hc : chosen s ≠ t) :
    (doSchedule s).stateAt t = some .ready ∧ ahead (doSchedule s) t + 1 = ahead s t := by
  have htq : t ∈ s.runQueue := h.ready_queued t ht hne
  obtain ⟨skipped, rest, extra, hq, hskip, hci, hleft⟩ :=
    pickLoop_split s s.runQueue none h.queue_ready ⟨t, htq, hne⟩
  rw [show (pickLoop s s.runQueue none).1 = chosen s from rfl] at hq hci
  rw [show (pickLoop s s.runQueue none).2 = leftover s from rfl] at hleft
  have hskt : t ∉ skipped := fun hm => hne (hskip t hm)
  have hrest : t ∈ rest := by
    rw [hq] at htq
    rcases mem_append.mp htq with hm | hm
    · exact absurd hm hskt
    · exact (mem_cons.mp hm).resolve_left hc.symm
  have hstay : s.current ≠ chosen s := fun hs => hci (hs.symm.trans (h.stay_idle hs).1)
  obtain ⟨_, hidle, _, hqueue, hst⟩ := doSchedule_switch h.initialized hstay
  have hcur : t ≠ s.current := by
    rintro rfl
    rcases h.current_state with hr | hr <;> rw [ht] at hr <;> cases hr
  constructor
  · rw [hst, if_neg hc.symm, if_neg fun hh => hcur hh.1]
    exact ht
  · have hskip0 : skipped.countP (fun i => decide (i ≠ s.idle)) = 0 := by
      rw [countP_eq_zero]
      intro i hi hpi
      exact of_decide_eq_true hpi (hskip i hi)
    have hnew : ahead (doSchedule s) t = (rest.takeWhile (fun i => decide (i ≠ t))).countP
        (fun i => decide (i ≠ s.idle)) := by
      rw [ahead, hidle, hqueue, hleft, append_assoc, takeWhile_append_of_mem _ hrest]
    have hold : ahead s t = (rest.takeWhile (fun i => decide (i ≠ t))).countP
        (fun i => decide (i ≠ s.idle)) + 1 := by
      rw [ahead, hq, takeWhile_append_of_notMem _ hskt, takeWhile_cons,
        if_pos (decide_eq_true hc), countP_append, hskip0, countP_cons,
        if_pos (decide_eq_true hci), Nat.zero_add]
    rw [hnew, hold]

/-- The thread that is chosen had nobody ahead of it. -/
theorem ahead_chosen (h : Inv s) (ht : s.stateAt t = some .ready) (hne : t ≠ s.idle) (hc : chosen s = t) :
    ahead s t = 0 := by
  obtain ⟨skipped, rest, -, hq, hskip, -⟩ :=
    pickLoop_split s s.runQueue none h.queue_ready ⟨t, h.ready_queued t ht hne, hne⟩
  rw [show (pickLoop s s.runQueue none).1 = t from hc] at hq
  rw [ahead, hq, takeWhile_append_of_notMem _ fun hm => hne (hskip t hm), takeWhile_cons,
    if_neg (by simp), append_nil, countP_eq_zero]
  intro i hi hpi
  exact of_decide_eq_true hpi (hskip i hi)

/-- The other steps leave a queued thread at its place. -/
theorem ahead_quiet {u : Scheduler E} (h : Inv s) (hq : Quiet s u) (ht : s.stateAt t = some .ready)
    (hne : t ≠ s.idle) : u.stateAt t = some .ready ∧ ahead u t = ahead s t := by
  have hcur : s.stateAt s.current ≠ some .ready := by
    rcases h.current_state with hr | hr <;> rw [hr] <;> decide
  obtain ⟨extra, hqueue⟩ := hq.queue
  refine ⟨hq.ready hcur t ht, ?_⟩
  rw [ahead, hqueue, hq.idle, takeWhile_append_of_mem _ (h.ready_queued t ht hne)]
  rfl

/-! ## Order -/

instance (s : Scheduler E) : DecidablePred (Schedules s)
  | .yieldNow => .isTrue trivial
  | .maybePreempt => inferInstanceAs (Decidable (_ = true))
  | .spawn _ | .timerTick | .threadExit => .isFalse id

/-- The threads that the `do_schedule` steps of a run select. -/
def selections (s : Scheduler E) : List (Step E) → List Nat
  | [] => []
  | a :: as => (if Schedules s a then [(step s a).current] else []) ++ selections (step s a) as

/-- The selections from a state with a waiting thread: the others in front of it, then the thread. -/
theorem selections_waiting (as : List (Step E)) (h : Inv s) (ht : s.stateAt t = some .ready)
    (hne : t ≠ s.idle) :
    (∀ j u, j < ahead s t → (selections s as)[j]? = some u → u ≠ t ∧ u ≠ s.idle) ∧
      ∀ u, (selections s as)[ahead s t]? = some u → u = t := by
  induction as generalizing s with
  | nil => exact ⟨nofun, nofun⟩
  | cons a as ih =>
    rw [selections]
    by_cases hs : Schedules s a
    · obtain ⟨hcur, -⟩ := h.current_doSchedule
      have hstep := step_schedules h.initialized hs
      rw [if_pos hs, hstep, hcur]
      have hidle : chosen s ≠ s.idle := fun hc => h.chosen_eq_idle_iff.mp hc t hne ht
      by_cases hc : chosen s = t
      · rw [ahead_chosen h ht hne hc]
        exact ⟨fun j u hj => absurd hj (Nat.not_lt_zero j), fun u hu => (Option.some.inj hu).symm.trans hc⟩
      · obtain ⟨hready, hahead⟩ := ahead_doSchedule h ht hne hc
        have hkeep : (doSchedule s).idle = s.idle :=
          (doSchedule_switch h.initialized fun hstay => hidle (hstay.symm.trans (h.stay_idle hstay).1)).2.1
        obtain ⟨hbefore, hat⟩ := ih (hstep ▸ inv_step h a) hready (hkeep.symm ▸ hne)
        rw [hkeep] at hbefore
        rw [← hahead]
        refine ⟨fun j u hj hu => ?_, fun u hu => hat u hu⟩
        cases j with
        | zero =>
          obtain rfl : chosen s = u := Option.some.inj hu
          exact ⟨hc, hidle⟩
        | succ j => exact hbefore j u (by omega) hu
    · have hq := step_quiet hs
      obtain ⟨hready, hahead⟩ := ahead_quiet h hq ht hne
      rw [if_neg hs, ← hahead, ← hq.idle]
      exact ih (inv_step h a) hready (hq.idle.symm ▸ hne)

/-- **Round robin.**  A thread that waits with `k` others than idle ahead of it is selected by the `k + 1`-th
    `do_schedule` from then on and by none before it, and neither is idle. -/
theorem selected_in_order (b i : E) (steps more : List (Step E)) (t : Nat)
    (hready : (run (init b i) steps).stateAt t = some .ready) (hne : t ≠ (run (init b i) steps).idle) :
    (∀ j u, j < ahead (run (init b i) steps) t → (selections (run (init b i) steps) more)[j]? = some u →
      u ≠ t ∧ u ≠ (run (init b i) steps).idle) ∧
    (ahead (run (init b i) steps) t < (selections (run (init b i) steps) more).length →
      (selections (run (init b i) steps) more)[ahead (run (init b i) steps) t]? = some t) := by
  obtain ⟨hbefore, hat⟩ := selections_waiting more (inv_run (inv_init b i) steps) hready hne
  refine ⟨hbefore, fun hlong => ?_⟩
  rw [List.getElem?_eq_getElem hlong]
  exact congrArg some (hat _ (List.getElem?_eq_getElem hlong))

/-- The second thread spawned waits for one other; a third one spawned meanwhile does not overtake it. -/
theorem selected_in_order_second :
    (selections (run (init () ()) [.spawn (), .spawn ()]) [.yieldNow, .spawn (), .threadExit, .yieldNow])[1]? = some 3 :=
  (selected_in_order () () [.spawn (), .spawn ()] [.yieldNow, .spawn (), .threadExit, .yieldNow] 3 rfl (by decide)).2
    (by decide)

/-! ## Along a fair run -/

variable {n : ℕ}

section
variable {b i : E} {as : ℕ → Step E}

theorem inv_after (b i : E) (as : ℕ → Step E) (n : ℕ) : Inv (after b i as n) := by
  induction n with
  | zero => exact inv_init b i
  | succ n ih => exact inv_step ih (as n)

theorem after_schedules (h : Schedules (after b i as n) (as n)) :
    after b i as (n + 1) = doSchedule (after b i as n) :=
  step_schedules (inv_after b i as n).initialized h

theorem after_quiet (h : ¬ Schedules (after b i as n) (as n)) :
    Quiet (after b i as n) (after b i as (n + 1)) :=
  step_quiet h

theorem runsAt_chosen (h : Schedules (after b i as n) (as n)) :
    RunsAt (after b i as (n + 1)) (chosen (after b i as n)) := by
  obtain ⟨hcur, hrun⟩ := (inv_after b i as n).current_doSchedule
  rw [after_schedules h]
  exact ⟨hcur, hrun⟩

theorem idle_after (b i : E) (as : ℕ → Step E) (n : ℕ) :
    (after b i as n).idle = (init b i).idle := by
  induction n with
  | zero => rfl
  | succ n ih =>
    rw [← ih]
    by_cases h : Schedules (after b i as n) (as n)
    · have hinv := inv_after b i as n
      rw [after_schedules h]
      by_cases hstay : (after b i as n).current = chosen (after b i as n)
      · rw [doSchedule_stay hinv.initialized hstay]
      · exact (doSchedule_switch hinv.initialized hstay).2.1
    · exact (after_quiet h).idle

theorem Possible.on_idle {a : Step E} (h : Possible s a) (hc : s.current = s.idle) : a = .timerTick := by
  cases a with
  | timerTick => rfl
  | yieldNow => exact absurd hc h
  | spawn _ | maybePreempt | threadExit => exact absurd hc h.1

/-- Idle makes no call, so it never gives the CPU back. -/
theorem idle_forever (hp : ∀ n, Possible (after b i as n) (as n))
    (hn : (after b i as n).current = (after b i as n).idle) :
    ∀ m, n ≤ m → (after b i as m).current = (after b i as m).idle := by
  refine Run.trace_inv (I := fun s : Scheduler E => s.current = s.idle) hn fun m _ hm => ?_
  have hquiet : ¬ Schedules (after b i as m) (as m) := by
    rw [(hp m).on_idle hm]
    exact id
  have hq := after_quiet hquiet
  rw [hq.current, hq.idle]
  exact hm

/-- A thread other than idle that has the CPU enters `do_schedule` sooner or later: an exit is
    followed by a yield, since a Dead thread can do nothing else. -/
theorem Fair.schedules (hf : Fair b i as) (hn : (after b i as n).current ≠ (after b i as n).idle) :
    ∃ m, n ≤ m ∧ Schedules (after b i as m) (as m) := by
  by_contra hno
  push Not at hno
  have hcur : ∀ m, n ≤ m → (after b i as m).current ≠ (after b i as m).idle := by
    refine Run.trace_inv (I := fun s : Scheduler E => s.current ≠ s.idle) hn fun m hm ih => ?_
    have hq := after_quiet (hno m hm)
    rw [hq.current, hq.idle]
    exact ih
  -- without a `do_schedule` there is an exit, and after it another one: by a Dead thread
  obtain ⟨k, hk, hex⟩ := hf.gives n hn
  have hexit : as k = .threadExit := hex.resolve_left (hno k hk)
  have hdead : ∀ m, k + 1 ≤ m →
      (after b i as m).stateAt (after b i as k).current = some .dead := by
    intro m hm
    induction m, hm using Nat.le_induction with
    | base =>
      show (step (after b i as k) (as k)).stateAt _ = _
      rw [hexit]
      show (threadExit (after b i as k)).stateAt _ = _
      rw [threadExit, if_neg (hcur k hk)]
      rcases (inv_after b i as k).current_state with hc | hc <;> exact stateAt_setState_self _ hc
    | succ m _ ih => exact step_dead (inv_after b i as m) ih (as m)
  have hsame : ∀ m, k + 1 ≤ m → (after b i as m).current = (after b i as k).current := by
    intro m hm
    induction m, hm using Nat.le_induction with
    | base => exact (after_quiet (hno k hk)).current
    | succ m hm ih => exact (after_quiet (hno m (by omega))).current.trans ih
  obtain ⟨l, hl, hex'⟩ := hf.gives (k + 1) (hcur (k + 1) (by omega))
  have hexit' : as l = .threadExit := hex'.resolve_left (hno l (by omega))
  have hpl := hf.possible l
  rw [hexit'] at hpl
  refine hpl.2 ?_
  rw [hsame l hl]
  exact hdead l hl

/-- While nobody yields alone, idle has the CPU only when nobody else is Ready. -/
theorem no_ready_on_idle (hp : ∀ n, Possible (after b i as n) (as n))
    (halone : ∀ n, ¬ YieldsAlone (after b i as n) (as n)) (n : ℕ)
    (hn : (after b i as n).current = (after b i as n).idle) :
    ∀ t, t ≠ (after b i as n).idle → (after b i as n).stateAt t ≠ some .ready := by
  induction n with
  | zero =>
    exact absurd hn Nat.zero_ne_one
  | succ n ih =>
    have hinv := inv_after b i as n
    by_cases hs : Schedules (after b i as n) (as n)
    · -- idle was chosen: nobody else was Ready, so the thread that gave up the CPU had exited
      have hnone := hinv.chosen_eq_idle_iff.mp (by
        rw [← (runsAt_chosen hs).1, hn, idle_after, idle_after])
      have hdead : (after b i as n).stateAt (after b i as n).current = some .dead :=
        hinv.current_state.resolve_left fun hr => halone n ⟨hs, hr, hnone⟩
      have hstay : (after b i as n).current ≠ chosen (after b i as n) := by
        intro hst
        have hrun := hinv.idle_running (hinv.stay_idle hst).1
        rw [← (hinv.stay_idle hst).1, hdead] at hrun
        cases hrun
      obtain ⟨_, hidle, hcur, _, hst⟩ := doSchedule_switch hinv.initialized hstay
      intro t ht
      rw [after_schedules hs] at hn ht ⊢
      rw [hst, if_neg (by rw [← hcur, hn]; exact ht), if_neg (by
        rintro ⟨-, hr, -⟩
        rw [hdead] at hr
        cases hr)]
      exact hnone t (by rw [← hidle]; exact ht)
    · -- idle had the CPU already, and only a tick can have come
      have hq := after_quiet hs
      have hc : (after b i as n).current = (after b i as n).idle := by
        rw [← hq.current, hn, hq.idle]
      have htick : after b i as (n + 1) = onTimerTick (after b i as n) := by
        rw [after, Run.trace_succ, (hp n).on_idle hc]
        rfl
      intro t ht
      rw [hq.idle] at ht
      rw [htick, onTimerTick, if_pos hinv.initialized]
      exact ih hc t ht

/-- A waiting thread runs, moves forward in the queue or stays where it is. -/
theorem waiting_succ {t : ℕ} (hne : t ≠ (init b i).idle) (ht : (after b i as n).stateAt t = some .ready) :
    RunsAt (after b i as (n + 1)) t ∨
      (after b i as (n + 1)).stateAt t = some .ready ∧
        ahead (after b i as (n + 1)) t ≤ ahead (after b i as n) t ∧
        (Schedules (after b i as n) (as n) →
          ahead (after b i as (n + 1)) t < ahead (after b i as n) t) := by
  have hinv := inv_after b i as n
  rw [← idle_after b i as n] at hne
  by_cases hs : Schedules (after b i as n) (as n)
  · by_cases hc : chosen (after b i as n) = t
    · left
      rw [← hc]
      exact runsAt_chosen hs
    · right
      obtain ⟨hready, hahead⟩ := ahead_doSchedule hinv ht hne hc
      rw [after_schedules hs]
      exact ⟨hready, by omega, fun _ => by omega⟩
  · right
    obtain ⟨hready, heq⟩ := ahead_quiet hinv (after_quiet hs) ht hne
    exact ⟨hready, heq.le, fun hh => absurd hh hs⟩

/-- A Ready thread other than idle runs after finitely many steps, if nobody yields alone. -/
theorem Fair.ready_runs (hf : Fair b i as) (halone : ∀ n, ¬ YieldsAlone (after b i as n) (as n)) {t : ℕ}
    (hne : t ≠ (init b i).idle) (ht : (after b i as n).stateAt t = some .ready) :
    ∃ m, n ≤ m ∧ RunsAt (after b i as m) t := by
  refine Run.eventually_of_rank (P := fun n => (after b i as n).stateAt t = some .ready)
    (r := fun n => ahead (after b i as n) t) ?_ ?_ ht
  · intro n ht
    exact (waiting_succ hne ht).imp id fun h => ⟨h.1, h.2.1⟩
  · intro n ht
    have hcur : (after b i as n).current ≠ (after b i as n).idle := fun hc =>
      no_ready_on_idle hf.possible halone n hc t (by rw [idle_after]; exact hne) ht
    obtain ⟨m, hm, hs⟩ := hf.schedules hcur
    exact ⟨m, hm, fun ht => (waiting_succ hne ht).imp id fun h => h.2.2 hs⟩

/-- A thread that yields while Running, and not alone, is Ready afterwards. -/
theorem ready_after_yield (hs : Schedules (after b i as n) (as n))
    (hr : (after b i as n).stateAt (after b i as n).current = some .running)
    (hidle : (after b i as n).current ≠ (after b i as n).idle) :
    (after b i as (n + 1)).stateAt (after b i as n).current = some .ready := by
  have hinv := inv_after b i as n
  have hstay : (after b i as n).current ≠ chosen (after b i as n) := fun h =>
    hidle (hinv.stay_idle h).1
  obtain ⟨_, _, _, _, hst⟩ := doSchedule_switch hinv.initialized hstay
  rw [after_schedules hs, hst, if_neg hstay, if_pos ⟨rfl, hr, hidle⟩]

/-- Idle cannot enter `do_schedule`. -/
theorem current_ne_idle_of_schedules (hp : ∀ n, Possible (after b i as n) (as n))
    (hs : Schedules (after b i as n) (as n)) : (after b i as n).current ≠ (after b i as n).idle := by
  intro hc
  rw [(hp n).on_idle hc] at hs
  exact hs

/-- **No starvation.**  In a fair run everybody is served if and only if no Running thread ever
    enters `do_schedule` while nobody else is Ready. -/
theorem served_iff_never_yields_alone (b i : E) (as : ℕ → Step E) (hf : Fair b i as) :
    Served b i as ↔ ∀ n, ¬ YieldsAlone (after b i as n) (as n) := by
  constructor
  · rintro hserved n ⟨hs, hr, hnone⟩
    have hidle := current_ne_idle_of_schedules hf.possible hs
    -- idle gets the CPU and keeps it, so the thread that yielded never runs again
    have hnext : (after b i as (n + 1)).current = (after b i as (n + 1)).idle := by
      rw [(runsAt_chosen hs).1, (inv_after b i as n).chosen_eq_idle_iff.mpr hnone, idle_after,
        idle_after]
    obtain ⟨m, hm, hrun⟩ := hserved.yielded n hs hr
    have hm' := idle_forever hf.possible hnext m hm
    rw [hrun.1, idle_after, ← idle_after b i as n] at hm'
    exact hidle hm'
  · intro halone
    have hready : ∀ n t, t ≠ (after b i as n).idle → (after b i as n).stateAt t = some .ready →
        ∃ m, n ≤ m ∧ RunsAt (after b i as m) t := by
      intro n t hne ht
      rw [idle_after] at hne
      exact hf.ready_runs halone hne ht
    refine ⟨hready, ?_, ?_, ?_⟩
    · intro n hs hr
      have hidle := current_ne_idle_of_schedules hf.possible hs
      obtain ⟨m, hm, hrun⟩ := hf.ready_runs halone (by rw [← idle_after b i as n]; exact hidle)
        (ready_after_yield hs hr hidle)
      exact ⟨m, hm, hrun⟩
    · intro n t hne ht
      obtain ⟨m, hm, hrun⟩ := hready n t hne ht
      refine ⟨m, hm, ?_⟩
      rw [hrun.1, idle_after, ← idle_after b i as n]
      exact hne
    · intro n hs hnone
      have hc := (inv_after b i as n).chosen_eq_idle_iff.mpr hnone
      rw [← hc]
      exact runsAt_chosen hs

end

/-- Another thread is waiting while a thread other than idle runs. -/
def Busy (s : Scheduler E) : Prop :=
  s.current ≠ s.idle ∧ s.stateAt s.current = some .running ∧
    ∃ t, t ≠ s.idle ∧ s.stateAt t = some .ready

/-- Two threads that only yield keep each other waiting. -/
theorem Busy.doSchedule (h : Inv s) (hb : Busy s) : Busy (doSchedule s) := by
  obtain ⟨hidle, hrun, t, hne, ht⟩ := hb
  have hchosen : chosen s ≠ s.idle := fun hc => h.chosen_eq_idle_iff.mp hc t hne ht
  have hstay : s.current ≠ chosen s := fun hc => hidle (h.stay_idle hc).1
  obtain ⟨_, hid, hcur, _, hst⟩ := doSchedule_switch h.initialized hstay
  refine ⟨?_, ?_, s.current, ?_, ?_⟩
  · rw [hcur, hid]; exact hchosen
  · rw [hcur]; exact h.current_doSchedule.2
  · rw [hid]; exact hidle
  · rw [hst, if_neg hstay, if_pos ⟨rfl, hrun, hidle⟩]

/-- The bootstrap thread spawns another one; then the two yield to each other, a tick after each
    yield. -/
def takeTurns : ℕ → Step Unit
  | 0 => .spawn ()
  | n + 1 => if n % 2 = 0 then .yieldNow else .timerTick

theorem busy_takeTurns (n : ℕ) : Busy (after () () takeTurns (n + 1)) := by
  induction n with
  | zero => exact ⟨by decide, by decide, 2, by decide, by decide⟩
  | succ n ih =>
    have hinv := inv_after () () takeTurns (n + 1)
    rw [after, Run.trace_succ, takeTurns]
    split
    · exact ih.doSchedule hinv
    · show Busy (onTimerTick (after () () takeTurns (n + 1)))
      rw [onTimerTick, if_pos hinv.initialized]
      exact ih

theorem fair_takeTurns : Fair () () takeTurns where
  possible n := by
    cases n with
    | zero => exact ⟨by decide, by decide⟩
    | succ n =>
      rw [takeTurns]
      split
      · exact (busy_takeTurns n).1
      · trivial
  ticks n := ⟨2 * n + 2, by omega, if_neg (by omega)⟩
  gives n _ := by
    refine ⟨2 * n + 1, by omega, Or.inl ?_⟩
    rw [show takeTurns (2 * n + 1) = .yieldNow from if_pos (by omega)]
    trivial

theorem served_takeTurns : Fair () () takeTurns ∧ Served () () takeTurns := by
  refine ⟨fair_takeTurns, (served_iff_never_yields_alone () () takeTurns fair_takeTurns).mpr ?_⟩
  rintro n ⟨hs, -, hnone⟩
  cases n with
  | zero => exact hs
  | succ n =>
    obtain ⟨-, -, t, hne, ht⟩ := busy_takeTurns n
    exact hnone t hne ht

/-- The bootstrap thread yields once, nobody else having been spawned; then only ticks come. -/
def yieldOnce : ℕ → Step Unit
  | 0 => .yieldNow
  | _ + 1 => .timerTick

theorem idle_yieldOnce (n : ℕ) : (after () () yieldOnce (n + 1)).current = 1 := by
  induction n with
  | zero => rfl
  | succ n ih =>
    show (onTimerTick (after () () yieldOnce (n + 1))).current = 1
    rw [onTimerTick]
    split <;> exact ih

/-- The first yield of a kernel with no other thread is its last: the run is fair, the bootstrap
    thread is Ready from then on and never runs again. -/
theorem bootstrap_starves :
    Fair () () yieldOnce ∧ (after () () yieldOnce 1).stateAt 0 = some .ready ∧
    (∀ m, 1 ≤ m → (after () () yieldOnce m).current = (after () () yieldOnce m).idle) ∧
    ¬ Served () () yieldOnce := by
  have hidle : ∀ m, 1 ≤ m → (after () () yieldOnce m).current = (after () () yieldOnce m).idle := by
    intro m hm
    obtain ⟨n, rfl⟩ := Nat.exists_eq_add_of_le hm
    rw [idle_after, Nat.add_comm]
    exact idle_yieldOnce n
  refine ⟨⟨?_, ?_, ?_⟩, by decide, hidle, ?_⟩
  · intro n
    cases n with
    | zero => exact Nat.zero_ne_one
    | succ n => trivial
  · exact fun n => ⟨n + 1, by omega, rfl⟩
  · intro n hn
    cases n with
    | zero => exact ⟨0, Nat.le_refl 0, Or.inl trivial⟩
    | succ n => exact absurd (hidle (n + 1) (by omega)) hn
  · intro hserved
    obtain ⟨m, hm, hrun⟩ := hserved.ready 1 0 (by decide) (by decide)
    have hcur := hidle m hm
    rw [hrun.1, idle_after] at hcur
    exact absurd hcur Nat.zero_ne_one

end Saios.Sched
