/-
  WHO IS RUNNING after a switch (`do_schedule` and `verify` in `seed/saios/src/scheduler.rs`).

  1. **Program** — `verify` and the snapshot `threads` it works on, next to the model of
     `Saios.Scheduler`.  `verify` counts the threads whose state is Running and expects one.

  2. **The leak** — `do_schedule` gives the outgoing thread back to Ready only if it is not idle.
     A switch AWAY from idle therefore leaves idle Running beside the incoming thread.  Nothing
     else can: every other switch takes Running from one thread and gives it to another.

  3. **Result** (`one_running_iff_never_leaves_idle`) — along any run, every `do_schedule` ends with
     the current thread as the only Running one exactly when none of them leaves idle for another
     Ready thread.
-/
import Saios.Scheduler

namespace Saios.Sched

open Scheduler List

variable {E : Type}

/-! ## The program -/

/-- `VerifyCheck` of `kernel/testing/report.rs`. -/
structure VerifyCheck where
  name : String
  passed : Bool
  detail : String
  deriving DecidableEq, Repr

namespace VerifyCheck

def pass (name detail : String) : VerifyCheck := ⟨name, true, detail⟩

def fail (name detail : String) : VerifyCheck := ⟨name, false, detail⟩

end VerifyCheck

structure VerifyReport where
  target : String
  checks : List VerifyCheck
  deriving DecidableEq, Repr

def VerifyReport.passed (r : VerifyReport) : Bool := r.checks.all (·.passed)

/-- The snapshot `scheduler::threads` (a `ThreadInfo` is a thread's id and state). -/
def threads (s : Scheduler E) : List Thread :=
  if s.initialized then s.threads.map (·.thread) else []

/-- The Running threads `verify` counts in a snapshot. -/
def runningCount (snapshot : List Thread) : Nat :=
  snapshot.countP (fun t => decide (t.state = .running))

/-- The double loop of `verify`: no later thread has the id of an earlier one. -/
def uniqueIds : List Thread → Bool
  | [] => true
  | t :: later => later.all (fun u => decide (t.id ≠ u.id)) && uniqueIds later

def verify (s : Scheduler E) : VerifyReport :=
  let snapshot := threads s
  { target := "scheduler"
    checks :=
      [ if !snapshot.isEmpty then .pass "Thread table" "thread records present"
        else .fail "Thread table" "no threads registered",
        if runningCount snapshot = 1 then .pass "Running thread" "exactly one running thread"
        else .fail "Running thread" "invalid running thread count",
        if uniqueIds snapshot then .pass "Thread ids" "all thread ids are unique"
        else .fail "Thread ids" "duplicate thread id found" ] }

/-- The step `a` runs `do_schedule`: a yield, or a preemption point with an expired quantum. -/
def Schedules (s : Scheduler E) : Step E → Prop
  | .yieldNow => True
  | .maybePreempt => s.needsReschedule = true
  | .spawn _ | .timerTick | .threadExit => False

/-- Exactly one thread is Running, and it is the current one. -/
def OnlyCurrentRuns (s : Scheduler E) : Prop :=
  runningCount (threads s) = 1 ∧ s.stateAt s.current = some .running

/-- `do_schedule` is entered on the idle thread while another thread is Ready. -/
def LeavesIdle (s : Scheduler E) (a : Step E) : Prop :=
  Schedules s a ∧ s.current = s.idle ∧ ∃ t, t ≠ s.idle ∧ s.stateAt t = some .ready

/-! ## Counting Running threads -/

/-- A count is one exactly when the hit at `i` is the only one. -/
theorem countP_eq_one_iff {α : Type} {p : α → Bool} {l : List α} {i : Nat} {x : α} (hi : l[i]? = some x)
    (hp : p x = true) : l.countP p = 1 ↔ ∀ j y, l[j]? = some y → p y = true → j = i := by
  obtain ⟨l1, l2, rfl, rfl⟩ : ∃ l1 l2, l = l1 ++ x :: l2 ∧ l1.length = i := by
    obtain ⟨hlt, rfl⟩ := List.getElem?_eq_some_iff.mp hi
    exact ⟨l.take i, l.drop (i + 1), by simp, length_take_of_le hlt.le⟩
  have hzero : (l1 ++ x :: l2).countP p = 1 ↔ (∀ y ∈ l1, ¬p y = true) ∧ ∀ y ∈ l2, ¬p y = true := by
    rw [countP_append, countP_cons_of_pos hp, ← countP_eq_zero, ← countP_eq_zero]
    omega
  rw [hzero]
  constructor
  · rintro ⟨h1, h2⟩ j y hj hy
    rcases Nat.lt_trichotomy j l1.length with hlt | rfl | hgt
    · rw [getElem?_append_left hlt] at hj
      exact absurd hy (h1 y (mem_of_getElem? hj))
    · rfl
    · rw [getElem?_append_right hgt.le, show j - l1.length = (j - l1.length - 1) + 1 by omega] at hj
      exact absurd hy (h2 y (mem_of_getElem? hj))
  · intro h
    refine ⟨fun y hy hpy => ?_, fun y hy hpy => ?_⟩
    · obtain ⟨j, hlt, rfl⟩ := mem_iff_getElem.mp hy
      have := h j _ (by rw [getElem?_append_left hlt, getElem?_eq_getElem hlt]) hpy
      omega
    · obtain ⟨j, hj⟩ := getElem?_of_mem hy
      have := h (l1.length + (j + 1)) y (by rw [getElem?_append_right (by omega), Nat.add_sub_cancel_left]; exact hj) hpy
      omega

variable {s : Scheduler E}

theorem threads_getElem (hi : s.initialized = true) (j : Nat) :
    (threads s)[j]?.map (·.state) = s.stateAt j := by
  rw [threads, if_pos hi, getElem?_map, Option.map_map]
  rfl

/-- The condition `verify` checks, index by index. -/
theorem onlyCurrentRuns_iff (hi : s.initialized = true) :
    OnlyCurrentRuns s ↔ ∀ j, s.stateAt j = some .running ↔ j = s.current := by
  have key : s.stateAt s.current = some .running →
      (runningCount (threads s) = 1 ↔ ∀ j, s.stateAt j = some .running → j = s.current) := by
    intro hc
    rw [← threads_getElem hi, Option.map_eq_some_iff] at hc
    obtain ⟨t, ht, hts⟩ := hc
    rw [runningCount, countP_eq_one_iff ht (decide_eq_true hts)]
    constructor
    · intro h j hj
      rw [← threads_getElem hi, Option.map_eq_some_iff] at hj
      obtain ⟨u, hu, hus⟩ := hj
      exact h j u hu (decide_eq_true hus)
    · intro h j u hu hus
      refine h j ?_
      rw [← threads_getElem hi, hu, Option.map_some, of_decide_eq_true hus]
  constructor
  · rintro ⟨hcount, hc⟩ j
    exact ⟨(key hc).mp hcount j, fun hj => by rw [hj]; exact hc⟩
  · intro h
    have hc : s.stateAt s.current = some .running := (h _).mpr rfl
    exact ⟨(key hc).mpr fun j hj => (h j).mp hj, hc⟩

/-! ## What a step that does not schedule can do

  Spawns, ticks, exits and preemption points within the quantum keep the CPU where it is; they only
  append to the queue and never make anybody Running. -/

variable {a : Step E}

theorem step_schedules (hi : s.initialized = true) (h : Schedules s a) : step s a = doSchedule s := by
  cases a with
  | yieldNow => rfl
  | maybePreempt =>
    show maybePreempt s = _
    rw [maybePreempt, if_pos (by rw [hi, h]; rfl)]
    rfl
  | spawn _ | timerTick | threadExit => exact h.elim

structure Quiet (s t : Scheduler E) : Prop where
  current : t.current = s.current
  idle : t.idle = s.idle
  queue : ∃ extra, t.runQueue = s.runQueue ++ extra
  running : ∀ i, t.stateAt i = some .running → s.stateAt i = some .running
  ready : s.stateAt s.current ≠ some .ready →
    ∀ i, s.stateAt i = some .ready → t.stateAt i = some .ready

theorem Quiet.same {t : Scheduler E} (hc : t.current = s.current) (hi : t.idle = s.idle)
    (hq : t.runQueue = s.runQueue) (hs : ∀ i, t.stateAt i = s.stateAt i) : Quiet s t where
  current := hc
  idle := hi
  queue := ⟨[], by rw [hq, append_nil]⟩
  running i h := by rw [← hs]; exact h
  ready _ i h := by rw [hs]; exact h

theorem step_quiet (h : ¬ Schedules s a) : Quiet s (step s a) := by
  cases a with
  | spawn e =>
    refine ⟨rfl, rfl, ⟨[s.threads.length], runQueue_spawn s e⟩, ?_, ?_⟩
    · intro i hi
      rw [show step s (.spawn e) = (spawn s e).2 from rfl, stateAt_spawn] at hi
      by_cases hl : i = s.threads.length
      · rw [if_pos hl] at hi; cases hi
      · rw [if_neg hl] at hi; exact hi
    · intro _ i hi
      show (spawn s e).2.stateAt i = _
      rw [stateAt_spawn, if_neg (by have := stateAt_lt hi; omega)]
      exact hi
  | yieldNow => exact absurd trivial h
  | maybePreempt =>
    have hf : s.needsReschedule = false := Bool.eq_false_iff.mpr h
    have hs : step s .maybePreempt = s := by
      show maybePreempt s = s
      rw [maybePreempt, if_neg (by rw [hf, Bool.and_false]; exact Bool.false_ne_true)]
    rw [hs]
    exact .same rfl rfl rfl fun _ => rfl
  | timerTick =>
    show Quiet s (onTimerTick s)
    rw [onTimerTick]
    split
    · exact .same rfl rfl rfl fun _ => rfl
    · exact .same rfl rfl rfl fun _ => rfl
  | threadExit =>
    show Quiet s (threadExit s)
    rw [threadExit]
    split
    · exact .same rfl rfl rfl fun _ => rfl
    · refine ⟨rfl, rfl, ⟨[], (append_nil _).symm⟩, ?_, ?_⟩
      · intro i hi
        by_cases hic : s.current = i
        · -- the exited thread is Dead
          rw [stateAt_setState, if_pos hic] at hi
          cases hst : s.stateAt i <;> rw [hst] at hi <;> cases hi
        · rw [stateAt_setState_ne s _ hic] at hi; exact hi
      · intro hcur i hi
        rw [stateAt_setState_ne s _ (by rintro rfl; exact hcur hi)]
        exact hi

/-! ## One `do_schedule` -/

/-- The chosen thread is idle exactly when no other thread is Ready. -/
theorem Inv.chosen_eq_idle_iff (h : Inv s) :
    chosen s = s.idle ↔ ∀ t, t ≠ s.idle → s.stateAt t ≠ some .ready := by
  rcases h.pick_cases with ⟨hi, _, hall⟩ | ⟨hne, hp⟩
  · refine ⟨fun _ t hne ht => hne (hall t (h.ready_queued t ht hne)), fun _ => hi⟩
  · refine ⟨fun hc => absurd hc hne, fun hno => absurd ?_ (hno _ hne)⟩
    exact h.queue_ready _ (hp.subset (mem_cons_self ..))

/-- Nobody but the current thread is Running. -/
def Lone (s : Scheduler E) : Prop := ∀ j, s.stateAt j = some .running → j = s.current

theorem Inv.idle_running (h : Inv s) (hc : s.current = s.idle) : s.stateAt s.idle = some .running := by
  rcases h.idle_alive with ha | ha
  · rw [← hc] at ha
    rcases h.current_state with hr | hr <;> rw [ha] at hr <;> cases hr
  · exact ha

/-- The thread that has the CPU after `do_schedule` is Running. -/
theorem Inv.current_doSchedule (h : Inv s) :
    (doSchedule s).current = chosen s ∧ (doSchedule s).stateAt (chosen s) = some .running := by
  by_cases hstay : s.current = chosen s
  · have hidle := (h.stay_idle hstay).1
    rw [doSchedule_stay h.initialized hstay]
    refine ⟨hstay, ?_⟩
    rw [← hstay, hidle]
    exact h.idle_running hidle
  · obtain ⟨_, _, hcur, _, hst⟩ := doSchedule_switch h.initialized hstay
    refine ⟨hcur, ?_⟩
    rw [hst, if_pos rfl]
    rcases h.chosen_state with hc | hc <;> rw [hc] <;> rfl

/-- A switch takes Running away from the outgoing thread, idle apart. -/
theorem Lone.doSchedule (h : Inv s) (hl : Lone s) (hidle : s.current = s.idle → chosen s = s.idle) :
    Lone (doSchedule s) := by
  intro j hj
  rw [h.current_doSchedule.1]
  by_cases hstay : s.current = chosen s
  · rw [doSchedule_stay h.initialized hstay] at hj
    exact (hl j hj).trans hstay
  · obtain ⟨_, _, _, _, hst⟩ := doSchedule_switch h.initialized hstay
    rw [hst] at hj
    by_cases hjc : j = chosen s
    · exact hjc
    · exfalso
      rw [if_neg hjc] at hj
      by_cases hout : j = s.current ∧ s.stateAt s.current = some .running ∧ s.current ≠ s.idle
      · rw [if_pos hout] at hj; cases hj
      · rw [if_neg hout] at hj
        have hjcur := hl j hj
        refine hout ⟨hjcur, by rw [← hjcur]; exact hj, fun hci => hstay ?_⟩
        rw [hidle hci, hci]

/-- Leaving idle for another thread leaves idle Running behind. -/
theorem Inv.idle_left_running (h : Inv s) (hc : s.current = s.idle) (hne : chosen s ≠ s.idle) :
    (doSchedule s).stateAt s.idle = some .running := by
  have hstay : s.current ≠ chosen s := by rw [hc]; exact hne.symm
  obtain ⟨_, _, _, _, hst⟩ := doSchedule_switch h.initialized hstay
  rw [hst, if_neg hne.symm, if_neg (fun hh => hh.2.2 hc)]
  exact h.idle_running hc

/-- After one `do_schedule` the current thread runs alone exactly when idle was not left. -/
theorem onlyCurrentRuns_doSchedule_iff (h : Inv s) (hl : Lone s) :
    OnlyCurrentRuns (doSchedule s) ↔ (s.current = s.idle → chosen s = s.idle) := by
  obtain ⟨hcur, hrun⟩ := h.current_doSchedule
  rw [onlyCurrentRuns_iff (inv_doSchedule h).initialized, hcur]
  constructor
  · intro honly hc
    by_contra hne
    exact hne ((honly s.idle).mp (h.idle_left_running hc hne)).symm
  · intro hidle j
    refine ⟨fun hj => ?_, fun hj => by rw [hj]; exact hrun⟩
    rw [← hcur]
    exact hl.doSchedule h hidle j hj

theorem lone_init (b i : E) : Lone (init b i) := by
  intro j hj
  match j, hj with
  | 0, _ => rfl
  | 1, hj => exact absurd ((show (init b i).stateAt 1 = some .ready from rfl).symm.trans hj) (by decide)
  | j + 2, hj => exact absurd (stateAt_lt hj) (by simp [init, spawnInternal, allocId, Scheduler.new])

/-! ## Along every run -/

theorem not_leavesIdle_iff (h : Inv s) (ha : Schedules s a) :
    ¬ LeavesIdle s a ↔ (s.current = s.idle → chosen s = s.idle) := by
  rw [h.chosen_eq_idle_iff]
  constructor
  · intro hn hc t hne ht
    exact hn ⟨ha, hc, t, hne, ht⟩
  · rintro hall ⟨-, hc, t, hne, ht⟩
    exact hall hc t hne ht

theorem onlyCurrentRuns_step_iff (h : Inv s) (hl : Lone s) (ha : Schedules s a) :
    OnlyCurrentRuns (step s a) ↔ ¬ LeavesIdle s a := by
  rw [not_leavesIdle_iff h ha, step_schedules h.initialized ha]
  exact onlyCurrentRuns_doSchedule_iff h hl

/-- A step that does not leave idle makes nobody Running but the current thread. -/
theorem Lone.step (h : Inv s) (hl : Lone s) (hn : ¬ LeavesIdle s a) : Lone (step s a) := by
  by_cases ha : Schedules s a
  · rw [step_schedules h.initialized ha]
    exact hl.doSchedule h ((not_leavesIdle_iff h ha).mp hn)
  · intro j hj
    have hq := step_quiet ha
    rw [hq.current]
    exact hl j (hq.running j hj)

/-- **Exactly one Running thread.**  Along every run from `init`, the states right after a
    `do_schedule` all have the current thread as their only Running one if and only if no
    `do_schedule` of the run is entered on idle with another thread Ready. -/
theorem one_running_iff_never_leaves_idle (b i : E) (steps : List (Step E)) :
    Run.Along step (fun s a => Schedules s a → OnlyCurrentRuns (step s a)) (init b i) steps ↔
    Run.Along step (fun s a => ¬ LeavesIdle s a) (init b i) steps := by
  refine Run.along_iff_along (I := fun s => Inv s ∧ Lone s) ?_ ?_ ⟨inv_init b i, lone_init b i⟩ steps
  · rintro s a ⟨h, hl⟩
    by_cases ha : Schedules s a
    · rw [← onlyCurrentRuns_step_iff h hl ha]
      exact ⟨fun hh => hh ha, fun hh _ => hh⟩
    · exact ⟨fun _ hh => ha hh.1, fun _ hh => absurd hh ha⟩
  · rintro s a ⟨h, hl⟩ hn
    exact ⟨inv_step h a, hl.step h hn⟩

/-- A thread is spawned, runs, hands the CPU back and forth and exits: idle is never entered. -/
theorem one_running_spawn_exit :
    Run.Along step (fun s a => ¬ LeavesIdle s a) (init () ())
      [.spawn (), .yieldNow, .yieldNow, .yieldNow, .threadExit, .yieldNow] ∧
    Run.Along step (fun s a => Schedules s a → OnlyCurrentRuns (step s a)) (init () ())
      [.spawn (), .yieldNow, .yieldNow, .yieldNow, .threadExit, .yieldNow] := by
  have hgood : Run.Along step (fun s a => ¬ LeavesIdle s a) (init () ())
      [.spawn (), .yieldNow, .yieldNow, .yieldNow, .threadExit, .yieldNow] :=
    ⟨fun h => h.1, fun h => absurd h.2.1 (by decide), fun h => absurd h.2.1 (by decide),
      fun h => absurd h.2.1 (by decide), fun h => h.1, fun h => absurd h.2.1 (by decide), trivial⟩
  exact ⟨hgood, (one_running_iff_never_leaves_idle () () _).mpr hgood⟩

/-- Two yields are enough: the first hands the CPU to idle, the second leaves idle for the
    bootstrap thread, and both are Running. -/
theorem two_running_after_leaving_idle :
    (run (init () ()) [.yieldNow]).current = (run (init () ()) [.yieldNow]).idle ∧
    runningCount (threads (run (init () ()) [.yieldNow, .yieldNow])) = 2 ∧
    ¬ Run.Along step (fun s a => Schedules s a → OnlyCurrentRuns (step s a)) (init () ())
        [.yieldNow, .yieldNow] := by
  refine ⟨by decide, by decide, fun h => ?_⟩
  exact absurd (h.2.1 trivial).1 (by decide)

/-! ## What `verify` reports -/

theorem uniqueIds_iff : ∀ l : List Thread, uniqueIds l = true ↔ (l.map (·.id)).Nodup
  | [] => by simp [uniqueIds]
  | t :: l => by
      rw [uniqueIds, Bool.and_eq_true, uniqueIds_iff l, map_cons, nodup_cons]
      refine and_congr_left fun _ => ?_
      rw [List.all_eq_true, List.mem_map]
      constructor
      · rintro h ⟨u, hu, hid⟩
        exact of_decide_eq_true (h u hu) hid.symm
      · intro h u hu
        exact decide_eq_true fun hid => h ⟨u, hu, hid.symm⟩

theorem verify_passed_iff (s : Scheduler E) : (verify s).passed = true ↔
    threads s ≠ [] ∧ runningCount (threads s) = 1 ∧ ((threads s).map (·.id)).Nodup := by
  rw [← uniqueIds_iff]
  simp only [verify, VerifyReport.passed, all_cons, Bool.and_eq_true]
  refine and_congr ?_ (and_congr ?_ ?_)
  · cases threads s <;> simp [VerifyCheck.pass, VerifyCheck.fail]
  · split <;> simp_all [VerifyCheck.pass, VerifyCheck.fail]
  · split <;> simp_all [VerifyCheck.pass, VerifyCheck.fail]

/-- `verify` passes right after a `do_schedule`, in the runs that never leave idle and do not wrap
    the id counter. -/
theorem verify_passed_after_schedule (b i : E) (steps : List (Step E)) (a : Step E)
    (hspawns : spawns steps < 2 ^ 64 - 1)
    (hrun : Run.Along step (fun s a => ¬ LeavesIdle s a) (init b i) (steps ++ [a]))
    (ha : Schedules (run (init b i) steps) a) :
    (verify (step (run (init b i) steps) a)).passed = true := by
  obtain ⟨hbefore, hlast, -⟩ := (Run.along_append _ _ _).mp hrun
  obtain ⟨hinv, hlone⟩ : Inv (run (init b i) steps) ∧ Lone (run (init b i) steps) :=
    Run.foldl_inv_along (I := fun s => Inv s ∧ Lone s)
      (fun _ a h hn => ⟨inv_step h.1 a, h.2.step h.1 hn⟩) ⟨inv_init b i, lone_init b i⟩ hbefore
  have honly := (onlyCurrentRuns_step_iff hinv hlone ha).mpr hlast
  have hth : threads (step (run (init b i) steps) a)
      = (step (run (init b i) steps) a).threads.map (·.thread) :=
    if_pos (inv_step hinv a).initialized
  rw [verify_passed_iff]
  refine ⟨?_, honly.1, ?_⟩
  · intro hnil
    have hcount := honly.1
    rw [hnil] at hcount
    cases hcount
  · rw [hth, List.map_map]
    show (ids (step (run (init b i) steps) a)).Nodup
    rw [step_schedules hinv.initialized ha, (ids_doSchedule _).1]
    exact ids_nodup_run b i steps hspawns

/-- The bootstrap thread hands the CPU to a spawned one. -/
theorem verify_passed_spawn_yield : (verify (run (init () ()) [.spawn (), .yieldNow])).passed = true :=
  verify_passed_after_schedule () () [.spawn ()] .yieldNow (by decide)
    ⟨fun h => h.1, fun h => absurd h.2.1 (by decide), trivial⟩ trivial

end Saios.Sched
