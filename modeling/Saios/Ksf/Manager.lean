/-
  The kernel SERVICE FRAMEWORK (`seed/saios/src/ksf.rs`): services with dependency lists, started in
  dependency order by repeated passes over the service table.

  1. **Program** — `ServiceManager` and its operations under the source's names.  A callback is
     whatever its service makes of it: `initOutcome` and `startOutcome` are functions from the number
     of the call to what it returns, so that every sequence of outcomes is one of them.  The manager's log
     `calls` is not in the source: it records every callback together with the states it was made
     in, which is what claims about the ORDER of callbacks are about.  Console output and the boot
     timeline are left out; nothing reads them back.

  2. **Well-formed by construction** — the two tables of the source have one length, and `register`
     refuses an id that is taken.  Both are fields of `ServiceManager`.

  3. **One spec for `start_at`** (`startAt_cases`) — between calls a service is Registered, Running,
     Stopped or Failed (`Settled`); from there `start_at` refuses, has nothing to do, or makes the
     callbacks and ends in Running or Failed.  Everything later is argued from this lemma.

  4. **Termination** (`startAllLoop_enough`) — the `while` loop of `start_all` has fuel here; a pass
     that reports progress makes one more service Running, so one pass more than there are services
     is enough from any settled state.
-/
import Mathlib.Data.List.Nodup
import Mathlib.Data.List.Count
import Mathlib.Data.BitVec
import Saios.Lib.Run
import Saios.Storage.Device

namespace Saios.Ksf

open List Option

open Storage (eqIgnoreAsciiCase)

/-- `ServiceId(pub u16)`. -/
abbrev ServiceId := BitVec 16

/-- Lifecycle state of a service. -/
inductive ServiceState
  | registered | initializing | ready | running | paused | stopping | stopped | failed
  deriving DecidableEq, Repr

/-- The lifecycle callbacks of the trait `KernelService`. -/
inductive Callback
  | init | start | stop
  deriving DecidableEq, Repr

/-- A service: what it declares, and what the `n`-th call of a callback returns. -/
structure KernelService where
  id : ServiceId
  name : Str
  dependencies : List ServiceId
  initOutcome : ℕ → Except String Unit
  startOutcome : ℕ → Except String Unit

/-- A callback of the service at `index`, and the states it was made in. -/
structure Call where
  callback : Callback
  index : ℕ
  states : List ServiceState

/-- `index_of`: the position of the service with `id`. -/
def indexOf (services : List KernelService) (id : ServiceId) : Option ℕ :=
  services.findIdx? (fun s => decide (s.id = id))

structure ServiceManager where
  services : List KernelService
  states : List ServiceState
  calls : List Call
  lengths : states.length = services.length
  distinct : (services.map (·.id)).Nodup

namespace ServiceManager

def new : ServiceManager := ⟨[], [], [], rfl, List.nodup_nil⟩

theorem distinct_append {services : List KernelService} {service : KernelService}
    (hd : (services.map (·.id)).Nodup) (hnew : indexOf services service.id = none) :
    ((services ++ [service]).map (·.id)).Nodup := by
  rw [map_append]
  refine hd.append (nodup_singleton _) ?_
  intro id hid hid'
  obtain ⟨s, hs, rfl⟩ := List.mem_map.mp hid
  have hne := findIdx?_eq_none_iff.mp hnew s hs
  exact of_decide_eq_false hne (mem_singleton.mp hid')

/-- Registers a service unless its id is taken. -/
def register (m : ServiceManager) (service : KernelService) : ServiceManager :=
  if h : indexOf m.services service.id = none then
    { m with
      services := m.services ++ [service]
      states := m.states ++ [.registered]
      lengths := by rw [List.length_append, List.length_append, m.lengths]; rfl
      distinct := distinct_append m.distinct h }
  else m

/-- `states[idx] = st`. -/
def setState (m : ServiceManager) (idx : ℕ) (st : ServiceState) : ServiceManager :=
  { m with states := m.states.set idx st, lengths := by rw [List.length_set, m.lengths] }

/-- How often a callback of the service at `idx` has been made. -/
def invoked (m : ServiceManager) (callback : Callback) (idx : ℕ) : ℕ :=
  m.calls.countP (fun c => decide (c.callback = callback ∧ c.index = idx))

/-- A callback of the service at `idx` is made now. -/
def invoke (m : ServiceManager) (callback : Callback) (idx : ℕ) : ServiceManager :=
  { m with calls := m.calls ++ [⟨callback, idx, m.states⟩] }

/-- Is the dependency `dep` registered and Running or Ready? -/
def depReady (m : ServiceManager) (dep : ServiceId) : Bool :=
  match (indexOf m.services dep).bind (fun depIdx => m.states[depIdx]?) with
  | some state => decide (state = .running) || decide (state = .ready)
  | none => false

def depsReadyToStart (m : ServiceManager) (idx : ℕ) : Bool :=
  match m.services[idx]? with
  | some service => service.dependencies.all m.depReady
  | none => false

/-- `init_at`; `none` for the service or its state is the source's out-of-bounds panic. -/
def initAt (m : ServiceManager) (idx : ℕ) : Except String Unit × ServiceManager :=
  match m.services[idx]?, m.states[idx]? with
  | some service, some state =>
    match state with
    | .registered | .stopped =>
      let m := m.setState idx .initializing
      let outcome := service.initOutcome (m.invoked .init idx)
      let m := m.invoke .init idx
      match outcome with
      | .ok () => (.ok (), m.setState idx .ready)
      | .error e => (.error e, m.setState idx .failed)
    | .ready | .running => (.ok (), m)
    | .initializing | .stopping | .paused => (.error "service busy", m)
    | .failed => (.error "service failed", m)
  | _, _ => (.error "index out of bounds", m)

def startAt (m : ServiceManager) (idx : ℕ) : Except String Unit × ServiceManager :=
  if m.depsReadyToStart idx = false then (.error "dependencies not ready", m)
  else if m.states[idx]? = some .running then (.ok (), m)
  else
    match m.initAt idx with
    | (.error e, m) => (.error e, m)
    | (.ok (), m) =>
      match m.services[idx]? with
      | some service =>
        let outcome := service.startOutcome (m.invoked .start idx)
        let m := m.invoke .start idx
        match outcome with
        | .ok () => (.ok (), m.setState idx .running)
        | .error e => (.error e, m.setState idx .failed)
      | none => (.error "index out of bounds", m)

/-- The body of the `for` loop of `start_all`, with its flag `progressed`. -/
def passStep (acc : Bool × ServiceManager) (idx : ℕ) : Bool × ServiceManager :=
  let (progressed, m) := acc
  if m.states[idx]? = some .running then (progressed, m)
  else if m.depsReadyToStart idx then
    match m.startAt idx with
    | (.ok (), m) => (true, m)
    | (.error _, m) => (progressed, m)
  else (progressed, m)

def pass (m : ServiceManager) : Bool × ServiceManager :=
  (List.range m.services.length).foldl passStep (false, m)

/-- Every service is Running or Failed. -/
def allDone (m : ServiceManager) : Bool :=
  m.states.all (fun s => decide (s = .running) || decide (s = .failed))

/-- The `while progressed` loop; `none` when the fuel runs out. -/
def startAllLoop : ℕ → ServiceManager → Option ServiceManager
  | 0, _ => none
  | fuel + 1, m =>
      let (progressed, m) := m.pass
      if m.allDone then some m
      else if progressed then startAllLoop fuel m
      else some m

/-- The verdict of `start_all` on the states its loop ends in. -/
def verdict (m : ServiceManager) : Except String Unit :=
  if m.states.any (fun s => decide (s ≠ .running)) then
    .error "one or more services failed to start"
  else .ok ()

/-- `start_all`, with the fuel that `startAllLoop_enough` shows to be enough. -/
def startAll (m : ServiceManager) : Except String Unit × ServiceManager :=
  let m := (startAllLoop (m.services.length + 1) m).getD m
  (m.verdict, m)

/-- The first service with this name, upper and lower case taken as one. -/
def positionByName (m : ServiceManager) (name : Str) : Option ℕ :=
  m.services.findIdx? (fun s => eqIgnoreAsciiCase s.name name)

def startByName (m : ServiceManager) (name : Str) : Except String Unit × ServiceManager :=
  match m.positionByName name with
  | some idx => m.startAt idx
  | none => (.error "service not found", m)

def stopByName (m : ServiceManager) (name : Str) : Except String Unit × ServiceManager :=
  match m.positionByName name with
  | some idx =>
    let m := m.setState idx .stopping
    let m := m.invoke .stop idx
    (.ok (), m.setState idx .stopped)
  | none => (.error "service not found", m)

def restartByName (m : ServiceManager) (name : Str) : Except String Unit × ServiceManager :=
  match m.stopByName name with
  | (.ok (), m) => m.startByName name
  | (.error e, m) => (.error e, m)

end ServiceManager

/-- A manager with these services registered in this order, and nothing started. -/
def registerAll (services : List KernelService) : ServiceManager :=
  services.foldl ServiceManager.register .new

/-! ## Ids and Running services -/

/-- The service `id` is registered and Running, in these tables. -/
def RunningIn (services : List KernelService) (states : List ServiceState) (id : ServiceId) : Prop :=
  ∃ (j : ℕ) (service : KernelService),
    services[j]? = some service ∧ service.id = id ∧ states[j]? = some .running

variable {st : ServiceState}

namespace ServiceManager

variable {m : ServiceManager} {idx : ℕ} {service : KernelService}

def Running (m : ServiceManager) (id : ServiceId) : Prop := RunningIn m.services m.states id

/-- One id, one place. -/
theorem index_unique (m : ServiceManager) {i j : ℕ} {s t : KernelService}
    (hi : m.services[i]? = some s) (hj : m.services[j]? = some t) (hid : s.id = t.id) : i = j := by
  have hlt : i < (m.services.map (·.id)).length := by
    rw [length_map]
    exact (List.getElem?_eq_some_iff.mp hi).1
  refine (getElem?_inj hlt m.distinct).mp ?_
  rw [getElem?_map, getElem?_map, hi, hj, map_some, map_some, hid]

theorem indexOf_iff (m : ServiceManager) {id : ServiceId} {j : ℕ} :
    indexOf m.services id = some j ↔ ∃ s, m.services[j]? = some s ∧ s.id = id := by
  rw [indexOf, findIdx?_eq_some_iff_getElem]
  constructor
  · rintro ⟨hj, hid, -⟩
    exact ⟨m.services[j], getElem?_eq_getElem hj, of_decide_eq_true hid⟩
  · rintro ⟨s, hs, hid⟩
    obtain ⟨hj, rfl⟩ := List.getElem?_eq_some_iff.mp hs
    refine ⟨hj, decide_eq_true hid, fun i hi hp => ?_⟩
    have := m.index_unique (getElem?_eq_getElem (by omega)) hs
      ((of_decide_eq_true hp).trans hid.symm)
    omega

/-- What a state between two calls looks like: nothing is under way. -/
def Settled (m : ServiceManager) : Prop :=
  ∀ st ∈ m.states, st = .registered ∨ st = .running ∨ st = .stopped ∨ st = .failed

theorem Settled.cases (hm : m.Settled) (hs : m.states[idx]? = some st) :
    st = .registered ∨ st = .running ∨ st = .stopped ∨ st = .failed :=
  hm st (mem_of_getElem? hs)

theorem depReady_iff (hm : m.Settled) (dep : ServiceId) :
    m.depReady dep = true ↔ m.Running dep := by
  rw [depReady]
  constructor
  · intro h
    cases hi : indexOf m.services dep with
    | none => rw [hi] at h; cases h
    | some j =>
      rw [hi] at h
      obtain ⟨s, hs, hid⟩ := m.indexOf_iff.mp hi
      cases hst : m.states[j]? with
      | none => rw [bind_some, hst] at h; cases h
      | some st =>
        rw [bind_some, hst] at h
        refine ⟨j, s, hs, hid, ?_⟩
        rcases hm.cases hst with rfl | rfl | rfl | rfl
        · cases h
        · exact hst
        · cases h
        · cases h
  · rintro ⟨j, s, hs, hid, hst⟩
    rw [m.indexOf_iff.mpr ⟨s, hs, hid⟩, bind_some, hst]
    rfl

theorem depsReadyToStart_iff (hm : m.Settled) (hs : m.services[idx]? = some service) :
    m.depsReadyToStart idx = true ↔ ∀ d ∈ service.dependencies, m.Running d := by
  rw [depsReadyToStart, hs]
  rw [List.all_eq_true]
  exact forall_congr' fun d => imp_congr_right fun _ => depReady_iff hm d

theorem lt_states (hs : m.services[idx]? = some service) : idx < m.states.length := by
  rw [m.lengths]
  exact (List.getElem?_eq_some_iff.mp hs).1

theorem state_of_service (hs : m.services[idx]? = some service) : ∃ st, m.states[idx]? = some st :=
  ⟨_, getElem?_eq_getElem (lt_states hs)⟩

/-! ## Everything `start_at` can do -/

/-- The log entries of a start attempt: what the two callbacks see. -/
def initCall (m : ServiceManager) (idx : ℕ) : Call := ⟨.init, idx, m.states.set idx .initializing⟩
def startCall (m : ServiceManager) (idx : ℕ) : Call := ⟨.start, idx, m.states.set idx .ready⟩

/-- The service at `idx` ends in `st` after the callbacks `made`. -/
def record (m : ServiceManager) (idx : ℕ) (st : ServiceState) (made : List Call) : ServiceManager :=
  { m with states := m.states.set idx st, calls := m.calls ++ made,
           lengths := by rw [List.length_set, m.lengths] }

/-- The callbacks of a start attempt, and the state they lead to. -/
inductive Attempt (m : ServiceManager) (idx : ℕ) (service : KernelService) :
    ServiceState → List Call → Prop
  | initFails (e : String) (hinit : service.initOutcome (m.invoked .init idx) = .error e) :
      Attempt m idx service .failed [m.initCall idx]
  | startFails (e : String) (hinit : service.initOutcome (m.invoked .init idx) = .ok ())
      (hstart : service.startOutcome (m.invoked .start idx) = .error e) :
      Attempt m idx service .failed [m.initCall idx, m.startCall idx]
  | starts (hinit : service.initOutcome (m.invoked .init idx) = .ok ())
      (hstart : service.startOutcome (m.invoked .start idx) = .ok ()) :
      Attempt m idx service .running [m.initCall idx, m.startCall idx]

/-- From these states `start_at` makes the callbacks. -/
def Startable (m : ServiceManager) (idx : ℕ) : Prop :=
  m.states[idx]? = some .registered ∨ m.states[idx]? = some .stopped

theorem initAt_eq (hs : m.services[idx]? = some service) (hst : m.Startable idx) :
    m.initAt idx = match service.initOutcome (m.invoked .init idx) with
      | .ok _ => (.ok (), m.record idx .ready [m.initCall idx])
      | .error e => (.error e, m.record idx .failed [m.initCall idx]) := by
  have hcount : (m.setState idx .initializing).invoked .init idx = m.invoked .init idx := rfl
  rcases hst with hst | hst
  all_goals
    simp only [initAt, hs, hst, hcount]
    cases service.initOutcome (m.invoked .init idx) <;>
      simp only [setState, invoke, record, initCall, set_set]

/-- The other callback does not count. -/
theorem invoked_start_initCall (st : ServiceState) :
    (m.record idx st [m.initCall idx]).invoked .start idx = m.invoked .start idx := by
  simp [invoked, record, initCall]

/-- **Everything `start_at` can do** from a settled state: refuse, have nothing to do, or make the
    callbacks and end in Running or Failed. -/
theorem startAt_cases (hm : m.Settled) (hs : m.services[idx]? = some service) :
    (∃ e, m.startAt idx = (.error e, m) ∧
      (m.depsReadyToStart idx = false ∨ m.states[idx]? = some .failed)) ∨
    (m.startAt idx = (.ok (), m) ∧ m.states[idx]? = some .running) ∨
    (m.depsReadyToStart idx = true ∧ m.Startable idx ∧ ∃ reply st made,
      m.startAt idx = (reply, m.record idx st made) ∧ Attempt m idx service st made ∧
      (reply = .ok () ↔ st = .running)) := by
  by_cases hdeps : m.depsReadyToStart idx = false
  · exact .inl ⟨_, by rw [startAt, if_pos hdeps], Or.inl hdeps⟩
  obtain ⟨st, hst⟩ := m.state_of_service hs
  by_cases hrun : m.states[idx]? = some .running
  · exact .inr (.inl ⟨by rw [startAt, if_neg hdeps, if_pos hrun], hrun⟩)
  by_cases hfail : m.states[idx]? = some .failed
  · refine .inl ⟨"service failed", ?_, Or.inr hfail⟩
    have hinit : m.initAt idx = (.error "service failed", m) := by rw [initAt, hs, hfail]
    rw [startAt, if_neg hdeps, if_neg hrun, hinit]
  · have hstart : m.Startable idx := by
      rcases hm.cases hst with rfl | rfl | rfl | rfl
      · exact .inl hst
      · exact absurd hst hrun
      · exact .inr hst
      · exact absurd hst hfail
    refine .inr (.inr ⟨Bool.of_not_eq_false hdeps, hstart, ?_⟩)
    rw [startAt, if_neg hdeps, if_neg hrun, initAt_eq hs hstart]
    cases hinit : service.initOutcome (m.invoked .init idx) with
    | error e => exact ⟨.error e, .failed, _, rfl, .initFails e hinit, by simp⟩
    | ok =>
      have hservice : (m.record idx .ready [m.initCall idx]).services[idx]? = some service := hs
      simp only [hservice, invoked_start_initCall]
      cases hgo : service.startOutcome (m.invoked .start idx) with
      | error e =>
        refine ⟨.error e, .failed, _, ?_, .startFails e hinit hgo, by simp⟩
        simp only [setState, invoke, record, startCall, set_set, append_assoc, singleton_append]
      | ok =>
        refine ⟨.ok (), .running, _, ?_, .starts hinit hgo, by simp⟩
        simp only [setState, invoke, record, startCall, set_set, append_assoc, singleton_append]

theorem Attempt.state {made : List Call} (h : Attempt m idx service st made) :
    st = .running ∨ st = .failed := by
  cases h with
  | initFails | startFails => exact .inr rfl
  | starts => exact .inl rfl

theorem getElem?_record (st : ServiceState) (made : List Call) (hs : m.services[idx]? = some service)
    (j : ℕ) : (m.record idx st made).states[j]? = if idx = j then some st else m.states[j]? := by
  show (m.states.set idx st)[j]? = _
  rw [getElem?_set, if_pos (lt_states hs)]

/-- A start attempt leaves a settled state. -/
theorem Settled.record (hm : m.Settled) (hst : st = .running ∨ st = .failed) (made : List Call) :
    (m.record idx st made).Settled := by
  intro st' hst'
  rcases mem_or_eq_of_mem_set hst' with h | rfl
  · exact hm st' h
  · rcases hst with rfl | rfl
    · exact .inr (.inl rfl)
    · exact .inr (.inr (.inr rfl))

theorem Startable.not_running (h : m.Startable idx) : m.states[idx]? ≠ some .running := by
  rcases h with h | h <;> rw [h] <;> decide

/-! ## A pass over the table -/

/-- Everything one round of the `for` loop can do. -/
theorem passStep_cases (p : Bool) (hm : m.Settled) (hs : m.services[idx]? = some service) :
    (passStep (p, m) idx = (p, m) ∧ (m.states[idx]? = some .running ∨
      m.depsReadyToStart idx = false ∨ m.states[idx]? = some .failed)) ∨
    (m.depsReadyToStart idx = true ∧ m.Startable idx ∧ ∃ st made,
      passStep (p, m) idx = (p || decide (st = .running), m.record idx st made) ∧
      Attempt m idx service st made) := by
  by_cases hrun : m.states[idx]? = some .running
  · exact .inl ⟨if_pos hrun, Or.inl hrun⟩
  by_cases hdeps : m.depsReadyToStart idx = true
  · have hstep : passStep (p, m) idx = match m.startAt idx with
        | (.ok (), m) => (true, m)
        | (.error _, m) => (p, m) :=
      (if_neg hrun).trans (if_pos hdeps)
    rcases startAt_cases hm hs with ⟨e, heq, hwhy⟩ | ⟨-, hr⟩ | ⟨-, hst, reply, st, made, heq, hatt, hok⟩
    · refine .inl ⟨by rw [hstep, heq], ?_⟩
      rcases hwhy with hf | hf
      · rw [hdeps] at hf; cases hf
      · exact .inr (.inr hf)
    · exact absurd hr hrun
    · refine .inr ⟨hdeps, hst, st, made, ?_, hatt⟩
      rw [hstep, heq]
      cases reply with
      | ok => rw [decide_eq_true (hok.mp rfl), Bool.or_true]
      | error e =>
        rw [decide_eq_false (fun h => by cases hok.mpr h), Bool.or_false]
  · refine .inl ⟨(if_neg hrun).trans (if_neg hdeps), Or.inr (.inl ?_)⟩
    exact Bool.eq_false_iff.mpr hdeps

/-- **The pass rule.**  What holds before the pass, and is carried from the first `n` services to the
    next one, holds after it. -/
theorem pass_rule {I : ℕ → Bool × ServiceManager → Prop} (h0 : I 0 (false, m))
    (hstep : ∀ n acc service, m.services[n]? = some service → I n acc → I (n + 1) (passStep acc n)) :
    I m.services.length m.pass := by
  have hall : ∀ n, n ≤ m.services.length → I n ((range n).foldl passStep (false, m)) := by
    intro n hn
    induction n with
    | zero => exact h0
    | succ n ih =>
      rw [range_succ, foldl_append]
      exact hstep n _ m.services[n] (getElem?_eq_getElem (by omega)) (ih (by omega))
  exact hall _ (Nat.le_refl _)

def runningCount (m : ServiceManager) : ℕ := m.states.countP (fun s => decide (s = .running))

theorem runningCount_record (made : List Call) (hs : m.services[idx]? = some service)
    (hnot : m.states[idx]? ≠ some .running) :
    (m.record idx st made).runningCount = m.runningCount + if st = .running then 1 else 0 := by
  have hlt := lt_states hs
  have hidx : decide (m.states[idx] = ServiceState.running) = false := by
    refine decide_eq_false fun h => hnot ?_
    rw [getElem?_eq_getElem hlt, h]
  show (m.states.set idx st).countP _ = m.states.countP _ + _
  rw [countP_set hlt, hidx]
  by_cases hst : st = .running <;> simp [hst]

theorem runningCount_le (m : ServiceManager) : m.runningCount ≤ m.services.length := by
  rw [← m.lengths]
  exact countP_le_length

/-- A pass keeps the services and the settled state, stops nobody, and makes a service Running if it
    reports progress. -/
theorem pass_progress (hm : m.Settled) : m.pass.2.services = m.services ∧ m.pass.2.Settled ∧
    m.runningCount + (if m.pass.1 then 1 else 0) ≤ m.pass.2.runningCount := by
  refine pass_rule (I := fun _ acc => acc.2.services = m.services ∧ acc.2.Settled ∧
    m.runningCount + (if acc.1 then 1 else 0) ≤ acc.2.runningCount)
    ⟨rfl, hm, Nat.le_refl _⟩ ?_
  rintro n ⟨p, a⟩ service hs ⟨hserv, hset, hcount⟩
  have hs' : a.services[n]? = some service := by rw [hserv]; exact hs
  rcases passStep_cases p hset hs' with ⟨heq, -⟩ | ⟨-, hst, st, made, heq, hatt⟩
  · rw [heq]
    exact ⟨hserv, hset, hcount⟩
  · rw [heq]
    refine ⟨hserv, hset.record hatt.state made, ?_⟩
    rw [runningCount_record made hs' hst.not_running]
    cases p <;> by_cases hr : st = .running <;> simp [hr] at hcount ⊢ <;> omega

/-! ## The loop of `start_all` -/

/-- The loop ends, as every pass but the last makes a service Running, and more fuel changes nothing.  What every pass
    preserves holds before the last one, which ends with every service Running or Failed, or has made no progress. -/
theorem startAllLoop_last {I : ServiceManager → Prop} (hset : ∀ m, I m → m.Settled)
    (hpass : ∀ m, I m → I m.pass.2) (fuel : ℕ) : ∀ {m : ServiceManager}, I m →
      m.services.length < fuel + m.runningCount →
      ∃ m0, I m0 ∧ (m0.pass.2.allDone = true ∨ m0.pass.1 = false) ∧
        ∀ k, startAllLoop (fuel + k) m = some m0.pass.2 := by
  induction fuel with
  | zero =>
    intro m _ h
    have := m.runningCount_le
    omega
  | succ fuel ih =>
    intro m hI h
    obtain ⟨hserv, -, hcount⟩ := pass_progress (hset m hI)
    have hround : ∀ k, startAllLoop (fuel + 1 + k) m = if m.pass.2.allDone then some m.pass.2
        else if m.pass.1 then startAllLoop (fuel + k) m.pass.2 else some m.pass.2 := by
      intro k
      rw [Nat.add_right_comm]
      rfl
    by_cases hdone : m.pass.2.allDone = true
    · exact ⟨m, hI, .inl hdone, fun k => (hround k).trans (if_pos hdone)⟩
    by_cases hp : m.pass.1 = true
    · rw [if_pos hp] at hcount
      obtain ⟨m0, h0, hexit, hloop⟩ := ih (hpass m hI) (by rw [hserv]; omega)
      exact ⟨m0, h0, hexit, fun k => by rw [hround, if_neg hdone, if_pos hp, hloop]⟩
    · exact ⟨m, hI, .inr (Bool.eq_false_iff.mpr hp), fun k => by rw [hround, if_neg hdone, if_neg hp]⟩

/-- **`start_all` terminates** from every settled state, within one pass more than there are
    services. -/
theorem startAllLoop_enough (hm : m.Settled) {fuel : ℕ} (hf : m.services.length < fuel) :
    startAllLoop fuel m = some m.startAll.2 := by
  obtain ⟨m0, -, -, hloop⟩ := startAllLoop_last (I := Settled) (fun _ h => h) (fun _ h => (pass_progress h).2.1)
    (m.services.length + 1) hm (by omega)
  have hall : m.startAll.2 = m0.pass.2 := by rw [startAll, hloop 0]; rfl
  obtain ⟨k, rfl⟩ := Nat.exists_eq_add_of_le hf
  rw [hall]
  exact hloop k

theorem startAll_last {I : ServiceManager → Prop} (hset : ∀ m, I m → m.Settled)
    (hpass : ∀ m, I m → I m.pass.2) (hm : I m) :
    ∃ m0, I m0 ∧ m.startAll.2 = m0.pass.2 ∧ (m0.pass.2.allDone = true ∨ m0.pass.1 = false) := by
  obtain ⟨m0, h0, hexit, hloop⟩ := startAllLoop_last hset hpass (m.services.length + 1) hm (by omega)
  exact ⟨m0, h0, by rw [startAll, hloop 0]; rfl, hexit⟩

end ServiceManager

end Saios.Ksf
