/-
  `start_all` COMPUTES A LEAST CLOSED SET.

  A set of ids is `Closed` when every registered service whose dependencies lie in it, and whose two
  callbacks succeed, has its own id in it.  Cycles, self-dependencies and missing ids need no care:
  they are in no least closed set.

  1. **Invariant** (`Booting`) — carried through every pass from the all-Registered state: Registered
     services have had no callback, Failed ones failed one, Running ones are in every closed set,
     no callback is made twice, and every callback saw all its service's dependencies Running.

  2. **Last pass** (`stuck`) — a pass without progress leaves a service Registered only if a
     dependency of it is not Running.  So the Running set is closed when the loop ends.

  3. **Result** (`start_all_least_closed`) — hence it is the LEAST closed set, whatever the order of
     registration.
-/
import Mathlib.Order.Bounds.Basic
import Saios.Ksf.Manager

namespace Saios.Ksf

open ServiceManager List Option

/-- Both callbacks of the service succeed; `start_all` makes each of them once. -/
def KernelService.Succeeds (service : KernelService) : Prop :=
  service.initOutcome 0 = .ok () ∧ service.startOutcome 0 = .ok ()

/-- Closed under "all dependencies are in the set and both callbacks succeed". -/
def Closed (services : List KernelService) (S : Set ServiceId) : Prop :=
  ∀ service ∈ services, (∀ d ∈ service.dependencies, d ∈ S) → service.Succeeds → service.id ∈ S

structure Booting (services : List KernelService) (m : ServiceManager) : Prop where
  services_eq : m.services = services
  states : ∀ st ∈ m.states, st = .registered ∨ st = .running ∨ st = .failed
  /-- A Registered service has had no callback, ... -/
  untouched : ∀ idx : ℕ, m.states[idx]? = some .registered →
    m.invoked .init idx = 0 ∧ m.invoked .start idx = 0
  /-- ... no callback is made twice, ... -/
  once : ∀ callback idx, m.invoked callback idx ≤ 1
  /-- ... a Failed service failed a callback, ... -/
  gaveUp : ∀ (idx : ℕ) (service : KernelService), services[idx]? = some service → m.states[idx]? = some .failed →
    ¬ service.Succeeds
  /-- ... a Running one is in every closed set, ... -/
  least : ∀ S, Closed services S → ∀ id, m.Running id → id ∈ S
  /-- ... and no callback was made before all dependencies were Running. -/
  logged : ∀ c ∈ m.calls, ∃ service : KernelService, services[c.index]? = some service ∧
    ∀ d ∈ service.dependencies, RunningIn services c.states d

variable {st : ServiceState} {made : List Call}

section
variable {services : List KernelService} {m : ServiceManager} {idx : ℕ} {service : KernelService}

theorem Booting.settled (h : Booting services m) : m.Settled := by
  intro st hst
  rcases h.states st hst with h | h | h
  · exact .inl h
  · exact .inr (.inl h)
  · exact .inr (.inr (.inr h))

/-! ## The state before all registered services are started -/

theorem register_fresh (service : KernelService) (hst : ∀ st ∈ m.states, st = .registered)
    (hc : m.calls = []) :
    (∀ st ∈ (m.register service).states, st = .registered) ∧ (m.register service).calls = [] := by
  rw [register]
  split
  · refine ⟨fun st h => ?_, hc⟩
    rcases mem_append.mp h with h | h
    · exact hst st h
    · exact mem_singleton.mp h
  · exact ⟨hst, hc⟩

theorem registerAll_fresh (services : List KernelService) :
    (∀ st ∈ (registerAll services).states, st = .registered) ∧ (registerAll services).calls = [] :=
  Run.foldl_inv
    (I := fun m : ServiceManager => (∀ st ∈ m.states, st = .registered) ∧ m.calls = [])
    (fun _ service h => register_fresh service h.1 h.2) services
    ⟨nofun, rfl⟩

theorem booting_registerAll (services : List KernelService) :
    Booting (registerAll services).services (registerAll services) := by
  obtain ⟨hst, hcalls⟩ := registerAll_fresh services
  have hinv : ∀ callback idx, (registerAll services).invoked callback idx = 0 := by
    intro callback idx
    rw [invoked, hcalls]
    rfl
  refine ⟨rfl, fun st h => .inl (hst st h), fun idx _ => ⟨hinv _ _, hinv _ _⟩, ?_, ?_, ?_, ?_⟩
  · intro callback idx
    rw [hinv]
    exact Nat.zero_le 1
  · intro idx service _ hf
    cases hst _ (mem_of_getElem? hf)
  · rintro S - id ⟨j, _, -, -, hr⟩
    cases hst _ (mem_of_getElem? hr)
  · intro c hc
    rw [hcalls] at hc
    exact absurd hc (not_mem_nil)

/-! ## One start attempt -/

theorem invoked_record (st : ServiceState) (made : List Call) (callback : Callback) (j : ℕ) :
    (m.record idx st made).invoked callback j = m.invoked callback j +
      made.countP (fun c => decide (c.callback = callback ∧ c.index = j)) := by
  rw [invoked, invoked, ← countP_append]
  rfl

/-- The callbacks of an attempt are the service's own, each made at most once. -/
theorem ServiceManager.Attempt.made_le (h : Attempt m idx service st made) (callback : Callback) (j : ℕ) :
    made.countP (fun c => decide (c.callback = callback ∧ c.index = j)) ≤
      if idx = j ∧ callback ≠ .stop then 1 else 0 := by
  cases h with
  | initFails | startFails | starts =>
    by_cases hj : idx = j
    · cases callback <;> simp [initCall, startCall, hj]
    · simp [initCall, startCall, hj]

/-- A dependency that is Running stays so while another service is being started. -/
theorem RunningIn.set {states : List ServiceState} {id : ServiceId}
    (h : RunningIn services states id) (hidx : states[idx]? ≠ some .running) (st : ServiceState) :
    RunningIn services (states.set idx st) id := by
  obtain ⟨j, s, hs, hid, hr⟩ := h
  refine ⟨j, s, hs, hid, ?_⟩
  rw [getElem?_set_ne (by rintro rfl; exact hidx hr)]
  exact hr

/-- After an attempt the Running services are those of before, and the service itself if it got
    there. -/
theorem running_record {id : ServiceId} (hs : m.services[idx]? = some service)
    (h : (m.record idx st made).Running id) : m.Running id ∨ st = .running ∧ id = service.id := by
  obtain ⟨j, s, hj, hid, hr⟩ := h
  rw [getElem?_record st made hs] at hr
  by_cases hij : idx = j
  · rw [if_pos hij] at hr
    subst hij
    have hss : service = s := mem_unique hs hj
    exact .inr ⟨some.inj hr, by rw [hss, hid]⟩
  · rw [if_neg hij] at hr
    exact .inl ⟨j, s, hj, hid, hr⟩

theorem Booting.attempt (h : Booting services m) (hs : m.services[idx]? = some service)
    (hdeps : m.depsReadyToStart idx = true) (hst : m.Startable idx) (hatt : Attempt m idx service st made) :
    Booting services (m.record idx st made) := by
  have hreg : m.states[idx]? = some .registered := hst.resolve_right fun hst => by
    rcases h.states _ (mem_of_getElem? hst) with h | h | h <;> cases h
  obtain ⟨hinit0, hstart0⟩ := h.untouched idx hreg
  have hdeps' := (depsReadyToStart_iff h.settled hs).mp hdeps
  have hs' : services[idx]? = some service := by rw [← h.services_eq]; exact hs
  have hstates := getElem?_record st made hs
  refine ⟨h.services_eq, ?_, ?_, ?_, ?_, ?_, ?_⟩
  · intro st' hst'
    rcases mem_or_eq_of_mem_set hst' with hmem | rfl
    · exact h.states st' hmem
    · exact .inr hatt.state
  · intro j hj
    rw [hstates] at hj
    by_cases hij : idx = j
    · rw [if_pos hij] at hj
      rcases hatt.state with rfl | rfl <;> cases hj
    · rw [if_neg hij] at hj
      obtain ⟨h1, h2⟩ := h.untouched j hj
      have hno := fun callback => hatt.made_le callback j
      simp only [hij, false_and, if_false, Nat.le_zero] at hno
      rw [invoked_record, invoked_record, h1, h2, hno, hno]
      exact ⟨rfl, rfl⟩
  · intro callback j
    have hmade := hatt.made_le callback j
    rw [invoked_record]
    by_cases hij : idx = j ∧ callback ≠ .stop
    · rw [if_pos hij] at hmade
      have h0 : m.invoked callback j = 0 := by
        rw [← hij.1]
        cases callback with
        | init => exact hinit0
        | start => exact hstart0
        | stop => exact absurd rfl hij.2
      omega
    · rw [if_neg hij] at hmade
      have := h.once callback j
      omega
  · intro j s hj hf
    rw [hstates] at hf
    by_cases hij : idx = j
    · subst hij
      obtain rfl : service = s := mem_unique hs' hj
      rw [if_pos rfl] at hf
      obtain rfl := some.inj hf
      rintro ⟨hok1, hok2⟩
      cases hatt with
      | initFails e hinit => rw [hinit0, hok1] at hinit; cases hinit
      | startFails e hinit hstart => rw [hstart0, hok2] at hstart; cases hstart
    · rw [if_neg hij] at hf
      exact h.gaveUp j s hj hf
  · intro S hS id hid
    rcases running_record hs hid with hid | ⟨rfl, rfl⟩
    · exact h.least S hS id hid
    · cases hatt with
      | starts hinit hstart =>
        rw [hinit0] at hinit
        rw [hstart0] at hstart
        exact hS service (mem_of_getElem? hs') (fun d hd => h.least S hS d (hdeps' d hd))
          ⟨hinit, hstart⟩
  · intro c hc
    rcases mem_append.mp hc with hold | hnew
    · exact h.logged c hold
    · -- the callbacks of this attempt saw the states of before, its own service apart
      have hrun : ∀ d ∈ service.dependencies, ∀ st,
          RunningIn services (m.states.set idx st) d := by
        intro d hd st
        rw [← h.services_eq]
        exact RunningIn.set (hdeps' d hd) hst.not_running st
      have hmade : c = m.initCall idx ∨ c = m.startCall idx := by
        cases hatt with
        | initFails => exact .inl (mem_singleton.mp hnew)
        | startFails | starts => simpa using hnew
      rcases hmade with rfl | rfl
      · exact ⟨service, hs', fun d hd => hrun d hd _⟩
      · exact ⟨service, hs', fun d hd => hrun d hd _⟩

/-! ## Passes -/

theorem Booting.passStep (p : Bool) (h : Booting services m) (hs : m.services[idx]? = some service) :
    Booting services (passStep (p, m) idx).2 := by
  rcases passStep_cases p h.settled hs with ⟨heq, -⟩ | ⟨hdeps, hst, st, made, heq, hatt⟩
  · rw [heq]; exact h
  · rw [heq]; exact h.attempt hs hdeps hst hatt

section

variable (h : Booting services m)

include h

theorem Booting.pass : Booting services m.pass.2 := by
  refine pass_rule (I := fun _ acc => Booting services acc.2) h ?_
  rintro n ⟨p, a⟩ service hs ha
  exact ha.passStep p (by rw [ha.services_eq, ← h.services_eq]; exact hs)

/-- A service that a pass without progress leaves Registered lacks a dependency. -/
theorem Booting.stuck (hp : m.pass.1 = false) (hs : services[idx]? = some service)
    (hreg : m.pass.2.states[idx]? = some .registered) :
    ∃ d ∈ service.dependencies, ¬ m.pass.2.Running d := by
  -- as long as nothing progresses, nobody becomes Running, and who was passed over stays stuck
  have key := pass_rule (I := fun n acc => Booting services acc.2 ∧ (acc.1 = false →
    ∀ (j : ℕ) (s : KernelService), j < n → services[j]? = some s → acc.2.states[j]? = some .registered →
      ∃ d ∈ s.dependencies, ¬ acc.2.Running d)) ⟨h, fun _ j _ hj => absurd hj (Nat.not_lt_zero j)⟩ ?_
  · have hlt : idx < m.services.length := by
      rw [h.services_eq]
      exact (List.getElem?_eq_some_iff.mp hs).1
    exact key.2 hp idx service hlt hs hreg
  · rintro n ⟨p, a⟩ s hn ⟨ha, hstuck⟩
    have hn' : a.services[n]? = some s := by rw [ha.services_eq, ← h.services_eq]; exact hn
    refine ⟨ha.passStep p hn', ?_⟩
    rcases passStep_cases p ha.settled hn' with ⟨heq, hwhy⟩ | ⟨-, hst, st, made, heq, hatt⟩
    · rw [heq]
      intro hp j t hj ht hregj
      by_cases hjn : j = n
      · subst hjn
        obtain rfl : s = t := by
          rw [ha.services_eq] at hn'
          exact mem_unique hn' ht
        rcases hwhy with hw | hw | hw
        · rw [hw] at hregj; cases hregj
        · by_contra hall
          push Not at hall
          rw [(depsReadyToStart_iff ha.settled hn').mpr hall] at hw
          cases hw
        · rw [hw] at hregj; cases hregj
      · exact hstuck hp j t (by omega) ht hregj
    · rw [heq]
      intro hp j t hj ht hregj
      obtain ⟨hp0, hnr⟩ := Bool.or_eq_false_iff.mp hp
      have hnot : st ≠ .running := of_decide_eq_false hnr
      rw [getElem?_record st made hn'] at hregj
      by_cases hjn : n = j
      · rw [if_pos hjn] at hregj
        rcases hatt.state with rfl | rfl <;> cases hregj
      · rw [if_neg hjn] at hregj
        obtain ⟨d, hd, hnd⟩ := hstuck hp0 j t (by omega) ht hregj
        refine ⟨d, hd, fun hr => ?_⟩
        rcases running_record hn' hr with hr | ⟨hst', -⟩
        · exact hnd hr
        · exact hnot hst'

/-! ## When `start_all` returns -/

theorem Booting.final : Booting services m.startAll.2 ∧
    Closed services {id | m.startAll.2.Running id} := by
  obtain ⟨m0, h0, hlast, hexit⟩ :=
    startAll_last (fun _ h => h.settled) (fun _ h => h.pass) h
  rw [hlast]
  have hend := h0.pass
  refine ⟨hend, ?_⟩
  intro service hmem hdeps hok
  obtain ⟨idx, hs⟩ := getElem?_of_mem hmem
  obtain ⟨st, hst⟩ := state_of_service (by rw [hend.services_eq]; exact hs)
  rcases hend.states st (mem_of_getElem? hst) with rfl | rfl | rfl
  · exfalso
    rcases hexit with hdone | hp
    · have := List.all_eq_true.mp hdone _ (mem_of_getElem? hst)
      cases this
    · obtain ⟨d, hd, hnd⟩ := h0.stuck hp hs hst
      exact hnd (hdeps d hd)
  · exact ⟨idx, service, by rw [hend.services_eq]; exact hs, rfl, hst⟩
  · exact absurd hok (hend.gaveUp idx service hs hst)

theorem Booting.isLeast :
    IsLeast {S : Set ServiceId | Closed services S} {id | m.startAll.2.Running id} := by
  obtain ⟨hend, hclosed⟩ := h.final
  exact ⟨hclosed, fun S hS id hid => hend.least S hS id hid⟩

end

/-- `start_all` says Ok exactly when every service is Running. -/
theorem verdict_ok_iff (m : ServiceManager) :
    m.verdict = .ok () ↔ ∀ service ∈ m.services, m.Running service.id := by
  rw [verdict]
  constructor
  · intro h service hmem
    obtain ⟨idx, hs⟩ := getElem?_of_mem hmem
    obtain ⟨st, hst⟩ := state_of_service hs
    refine ⟨idx, service, hs, rfl, ?_⟩
    rw [hst]
    by_contra hne
    have hany : m.states.any (fun s => decide (s ≠ .running)) = true :=
      List.any_eq_true.mpr ⟨st, mem_of_getElem? hst,
        decide_eq_true fun hr => hne (by rw [hr])⟩
    rw [if_pos hany] at h
    cases h
  · intro h
    refine if_neg fun hany => ?_
    obtain ⟨st, hmem, hne⟩ := List.any_eq_true.mp hany
    obtain ⟨idx, hst⟩ := getElem?_of_mem hmem
    have hlt : idx < m.services.length := by
      rw [← m.lengths]
      exact (List.getElem?_eq_some_iff.mp hst).1
    obtain ⟨j, s, hs, hid, hr⟩ := h m.services[idx] (getElem_mem hlt)
    obtain rfl := m.index_unique hs (getElem?_eq_getElem hlt) hid
    rw [hst] at hr
    exact of_decide_eq_true hne (some.inj hr)

end

/-- **`start_all` starts exactly what can be started.**  For every list of registered services: the
    loop ends; the Running services are the least closed set, the same for every order of
    registration; the verdict is Ok exactly when all of them run; every callback found all
    dependencies of its service Running; and none is made twice. -/
theorem start_all_least_closed (services : List KernelService) :
    let m := registerAll services
    let r := m.startAll
    (∀ fuel, m.services.length < fuel → startAllLoop fuel m = some r.2) ∧
    IsLeast {S : Set ServiceId | Closed m.services S} {id | r.2.Running id} ∧
    (∀ services', (registerAll services').services.Perm m.services →
      ∀ id, (registerAll services').startAll.2.Running id ↔ r.2.Running id) ∧
    (r.1 = .ok () ↔ ∀ service ∈ m.services, r.2.Running service.id) ∧
    (∀ c ∈ r.2.calls, ∃ service, m.services[c.index]? = some service ∧
      ∀ d ∈ service.dependencies, RunningIn m.services c.states d) ∧
    (∀ callback idx, r.2.invoked callback idx ≤ 1) := by
  intro m r
  have hboot := booting_registerAll services
  obtain ⟨hend, -⟩ := hboot.final
  refine ⟨fun fuel hf => startAllLoop_enough hboot.settled hf, hboot.isLeast, ?_, ?_, hend.logged,
    hend.once⟩
  · intro services' hp id
    have hleast := (booting_registerAll services').isLeast
    simp only [Closed, hp.mem_iff] at hleast
    have heq := hleast.unique hboot.isLeast
    exact Set.ext_iff.mp heq id
  · show r.2.verdict = .ok () ↔ _
    rw [verdict_ok_iff, hend.services_eq]

end Saios.Ksf
