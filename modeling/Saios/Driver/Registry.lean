/-
  THE DRIVER REGISTRY: starting, stopping and reloading drivers that depend on each other.

  A driver that is Running ought to have its dependencies Running or Loaded (`Sound`).  `start` looks at the
  dependencies of the driver, `reload` does not, and none of the calls looks at the drivers that depend on the one
  it stops or finds faulty.  `sound_iff_along` says exactly which calls keep the registry sound.
-/
import Saios.Lib.First
import Saios.Lib.Run
import Saios.Lib.Word
import Saios.Storage.Device

namespace Saios.Driver

open List Storage

inductive DriverStatus
  | loaded | running | stopped | faulted
  deriving DecidableEq

/-- A driver, without its devices and what describes it. -/
structure DriverRecord where
  name : Str
  status : DriverStatus
  dependencies : List Str
  startCount : Nat
  stopCount : Nat
  reloadCount : Nat
  faultCount : Nat
  lastError : Option String

abbrev Registry := List DriverRecord

def isDriver (name : Str) (d : DriverRecord) : Bool := eqIgnoreAsciiCase d.name name

def statusByName (r : Registry) (name : Str) : Option DriverStatus := (r.find? (isDriver name)).map DriverRecord.status

def isReady (r : Registry) (dep : Str) : Bool := [some .running, some .loaded].contains (statusByName r dep)

def dependenciesReady (r : Registry) (deps : List Str) : Bool := deps.all (isReady r)

def DriverRecord.fault (error : String) (d : DriverRecord) : DriverRecord :=
  { d with status := .faulted, faultCount := Word.sadd d.faultCount 1, lastError := some error }

/-- The end of a call: the driver after `hook`. -/
def finish (r : Registry) (name : Str) (hook : Except String Unit) (done : DriverRecord → DriverRecord) :
    Except String Unit × Registry :=
  match hook with
  | .error e => (.error e, r.modifyFirst (isDriver name) (.fault e))
  | .ok () => (.ok (), r.modifyFirst (isDriver name) done)

def reload (r : Registry) (name : Str) (hook : Except String Unit) : Except String Unit × Registry :=
  match r.find? (isDriver name) with
  | none => (.error "driver: not found", r)
  | some _ => finish r name hook fun d =>
      { d with status := .running, reloadCount := Word.sadd d.reloadCount 1, lastError := none }

def start (r : Registry) (name : Str) (hook : Except String Unit) : Except String Unit × Registry :=
  match r.find? (isDriver name) with
  | none => (.error "driver: not found", r)
  | some d =>
      if dependenciesReady r d.dependencies = false then
        (.error "driver: dependencies not ready", r.modifyFirst (isDriver name) (.fault "dependencies not ready"))
      else finish r name hook fun d =>
        { d with status := .running, startCount := Word.sadd d.startCount 1, lastError := none }

def stop (r : Registry) (name : Str) (hook : Except String Unit) : Except String Unit × Registry :=
  match r.find? (isDriver name) with
  | none => (.error "driver: not found", r)
  | some _ => finish r name hook fun d =>
      { d with status := .stopped, stopCount := Word.sadd d.stopCount 1, lastError := none }

inductive Kind
  | start | stop | reload

/-- A call, with what the hook of the driver returns in it. -/
structure Call where
  kind : Kind
  name : Str
  hook : Except String Unit

def step (r : Registry) (call : Call) : Registry :=
  match call.kind with
  | .start => (start r call.name call.hook).2
  | .stop => (stop r call.name call.hook).2
  | .reload => (reload r call.name call.hook).2

/-- Every driver that is Running has its dependencies Running or Loaded. -/
def Sound (r : Registry) : Prop := ∀ d ∈ r, d.status = .running → dependenciesReady r d.dependencies = true

def Serving (status : DriverStatus) : Prop := status = .running ∨ status = .loaded

/-- The call takes the driver `d` out of service. -/
def Lowers (r : Registry) (d : DriverRecord) (call : Call) : Prop :=
  call.hook ≠ .ok () ∨ call.kind = .stop ∨ call.kind = .start ∧ dependenciesReady r d.dependencies = false

/-- A driver that goes out of service has NO OTHER DRIVER RUNNING on it; one that comes into service has its
    dependencies ready, itself apart. -/
def Keeps (r : Registry) (call : Call) : Prop :=
  ∀ d, r.find? (isDriver call.name) = some d →
    (Lowers r d call → ∀ u ∈ r.eraseP (isDriver call.name), u.status = .running →
      ∀ dep ∈ u.dependencies, eqIgnoreAsciiCase dep call.name = false) ∧
    (¬Lowers r d call → ∀ dep ∈ d.dependencies, eqIgnoreAsciiCase dep call.name = true ∨ isReady r dep = true)

section change

variable {r : Registry} {call : Call} {f : DriverRecord → DriverRecord} {d : DriverRecord}
variable (hd : r.find? (isDriver call.name) = some d)
variable (hf : ∀ d, (f d).name = d.name ∧ (f d).dependencies = d.dependencies)

include hd hf

/-- Whether a name is ready after a driver has changed. -/
theorem isReady_modifyFirst (dep : Str) : isReady (r.modifyFirst (isDriver call.name) f) dep = true ↔
    if eqIgnoreAsciiCase dep call.name then Serving (f d).status else isReady r dep = true := by
  by_cases hsame : eqIgnoreAsciiCase dep call.name = true
  · have heq : isDriver dep = isDriver call.name := by
      funext u
      rw [isDriver, isDriver, eqIgnoreAsciiCase, eqIgnoreAsciiCase, beq_iff_eq.mp hsame]
    have hself : ∀ u, isDriver call.name u = true → isDriver call.name (f u) = true := by
      intro u hu
      rw [isDriver, (hf u).1]
      exact hu
    rw [if_pos hsame, isReady, statusByName, heq, find?_modifyFirst_self hself, hd]
    simp [Serving]
  · rw [if_neg hsame, isReady, statusByName, find?_modifyFirst_of_disjoint]
    · rfl
    intro u hu
    have hno : isDriver dep u = false := by
      refine Bool.eq_false_iff.mpr fun hdep => hsame ?_
      exact beq_iff_eq.mpr ((beq_iff_eq.mp hdep).symm.trans (beq_iff_eq.mp hu))
    exact ⟨hno, by rw [isDriver, (hf u).1]; exact hno⟩

/-- The registry is sound after the change: the driver itself, and the others. -/
theorem sound_modifyFirst : Sound (r.modifyFirst (isDriver call.name) f) ↔
    ∀ u, u = f d ∨ u ∈ r.eraseP (isDriver call.name) → u.status = .running → ∀ dep ∈ u.dependencies,
      if eqIgnoreAsciiCase dep call.name then Serving (f d).status else isReady r dep = true := by
  obtain ⟨hname, l1, l2, hl, hbefore⟩ := find?_split hd
  have hmem : ∀ u, u ∈ r.modifyFirst (isDriver call.name) f ↔ u = f d ∨ u ∈ r.eraseP (isDriver call.name) := by
    intro u
    rw [hl, modifyFirst_append_cons hbefore hname, eraseP_append_right _ (fun b hb => by rw [hbefore b hb]; decide),
      eraseP_cons_of_pos hname, mem_append, mem_append, mem_cons]
    exact or_left_comm
  unfold Sound dependenciesReady
  simp only [all_eq_true, isReady_modifyFirst hd hf, hmem]

variable (h : Sound r)

include h

/-- A driver that goes out of service. -/
theorem sound_lower (hl : Lowers r d call) (hs : ¬Serving (f d).status) :
    Sound (r.modifyFirst (isDriver call.name) f) ↔ Keeps r call := by
  rw [sound_modifyFirst hd hf]
  constructor
  · intro hall d' hd'
    obtain rfl := Option.some.inj (hd.symm.trans hd')
    refine ⟨fun _ u hu hrun dep hdep => Bool.eq_false_iff.mpr fun hsame => hs ?_, absurd hl⟩
    have hif := hall u (.inr hu) hrun dep hdep
    rwa [if_pos hsame] at hif
  · rintro hkeeps u (rfl | hu) hrun dep hdep
    · exact absurd (.inl hrun) hs
    · rw [if_neg (by rw [(hkeeps d hd).1 hl u hu hrun dep hdep]; decide)]
      exact all_eq_true.mp (h u (mem_of_mem_eraseP hu) hrun) dep hdep

/-- A driver that comes into service. -/
theorem sound_raise (hl : ¬Lowers r d call) (hs : (f d).status = .running) :
    Sound (r.modifyFirst (isDriver call.name) f) ↔ Keeps r call := by
  rw [sound_modifyFirst hd hf]
  constructor
  · intro hall d' hd'
    obtain rfl := Option.some.inj (hd.symm.trans hd')
    refine ⟨fun hl' => absurd hl' hl, fun _ dep hdep => or_iff_not_imp_left.mpr fun hne => ?_⟩
    have hif := hall _ (.inl rfl) hs dep ((hf d).2.symm ▸ hdep)
    rwa [if_neg hne] at hif
  · intro hkeeps u hu hrun dep hdep
    split
    · exact .inl hs
    rename_i hne
    rcases hu with rfl | hu
    · exact ((hkeeps d hd).2 hl dep ((hf d).2 ▸ hdep)).resolve_left hne
    · exact all_eq_true.mp (h u (mem_of_mem_eraseP hu) hrun) dep hdep

end change

/-- **One call**: the registry stays sound exactly under `Keeps`. -/
theorem sound_step {r : Registry} (call : Call) (h : Sound r) : Sound (step r call) ↔ Keeps r call := by
  unfold step
  cases hd : r.find? (isDriver call.name) with
  | none =>
    have hkeeps : Keeps r call := fun d hd' => by cases hd.symm.trans hd'
    split <;> simp only [start, stop, reload, hd] <;> exact iff_of_true h hkeeps
  | some d =>
    have hfault : ∀ e, Lowers r d call → (Sound (r.modifyFirst (isDriver call.name) (.fault e)) ↔ Keeps r call) :=
      fun e hl => sound_lower hd (f := .fault e) (fun _ => ⟨rfl, rfl⟩) h hl (by simp [Serving, DriverRecord.fault])
    have hfinish : ∀ {f}, (call.hook = .ok () → (Sound (r.modifyFirst (isDriver call.name) f) ↔ Keeps r call)) →
        (Sound (finish r call.name call.hook f).2 ↔ Keeps r call) := by
      intro f hok
      unfold finish
      split
      · exact hfault _ (.inl (by simp [*]))
      · exact hok ‹_›
    split <;> rename_i hk <;> simp only [start, stop, reload, hd]
    · split
      · exact hfault _ (.inr (.inr ⟨hk, ‹_›⟩))
      · exact hfinish fun hok => sound_raise hd (by simp) h (by simp_all [Lowers]) rfl
    · exact hfinish fun hok => sound_lower hd (by simp) h (.inr (.inl hk)) (by simp [Serving])
    · exact hfinish fun hok => sound_raise hd (by simp) h (by simp [Lowers, hk, hok]) rfl

/-- **Which runs keep the registry sound.** -/
theorem sound_iff_along {r : Registry} (h : Sound r) (calls : List Call) :
    (∀ done, done <+: calls → Sound (done.foldl step r)) ↔ Run.Along step Keeps r calls :=
  Run.reached_iff_along (fun _ h => h) (fun _ call h => sound_step call h)
    (fun _ call h hk => (sound_step call h).mpr hk) h calls

/-- `network` on `pci`, both started. -/
def netOnPci : Registry :=
  [⟨"pci".toList, .running, [], 1, 0, 0, 0, none⟩, ⟨"network".toList, .running, ["pci".toList], 1, 0, 0, 0, none⟩]

theorem sound_along_order : Sound netOnPci ∧
    ∀ done, done <+: [⟨.stop, "network".toList, .ok ()⟩, ⟨.stop, "PCI".toList, .ok ()⟩] →
      Sound (done.foldl step netOnPci) := by
  have h : Sound netOnPci := by unfold Sound; decide
  exact ⟨h, (sound_iff_along h _).mpr ⟨fun _ _ => ⟨fun _ => by decide, absurd (.inr (.inl rfl))⟩,
    fun _ _ => ⟨fun _ => by decide, absurd (.inr (.inl rfl))⟩, trivial⟩⟩

/-- `pci` is stopped and `network` still runs. -/
theorem stop_under_running : Sound netOnPci ∧ ¬Sound (step netOnPci ⟨.stop, "pci".toList, .ok ()⟩) := by
  unfold Sound
  decide

end Saios.Driver
