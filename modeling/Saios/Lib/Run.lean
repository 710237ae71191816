/-
  RUNS of a deterministic step function.

  A run is a list of actions folded over a state; whatever the environment decides (which device
  list a rescan sees, which layout a caller asks for) is part of the action, so a `List` of actions
  ranges over every interleaving.  `Along step C s as` says that EVERY action of the run meets `C`
  in the state it is taken from; `foldl_inv_along` is the induction every whole-run result of this
  development goes through: an invariant that one `C`-step preserves holds at the end of every
  `C`-run (and, through `along_append`, in every state on the way).  `along_iff_along` compares two
  conditions that agree wherever the run can be; `reached_iff_along` is for a property that one step
  keeps exactly under `C`.

  An INFINITE run is a function `ℕ → α` of actions and `trace` its states.  Liveness has one rule,
  `eventually_of_rank`: a rank that never rises while the goal is outstanding, and that falls again
  and again, brings the goal.
-/
import Mathlib.Data.List.Basic
import Mathlib.Data.Nat.Init

namespace Run

open List

variable {σ α : Type*} {step : σ → α → σ} {C D : σ → α → Prop}

/-- Every action of the run `as` from `s` meets `C` in the state it is taken from. -/
def Along (step : σ → α → σ) (C : σ → α → Prop) : σ → List α → Prop
  | _, [] => True
  | s, a :: as => C s a ∧ Along step C (step s a) as

instance Along.decidable [∀ s a, Decidable (C s a)] : ∀ (s : σ) (as : List α), Decidable (Along step C s as)
  | _, [] => .isTrue trivial
  | s, a :: as =>
      have := Along.decidable (step s a) as
      inferInstanceAs (Decidable (C s a ∧ Along step C (step s a) as))

@[simp] theorem along_nil (s : σ) : Along step C s [] := trivial

@[simp] theorem along_cons (s : σ) (a : α) (as : List α) :
    Along step C s (a :: as) ↔ C s a ∧ Along step C (step s a) as := Iff.rfl

/-- A run splits at any point: its prefix, then its suffix from the state the prefix reaches. -/
theorem along_append (s : σ) (as bs : List α) :
    Along step C s (as ++ bs) ↔ Along step C s as ∧ Along step C (as.foldl step s) bs := by
  induction as generalizing s with
  | nil => simp
  | cons a as ih => simp only [cons_append, along_cons, foldl_cons, ih, and_assoc]

variable {s : σ} {as : List α}

theorem Along.mono (h : ∀ s a, C s a → D s a) (hr : Along step C s as) : Along step D s as := by
  induction as generalizing s with
  | nil => trivial
  | cons a as ih => exact ⟨h s a hr.1, ih hr.2⟩

/-- Two conditions together. -/
theorem Along.and (hc : Along step C s as) (hd : Along step D s as) :
    Along step (fun s a => C s a ∧ D s a) s as := by
  induction as generalizing s with
  | nil => trivial
  | cons a as ih => exact ⟨⟨hc.1, hd.1⟩, ih hc.2 hd.2⟩

/-- A condition that holds of every action in every state holds along every run. -/
theorem along_of_forall (h : ∀ s a, C s a) (s : σ) (as : List α) : Along step C s as := by
  induction as generalizing s with
  | nil => trivial
  | cons a as ih => exact ⟨h s a, ih _⟩

variable {I : σ → Prop}

/-- **The invariant rule.**  What one `C`-step preserves, a whole `C`-run preserves. -/
theorem foldl_inv_along (hstep : ∀ s a, I s → C s a → I (step s a)) (hs : I s) (hr : Along step C s as) :
    I (as.foldl step s) := by
  induction as generalizing s with
  | nil => exact hs
  | cons a as ih => exact ih (hstep s a hs hr.1) hr.2

/-- The invariant rule with no condition on the steps. -/
theorem foldl_inv (hstep : ∀ s a, I s → I (step s a)) (as : List α) (hs : I s) : I (as.foldl step s) :=
  foldl_inv_along (fun s a h _ => hstep s a h) hs
    (along_of_forall (fun _ _ => trivial) s as)

/-- Two conditions that agree in every state the run can be in hold along the same runs. -/
theorem along_iff_along (hiff : ∀ s a, I s → (C s a ↔ D s a)) (hstep : ∀ s a, I s → D s a → I (step s a))
    (hs : I s) (as : List α) : Along step C s as ↔ Along step D s as := by
  induction as generalizing s with
  | nil => exact Iff.rfl
  | cons a as ih =>
    rw [along_cons, hiff s a hs]
    exact and_congr_right fun hd => ih (hstep s a hs hd)

/-- **The exact condition of a property.**  Where `C` is what keeps `P` true in one step, `P` holds in every state
    of a run exactly when every step meets `C`. -/
theorem reached_iff_along {P : σ → Prop} (hP : ∀ s, I s → P s) (hiff : ∀ s a, I s → (P (step s a) ↔ C s a))
    (hstep : ∀ s a, I s → C s a → I (step s a)) (hs : I s) (as : List α) :
    (∀ done, done <+: as → P (done.foldl step s)) ↔ Along step C s as := by
  induction as generalizing s with
  | nil =>
    refine ⟨fun _ => trivial, fun _ done hdone => ?_⟩
    rw [prefix_nil.mp hdone]
    exact hP s hs
  | cons a as ih =>
    constructor
    · intro h
      have hc : C s a := (hiff s a hs).mp (h [a] (cons_prefix_cons.mpr ⟨rfl, nil_prefix⟩))
      refine ⟨hc, (ih (hstep s a hs hc)).mp fun done hdone => ?_⟩
      exact h _ (cons_prefix_cons.mpr ⟨rfl, hdone⟩)
    · rintro ⟨hc, hrest⟩ done hdone
      cases done with
      | nil => exact hP s hs
      | cons b done =>
        obtain ⟨rfl, hdone'⟩ := cons_prefix_cons.mp hdone
        exact (ih (hstep s b hs hc)).mpr hrest done hdone'

/-! ## Infinite runs -/

/-- The state an infinite run is in after `n` steps. -/
def trace (step : σ → α → σ) (s : σ) (as : ℕ → α) : ℕ → σ
  | 0 => s
  | n + 1 => step (trace step s as n) (as n)

theorem trace_succ (s : σ) (as : ℕ → α) (n : ℕ) :
    trace step s as (n + 1) = step (trace step s as n) (as n) := rfl

/-- What every step of the run preserves holds from any point on. -/
theorem trace_inv {as : ℕ → α} {n : ℕ} (hn : I (trace step s as n))
    (hstep : ∀ m, n ≤ m → I (trace step s as m) → I (trace step s as (m + 1))) :
    ∀ m, n ≤ m → I (trace step s as m) := by
  intro m hm
  induction m, hm using Nat.le_induction with
  | base => exact hn
  | succ m hm ih => exact hstep m hm ih

/-- **The rank rule.**  `P` holds until `Q` does; meanwhile the rank `r` never rises, and from every point
    on some later step lowers it.  Then `Q` comes. -/
theorem eventually_of_rank {P Q : ℕ → Prop} {r : ℕ → ℕ}
    (keep : ∀ n, P n → Q (n + 1) ∨ P (n + 1) ∧ r (n + 1) ≤ r n)
    (help : ∀ n, P n → ∃ m, n ≤ m ∧ (P m → Q (m + 1) ∨ r (m + 1) < r m))
    {n : ℕ} (hn : P n) : ∃ m, n ≤ m ∧ Q m := by
  -- between two points either `Q` comes or `P` stays and the rank has not risen
  have wait : ∀ n m, n ≤ m → P n → (∃ k, n ≤ k ∧ Q k) ∨ P m ∧ r m ≤ r n := by
    intro n m hm hP
    induction m, hm using Nat.le_induction with
    | base => exact .inr ⟨hP, Nat.le_refl _⟩
    | succ m hm ih =>
      rcases ih with hQ | ⟨hPm, hr⟩
      · exact .inl hQ
      · rcases keep m hPm with hQ | ⟨hP', hr'⟩
        · exact .inl ⟨m + 1, by omega, hQ⟩
        · exact .inr ⟨hP', by omega⟩
  induction hk : r n using Nat.strong_induction_on generalizing n with
  | _ k ih =>
    obtain ⟨m, hm, hdrop⟩ := help n hn
    rcases wait n m hm hn with hQ | ⟨hPm, hle⟩
    · exact hQ
    · rcases hdrop hPm with hQ | hlt
      · exact ⟨m + 1, by omega, hQ⟩
      · rcases keep m hPm with hQ | ⟨hP', -⟩
        · exact ⟨m + 1, by omega, hQ⟩
        · obtain ⟨l, hl, hQ⟩ := ih _ (by omega) hP' rfl
          exact ⟨l, by omega, hQ⟩

end Run
