/-
  THE BEST ELEMENT of a list, found by going through it once.

  `Best.pick p s` keeps the element with the highest score `s` among those that `p` holds of, a later one when two
  have the same score.  `pick_spec` says what it finds; where no two candidates have the same score, what is found
  does not depend on the order of the list (`pick_perm`).
-/
import Mathlib.Data.List.Induction

namespace Best

open List

variable {α : Type} (p : α → Bool) (s : α → Nat)

/-- One element against the best so far and its score. -/
def keep (best : Option α × Nat) (a : α) : Option α × Nat :=
  if p a then if best.1.isNone || decide (best.2 ≤ s a) then (some a, s a) else best else best

def pick (l : List α) : Option α := (l.foldl (keep p s) (none, 0)).1

/-- `a` is a candidate of `l` that no other one exceeds. -/
def IsBest (l : List α) (a : α) : Prop := a ∈ l ∧ p a = true ∧ ∀ b ∈ l, p b = true → s b ≤ s a

variable {p s}

theorem foldl_keep (l : List α) :
    match l.foldl (keep p s) (none, 0) with
    | (none, _) => ∀ b ∈ l, p b = false
    | (some a, n) => IsBest p s l a ∧ n = s a := by
  induction l using reverseRecOn with
  | nil => exact nofun
  | append_singleton l a ih =>
    rw [foldl_append, foldl_cons]
    generalize l.foldl (keep p s) (none, 0) = best at ih ⊢
    rcases best with ⟨_ | b, n⟩
    · -- no candidate yet
      cases ha : p a with
      | false =>
        rw [keep, ha]
        intro b hb
        rcases mem_append.mp hb with hb | hb
        · exact ih b hb
        · rw [mem_singleton.mp hb, ha]
      | true =>
        rw [keep, if_pos ha]
        refine ⟨⟨mem_append_right _ mem_cons_self, ha, fun b hb hpb => ?_⟩, rfl⟩
        rcases mem_append.mp hb with hb | hb
        · rw [ih b hb] at hpb
          cases hpb
        · exact Nat.le_of_eq (by rw [mem_singleton.mp hb])
    · obtain ⟨⟨hmem, hpb, hmax⟩, rfl⟩ := ih
      by_cases hwins : p a = true ∧ s b ≤ s a
      · rw [keep, if_pos hwins.1, if_pos (by simpa using hwins.2)]
        refine ⟨⟨mem_append_right _ mem_cons_self, hwins.1, fun c hc hpc => ?_⟩, rfl⟩
        rcases mem_append.mp hc with hc | hc
        · exact Nat.le_trans (hmax c hc hpc) hwins.2
        · exact Nat.le_of_eq (by rw [mem_singleton.mp hc])
      · have hkeep : keep p s (some b, s b) a = (some b, s b) := by
          unfold keep
          split
          · next ha =>
            refine if_neg fun h => hwins ⟨ha, ?_⟩
            simpa using h
          · rfl
        rw [hkeep]
        refine ⟨⟨mem_append_left _ hmem, hpb, fun c hc hpc => ?_⟩, rfl⟩
        rcases mem_append.mp hc with hc | hc
        · exact hmax c hc hpc
        · rw [mem_singleton.mp hc] at hpc ⊢
          exact Nat.le_of_not_le fun hle => hwins ⟨hpc, hle⟩

variable {l : List α}

theorem pick_spec {a : α} (h : pick p s l = some a) : IsBest p s l a := by
  have hfold := foldl_keep (p := p) (s := s) l
  rw [pick] at h
  generalize l.foldl (keep p s) (none, 0) = best at hfold h
  obtain ⟨_, n⟩ := best
  obtain rfl : _ = some a := h
  exact hfold.1

theorem exists_pick {a : α} (ha : a ∈ l) (hp : p a = true) : ∃ b, pick p s l = some b := by
  have hfold := foldl_keep (p := p) (s := s) l
  unfold pick
  generalize l.foldl (keep p s) (none, 0) = best at hfold
  rcases best with ⟨_ | b, n⟩
  · rw [hfold a ha] at hp
    cases hp
  · exact ⟨b, rfl⟩

/-- Candidates with different scores. -/
def Told (p : α → Bool) (s : α → Nat) (l : List α) : Prop :=
  ∀ a ∈ l, ∀ b ∈ l, p a = true → p b = true → s a = s b → a = b

theorem pick_eq {a : α} (htold : Told p s l) (h : IsBest p s l a) : pick p s l = some a := by
  obtain ⟨b, hb⟩ := exists_pick h.1 h.2.1
  obtain ⟨hmem, hpb, hmax⟩ := pick_spec hb
  rw [hb, htold b hmem a h.1 hpb h.2.1 (Nat.le_antisymm (h.2.2 b hmem hpb) (hmax a h.1 h.2.1))]

/-- **The order of the list makes no difference.** -/
theorem pick_perm {l' : List α} (hperm : l.Perm l') (htold : Told p s l) : pick p s l' = pick p s l := by
  cases hpick : pick p s l with
  | some a =>
    obtain ⟨hmem, hpa, hmax⟩ := pick_spec hpick
    refine pick_eq (fun b hb c hc => htold b (hperm.mem_iff.mpr hb) c (hperm.mem_iff.mpr hc)) ?_
    exact ⟨hperm.mem_iff.mp hmem, hpa, fun b hb => hmax b (hperm.mem_iff.mpr hb)⟩
  | none =>
    cases hpick' : pick p s l' with
    | none => rfl
    | some a =>
      obtain ⟨hmem, hpa, -⟩ := pick_spec hpick'
      obtain ⟨b, hb⟩ := exists_pick (hperm.mem_iff.mpr hmem) hpa
      rw [hpick] at hb
      cases hb

end Best
