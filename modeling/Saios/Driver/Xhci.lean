/-
  xHCI: the walk to the legacy capability (`xhci_bios_handoff`).

  1. **The code** (`xhciBiosHandoff`) — over registers that keep their content during the walk; a loop with so many
     rounds, `none` if they do not suffice, and the capabilities it looked at.

  2. **The chain** (`Chain`) — what the xHCI specification defines: a next pointer counts from its OWN capability.
     The code counts it from the start of the registers.

  3. **`handoff_follows_iff`** — so the walk is right only where there is no next capability to go to.
-/
import Saios.Lib.Bytes

namespace Saios.Driver.Xhci

open List Bytes

/-! ## The code -/

variable (regs : Nat → UInt8)

def read16 (offset : Nat) : Nat := leNat [regs offset, regs (offset + 1)]

def read32 (offset : Nat) : Nat := leNat [regs offset, regs (offset + 1), regs (offset + 2), regs (offset + 3)]

def xhciWaitIters : Nat := 1000000

/-- At the legacy capability; `owned` is what later reads of the BIOS semaphore give. -/
def takeOver (owned : Nat → UInt8) (ext : Nat) : Except String Bool :=
  if regs (ext + 2) = 0 then .ok false
  else if ∃ i < xhciWaitIters, owned i = 0 then .ok true
  else .error "usb: xhci bios handoff timed out"

/-- The `while` loop: the capabilities it looks at, and what it returns. -/
def handoffLoop (owned : Nat → UInt8) : Nat → Nat → Option (List Nat × Except String Bool)
  | 0, _ => none
  | n + 1, ext =>
      if ext ≠ 0 ∧ ext < 0x1000 then
        let next := read16 regs ext >>> 8
        if regs ext = 1 then some ([ext], takeOver regs owned ext)
        else if next = 0 ∨ next * 4 = ext then some ([ext], .ok false)
        else (handoffLoop owned n (next * 4)).map fun (inspected, r) => (ext :: inspected, r)
      else some ([], .ok false)

def xhciBiosHandoff (owned : Nat → UInt8) (rounds : Nat) : Option (List Nat × Except String Bool) :=
  handoffLoop regs owned rounds ((read32 regs 0x10 >>> 16 &&& 0xFFFF) * 4)

/-! ## The chain -/

/-- The first extended capability, in dwords. -/
def xecp : Nat := leNat [regs 0x12, regs 0x13]

def next (ext : Nat) : Nat := (regs (ext + 1)).toNat

/-- The chain from `ext` on, to the legacy capability or the end. -/
inductive ChainFrom : Nat → List Nat → Prop
  | last {ext} : regs ext = 1 ∨ next regs ext = 0 → ChainFrom ext [ext]
  | more {ext l} : regs ext ≠ 1 → next regs ext ≠ 0 → ChainFrom (ext + next regs ext * 4) l → ChainFrom ext (ext :: l)

def Chain (l : List Nat) : Prop := if xecp regs = 0 then l = [] else ChainFrom regs (xecp regs * 4) l

/-! ## The walk -/

variable {regs} {owned : Nat → UInt8}

theorem read16_high (ext : Nat) : read16 regs ext >>> 8 = next regs ext := by
  have h := (regs ext).toNat_lt
  rw [read16, next, leNat, leNat, leNat]
  omega

theorem read32_high : read32 regs 0x10 >>> 16 &&& 0xFFFF = xecp regs := by
  have h0 := (regs 0x10).toNat_lt
  have h1 := (regs 0x11).toNat_lt
  have h2 := (regs 0x12).toNat_lt
  have h3 := (regs 0x13).toNat_lt
  rw [show 0xFFFF = 2 ^ 16 - 1 by decide, Nat.and_two_pow_sub_one_eq_mod]
  simp only [read32, xecp, leNat, Nat.reduceAdd]
  omega

theorem ChainFrom.head {ext : Nat} {l : List Nat} (h : ChainFrom regs ext l) : ∃ t, l = ext :: t := by
  cases h <;> exact ⟨_, rfl⟩

/-- What the loop looks at first. -/
theorem handoffLoop_head {rounds ext : Nat} {l : List Nat} {r : Except String Bool}
    (h : handoffLoop regs owned rounds ext = some (l, r)) : l = [] ∨ ∃ t, l = ext :: t := by
  cases rounds with
  | zero => cases h
  | succ n =>
    rw [handoffLoop] at h
    split at h
    · dsimp only at h
      split at h
      · cases h; exact .inr ⟨_, rfl⟩
      split at h
      · cases h; exact .inr ⟨_, rfl⟩
      · obtain ⟨⟨t, r'⟩, -, heq⟩ := Option.map_eq_some_iff.mp h
        cases heq
        exact .inr ⟨_, rfl⟩
    · cases h; exact .inl rfl

/-- **The walk ends, and on the chain of the specification, exactly if there is no capability, or one below `0x1000`
    that is the legacy one or the last.** -/
theorem handoff_follows_iff (regs owned : Nat → UInt8) :
    (∃ rounds l r, xhciBiosHandoff regs owned rounds = some (l, r) ∧ Chain regs l) ↔
      xecp regs = 0 ∨ xecp regs * 4 < 0x1000 ∧ (regs (xecp regs * 4) = 1 ∨ next regs (xecp regs * 4) = 0) := by
  simp only [xhciBiosHandoff, read32_high, Chain]
  by_cases h0 : xecp regs = 0
  · refine iff_of_true ⟨1, [], .ok false, ?_, ?_⟩ (.inl h0)
    · rw [h0]; rfl
    · rw [if_pos h0]
  simp only [h0, false_or]
  generalize hext : xecp regs * 4 = ext
  have hpos : ext ≠ 0 := by omega
  constructor
  · rintro ⟨rounds, l, r, hloop, hchain⟩
    cases rounds with
    | zero => cases hloop
    | succ n =>
      rw [handoffLoop, read16_high] at hloop
      split at hloop
      · next hin =>
        refine ⟨hin.2, or_iff_not_imp_left.mpr fun hleg => by_contra fun hnext => ?_⟩
        -- the chain goes on from `ext`, the code at `next * 4` if at all
        rw [if_neg hleg] at hloop
        obtain ⟨t, rfl, hgo⟩ : ∃ t, l = ext :: t ∧ (t = [] ∨ ∃ t', t = next regs ext * 4 :: t') := by
          split at hloop
          · cases hloop; exact ⟨_, rfl, .inl rfl⟩
          · obtain ⟨⟨t, r'⟩, hrest, heq⟩ := Option.map_eq_some_iff.mp hloop
            cases heq
            exact ⟨t, rfl, handoffLoop_head hrest⟩
        cases hchain with
        | last h => exact h.elim hleg hnext
        | more _ _ hrest =>
          obtain ⟨t', rfl⟩ := hrest.head
          obtain hnil | ⟨t', heq⟩ := hgo
          · cases hnil
          · have := (cons.inj heq).1
            omega
      · cases hloop
        obtain ⟨t, ht⟩ := hchain.head
        cases ht
  · rintro ⟨hlow, hone⟩
    refine ⟨1, [ext], ?_⟩
    simp only [handoffLoop, read16_high, if_pos (And.intro hpos hlow)]
    by_cases hleg : regs ext = 1
    · exact ⟨_, if_pos hleg, .last hone⟩
    · refine ⟨.ok false, ?_, .last hone⟩
      rw [if_neg hleg, if_pos (.inl (hone.resolve_left hleg))]

/-- One capability behind another, which says `4` dwords further. -/
def twoCaps (i : Nat) : UInt8 := if i = 0x12 then 8 else if i = 0x21 then 4 else 0

theorem second_capability_missed :
    ¬∃ rounds l r, xhciBiosHandoff twoCaps (fun _ => 0) rounds = some (l, r) ∧ Chain twoCaps l := by
  rintro ⟨_ | _ | n, l, r, hloop, hchain⟩
  · cases hloop
  · cases hloop
  · have hwalk : xhciBiosHandoff twoCaps (fun _ => 0) (n + 2) = some ([0x20, 0x10], .ok false) := rfl
    cases hloop
    have hfrom : ChainFrom twoCaps 0x20 [0x20, 0x10] := hchain
    cases hfrom with
    | more _ _ hrest =>
      obtain ⟨t, ht⟩ := hrest.head
      exact absurd (cons.inj ht).1 (by decide)

end Saios.Driver.Xhci
