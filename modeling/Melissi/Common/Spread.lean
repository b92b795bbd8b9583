import Mathlib

/-!
# The spread of a counter

The largest difference of a counter over a set of indices. Counting up where the counter is least
keeps the spread within what it was, or within one.
-/

namespace Melissi.Common

variable {ι : Type} {f : ι → ℕ} {H : Finset ι}

/-- The largest difference of `f` over `H`. -/
def spread (f : ι → ℕ) (H : Finset ι) : ℕ := (H ×ˢ H).sup fun e => f e.1 - f e.2

theorem spread_le_iff {d : ℕ} : spread f H ≤ d ↔ ∀ p ∈ H, ∀ q ∈ H, f p ≤ f q + d := by
  rw [spread, Finset.sup_le_iff]
  constructor
  · intro h p hp q hq
    have := h (p, q) (Finset.mem_product.mpr ⟨hp, hq⟩)
    dsimp only at this
    omega
  · rintro h ⟨p, q⟩ hpq
    obtain ⟨hp, hq⟩ := Finset.mem_product.mp hpq
    have := h p hp q hq
    dsimp only
    omega

/-- Any two values lie within the spread. -/
theorem le_add_spread {p q : ι} (hp : p ∈ H) (hq : q ∈ H) : f p ≤ f q + spread f H :=
  spread_le_iff.mp le_rfl p hp q hq

section Bump

variable [DecidableEq ι]

/-- Count `p` up by one. -/
def bump (f : ι → ℕ) (p : ι) : ι → ℕ := fun q => f q + if p = q then 1 else 0

/-- Where the counter is least, counting up keeps the spread, or makes it one. -/
theorem spread_bump_le {p : ι} (hmin : ∀ q ∈ H, f p ≤ f q) :
    spread (bump f p) H ≤ max (spread f H) 1 := by
  rw [spread_le_iff]
  intro q hq r hr
  have hold := le_add_spread (f := f) hq hr
  have hleast := hmin r hr
  rw [bump, bump]
  by_cases hpq : p = q
  · subst hpq
    rw [if_pos rfl]
    split <;> omega
  · rw [if_neg hpq]
    split <;> omega

end Bump

end Melissi.Common
