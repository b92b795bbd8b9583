import Mathlib

/-!
# Polled drivers

A driver is polled with one input after the other; each poll returns the next state and an output,
or aborts. A run goes well when every poll of it does.
-/

namespace Melissi.Common

variable {σ ι ρ ε : Type*} {poll : σ → ι → Except ε (σ × ρ)}

/-- The state after a run of polls and their outputs, unless one aborts. -/
def pollAll (poll : σ → ι → Except ε (σ × ρ)) : σ → List ι → Except ε (σ × List ρ)
  | s, [] => .ok (s, [])
  | s, i :: is => (poll s i).bind fun r => (pollAll poll r.1 is).map fun q => (q.1, r.2 :: q.2)

theorem pollAll_cons {s s'' : σ} {i : ι} {is : List ι} {out : List ρ}
    (h : pollAll poll s (i :: is) = .ok (s'', out)) :
    ∃ s' r out', poll s i = .ok (s', r) ∧ pollAll poll s' is = .ok (s'', out') ∧ out = r :: out' := by
  rw [pollAll] at h
  cases hp : poll s i with
  | error e => simp [hp, Except.bind] at h
  | ok q =>
    obtain ⟨s', r⟩ := q
    simp only [hp, Except.bind] at h
    cases hrest : pollAll poll s' is with
    | error e => simp [hrest, Except.map] at h
    | ok q =>
      simp only [hrest, Except.map, Except.ok.injEq, Prod.mk.injEq] at h
      obtain ⟨rfl, rfl⟩ := h
      exact ⟨s', r, q.2, rfl, hrest, rfl⟩

end Melissi.Common
