import Mathlib

/-!
# Keeping the best

A loop over candidates that keeps the best one so far, and stops at the first improvement that is
enough. What it returns is a candidate with its value, as good as any where nothing was enough, and
otherwise the first that is.
-/

namespace Melissi.Common

variable {α β : Type*} [LinearOrder β] (value : α → β) (enough : β)

/-- Try the candidates in turn, from the best so far and its value. -/
def keepBest : List α → α × β → α × β
  | [], best => best
  | a :: l, best =>
    if best.2 < value a then
      if enough ≤ value a then (a, value a) else keepBest l (a, value a)
    else keepBest l best

variable {value enough} {l : List α} {best : α × β}

/-- What is kept is what was there before, or a candidate with its value. -/
theorem keepBest_cases : keepBest value enough l best = best
    ∨ ∃ a ∈ l, keepBest value enough l best = (a, value a) := by
  induction l generalizing best with
  | nil => exact .inl rfl
  | cons a l ih =>
    rw [keepBest]
    split_ifs
    · exact .inr ⟨a, List.mem_cons_self, rfl⟩
    · obtain hkept | ⟨a', ha', hkept⟩ := @ih (a, value a)
      · exact .inr ⟨a, List.mem_cons_self, hkept⟩
      · exact .inr ⟨a', List.mem_cons_of_mem _ ha', hkept⟩
    · obtain hkept | ⟨a', ha', hkept⟩ := @ih best
      · exact .inl hkept
      · exact .inr ⟨a', List.mem_cons_of_mem _ ha', hkept⟩

/-- A search may start from its first candidate, untried, under any value that this one reaches. -/
theorem keepBest_start {a : α} {b : β} (hb : b ≤ value a) :
    ∃ a' ∈ a :: l, keepBest value enough (a :: l) (a, b) = (a', value a') := by
  -- once the first is tried its value is right
  have hrest : ∃ a' ∈ a :: l, keepBest value enough l (a, value a) = (a', value a') := by
    obtain hkept | ⟨a', ha', hkept⟩ := @keepBest_cases _ _ _ value enough l (a, value a)
    · exact ⟨a, List.mem_cons_self, hkept⟩
    · exact ⟨a', List.mem_cons_of_mem _ ha', hkept⟩
  rw [keepBest]
  split_ifs with hlt
  · exact ⟨a, List.mem_cons_self, rfl⟩
  · exact hrest
  · rwa [le_antisymm hb (not_lt.mp hlt)]

/-- If what is kept is not enough, nothing tried is better. -/
theorem le_keepBest (h : (keepBest value enough l best).2 < enough) :
    best.2 ≤ (keepBest value enough l best).2
      ∧ ∀ a ∈ l, value a ≤ (keepBest value enough l best).2 := by
  induction l generalizing best with
  | nil => exact ⟨le_rfl, by simp⟩
  | cons a l ih =>
    rw [keepBest] at h ⊢
    split_ifs at h ⊢ with hlt henough
    · exact absurd henough (not_le.mpr h)
    · obtain ⟨ha, hl⟩ := ih h
      exact ⟨hlt.le.trans ha, List.forall_mem_cons.mpr ⟨ha, hl⟩⟩
    · obtain ⟨hbest, hl⟩ := ih h
      exact ⟨hbest, List.forall_mem_cons.mpr ⟨(not_lt.mp hlt).trans hbest, hl⟩⟩

/-- The first candidate that is enough is an improvement on all before it, and ends the search. -/
theorem keepBest_first {pre post : List α} {a : α} (hbest : best.2 < enough)
    (hpre : ∀ a' ∈ pre, value a' < enough) (ha : enough ≤ value a) :
    keepBest value enough (pre ++ a :: post) best = (a, value a) := by
  induction pre generalizing best with
  | nil => rw [List.nil_append, keepBest, if_pos (hbest.trans_le ha), if_pos ha]
  | cons a' pre ih =>
    obtain ⟨ha', hpre⟩ := List.forall_mem_cons.mp hpre
    rw [List.cons_append, keepBest, if_neg (not_le.mpr ha')]
    split_ifs
    · exact ih ha' hpre
    · exact ih hbest hpre

end Melissi.Common
