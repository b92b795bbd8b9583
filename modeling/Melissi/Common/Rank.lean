import Mathlib

/-!
# Transition systems with a rank

The rules for a relation between states: an invariant holds of whatever is reachable, and a rank
that every step lowers rules out infinite runs and cycles. Ranks here count the elements of a finite
set that satisfy a predicate; the last section says how such a count moves when the predicate does.
-/

namespace Melissi.Common

variable {σ β : Type} {step : σ → σ → Prop}

/-! ## Invariants -/

/-- What holds at the start and is kept by every step holds of every state reached. -/
theorem invariant_of_reachable {I : σ → Prop} {s₀ s : σ}
    (hstep : ∀ s s', I s → step s s' → I s') (h₀ : I s₀)
    (h : Relation.ReflTransGen step s₀ s) : I s := by
  induction h with
  | refl => exact h₀
  | tail _ hs ih => exact hstep _ _ ih hs

/-! ## Ranks -/

section Rank

variable [LT β] {I : σ → Prop} (μ : σ → β)

/-- A rank that every step lowers is lowered by every nonempty run. -/
theorem rank_lt_of_transGen [IsTrans β (· < ·)] (hstep : ∀ s s', I s → step s s' → I s')
    (hμ : ∀ s s', I s → step s s' → μ s' < μ s) {s s' : σ} (hs : I s)
    (h : Relation.TransGen step s s') : I s' ∧ μ s' < μ s := by
  induction h with
  | single h => exact ⟨hstep _ _ hs h, hμ _ _ hs h⟩
  | tail _ h ih => exact ⟨hstep _ _ ih.1 h, IsTrans.trans _ _ _ (hμ _ _ ih.1 h) ih.2⟩

/-- No run returns to where it started. -/
theorem not_transGen_self [IsTrans β (· < ·)] [Std.Irrefl (α := β) (· < ·)]
    (hstep : ∀ s s', I s → step s s' → I s')
    (hμ : ∀ s s', I s → step s s' → μ s' < μ s) {s : σ} (hs : I s) :
    ¬ Relation.TransGen step s s := fun h =>
  irrefl (μ s) (rank_lt_of_transGen μ hstep hμ hs h).2

/-- No run is infinite. -/
theorem no_infinite_run [WellFoundedLT β] (hstep : ∀ s s', I s → step s s' → I s')
    (hμ : ∀ s s', I s → step s s' → μ s' < μ s) (w : ℕ → σ) (h₀ : I (w 0)) :
    ¬ ∀ n, step (w n) (w (n + 1)) := by
  intro hw
  have hI : ∀ n, I (w n) := by
    intro n
    induction n with
    | zero => exact h₀
    | succ n ih => exact hstep _ _ ih (hw n)
  obtain ⟨n, hn⟩ := WellFounded.not_rel_apply_succ (r := (· < · : β → β → Prop)) (μ ∘ w)
  exact hn (hμ _ _ (hI n) (hw n))

/-- Every state reaches one with no further step. -/
theorem exists_end [WellFoundedLT β] (hstep : ∀ s s', I s → step s s' → I s')
    (hμ : ∀ s s', I s → step s s' → μ s' < μ s) {s : σ} (hs : I s) :
    ∃ s', Relation.ReflTransGen step s s' ∧ ∀ s'', ¬ step s' s'' := by
  induction hm : μ s using WellFoundedLT.induction generalizing s with
  | ind b ih =>
    subst hm
    by_cases hend : ∃ s', step s s'
    · obtain ⟨s', hs'⟩ := hend
      obtain ⟨t, ht, hnone⟩ := ih (μ s') (hμ _ _ hs hs') (hstep _ _ hs hs') rfl
      exact ⟨t, .head hs' ht, hnone⟩
    · exact ⟨s, .refl, fun s' h => hend ⟨s', h⟩⟩

end Rank

/-! ## What is kept beside a state -/

section Beside

variable {τ : Type} [LT β] [WellFoundedLT β] {R : σ → τ → Prop} (μ : σ → τ → β)

/-- If what is kept beside a state follows every step and a rank of the two drops, no run from the
state goes on for ever. -/
theorem acc_of_follows
    (hstep : ∀ s t s', R s t → step s s' → ∃ t', R s' t' ∧ μ s' t' < μ s t) {s : σ} {t : τ}
    (h : R s t) : Acc (Function.swap step) s := by
  induction hm : μ s t using WellFoundedLT.induction generalizing s t with
  | ind b ih =>
    subst hm
    refine ⟨_, fun s' hs => ?_⟩
    obtain ⟨t', hR, hlt⟩ := hstep s t s' h hs
    exact ih _ hlt hR rfl

end Beside

/-- From an accessible state no run is infinite. -/
theorem no_infinite_run_of_acc {s : σ} (h : Acc (Function.swap step) s) (w : ℕ → σ)
    (h₀ : w 0 = s) : ¬ ∀ n, step (w n) (w (n + 1)) := by
  induction h generalizing w with
  | intro s _ ih =>
    intro hw
    exact ih (w 1) (h₀ ▸ hw 0) (fun n => w (n + 1)) rfl fun n => hw (n + 1)

/-! ## Counting -/

section Count

open Classical

variable {α : Type}

/-- How many elements of `s` satisfy `P`. -/
noncomputable def count (s : Finset α) (P : α → Prop) : ℕ := (s.filter P).card

theorem count_eq_zero {s : Finset α} {P : α → Prop} (h : ∀ a ∈ s, ¬ P a) : count s P = 0 :=
  Finset.card_eq_zero.mpr (Finset.filter_eq_empty_iff.mpr h)

theorem count_le_card (s : Finset α) (P : α → Prop) : count s P ≤ s.card := Finset.card_filter_le _ _

theorem card_le_count {s t : Finset α} {P : α → Prop} (h : ∀ a ∈ t, a ∈ s ∧ P a) :
    t.card ≤ count s P :=
  Finset.card_le_card fun a ha => Finset.mem_filter.mpr (h a ha)

/-- The count grows with the predicate. -/
theorem count_le {s : Finset α} {P Q : α → Prop} (h : ∀ a ∈ s, Q a → P a) :
    count s Q ≤ count s P := by
  refine Finset.card_le_card fun a ha => ?_
  obtain ⟨ha, hq⟩ := Finset.mem_filter.mp ha
  exact Finset.mem_filter.mpr ⟨ha, h a ha hq⟩

/-- It grows by at most one when at most one element is new. -/
theorem count_le_succ {s : Finset α} {P Q : α → Prop} (a : α)
    (h : ∀ b ∈ s, Q b → P b ∨ b = a) : count s Q ≤ count s P + 1 := by
  refine le_trans (Finset.card_le_card (t := insert a (s.filter P)) fun b hb => ?_)
    (Finset.card_insert_le _ _)
  obtain ⟨hb, hq⟩ := Finset.mem_filter.mp hb
  rcases h b hb hq with hp | rfl
  · exact Finset.mem_insert_of_mem (Finset.mem_filter.mpr ⟨hb, hp⟩)
  · exact Finset.mem_insert_self _ _

/-- It drops when an element leaves and none enters. -/
theorem count_lt {s : Finset α} {P Q : α → Prop} (a : α) (ha : a ∈ s) (hp : P a) (hq : ¬ Q a)
    (h : ∀ b ∈ s, Q b → P b) : count s Q < count s P := by
  refine Finset.card_lt_card ⟨fun b hb => ?_, fun hsub => ?_⟩
  · obtain ⟨hb, hqb⟩ := Finset.mem_filter.mp hb
    exact Finset.mem_filter.mpr ⟨hb, h b hb hqb⟩
  · exact hq (Finset.mem_filter.mp (hsub (Finset.mem_filter.mpr ⟨ha, hp⟩))).2

/-- The count depends on the predicate only. -/
theorem count_congr {s : Finset α} {P Q : α → Prop} (h : ∀ a ∈ s, P a ↔ Q a) :
    count s P = count s Q :=
  le_antisymm (count_le fun a ha => (h a ha).mp) (count_le fun a ha => (h a ha).mpr)

end Count

end Melissi.Common
