import Mathlib

/-!
# Searching a graph

A loop runs its body until that returns. A search keeps the states it has seen, in the order it saw
them, and visits them in that order; visiting one adds those of its successors that are new. Where
only finitely many states can be reached the search ends, and has then seen exactly those.
-/

namespace Melissi.Common

/-! ## Loops -/

section

variable {σ ρ : Type*}

/-- Run the body until it returns, for as many rounds as there is fuel. -/
def iterate (body : σ → σ ⊕ ρ) : ℕ → σ → Option ρ
  | 0, _ => none
  | fuel + 1, s =>
    match body s with
    | .inl s' => iterate body fuel s'
    | .inr r => some r

/-- A loop whose rounds keep an invariant and lower a measure returns, and what it returns comes
from a state of the invariant. -/
theorem iterate_returns {body : σ → σ ⊕ ρ} {I : σ → Prop} (μ : σ → ℕ)
    (hkeep : ∀ s s', I s → body s = .inl s' → I s' ∧ μ s' < μ s) (s : σ) (hs : I s) :
    ∃ r, (∀ fuel, μ s < fuel → iterate body fuel s = some r) ∧ ∃ s', I s' ∧ body s' = .inr r := by
  induction hμ : μ s using Nat.strong_induction_on generalizing s with
  | _ n ih =>
    subst hμ
    cases hb : body s with
    | inr r =>
      refine ⟨r, fun fuel hf => ?_, s, hs, hb⟩
      obtain ⟨fuel, rfl⟩ := Nat.exists_eq_succ_of_ne_zero (Nat.ne_zero_of_lt hf)
      simp only [iterate, hb]
    | inl s' =>
      obtain ⟨hs', hlt⟩ := hkeep s s' hs hb
      obtain ⟨r, hr, hend⟩ := ih (μ s') hlt s' hs' rfl
      refine ⟨r, fun fuel hf => ?_, hend⟩
      obtain ⟨fuel, rfl⟩ := Nat.exists_eq_succ_of_ne_zero (Nat.ne_zero_of_lt hf)
      simp only [iterate, hb]
      exact hr fuel (by omega)

end

/-! ## What was seen -/

variable {σ : Type*} [DecidableEq σ]

omit [DecidableEq σ] in
/-- A list and its prefix agree up to the end of the prefix. -/
theorem getElem?_prefix_eq {l l' : List σ} (h : l <+: l') {i : ℕ} (hi : i < l.length) :
    l'[i]? = l[i]? := by
  obtain ⟨t, rfl⟩ := h
  exact List.getElem?_append_left hi

/-- See a state: it is listed last if it is new. -/
def see (seen : List σ) (s : σ) : List σ := if s ∈ seen then seen else seen ++ [s]

/-- See states one after the other. -/
def seeAll (seen next : List σ) : List σ := next.foldl see seen

theorem mem_see {seen : List σ} {s t : σ} : t ∈ see seen s ↔ t ∈ seen ∨ t = s := by
  rw [see]
  split
  · next h => exact (or_iff_left_of_imp (by rintro rfl; exact h)).symm
  · simp

theorem nodup_see {seen : List σ} (h : seen.Nodup) (s : σ) : (see seen s).Nodup := by
  rw [see]
  split
  · exact h
  · next hs =>
    rw [List.nodup_append]
    refine ⟨h, List.nodup_singleton s, ?_⟩
    rintro a ha b hb rfl
    exact hs (List.mem_singleton.mp hb ▸ ha)

theorem prefix_see (seen : List σ) (s : σ) : seen <+: see seen s := by
  rw [see]
  split
  · exact List.prefix_refl seen
  · exact List.prefix_append seen [s]

theorem mem_seeAll {seen next : List σ} {t : σ} : t ∈ seeAll seen next ↔ t ∈ seen ∨ t ∈ next := by
  induction next generalizing seen with
  | nil => simp [seeAll]
  | cons s next ih =>
    rw [seeAll, List.foldl_cons, ← seeAll, ih, mem_see, List.mem_cons, or_assoc]

theorem nodup_seeAll {seen : List σ} (h : seen.Nodup) (next : List σ) :
    (seeAll seen next).Nodup :=
  List.foldlRecOn next see h fun _ h s _ => nodup_see h s

theorem prefix_seeAll (seen next : List σ) : seen <+: seeAll seen next :=
  List.foldlRecOn (motive := (seen <+: ·)) next see (List.prefix_refl seen)
    fun _ h s _ => h.trans (prefix_see _ s)

/-- A set of listed elements is as large as the part of the list it holds. -/
theorem ncard_eq_countP {seen : List σ} (h : seen.Nodup) {S : Set σ} {p : σ → Bool}
    (hS : ∀ s, s ∈ S ↔ s ∈ seen ∧ p s) : S.ncard = seen.countP p := by
  have heq : S = ((seen.filter p).toFinset : Set σ) := by
    ext s
    rw [hS, Finset.mem_coe, List.mem_toFinset, List.mem_filter]
  rw [heq, Set.ncard_coe_finset, List.toFinset_card_of_nodup (h.filter p),
    List.countP_eq_length_filter]

/-! ## Visiting -/

/-- One step of the graph. -/
def Next (succ : σ → List σ) (s s' : σ) : Prop := s' ∈ succ s

/-- What holds of the states seen, once the first `n` of them are visited. -/
structure Searched (succ : σ → List σ) (s₀ : σ) (seen : List σ) (n : ℕ) : Prop where
  nodup : seen.Nodup
  start : s₀ ∈ seen
  reached : ∀ s ∈ seen, Relation.ReflTransGen (Next succ) s₀ s
  visited : ∀ i < n, ∀ s, seen[i]? = some s → ∀ s' ∈ succ s, s' ∈ seen
  le : n ≤ seen.length

namespace Searched

variable {succ : σ → List σ} {s₀ : σ} {seen : List σ} {n : ℕ}

omit [DecidableEq σ] in
theorem init (succ : σ → List σ) (s₀ : σ) : Searched succ s₀ [s₀] 0 where
  nodup := List.nodup_singleton s₀
  start := List.mem_singleton_self s₀
  reached s hs := by
    rw [List.mem_singleton.mp hs]
  visited := by simp
  le := Nat.zero_le _

/-- Visit the next state. -/
theorem visit (h : Searched succ s₀ seen n) {s : σ} (hs : seen[n]? = some s) :
    Searched succ s₀ (seeAll seen (succ s)) (n + 1) := by
  have hlt : n < seen.length := (List.getElem?_eq_some_iff.mp hs).1
  have hlen := (prefix_seeAll seen (succ s)).length_le
  refine ⟨nodup_seeAll h.nodup _, mem_seeAll.mpr (.inl h.start), fun t ht => ?_,
    fun i hi t ht t' ht' => ?_, by omega⟩
  · rcases mem_seeAll.mp ht with ht | ht
    · exact h.reached t ht
    · exact (h.reached s (List.mem_of_getElem? hs)).tail ht
  · rw [getElem?_prefix_eq (prefix_seeAll seen (succ s)) (by omega)] at ht
    rw [mem_seeAll]
    rcases Nat.lt_succ_iff_lt_or_eq.mp hi with hi | rfl
    · exact .inl (h.visited i hi t ht t' ht')
    · rw [hs, Option.some.injEq] at ht
      exact .inr (ht ▸ ht')

/-- Nothing is seen that is not in a set of all that can be reached. -/
theorem length_le (h : Searched succ s₀ seen n) {F : Finset σ}
    (hF : ∀ s, Relation.ReflTransGen (Next succ) s₀ s → s ∈ F) : seen.length ≤ F.card := by
  rw [← List.toFinset_card_of_nodup h.nodup]
  exact Finset.card_le_card fun s hs => hF s (h.reached s (List.mem_toFinset.mp hs))

omit [DecidableEq σ] in
/-- With all of them visited, the states seen are those that can be reached. -/
theorem mem_iff (h : Searched succ s₀ seen seen.length) {s : σ} :
    s ∈ seen ↔ Relation.ReflTransGen (Next succ) s₀ s := by
  refine ⟨h.reached s, fun hr => ?_⟩
  induction hr with
  | refl => exact h.start
  | tail _ hstep ih =>
    obtain ⟨i, hi⟩ := List.getElem?_of_mem ih
    exact h.visited i (List.getElem?_eq_some_iff.mp hi).1 _ hi _ hstep

end Searched

end Melissi.Common
