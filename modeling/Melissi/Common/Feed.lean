import Mathlib

/-!
# Folds and machines with output

A loop that updates a state is a fold; one that also collects outputs is a machine fed its inputs
one by one. Each output of a run is emitted by one of its steps, and what every step keeps the whole
run keeps.
-/

namespace Melissi.Common

variable {σ ι ο τ : Type}

/-! ## Folds -/

/-- A fold whose steps keep an invariant keeps it. -/
theorem foldl_invariant {I : σ → Prop} (g : σ → ι → σ) (l : List ι)
    (hg : ∀ s, I s → ∀ i ∈ l, I (g s i)) {s : σ} (hs : I s) : I (l.foldl g s) :=
  List.foldlRecOn l g hs hg

/-- A fold whose steps leave a part of the state alone leaves it alone. -/
theorem foldl_frame (f : σ → τ) (g : σ → ι → σ) (l : List ι) (hg : ∀ s, ∀ i ∈ l, f (g s i) = f s)
    (s : σ) : f (l.foldl g s) = f s :=
  foldl_invariant (I := fun s' => f s' = f s) g l (fun s' h i hi => (hg s' i hi).trans h) rfl

/-! ## Machines with output -/

/-- Feed the inputs in order; the outputs of the steps follow one another. -/
def feed (step : σ → ι → σ × List ο) : σ → List ι → σ × List ο
  | s, [] => (s, [])
  | s, i :: is =>
    let r := step s i
    let t := feed step r.1 is
    (t.1, r.2 ++ t.2)

variable (step : σ → ι → σ × List ο)

@[simp] theorem feed_nil (s : σ) : feed step s [] = (s, []) := rfl

theorem feed_cons (s : σ) (i : ι) (is : List ι) :
    feed step s (i :: is)
      = ((feed step (step s i).1 is).1, (step s i).2 ++ (feed step (step s i).1 is).2) := rfl

theorem feed_append (s : σ) (is js : List ι) :
    feed step s (is ++ js)
      = ((feed step (feed step s is).1 js).1,
        (feed step s is).2 ++ (feed step (feed step s is).1 js).2) := by
  induction is generalizing s with
  | nil => simp
  | cons i is ih => simp [feed_cons, ih]

theorem feed_append_fst (s : σ) (is js : List ι) :
    (feed step s (is ++ js)).1 = (feed step (feed step s is).1 js).1 := by
  rw [feed_append]

/-- The state after one more input. -/
theorem feed_snoc_fst (s : σ) (is : List ι) (i : ι) :
    (feed step s (is ++ [i])).1 = (step (feed step s is).1 i).1 := by
  simp [feed_append, feed_cons]

/-- The outputs after one more input. -/
theorem feed_snoc_snd (s : σ) (is : List ι) (i : ι) :
    (feed step s (is ++ [i])).2 = (feed step s is).2 ++ (step (feed step s is).1 i).2 := by
  simp [feed_append, feed_cons]

/-- The state a machine reaches is a fold of its steps. -/
theorem feed_fst (s : σ) (is : List ι) :
    (feed step s is).1 = is.foldl (fun s i => (step s i).1) s := by
  induction is generalizing s with
  | nil => rfl
  | cons i is ih => exact ih _

/-- A run whose steps keep an invariant of the state keeps it. -/
theorem feed_invariant {I : σ → Prop} (is : List ι) (hstep : ∀ s, I s → ∀ i ∈ is, I (step s i).1)
    {s : σ} (hs : I s) : I (feed step s is).1 := by
  rw [feed_fst]
  exact foldl_invariant _ is hstep hs

/-- A run whose steps leave a part of the state alone leaves it alone. -/
theorem feed_frame (f : σ → τ) (hstep : ∀ s i, f (step s i).1 = f s) (s : σ) (is : List ι) :
    f (feed step s is).1 = f s := by
  rw [feed_fst]
  exact foldl_frame f _ is (fun s i _ => hstep s i) s

/-- A run whose steps keep a relation between the inputs so far and the state keeps it. -/
theorem feed_history {I : List ι → σ → Prop} {s : σ} (h₀ : I [] s)
    (hstep : ∀ is s i, I is s → I (is ++ [i]) (step s i).1) (is : List ι) :
    I is (feed step s is).1 := by
  induction is using List.reverseRecOn with
  | nil => exact h₀
  | append_singleton is i ih =>
    rw [feed_snoc_fst]
    exact hstep is _ i ih

/-- A mark that only some inputs set, and that every other step keeps while its outputs spare it, is
set after a run just when the run was spared since it was last set. -/
theorem feed_mark {P : σ → Prop} {R : σ → ι → Prop} {K : ο → Prop}
    (hkeep : ∀ s i, ¬ R s i → (P (step s i).1 ↔ P s ∧ ∀ o ∈ (step s i).2, K o))
    (hset : ∀ s i, R s i → ¬ P s) (s : σ) (is : List ι) :
    P (feed step s is).1 ↔ (P s ∧ ∀ o ∈ (feed step s is).2, K o)
      ∨ ∃ pre i post, is = pre ++ i :: post ∧ R (feed step s pre).1 i
        ∧ P (feed step s (pre ++ [i])).1
        ∧ ∀ o ∈ (feed step (feed step s (pre ++ [i])).1 post).2, K o := by
  induction is using List.reverseRecOn with
  | nil => simp
  | append_singleton is i ih =>
    by_cases hi : R (feed step s is).1 i
    · -- the last input sets it: it was not set before
      have hno := mt ih.mpr (hset _ i hi)
      rw [not_or] at hno
      constructor
      · exact fun hp => .inr ⟨is, i, [], rfl, hi, hp, by simp⟩
      · rintro (⟨hp, hk⟩ | ⟨pre, j, post, heq, hj, hp, hk⟩)
        · rw [feed_snoc_snd] at hk
          exact absurd ⟨hp, fun o ho => hk o (List.mem_append_left _ ho)⟩ hno.1
        · rcases List.eq_nil_or_concat post with rfl | ⟨post, l, rfl⟩
          · rwa [heq]
          · rw [List.concat_eq_append, ← List.cons_append, ← List.append_assoc] at heq
            obtain ⟨rfl, -⟩ := List.append_inj' heq rfl
            rw [List.concat_eq_append, feed_snoc_snd] at hk
            exact absurd ⟨pre, j, post, rfl, hj, hp, fun o ho =>
              hk o (List.mem_append_left _ ho)⟩ hno.2
    · rw [feed_snoc_fst, feed_snoc_snd, hkeep _ i hi, ih]
      simp only [List.mem_append, or_imp, forall_and]
      -- the outputs since an earlier input end with those of the last one
      have hsnoc : ∀ pre j post, is = pre ++ j :: post →
          (feed step (feed step s (pre ++ [j])).1 (post ++ [i])).2
            = (feed step (feed step s (pre ++ [j])).1 post).2 ++ (step (feed step s is).1 i).2 := by
        rintro pre j post rfl
        rw [feed_snoc_snd, List.append_cons pre j post, feed_append_fst step s (pre ++ [j])]
      constructor
      · rintro ⟨⟨hp, hk⟩ | ⟨pre, j, post, heq, hj, hp, hk⟩, hlast⟩
        · exact .inl ⟨hp, hk, hlast⟩
        · refine .inr ⟨pre, j, post ++ [i], by simp [heq], hj, hp, ?_⟩
          rw [hsnoc pre j post heq]
          simpa [or_imp, forall_and] using ⟨hk, hlast⟩
      · rintro (⟨hp, hk, hlast⟩ | ⟨pre, j, post, heq, hj, hp, hk⟩)
        · exact ⟨.inl ⟨hp, hk⟩, hlast⟩
        · rcases List.eq_nil_or_concat post with rfl | ⟨post, l, rfl⟩
          · obtain ⟨rfl, hij⟩ := List.append_inj' heq rfl
            obtain rfl : i = j := by simpa using hij
            exact absurd hj hi
          · rw [List.concat_eq_append, ← List.cons_append, ← List.append_assoc] at heq
            obtain ⟨his, hil⟩ := List.append_inj' heq rfl
            obtain rfl : i = l := by simpa using hil
            rw [List.concat_eq_append, hsnoc pre j post his] at hk
            simp only [List.mem_append, or_imp, forall_and] at hk
            exact ⟨.inr ⟨pre, j, post, his, hj, hp, hk.1⟩, hk.2⟩

end Melissi.Common
