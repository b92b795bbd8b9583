import Mathlib

/-!
# Systems that are a sum over keys

Every action names one key. It changes nothing of what belongs to another key, and what it does to
its own depends on that alone. Such a system is the sum of its keys: what belongs to a key after a
run is what the actions on that key alone make of it, a flag is raised where one of them raises it,
and a counter adds up over the keys. Actions on different keys commute.
-/

namespace Melissi.Common

variable {σ α κ ρ M : Type}

/-- A system whose actions each name a key. `same k` says that two states agree in all that belongs
to `k`. -/
structure Keyed (σ α κ : Type) where
  step : σ → α → σ
  key : α → κ
  same : κ → σ → σ → Prop
  equiv : ∀ k, Equivalence (same k)
  own : ∀ {s s' a}, same (key a) s s' → same (key a) (step s a) (step s' a)
  other : ∀ {k s a}, key a ≠ k → same k (step s a) s

namespace Keyed

variable (K : Keyed σ α κ)

def run (s : σ) (as : List α) : σ := as.foldl K.step s

theorem run_snoc (s : σ) (as : List α) (a : α) : K.run s (as ++ [a]) = K.step (K.run s as) a := by
  rw [run, List.foldl_append]
  rfl

/-- What the actions of a run put out, each with its action. -/
def outs (out : σ → α → ρ) : σ → List α → List (α × ρ)
  | _, [] => []
  | s, a :: as => (a, out s a) :: outs out (K.step s a) as

variable [DecidableEq κ]

/-- The actions on `k`. -/
def part (k : κ) (as : List α) : List α := as.filter fun a => decide (K.key a = k)

theorem part_cons (k : κ) (a : α) (as : List α) :
    K.part k (a :: as) = if K.key a = k then a :: K.part k as else K.part k as := by
  rw [part, List.filter_cons]
  simp only [decide_eq_true_eq]
  rfl

theorem part_snoc (k : κ) (as : List α) (a : α) :
    K.part k (as ++ [a]) = if K.key a = k then K.part k as ++ [a] else K.part k as := by
  rw [part, List.filter_append, List.filter_singleton]
  split <;> simp_all [part]

/-- What belongs to a key is what the actions on it make of it. -/
theorem same_run {k : κ} {s s' : σ} (h : K.same k s s') (as : List α) :
    K.same k (K.run s as) (K.run s' (K.part k as)) := by
  induction as generalizing s s' with
  | nil => exact h
  | cons a as ih =>
    rw [part_cons]
    split
    · next hk =>
      subst hk
      exact ih (K.own h)
    · next hk => exact ih ((K.equiv k).trans (K.other hk) h)

/-- What the actions on a key put out depends on the actions on it alone. -/
theorem outs_part {out : σ → α → ρ}
    (hout : ∀ s s' a, K.same (K.key a) s s' → out s a = out s' a) {k : κ} {s s' : σ}
    (h : K.same k s s') (as : List α) :
    ((K.outs out s as).filter fun e => decide (K.key e.1 = k)) = K.outs out s' (K.part k as) := by
  induction as generalizing s s' with
  | nil => rfl
  | cons a as ih =>
    rw [part_cons, outs, List.filter_cons]
    simp only [decide_eq_true_eq]
    split
    · next hk =>
      subst hk
      rw [outs, ih (K.own h), hout s s' a h]
    · next hk => exact ih ((K.equiv k).trans (K.other hk) h)

/-- A flag is raised by a run when the actions on some key raise it. -/
theorem flag_run (flag : σ → Prop) (hit : σ → α → Prop)
    (hflag : ∀ s a, flag (K.step s a) ↔ flag s ∨ hit s a)
    (hhit : ∀ s s' a, K.same (K.key a) s s' → (hit s a ↔ hit s' a)) {s : σ} (h₀ : ¬ flag s)
    (as : List α) : flag (K.run s as) ↔ ∃ k, flag (K.run s (K.part k as)) := by
  induction as using List.reverseRecOn with
  | nil => exact iff_of_false h₀ (fun ⟨_, h⟩ => h₀ h)
  | append_singleton as a ih =>
    have hsame := K.same_run ((K.equiv (K.key a)).refl s) as
    rw [run_snoc, hflag, ih, hhit _ _ a hsame]
    constructor
    · rintro (⟨k, hk⟩ | ha)
      · refine ⟨k, ?_⟩
        rw [part_snoc]
        split
        · rw [run_snoc, hflag]
          exact .inl hk
        · exact hk
      · refine ⟨K.key a, ?_⟩
        rw [part_snoc, if_pos rfl, run_snoc, hflag]
        exact .inr ha
    · rintro ⟨k, hk⟩
      rw [part_snoc] at hk
      split at hk
      · next hkey =>
        subst hkey
        rw [run_snoc, hflag] at hk
        exact hk.imp_left fun hk => ⟨_, hk⟩
      · exact .inl ⟨k, hk⟩

/-- A counter adds up over the keys. -/
theorem sum_run [AddCommMonoid M] (cnt : σ → M) (inc : σ → α → M)
    (hcnt : ∀ s a, cnt (K.step s a) = cnt s + inc s a)
    (hinc : ∀ s s' a, K.same (K.key a) s s' → inc s a = inc s' a) {s : σ} (h₀ : cnt s = 0)
    (keys : Finset κ) (as : List α) (hkeys : ∀ a ∈ as, K.key a ∈ keys) :
    cnt (K.run s as) = ∑ k ∈ keys, cnt (K.run s (K.part k as)) := by
  induction as using List.reverseRecOn with
  | nil => exact h₀.trans (Finset.sum_eq_zero fun _ _ => h₀).symm
  | append_singleton as a ih =>
    have ha : K.key a ∈ keys := hkeys a (by simp)
    have hsame := K.same_run ((K.equiv (K.key a)).refl s) as
    have hterm : ∀ k, cnt (K.run s (K.part k (as ++ [a])))
        = cnt (K.run s (K.part k as)) + if K.key a = k then inc (K.run s as) a else 0 := fun k => by
      rw [part_snoc]
      split
      · next hkey =>
        subst hkey
        rw [run_snoc, hcnt, hinc _ _ a hsame]
      · rw [add_zero]
    rw [run_snoc, hcnt, ih fun b hb => hkeys b (List.mem_append_left _ hb)]
    simp only [hterm]
    rw [Finset.sum_add_distrib, Finset.sum_ite_eq, if_pos ha]

omit [DecidableEq κ] in
/-- Actions on different keys leave the same behind in either order. -/
theorem same_comm {a b : α} (h : K.key a ≠ K.key b) (s : σ) (k : κ) :
    K.same k (K.step (K.step s a) b) (K.step (K.step s b) a) := by
  by_cases ha : K.key a = k
  · subst ha
    exact (K.equiv _).trans (K.other h.symm) (K.own ((K.equiv _).symm (K.other h.symm)))
  · refine (K.equiv k).trans ?_ ((K.equiv k).symm (K.other ha))
    by_cases hb : K.key b = k
    · subst hb
      exact K.own (K.other h)
    · exact (K.equiv k).trans (K.other hb)
        ((K.equiv k).trans (K.other ha) ((K.equiv k).symm (K.other hb)))

end Keyed

end Melissi.Common
