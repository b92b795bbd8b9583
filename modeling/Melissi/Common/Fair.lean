import Melissi.Common.Rank

/-!
# Behaviours and weak fairness

A behaviour takes steps of a relation or leaves the state as it is, for ever. Where no steps go on
for ever it is still from some point on, and if it is weakly fair to actions that make up the
relation, it is still only where no step is left. Every run that has come to an end is the beginning
of such a behaviour.
-/

namespace Melissi.Common

variable {σ ι : Type} {next : σ → σ → Prop}

/-- Each step is one of the relation, or changes nothing. -/
def Behaviour (next : σ → σ → Prop) (run : ℕ → σ) : Prop :=
  ∀ n, run (n + 1) = run n ∨ next (run n) (run (n + 1))

/-- An action that can be taken from some point on is taken after it. -/
def WeaklyFair (act : σ → σ → Prop) (run : ℕ → σ) : Prop :=
  ∀ n, (∀ m, n ≤ m → ∃ s, act (run m) s) → ∃ m, n ≤ m ∧ act (run m) (run (m + 1))

/-- What a behaviour has passed through it reaches. -/
theorem Behaviour.reaches {run : ℕ → σ} (h : Behaviour next run) (n : ℕ) :
    Relation.ReflTransGen next (run 0) (run n) := by
  induction n with
  | zero => exact .refl
  | succ n ih =>
    rcases h n with hn | hn
    · rw [hn]
      exact ih
    · exact ih.tail hn

theorem Behaviour.drop {run : ℕ → σ} (h : Behaviour next run) (k : ℕ) :
    Behaviour next fun n => run (k + n) := fun n => h (k + n)

/-- Where no steps go on for ever, a behaviour is still from some point on. -/
theorem Behaviour.still {run : ℕ → σ} (h : Behaviour next run)
    (hacc : Acc (Function.swap next) (run 0)) : ∃ n, ∀ m, n ≤ m → run m = run n := by
  generalize hs : run 0 = s at hacc
  induction hacc generalizing run with
  | intro s _ ih =>
    subst hs
    by_cases hmoves : ∃ n, run n ≠ run 0
    · -- the step that leaves the first state
      obtain ⟨n, hn⟩ := hmoves
      have hfirst : ∃ k, run k = run 0 ∧ next (run 0) (run (k + 1)) := by
        by_contra hno
        refine hn ?_
        induction n with
        | zero => rfl
        | succ n ihn =>
          have hprev : run n = run 0 := by
            by_contra hne
            exact hne (ihn hne)
          refine (h n).elim (fun heq => heq.trans hprev) fun hstep => ?_
          exact absurd ⟨n, hprev, hprev ▸ hstep⟩ hno
      obtain ⟨k, -, hk⟩ := hfirst
      obtain ⟨m, hm⟩ := ih (run (k + 1)) hk (h.drop (k + 1)) rfl
      refine ⟨k + 1 + m, fun j hj => ?_⟩
      obtain ⟨i, rfl⟩ := Nat.exists_eq_add_of_le hj
      simpa [Nat.add_assoc] using hm (m + i) (Nat.le_add_right m i)
    · exact ⟨0, fun m _ => not_not.mp fun hm => hmoves ⟨m, hm⟩⟩

/-- Where no steps go on for ever, none do from whatever is reached. -/
theorem acc_of_reaches {s t : σ} (hacc : Acc (Function.swap next) s)
    (h : Relation.ReflTransGen next s t) : Acc (Function.swap next) t := by
  induction h with
  | refl => exact hacc
  | tail _ hstep ih => exact ih.inv hstep

/-- A behaviour comes to rest where none of the actions it is fair to is left. -/
theorem Behaviour.comes_to_rest {run : ℕ → σ} (h : Behaviour next run)
    (hacc : Acc (Function.swap next) (run 0)) {act : ι → σ → σ → Prop}
    (hact : ∀ i s s', act i s s' → next s s') (hfair : ∀ i, WeaklyFair (act i) run) :
    ∃ n, (∀ m, n ≤ m → run m = run n) ∧ ∀ i s, ¬ act i (run n) s := by
  obtain ⟨n, hn⟩ := h.still hacc
  refine ⟨n, hn, fun i s hi => ?_⟩
  obtain ⟨m, hm, hstep⟩ := hfair i n fun m hm => ⟨s, (hn m hm).symm ▸ hi⟩
  rw [hn m hm, hn (m + 1) (hm.trans (Nat.le_succ m))] at hstep
  -- a step that changes nothing could be taken for ever
  have hself : next (run n) (run n) := hact i _ _ hstep
  exact no_infinite_run_of_acc (acc_of_reaches hacc (h.reaches n)) (fun _ => run n) rfl fun _ => hself

/-- A behaviour that is fair to the actions a relation is made of comes to its end. -/
theorem Behaviour.comes_to_end {run : ℕ → σ} (h : Behaviour next run)
    (hacc : Acc (Function.swap next) (run 0)) {act : ι → σ → σ → Prop}
    (hact : ∀ s s', next s s' ↔ ∃ i, act i s s') (hfair : ∀ i, WeaklyFair (act i) run) :
    ∃ n, (∀ m, n ≤ m → run m = run n) ∧ ∀ s, ¬ next (run n) s := by
  obtain ⟨n, hn, hrest⟩ := h.comes_to_rest hacc (fun i s s' hi => (hact s s').mpr ⟨i, hi⟩) hfair
  exact ⟨n, hn, fun s hs => ((hact _ _).mp hs).elim fun i hi => hrest i s hi⟩

/-- A run that has come to its end is the beginning of a behaviour that is fair to all its
actions. -/
theorem exists_behaviour {s t : σ} (h : Relation.ReflTransGen next s t)
    (hend : ∀ s', ¬ next t s') : ∃ run : ℕ → σ, run 0 = s ∧ Behaviour next run
      ∧ (∀ act : σ → σ → Prop, (∀ a b, act a b → next a b) → WeaklyFair act run)
      ∧ ∃ n, ∀ m, n ≤ m → run m = t := by
  induction h using Relation.ReflTransGen.head_induction_on with
  | refl =>
    refine ⟨fun _ => t, rfl, fun _ => .inl rfl, fun act hact n hen => ?_, 0, fun _ _ => rfl⟩
    obtain ⟨s', hs'⟩ := hen n le_rfl
    exact absurd (hact _ _ hs') (hend s')
  | @head a b hstep _ ih =>
    obtain ⟨run, hzero, hrun, hfair, n, hn⟩ := ih
    refine ⟨fun k => k.casesOn a run, rfl, fun k => ?_, fun act hact k hen => ?_, n + 1,
      fun m hm => ?_⟩
    · cases k with
      | zero => exact .inr (show next a (run 0) from hzero.symm ▸ hstep)
      | succ k => exact hrun k
    · obtain ⟨m, hm, hstep'⟩ := hfair act hact k fun m hm => hen (m + 1) (by omega)
      exact ⟨m + 1, by omega, hstep'⟩
    · obtain ⟨m, rfl⟩ : ∃ m', m = m' + 1 := ⟨m - 1, by omega⟩
      exact hn m (by omega)

/-! ## Specifications -/

section Specification

variable {act : ι → σ → σ → Prop} {owed : ι → Prop} {s₀ : σ}

/-- A step of one of the actions. -/
def AnyOf (act : ι → σ → σ → Prop) (s s' : σ) : Prop := ∃ i, act i s s'

/-- A behaviour of the actions from a state, weakly fair to those that are owed. -/
structure FairRun (act : ι → σ → σ → Prop) (owed : ι → Prop) (s₀ : σ) (run : ℕ → σ) : Prop where
  starts : run 0 = s₀
  behaviour : Behaviour (AnyOf act) run
  fair : ∀ i, owed i → WeaklyFair (act i) run

theorem FairRun.reaches {run : ℕ → σ} (h : FairRun act owed s₀ run) (n : ℕ) :
    Relation.ReflTransGen (AnyOf act) s₀ (run n) := by
  have hreach := h.behaviour.reaches n
  rwa [h.starts] at hreach

/-- Where no steps go on for ever a fair run comes to rest, and owes no step there. -/
theorem FairRun.rests {run : ℕ → σ} (h : FairRun act owed s₀ run)
    (hacc : Acc (Function.swap (AnyOf act)) s₀) :
    ∃ n, (∀ m, n ≤ m → run m = run n) ∧ ∀ i, owed i → ∀ s, ¬ act i (run n) s := by
  have hact : ∀ (i : {i // owed i}) (s s' : σ), act i.1 s s' → AnyOf act s s' :=
    fun i _ _ hi => ⟨i.1, hi⟩
  obtain ⟨n, hstill, hrest⟩ := h.behaviour.comes_to_rest (h.starts ▸ hacc) hact
    fun i => h.fair i.1 i.2
  exact ⟨n, hstill, fun i hi => hrest ⟨i, hi⟩⟩

/-- A run to an end is the beginning of a fair one. -/
theorem exists_fairRun {t : σ} (h : Relation.ReflTransGen (AnyOf act) s₀ t)
    (hend : ∀ s', ¬ AnyOf act t s') :
    ∃ run, FairRun act owed s₀ run ∧ ∃ n, ∀ m, n ≤ m → run m = t := by
  obtain ⟨run, hzero, hrun, hfair, hlast⟩ := exists_behaviour h hend
  exact ⟨run, ⟨hzero, hrun, fun i _ => hfair _ fun _ _ hs => ⟨i, hs⟩⟩, hlast⟩

variable {β : Type} [LT β] [WellFoundedLT β] {I : σ → Prop} (μ : σ → β)

/-- A rank that every step lowers lets no steps go on for ever. -/
theorem acc_of_rank (hstep : ∀ s s', I s → AnyOf act s s' → I s')
    (hμ : ∀ s s', I s → AnyOf act s s' → μ s' < μ s) (h₀ : I s₀) :
    Acc (Function.swap (AnyOf act)) s₀ :=
  acc_of_follows (R := fun s (_ : Unit) => I s) (fun s _ => μ s)
    (fun s t s' hi hs => ⟨t, hstep s s' hi hs, hμ s s' hi hs⟩) (t := ()) h₀

/-- Where a rank falls there is a fair run. -/
theorem exists_fairRun_of_rank (hstep : ∀ s s', I s → AnyOf act s s' → I s')
    (hμ : ∀ s s', I s → AnyOf act s s' → μ s' < μ s) (h₀ : I s₀) :
    ∃ run, FairRun act owed s₀ run := by
  obtain ⟨t, hreach, hend⟩ := exists_end μ hstep hμ h₀
  exact (exists_fairRun hreach hend).elim fun run h => ⟨run, h.1⟩

end Specification

end Melissi.Common
