import Melissi.Common.AppendLog
import Melissi.Common.Fair

/-!
# The specification of interval settlement

`IntervalSettlement.tla`: peers offer the entries of their logs above the interval kept for them, an
entry is stored or rejected only while it is offered, and an interval advances over entries that
have settled. The two choices of the design are knobs. With the gate on, every fair behaviour ends
in one state, the one in which all that can be stored is; with it off, some fair behaviour forgets
everything before it is stored.
-/

namespace Melissi.IntervalSettlement

open Melissi.Common

variable {P C : Type}

/-- What is fixed: what each peer offers, in the order of its positions, which entries can never be
stored, and whether an advance waits for settlement and a rejection settles. -/
structure Instance (P C : Type) where
  log : P → AppendLog C
  bad : Set C
  settledOnly : Bool
  rejectSettles : Bool

/-- The interval kept for each peer, what has been stored, and what has been rejected. -/
structure Vars (P C : Type) where
  intv : P → ℕ
  stored : Set C
  rejected : Set C

/-- Nothing is covered and nothing rejected. -/
def init (held : Set C) : Vars P C := ⟨fun _ => 0, held, ∅⟩

/-- What is offered by someone. -/
def Instance.chunks (K : Instance P C) : Set C := {c | ∃ p b, (b, c) ∈ (K.log p).entries}

/-- What an advance may forget. -/
def Settled (K : Instance P C) (s : Vars P C) (c : C) : Prop :=
  c ∈ s.stored ∨ K.rejectSettles ∧ c ∈ s.rejected

/-- What is still offered: some peer names it above the interval kept for it. -/
def Visible (K : Instance P C) (s : Vars P C) (c : C) : Prop :=
  ∃ p b, (b, c) ∈ (K.log p).entries ∧ s.intv p < b

section Actions

variable [DecidableEq P]

def Store (K : Instance P C) (c : C) (s s' : Vars P C) : Prop :=
  c ∉ K.bad ∧ c ∉ s.stored ∧ Visible K s c ∧ s' = { s with stored := insert c s.stored }

def Reject (K : Instance P C) (c : C) (s s' : Vars P C) : Prop :=
  c ∈ K.bad ∧ c ∉ s.rejected ∧ Visible K s c ∧ s' = { s with rejected := insert c s.rejected }

/-- The interval of `p` may advance to `x`. -/
def Passable (K : Instance P C) (s : Vars P C) (p : P) (x : ℕ) : Prop :=
  s.intv p < x ∧ x ≤ (K.log p).head ∧ (K.settledOnly → ∀ b c, (b, c) ∈ (K.log p).entries →
    s.intv p < b → b ≤ x → Settled K s c)

def Advance (K : Instance P C) (p : P) (x : ℕ) (s s' : Vars P C) : Prop :=
  Passable K s p x ∧ s' = { s with intv := Function.update s.intv p x }

/-- The actions that a behaviour is fair to. -/
inductive Act (P C : Type)
  | store (c : C)
  | reject (c : C)
  | advance (p : P)

def Act.Step (K : Instance P C) : Act P C → Vars P C → Vars P C → Prop
  | .store c => Store K c
  | .reject c => Reject K c
  | .advance p => fun s s' => ∃ x, Advance K p x s s'

def Next (K : Instance P C) (s s' : Vars P C) : Prop := ∃ a : Act P C, a.Step K s s'

/-- A behaviour from `init held` that is weakly fair to every action. -/
structure Spec (K : Instance P C) (held : Set C) (run : ℕ → Vars P C) : Prop where
  starts : run 0 = init held
  behaviour : Behaviour (Next K) run
  fair : ∀ a : Act P C, WeaklyFair (a.Step K) run

end Actions

/-! ## What every run keeps -/

/-- An interval never covers an entry that is neither stored nor rejected. -/
def NoDrop (K : Instance P C) (s : Vars P C) : Prop :=
  ∀ p b c, (b, c) ∈ (K.log p).entries → b ≤ s.intv p → c ∈ s.stored ∪ s.rejected

/-- The types of the variables. -/
structure TypeOK (K : Instance P C) (held : Set C) (s : Vars P C) : Prop where
  intv : ∀ p, s.intv p ≤ (K.log p).head
  stored : s.stored ⊆ held ∪ K.chunks \ K.bad
  rejected : s.rejected ⊆ K.chunks ∩ K.bad
  kept : held ⊆ s.stored

/-- Whatever an interval covers has settled. -/
def Covers (K : Instance P C) (s : Vars P C) : Prop :=
  ∀ p b c, (b, c) ∈ (K.log p).entries → b ≤ s.intv p → Settled K s c

variable {K : Instance P C} {held : Set C} {s s' : Vars P C}

theorem Visible.mem_chunks {c : C} (h : Visible K s c) : c ∈ K.chunks :=
  h.elim fun p h => h.elim fun b h => ⟨p, b, h.1⟩

theorem Covers.noDrop (h : Covers K s) : NoDrop K s := fun p b c hc hb =>
  (h p b c hc hb).imp_right And.right

theorem typeOK_init : TypeOK K held (init held) where
  intv _ := Nat.zero_le _
  stored _ hc := .inl hc
  rejected _ hc := hc.elim
  kept _ hc := hc

theorem covers_init : Covers K (init held) := fun p _ _ hc hb =>
  absurd ((K.log p).pos_of_mem hc) (Nat.not_lt.mpr hb)

section Steps

variable [DecidableEq P]

theorem TypeOK.next (h : TypeOK K held s) (hs : Next K s s') : TypeOK K held s' := by
  obtain ⟨a, ha⟩ := hs
  cases a with
  | store c =>
    obtain ⟨hgood, -, hvis, rfl⟩ := ha
    refine ⟨h.intv, Set.insert_subset (.inr ⟨hvis.mem_chunks, hgood⟩) h.stored, h.rejected, ?_⟩
    exact h.kept.trans (Set.subset_insert _ _)
  | reject c =>
    obtain ⟨hbad, -, hvis, rfl⟩ := ha
    exact ⟨h.intv, h.stored, Set.insert_subset ⟨hvis.mem_chunks, hbad⟩ h.rejected, h.kept⟩
  | advance p =>
    obtain ⟨x, ⟨-, hx, -⟩, rfl⟩ := ha
    refine ⟨fun q => ?_, h.stored, h.rejected, h.kept⟩
    by_cases hq : q = p
    · subst hq
      simpa using hx
    · simpa [Function.update_of_ne hq] using h.intv q

/-- With the gate on, a step covers only what has settled. -/
theorem Covers.next (h : Covers K s) (hgate : K.settledOnly) (hs : Next K s s') : Covers K s' := by
  obtain ⟨a, ha⟩ := hs
  cases a with
  | store c =>
    obtain ⟨-, -, -, rfl⟩ := ha
    exact fun p b d hd hb => (h p b d hd hb).imp_left (Set.mem_insert_of_mem c)
  | reject c =>
    obtain ⟨-, -, -, rfl⟩ := ha
    exact fun p b d hd hb => (h p b d hd hb).imp_right (And.imp_right (Set.mem_insert_of_mem c))
  | advance p =>
    obtain ⟨x, ⟨-, -, hset⟩, rfl⟩ := ha
    intro q b d hd hb
    dsimp only at hb
    by_cases hq : q = p
    · subst hq
      rw [Function.update_self] at hb
      by_cases hle : b ≤ s.intv q
      · exact h q b d hd hle
      · exact hset hgate b d hd (Nat.lt_of_not_le hle) hb
    · rw [Function.update_of_ne hq] at hb
      exact h q b d hd hb

/-- No step takes anything back. -/
theorem next_mono (hs : Next K s s') :
    (∀ p, s.intv p ≤ s'.intv p) ∧ s.stored ⊆ s'.stored ∧ s.rejected ⊆ s'.rejected := by
  obtain ⟨a, ha⟩ := hs
  cases a with
  | store c =>
    obtain ⟨-, -, -, rfl⟩ := ha
    exact ⟨fun _ => le_rfl, Set.subset_insert _ _, subset_rfl⟩
  | reject c =>
    obtain ⟨-, -, -, rfl⟩ := ha
    exact ⟨fun _ => le_rfl, subset_rfl, Set.subset_insert _ _⟩
  | advance p =>
    obtain ⟨x, ⟨hlt, -, -⟩, rfl⟩ := ha
    refine ⟨fun q => ?_, subset_rfl, subset_rfl⟩
    by_cases hq : q = p
    · subst hq
      simpa using hlt.le
    · simp [Function.update_of_ne hq]

end Steps

/-! ## Where no step is left -/

/-- Where no step is left and all that is covered has settled, everything that can be stored is,
everything that cannot be is rejected, and each interval has advanced to the last position below
which everything settles. -/
theorem drained [DecidableEq P] (ht : TypeOK K held s) (hc : Covers K s)
    (hheld : Disjoint held K.bad) (hend : ∀ s', ¬ Next K s s') :
    s.stored = held ∪ K.chunks \ K.bad ∧ s.rejected = K.chunks ∩ K.bad
      ∧ ∀ p, IsGreatest {x | x ≤ (K.log p).head ∧ ∀ b c, (b, c) ∈ (K.log p).entries → b ≤ x →
          K.rejectSettles ∨ c ∉ K.bad} (s.intv p) := by
  have hgood : ∀ c ∈ s.stored, c ∉ K.bad := fun c hst => (ht.stored hst).elim
    (fun hh => Set.disjoint_left.mp hheld hh) And.right
  -- what is not visible any more has been covered, and so has settled
  have hcovered : ∀ c ∈ K.chunks, ¬ Visible K s c → Settled K s c := by
    rintro c ⟨p, b, hb⟩ hvis
    exact hc p b c hb (Nat.le_of_not_lt fun hlt => hvis ⟨p, b, hb, hlt⟩)
  have hstored : ∀ c ∈ K.chunks, c ∉ K.bad → c ∈ s.stored := by
    intro c hch hbad
    by_contra hnew
    have hvis : ¬ Visible K s c := fun hv => hend _ ⟨.store c, hbad, hnew, hv, rfl⟩
    exact (hcovered c hch hvis).elim hnew fun hr => hbad (ht.rejected hr.2).2
  have hrejected : ∀ c ∈ K.chunks, c ∈ K.bad → c ∈ s.rejected := by
    intro c hch hbad
    by_contra hnew
    have hvis : ¬ Visible K s c := fun hv => hend _ ⟨.reject c, hbad, hnew, hv, rfl⟩
    exact (hcovered c hch hvis).elim (fun hst => hgood c hst hbad) fun hr => hnew hr.2
  refine ⟨ht.stored.antisymm (Set.union_subset ht.kept fun c h => hstored c h.1 h.2),
    ht.rejected.antisymm fun c h => hrejected c h.1 h.2, fun p => ⟨⟨ht.intv p, ?_⟩, ?_⟩⟩
  · intro b c hb hle
    exact (hc p b c hb hle).elim (fun hst => .inr (hgood c hst)) fun hr => .inl hr.1
  · rintro x ⟨hx, hset⟩
    by_contra hlt
    refine hend _ ⟨.advance p, x, ⟨Nat.lt_of_not_le hlt, hx, fun _ b c hb _ hle => ?_⟩, rfl⟩
    by_cases hbad : c ∈ K.bad
    · exact .inr ⟨(hset b c hb hle).resolve_right fun hn => hn hbad, hrejected c ⟨p, b, hb⟩ hbad⟩
    · exact .inl (hstored c ⟨p, b, hb⟩ hbad)

/-! ## Every behaviour comes to an end -/

section Ends

variable [DecidableEq P] [Fintype P]

open Classical in
/-- What is offered, as a finite set. -/
noncomputable def Instance.offered (K : Instance P C) : Finset C :=
  Finset.univ.biUnion fun p => ((K.log p).entries.map (·.2)).toFinset

omit [DecidableEq P] in
theorem Instance.mem_offered (K : Instance P C) (c : C) : c ∈ K.offered ↔ c ∈ K.chunks := by
  simp [offered, chunks]

/-- The positions not covered, and the entries neither stored nor rejected yet. -/
noncomputable def ahead (K : Instance P C) (s : Vars P C) : ℕ :=
  ∑ p, ((K.log p).head - s.intv p) + count K.offered (· ∉ s.stored)
    + count K.offered (· ∉ s.rejected)

theorem ahead_next (hs : Next K s s') : ahead K s' < ahead K s := by
  have hmono := next_mono hs
  have hsum : ∑ p, ((K.log p).head - s'.intv p) ≤ ∑ p, ((K.log p).head - s.intv p) :=
    Finset.sum_le_sum fun p _ => Nat.sub_le_sub_left (hmono.1 p) _
  have hst : count K.offered (· ∉ s'.stored) ≤ count K.offered (· ∉ s.stored) :=
    count_le fun c _ hc hn => hc (hmono.2.1 hn)
  have hrj : count K.offered (· ∉ s'.rejected) ≤ count K.offered (· ∉ s.rejected) :=
    count_le fun c _ hc hn => hc (hmono.2.2 hn)
  obtain ⟨a, ha⟩ := hs
  unfold ahead
  cases a with
  | store c =>
    obtain ⟨-, hnew, hvis, rfl⟩ := ha
    have hlt : count K.offered (· ∉ insert c s.stored) < count K.offered (· ∉ s.stored) :=
      count_lt c ((K.mem_offered c).mpr hvis.mem_chunks) hnew (by simp) fun d _ hd hn =>
        hd (Set.mem_insert_of_mem c hn)
    dsimp only at hsum hrj ⊢
    omega
  | reject c =>
    obtain ⟨-, hnew, hvis, rfl⟩ := ha
    have hlt : count K.offered (· ∉ insert c s.rejected) < count K.offered (· ∉ s.rejected) :=
      count_lt c ((K.mem_offered c).mpr hvis.mem_chunks) hnew (by simp) fun d _ hd hn =>
        hd (Set.mem_insert_of_mem c hn)
    dsimp only at hsum hst ⊢
    omega
  | advance p =>
    obtain ⟨x, ⟨hlt, hx, -⟩, rfl⟩ := ha
    have hsum' : ∑ q, ((K.log q).head - Function.update s.intv p x q)
        < ∑ q, ((K.log q).head - s.intv q) := by
      refine Finset.sum_lt_sum (fun q _ => Nat.sub_le_sub_left (hmono.1 q) _)
        ⟨p, Finset.mem_univ p, ?_⟩
      rw [Function.update_self]
      omega
    dsimp only at hst hrj ⊢
    omega

/-- No steps go on for ever. -/
theorem acc_next (K : Instance P C) (s : Vars P C) : Acc (Function.swap (Next K)) s :=
  Subrelation.accessible (r := InvImage (· < ·) (ahead K)) ahead_next
    (InvImage.accessible (ahead K) (Nat.lt_wfRel.wf.apply _))

end Ends

/-! ## Many steps at once -/

section Reaches

variable [DecidableEq P]

/-- What is visible and can be stored may be stored, one by one. -/
theorem reaches_stores {D : Set C} (hfin : D.Finite)
    (hvis : ∀ c ∈ D, c ∉ K.bad ∧ Visible K s c) :
    Relation.ReflTransGen (Next K) s { s with stored := s.stored ∪ D } := by
  induction D, hfin using Set.Finite.induction_on with
  | empty => simpa using Relation.ReflTransGen.refl
  | @insert c D hc _ ih =>
    have hrun := ih fun d hd => hvis d (Set.mem_insert_of_mem c hd)
    by_cases hold : c ∈ s.stored ∪ D
    · rwa [Set.union_insert, Set.insert_eq_of_mem hold]
    · rw [Set.union_insert]
      obtain ⟨hbad, hv⟩ := hvis c (Set.mem_insert c D)
      exact hrun.tail ⟨.store c, hbad, hold, hv, rfl⟩

/-- What is visible and cannot be stored may be rejected, one by one. -/
theorem reaches_rejects {D : Set C} (hfin : D.Finite)
    (hvis : ∀ c ∈ D, c ∈ K.bad ∧ Visible K s c) :
    Relation.ReflTransGen (Next K) s { s with rejected := s.rejected ∪ D } := by
  induction D, hfin using Set.Finite.induction_on with
  | empty => simpa using Relation.ReflTransGen.refl
  | @insert c D hc _ ih =>
    have hrun := ih fun d hd => hvis d (Set.mem_insert_of_mem c hd)
    by_cases hold : c ∈ s.rejected ∪ D
    · rwa [Set.union_insert, Set.insert_eq_of_mem hold]
    · rw [Set.union_insert]
      obtain ⟨hbad, hv⟩ := hvis c (Set.mem_insert c D)
      exact hrun.tail ⟨.reject c, hbad, hold, hv, rfl⟩

/-- Intervals that may advance may do so one by one, for none stands in the way of another. -/
theorem reaches_advances [Fintype P] {x : P → ℕ} (h : ∀ p, x p = s.intv p ∨ Passable K s p (x p)) :
    Relation.ReflTransGen (Next K) s { s with intv := x } := by
  have hpart : ∀ F : Finset P, Relation.ReflTransGen (Next K) s
      { s with intv := fun p => if p ∈ F then x p else s.intv p } := by
    intro F
    induction F using Finset.induction_on with
    | empty => simpa using Relation.ReflTransGen.refl
    | @insert p F hp ih =>
      have hupdate : (fun q => if q ∈ insert p F then x q else s.intv q)
          = Function.update (fun q => if q ∈ F then x q else s.intv q) p (x p) := by
        funext q
        by_cases hq : q = p
        · subst hq
          simp
        · simp [hq]
      rw [hupdate]
      rcases h p with heq | hpass
      · have hsame : (fun q => if q ∈ F then x q else s.intv q) p = x p := by simp [hp, heq]
        rwa [← hsame, Function.update_eq_self]
      · refine ih.tail ⟨.advance p, x p, ?_, rfl⟩
        simpa [Passable, hp, Settled] using hpass
  simpa using hpart Finset.univ

/-- What settles while it is visible settles first, and the intervals advance over it after that. -/
theorem reaches_of_settled [Fintype P] (hst : s.stored ⊆ s'.stored) (hrj : s.rejected ⊆ s'.rejected)
    (hfin : s'.stored.Finite ∧ s'.rejected.Finite)
    (hstored : ∀ c ∈ s'.stored \ s.stored, c ∉ K.bad ∧ Visible K s c)
    (hrejected : ∀ c ∈ s'.rejected \ s.rejected, c ∈ K.bad ∧ Visible K s c)
    (hintv : ∀ p, s'.intv p = s.intv p ∨ Passable K ⟨s.intv, s'.stored, s'.rejected⟩ p (s'.intv p)) :
    Relation.ReflTransGen (Next K) s s' := by
  have hstore : Relation.ReflTransGen (Next K) s ⟨s.intv, s'.stored, s.rejected⟩ := by
    have hrun := reaches_stores (hfin.1.subset Set.sdiff_subset) hstored
    rwa [Set.union_sdiff_cancel hst] at hrun
  have hreject : Relation.ReflTransGen (Next K) ⟨s.intv, s'.stored, s.rejected⟩
      ⟨s.intv, s'.stored, s'.rejected⟩ := by
    have hrun := reaches_rejects (K := K) (s := ⟨s.intv, s'.stored, s.rejected⟩)
      (hfin.2.subset Set.sdiff_subset) hrejected
    rwa [Set.union_sdiff_cancel hrj] at hrun
  exact (hstore.trans hreject).trans (reaches_advances hintv)

end Reaches

/-! ## What each choice is needed for -/

section Design

variable [DecidableEq P]

/-- Nothing that can be stored is silently dropped. -/
def Completeness (K : Instance P C) (run : ℕ → Vars P C) : Prop :=
  ∃ n, K.chunks \ K.bad ⊆ (run n).stored

/-- The state kept for a resumption drains. -/
def AdvanceComplete (K : Instance P C) (run : ℕ → Vars P C) : Prop :=
  ∃ n, ∀ m, n ≤ m → ∀ p, (run m).intv p = (K.log p).head

theorem typeOK_of_reaches (h : Relation.ReflTransGen (Next K) (init held) s) : TypeOK K held s :=
  invariant_of_reachable (fun _ _ ht hs => ht.next hs) typeOK_init h

theorem covers_of_reaches (hgate : K.settledOnly)
    (h : Relation.ReflTransGen (Next K) (init held) s) : Covers K s :=
  invariant_of_reachable (fun _ _ hc hs => hc.next hgate hs) covers_init h

theorem mono_of_reaches (h : Relation.ReflTransGen (Next K) s s') :
    (∀ p, s.intv p ≤ s'.intv p) ∧ s.stored ⊆ s'.stored ∧ s.rejected ⊆ s'.rejected := by
  induction h with
  | refl => exact ⟨fun _ => le_rfl, subset_rfl, subset_rfl⟩
  | tail _ hs ih =>
    have hstep := next_mono hs
    exact ⟨fun p => (ih.1 p).trans (hstep.1 p), ih.2.1.trans hstep.2.1, ih.2.2.trans hstep.2.2⟩

/-- From the start there is a fair behaviour, through any state reached that has no step left. -/
theorem exists_spec (h : Relation.ReflTransGen (Next K) (init held) s)
    (hend : ∀ s', ¬ Next K s s') :
    ∃ run, Spec K held run ∧ ∃ n, ∀ m, n ≤ m → run m = s := by
  obtain ⟨run, hzero, hrun, hfair, hlast⟩ := exists_behaviour h hend
  exact ⟨run, ⟨hzero, hrun, fun a => hfair _ fun _ _ hs => ⟨a, hs⟩⟩, hlast⟩

/-- Where every interval is at its head no step is left. -/
theorem ended_of_head (h : ∀ p, s.intv p = (K.log p).head) : ∀ s', ¬ Next K s s' := by
  have hvis : ∀ c, ¬ Visible K s c := by
    rintro c ⟨p, b, hb, hlt⟩
    rw [h p] at hlt
    exact absurd ((K.log p).le_head hb) (Nat.not_le.mpr hlt)
  rintro s' ⟨a, ha⟩
  cases a with
  | store c => exact hvis c ha.2.2.1
  | reject c => exact hvis c ha.2.2.1
  | advance p =>
    obtain ⟨x, ⟨hlt, hx, -⟩, -⟩ := ha
    rw [h p] at hlt
    omega

variable [Fintype P]

/-- A fair behaviour ends in a state that has no step left. -/
theorem Spec.ends {run : ℕ → Vars P C} (h : Spec K held run) :
    ∃ n, (∀ m, n ≤ m → run m = run n) ∧ (∀ s, ¬ Next K (run n) s)
      ∧ Relation.ReflTransGen (Next K) (init held) (run n) := by
  obtain ⟨n, hstill, hend⟩ := h.behaviour.comes_to_end (acc_next K _) (fun _ _ => Iff.rfl) h.fair
  exact ⟨n, hstill, hend, h.starts ▸ h.behaviour.reaches n⟩

/-- Without the gate the intervals may run ahead of everything. -/
theorem reaches_forgotten (held : Set C) (hgate : ¬ K.settledOnly) (F : Set P) [DecidablePred (· ∈ F)] :
    Relation.ReflTransGen (Next K) (init held)
      ⟨fun p => if p ∈ F then (K.log p).head else 0, held, ∅⟩ := by
  refine reaches_advances (s := init held) fun p => ?_
  dsimp only [init]
  split
  · rcases Nat.eq_zero_or_pos (K.log p).head with hz | hpos
    · exact .inl hz
    · exact .inr ⟨hpos, le_rfl, fun h => absurd h hgate⟩
  · exact .inl rfl

/-- Without the gate some fair behaviour ends with every interval at its head and nothing stored. -/
theorem exists_forgetful (held : Set C) (hgate : ¬ K.settledOnly) :
    ∃ run, Spec K held run ∧ ∃ n, ∀ m, n ≤ m → run m = ⟨fun p => (K.log p).head, held, ∅⟩ := by
  have hreach := reaches_forgotten held hgate Set.univ
  simp only [Set.mem_univ, if_true] at hreach
  exact exists_spec hreach (ended_of_head fun _ => rfl)

/-- With the gate on a fair behaviour ends with everything stored that can be, everything rejected
that cannot, and each interval as far as everything settles. -/
theorem Spec.drains {run : ℕ → Vars P C} (h : Spec K held run) (hgate : K.settledOnly)
    (hheld : Disjoint held K.bad) : ∃ n, ∀ m, n ≤ m → (run m).stored = held ∪ K.chunks \ K.bad
      ∧ (run m).rejected = K.chunks ∩ K.bad
      ∧ ∀ p, IsGreatest {x | x ≤ (K.log p).head ∧ ∀ b c, (b, c) ∈ (K.log p).entries → b ≤ x →
          K.rejectSettles ∨ c ∉ K.bad} ((run m).intv p) := by
  obtain ⟨n, hstill, hend, hreach⟩ := h.ends
  refine ⟨n, fun m hm => ?_⟩
  rw [hstill m hm]
  exact drained (typeOK_of_reaches hreach) (covers_of_reaches hgate hreach) hheld hend

/-- Every fair behaviour without the gate ends with every interval at its head. -/
theorem Spec.advances {run : ℕ → Vars P C} (h : Spec K held run) (hgate : ¬ K.settledOnly) :
    AdvanceComplete K run := by
  obtain ⟨n, hstill, hend, hreach⟩ := h.ends
  refine ⟨n, fun m hm p => ?_⟩
  rw [hstill m hm]
  refine ((typeOK_of_reaches hreach).intv p).antisymm (Nat.le_of_not_lt fun hlt => ?_)
  exact hend _ ⟨.advance p, (K.log p).head, ⟨hlt, le_rfl, fun hg => absurd hg hgate⟩, rfl⟩

/-- No run drops anything if and only if the gate is on, or there is nothing left to drop. -/
theorem noDrop_iff : (∀ s, Relation.ReflTransGen (Next K) (init held) s → NoDrop K s)
    ↔ K.settledOnly ∨ K.chunks ⊆ held := by
  constructor
  · intro h
    refine or_iff_not_imp_left.mpr fun hgate c ⟨p, b, hb⟩ => ?_
    have hreach := reaches_forgotten held hgate Set.univ
    simp only [Set.mem_univ, if_true] at hreach
    exact (h _ hreach p b c hb ((K.log p).le_head hb)).resolve_right (Set.notMem_empty c)
  · rintro (hgate | hall) s hs
    · exact (covers_of_reaches hgate hs).noDrop
    · exact fun p b c hb _ => .inl ((typeOK_of_reaches hs).kept (hall ⟨p, b, hb⟩))

/-- Every fair behaviour stores all that can be stored if and only if the gate is on, or nothing is
left to store. -/
theorem completeness_iff (hheld : Disjoint held K.bad) :
    (∀ run, Spec K held run → Completeness K run)
      ↔ K.settledOnly ∨ K.chunks \ K.bad ⊆ held := by
  constructor
  · intro h
    refine or_iff_not_imp_left.mpr fun hgate => ?_
    obtain ⟨run, hspec, n, hn⟩ := exists_forgetful held hgate
    obtain ⟨m, hm⟩ := h run hspec
    -- what is stored at some time is stored at the end
    have hreach := (hspec.behaviour.drop m).reaches n
    have hmono := (mono_of_reaches hreach).2.1
    dsimp only [Nat.add_zero] at hmono
    rw [hn (m + n) (Nat.le_add_left n m)] at hmono
    exact hm.trans hmono
  · rintro (hgate | hall) run hspec
    · obtain ⟨n, hn⟩ := hspec.drains hgate hheld
      exact ⟨n, (hn n le_rfl).1 ▸ Set.subset_union_right⟩
    · refine ⟨0, hall.trans ?_⟩
      rw [hspec.starts]
      exact subset_rfl

/-- The intervals of every fair behaviour drain if and only if the gate is off, rejections settle, or
there is nothing to reject. -/
theorem advanceComplete_iff (hheld : Disjoint held K.bad) :
    (∀ run, Spec K held run → AdvanceComplete K run)
      ↔ ¬ K.settledOnly ∨ K.rejectSettles ∨ Disjoint K.chunks K.bad := by
  constructor
  · intro h
    by_contra hno
    push Not at hno
    obtain ⟨hgate, hrej, hbad⟩ := hno
    obtain ⟨c, ⟨p, b, hb⟩, hc⟩ := Set.not_disjoint_iff.mp hbad
    -- there is a fair behaviour, and it stops below the entry that is never stored
    obtain ⟨s, hreach, hend⟩ := exists_end (I := fun _ => True) (ahead K) (fun _ _ _ _ => trivial)
      (fun _ _ _ hs => ahead_next (K := K) hs) (s := init held) trivial
    obtain ⟨run, hspec, n, hn⟩ := exists_spec hreach hend
    obtain ⟨m, hm⟩ := h run hspec
    obtain ⟨l, hl⟩ := hspec.drains hgate hheld
    have hgreatest := (hl (max m l) (le_max_right m l)).2.2 p
    rw [hm (max m l) (le_max_left m l)] at hgreatest
    exact (hgreatest.1.2 b c hb ((K.log p).le_head hb)).elim hrej fun hgood => hgood hc
  · rintro hcases run hspec
    by_cases hgate : K.settledOnly
    · obtain ⟨n, hn⟩ := hspec.drains hgate hheld
      have hall := hcases.resolve_left fun hoff => hoff hgate
      refine ⟨n, fun m hm p => ?_⟩
      obtain ⟨⟨hle, -⟩, hgreatest⟩ := (hn m hm).2.2 p
      have hall' : ∀ b c, (b, c) ∈ (K.log p).entries → b ≤ (K.log p).head →
          K.rejectSettles ∨ c ∉ K.bad := fun b c hb _ =>
        hall.imp_right fun hdis => Set.disjoint_left.mp hdis (show c ∈ K.chunks from ⟨p, b, hb⟩)
      exact hle.antisymm (hgreatest (And.intro le_rfl hall'))
    · exact hspec.advances hgate

/-- What the two choices are for. With the gate on a fair behaviour ends in one state, whatever the
order of its steps; and each of the three properties holds exactly when its choice is made or does
not matter. -/
theorem settlement_choices (K : Instance P C) (held : Set C) (hheld : Disjoint held K.bad) :
    (K.settledOnly → ∀ run, Spec K held run → ∃ n, ∀ m, n ≤ m →
        (run m).stored = held ∪ K.chunks \ K.bad ∧ (run m).rejected = K.chunks ∩ K.bad
          ∧ ∀ p, IsGreatest {x | x ≤ (K.log p).head ∧ ∀ b c, (b, c) ∈ (K.log p).entries → b ≤ x →
              K.rejectSettles ∨ c ∉ K.bad} ((run m).intv p))
      ∧ ((∀ s, Relation.ReflTransGen (Next K) (init held) s → NoDrop K s)
        ↔ K.settledOnly ∨ K.chunks ⊆ held)
      ∧ ((∀ run, Spec K held run → Completeness K run)
        ↔ K.settledOnly ∨ K.chunks \ K.bad ⊆ held)
      ∧ ((∀ run, Spec K held run → AdvanceComplete K run)
        ↔ ¬ K.settledOnly ∨ K.rejectSettles ∨ Disjoint K.chunks K.bad) :=
  ⟨fun hgate _ h => h.drains hgate hheld, noDrop_iff, completeness_iff hheld,
    advanceComplete_iff hheld⟩

end Design

/-- The instance of `MC_settlement.tla`: two peers that overlap in different positions, and one entry
that can never be stored. -/
def mcSettlement (settledOnly rejectSettles : Bool) : Instance (Fin 2) ℕ where
  log p := if p = 0 then ⟨[(1, 1), (2, 2), (3, 3)], by decide⟩
    else ⟨[(1, 2), (2, 1), (3, 4)], by decide⟩
  bad := {3}
  settledOnly := settledOnly
  rejectSettles := rejectSettles

/-- Where rejections do not settle the entry is in the way of one interval, and of nothing else. -/
theorem settlement_choices_mc :
    let K := mcSettlement true false
    (∀ s, Relation.ReflTransGen (Next K) (init ∅) s → NoDrop K s)
      ∧ (∀ run, Spec K ∅ run → Completeness K run)
      ∧ ¬ ∀ run, Spec K ∅ run → AdvanceComplete K run := by
  intro K
  obtain ⟨-, hdrop, hcomplete, hadvance⟩ := settlement_choices K ∅ (Set.empty_disjoint _)
  refine ⟨hdrop.mpr (.inl rfl), hcomplete.mpr (.inl rfl), fun h => ?_⟩
  have hbad : 3 ∈ K.chunks := ⟨0, 3, by decide⟩
  rcases hadvance.mp h with hoff | hsettles | hdis
  · exact hoff rfl
  · exact Bool.false_ne_true hsettles
  · exact Set.disjoint_left.mp hdis hbad rfl

end Melissi.IntervalSettlement
