import Mathlib

/-!
# The design model

Reference: `formal-models/tla/PullSyncerE.tla`, its constants, variables, initial predicate and
actions. A function of the model with domain `Chunks` or `Peers` is a total function here; what it
says outside the domain is nobody's concern and no action reads it.
-/

namespace Melissi.PullSyncerE

variable {C P : Type}

/-- The constants. -/
structure Constants (C P : Type) where
  Chunks : Set C
  Peers : Set P
  Holds : P → Set C
  Byzantine : Set P
  Dedup : Prop
  Failover : Prop
  Exclude : Prop
  SingleSource : Prop
  Assign : C → P
  ResetOnExhaust : Prop
  Priority : Prop
  Prio : C → ℕ
  EnableLive : Prop
  LiveChunks : Set C
  TimeoutBudget : ℕ
  ChurnBudget : ℕ

def Constants.Honest (K : Constants C P) : Set P := K.Peers \ K.Byzantine

def Constants.HistChunks (K : Constants C P) : Set C := K.Chunks \ K.LiveChunks

/-- The variables. -/
@[ext] structure State (C P : Type) where
  got : Set C
  want : C → Set P
  failed : C → Set P
  arrived : Set C
  conflict : Prop
  holds : P → Set C
  tmo : ℕ
  chn : ℕ
  ndeliv : ℕ

variable (K : Constants C P)

def Init : State C P where
  got := ∅
  want _ := ∅
  failed _ := ∅
  arrived := K.HistChunks
  conflict := False
  holds := K.Holds
  tmo := K.TimeoutBudget
  chn := K.ChurnBudget
  ndeliv := 0

/-- Started or finished. -/
def Addressed (s : State C P) (c : C) : Prop := c ∈ s.got ∨ s.want c ≠ ∅

/-- No id is started while a higher-priority arrived one is unaddressed. -/
def PrioOK (s : State C P) (c : C) : Prop :=
  ¬ K.Priority ∨ ∀ d ∈ s.arrived, K.Prio d > K.Prio c → Addressed s d

structure Claimable (s : State C P) (c : C) (p : P) : Prop where
  arrived : c ∈ s.arrived
  held : c ∈ s.holds p
  missing : c ∉ s.got
  unclaimed : p ∉ s.want c
  unbarred : p ∉ s.failed c
  dedup : K.Dedup → s.want c = ∅
  single : K.SingleSource → p = K.Assign c
  gate : c ∈ K.LiveChunks → K.EnableLive
  prio : PrioOK K s c

/-- The disjuncts of the next-state relation. -/
inductive Label (C P : Type) where
  | want (c : C) (p : P)
  | deliver (c : C) (p : P)
  | byzStall (c : C) (p : P)
  | spuriousTimeout (c : C) (p : P)
  | lose (c : C) (p : P)
  | gain (c : C) (p : P)
  | resetExcluded (c : C)
  | newChunk (c : C)

variable [DecidableEq C] [DecidableEq P]

/-- `[f EXCEPT ![a] = g @]`. -/
def except {A B : Type} [DecidableEq A] (f : A → B) (a : A) (g : B → B) : A → B :=
  Function.update f a (g (f a))

section Except

variable {A B : Type} [DecidableEq A] (f : A → Set B) (a a' : A) (b b' : B)

theorem except_apply {X : Type} (f : A → X) (a a' : A) (g : X → X) :
    except f a g a' = if a = a' then g (f a') else f a' := by
  rw [except, Function.update_apply]
  by_cases h : a = a'
  · rw [if_pos h, if_pos h.symm, h]
  · rw [if_neg h, if_neg (Ne.symm h)]

theorem mem_except_union : b' ∈ except f a (· ∪ {b}) a' ↔ a = a' ∧ b = b' ∨ b' ∈ f a' := by
  rw [except_apply]
  split
  · next h => simp [h, eq_comm]
  · next h => simp [h]

theorem mem_except_diff : b' ∈ except f a (· \ {b}) a' ↔ ¬ (a = a' ∧ b = b') ∧ b' ∈ f a' := by
  rw [except_apply]
  split
  · next h => simp [h, eq_comm, and_comm]
  · next h => simp [h]

theorem mem_except_empty : b' ∈ except f a (fun _ => ∅) a' ↔ a ≠ a' ∧ b' ∈ f a' := by
  rw [except_apply]
  split <;> simp_all

end Except

def Want (c : C) (p : P) (s s' : State C P) : Prop :=
  Claimable K s c p ∧ s' = { s with want := except s.want c (· ∪ {p}) }

def Deliver (c : C) (p : P) (s s' : State C P) : Prop :=
  p ∈ K.Honest ∧ p ∈ s.want c
    ∧ s' = { s with
        got := s.got ∪ {c}
        conflict := s.conflict ∨ c ∈ s.got
        want := except s.want c (· \ {p})
        ndeliv := s.ndeliv + 1 }

open Classical in
/-- The claim of `p` on `c` is released, and `p` is barred if bars are made. -/
def release (c : C) (p : P) (s : State C P) : State C P :=
  { s with
    want := except s.want c (· \ {p})
    failed := if K.Exclude then except s.failed c (· ∪ {p}) else s.failed }

def ByzStall (c : C) (p : P) (s s' : State C P) : Prop :=
  p ∈ K.Byzantine ∧ p ∈ s.want c ∧ K.Failover ∧ s' = release K c p s

def SpuriousTimeout (c : C) (p : P) (s s' : State C P) : Prop :=
  s.tmo > 0 ∧ p ∈ K.Honest ∧ p ∈ s.want c ∧ K.Failover
    ∧ s' = { release K c p s with tmo := s.tmo - 1 }

def ResetExcluded (c : C) (s s' : State C P) : Prop :=
  K.ResetOnExhaust ∧ c ∈ s.arrived ∧ c ∉ s.got ∧ s.want c = ∅ ∧ s.failed c ≠ ∅
    ∧ (∀ p ∈ K.Peers, c ∈ s.holds p → p ∈ s.failed c)
    ∧ s' = { s with failed := except s.failed c fun _ => ∅ }

def Lose (c : C) (p : P) (s s' : State C P) : Prop :=
  s.chn > 0 ∧ c ∉ s.got ∧ c ∈ s.holds p ∧ (∃ q ∈ K.Honest \ {p}, c ∈ s.holds q)
    ∧ s' = { s with
        chn := s.chn - 1
        holds := except s.holds p (· \ {c})
        want := except s.want c (· \ {p}) }

omit [DecidableEq C] in
def Gain (c : C) (p : P) (s s' : State C P) : Prop :=
  s.chn > 0 ∧ c ∉ s.got ∧ c ∉ s.holds p
    ∧ s' = { s with chn := s.chn - 1, holds := except s.holds p (· ∪ {c}) }

def NewChunk (c : C) (s s' : State C P) : Prop :=
  c ∈ K.LiveChunks ∧ c ∉ s.arrived ∧ s' = { s with arrived := s.arrived ∪ {c} }

/-- The action of the name, its chunk and peer taken from the constants. -/
def Action : Label C P → State C P → State C P → Prop
  | .want c p, s, s' => c ∈ K.Chunks ∧ p ∈ K.Peers ∧ Want K c p s s'
  | .deliver c p, s, s' => c ∈ K.Chunks ∧ p ∈ K.Peers ∧ Deliver K c p s s'
  | .byzStall c p, s, s' => c ∈ K.Chunks ∧ p ∈ K.Peers ∧ ByzStall K c p s s'
  | .spuriousTimeout c p, s, s' => c ∈ K.Chunks ∧ p ∈ K.Peers ∧ SpuriousTimeout K c p s s'
  | .lose c p, s, s' => c ∈ K.Chunks ∧ p ∈ K.Peers ∧ Lose K c p s s'
  | .gain c p, s, s' => c ∈ K.Chunks ∧ p ∈ K.Peers ∧ Gain c p s s'
  | .resetExcluded c, s, s' => c ∈ K.Chunks ∧ ResetExcluded K c s s'
  | .newChunk c, s, s' => c ∈ K.Chunks ∧ NewChunk K c s s'

def Next (s s' : State C P) : Prop := ∃ l, Action K l s s'

end Melissi.PullSyncerE
