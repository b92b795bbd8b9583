import Melissi.Node.Handle

/-!
# A shell that answers what it is asked

The node only emits; a shell performs. The shell kept here remembers every effect not yet answered
and may answer those in any order, each once: with any cursors, any offer contents, and for a fetch
with outcomes of its own triples only. What a peer really holds plays no part.
-/

namespace Melissi.Node

open Melissi.Common Melissi.Machine Melissi.Machine.PullState Melissi.Settlement

variable {C : Type} [LinearOrder C]

/-- One move of the shell: news of its own, or the answer to an effect. -/
inductive Move (C : Type) where
  | peerSeen (p : PeerId)
  | peerGone (p : PeerId)
  | tick
  | cursors (p : PeerId) (cursors : List (Bin × ℕ))
  | offer (peer : PeerId) (bin : Bin) (start : ℕ) (refs : List (ℕ × C)) (topmost : ℕ)
  | fetch (peer : PeerId) (bin : Bin) (want : List C) (outcomes : List (C × Outcome))
deriving DecidableEq

namespace Move

/-- The event a move feeds to the node. -/
def event : Move C → Event C
  | peerSeen p => .peerSeen p
  | peerGone p => .peerGone p
  | tick => .tick
  | cursors p cs => .cursorsResult p cs
  | offer peer bin start refs topmost => .offerResult peer bin start refs topmost
  | fetch peer bin _ outcomes => .fetchResult peer bin outcomes

/-- The effect a move answers. -/
def answered : Move C → Option (Effect C)
  | cursors p _ => some (.getCursors p)
  | offer peer bin start _ _ => some (.offer peer bin start)
  | fetch peer bin want _ => some (.fetch peer bin want)
  | _ => none

/-- The outcomes of a move. -/
def outcomes : Move C → List (C × Outcome)
  | fetch _ _ _ os => os
  | _ => []

/-- The triples a move has outcomes for. -/
def wanted : Move C → List C
  | fetch _ _ want _ => want
  | _ => []

end Move

/-- A node and the effects it has emitted that are not answered. -/
structure Shell (C : Type) [LinearOrder C] where
  node : Node C
  pending : List (Effect C)

namespace Shell

/-- The shell of a node that has emitted nothing. -/
def start (n : Node C) : Shell C := ⟨n, []⟩

/-- A move is admitted if what it answers is pending and its outcomes are of what was wanted. -/
def Admits (s : Shell C) (mv : Move C) : Prop :=
  (∀ fx ∈ mv.answered, fx ∈ s.pending) ∧ ∀ e ∈ mv.outcomes, e.1 ∈ mv.wanted

instance decidableAdmits (s : Shell C) (mv : Move C) : Decidable (s.Admits mv) :=
  inferInstanceAs (Decidable (_ ∧ _))

/-- What stays pending once a move is made. -/
def rest (s : Shell C) (mv : Move C) : List (Effect C) :=
  mv.answered.elim s.pending s.pending.erase

def next (s : Shell C) (mv : Move C) : Shell C :=
  let r := s.node.handle mv.event
  ⟨r.1, s.rest mv ++ r.2⟩

/-- The moves are all admitted, one after the other. -/
def Plays : Shell C → List (Move C) → Prop
  | _, [] => True
  | s, mv :: mvs => s.Admits mv ∧ (s.next mv).Plays mvs

instance decidablePlays : (s : Shell C) → (mvs : List (Move C)) → Decidable (s.Plays mvs)
  | _, [] => inferInstanceAs (Decidable True)
  | s, mv :: mvs => @instDecidableAnd _ _ _ (decidablePlays (s.next mv) mvs)

/-- The shell after a list of moves. -/
def play (s : Shell C) (mvs : List (Move C)) : Shell C := mvs.foldl next s

@[simp] theorem play_nil (s : Shell C) : s.play [] = s := rfl

theorem play_cons (s : Shell C) (mv : Move C) (mvs : List (Move C)) :
    s.play (mv :: mvs) = (s.next mv).play mvs := rfl

theorem play_append (s : Shell C) (mvs mvs' : List (Move C)) :
    s.play (mvs ++ mvs') = (s.play mvs).play mvs' := List.foldl_append

theorem plays_append (s : Shell C) (mvs mvs' : List (Move C)) :
    s.Plays (mvs ++ mvs') ↔ s.Plays mvs ∧ (s.play mvs).Plays mvs' := by
  induction mvs generalizing s with
  | nil => simp [Plays]
  | cons mv mvs ih => rw [List.cons_append, Plays, Plays, ih, play_cons, and_assoc]

end Shell

end Melissi.Node
