import Melissi.Node.Handle

/-!
# The session

Reference: `crates/wire/src/session.rs`. The session owns a node, queues the effects it emits and
hands them out one operation at a time; what an operation brings back is fed to the node. Settled
high-waters are no operations: they are recorded on the way and handed out apart.
-/

namespace Melissi.Wire

open Melissi.Node

variable {C : Type} [LinearOrder C]

/-- A network operation the shell must perform. -/
inductive Op (C : Type) where
  /-- Learn the heads of the peer's bins. -/
  | cursors (peer : PeerId)
  /-- The advertisement leg: what the peer holds from `start` on. -/
  | offer (peer : PeerId) (bin : Bin) (start : ℕ)
  /-- The delivery leg: exactly these triples, re-offered from the settled high-water. -/
  | fetch (peer : PeerId) (bin : Bin) (start : ℕ) (want : List C)
deriving DecidableEq

/-- The peer an operation targets. -/
def Op.peer : Op C → PeerId
  | cursors p => p
  | offer p _ _ => p
  | fetch p _ _ _ => p

/-- What is fed back for an operation that could not be carried. -/
def failureEvent : Op C → Event C
  | .cursors p => .cursorsResult p []
  | .offer p b start => .offerResult p b start [] start
  | .fetch p b _ want => .fetchResult p b (want.map fun t => (t, .missed))

/-- A node, the effects it has emitted in order, and the high-waters to persist. -/
structure Session (C : Type) [LinearOrder C] where
  node : Node C
  queue : List (Effect C)
  settled : List (PeerId × Bin × ℕ)

namespace Session

def new (n : Node C) : Session C := ⟨n, [], []⟩

/-- Feed a result back into the node and queue the effects it emits. -/
def feed (s : Session C) (ev : Event C) : Session C :=
  let r := s.node.handle ev
  { s with node := r.1, queue := s.queue ++ r.2 }

/-- Announce a peer to sync from. -/
def addPeer (s : Session C) (p : PeerId) : Session C := s.feed (.peerSeen p)

/-- The operation an effect asks for: none for a settled high-water. A fetch starts from the settled
high-water of its log, or from zero where there is no log. -/
def opOf (n : Node C) : Effect C → Option (Op C)
  | .getCursors p => some (.cursors p)
  | .offer p b start => some (.offer p b start)
  | .fetch p b want => some (.fetch p b ((n.interval ⟨p, b⟩).getD 0) want)
  | .settled _ _ _ => none

/-- The high-water an effect records. -/
def highWater : Effect C → Option (PeerId × Bin × ℕ)
  | .settled p b upto => some (p, b, upto)
  | _ => none

/-- Pop effects until one asks for an operation. -/
def popOp (n : Node C) : List (Effect C) → List (PeerId × Bin × ℕ) → Session C × Option (Op C)
  | [], settled => (⟨n, [], settled⟩, none)
  | fx :: queue, settled =>
    match opOf n fx with
    | some op => (⟨n, queue, settled⟩, some op)
    | none => popOp n queue (settled ++ (highWater fx).toList)

/-- The next network operation, or none when there is nothing left to ask. -/
def nextOp (s : Session C) : Session C × Option (Op C) := popOp s.node s.queue s.settled

/-- Hand out the high-waters recorded since the last call. -/
def takeSettled (s : Session C) : Session C × List (PeerId × Bin × ℕ) :=
  ({ s with settled := [] }, s.settled)

/-! ## What is popped -/

@[simp] theorem node_feed (s : Session C) (ev : Event C) :
    (s.feed ev).node = (s.node.handle ev).1 := rfl

@[simp] theorem queue_feed (s : Session C) (ev : Event C) :
    (s.feed ev).queue = s.queue ++ (s.node.handle ev).2 := rfl

/-- Popping asks nothing of the node. -/
@[simp] theorem node_nextOp (s : Session C) : s.nextOp.1.node = s.node := by
  suffices h : ∀ queue settled, (popOp s.node queue settled).1.node = s.node from h _ _
  intro queue
  induction queue with
  | nil => exact fun _ => rfl
  | cons fx queue ih =>
    intro settled
    rw [popOp]
    split
    · rfl
    · exact ih _

/-- What is popped: high-waters, which are recorded, and then the effect of the operation; only
where there is none is the queue left empty. -/
theorem nextOp_spec (s : Session C) : ∃ skipped,
    (∀ fx ∈ skipped, opOf s.node fx = none)
      ∧ s.nextOp.1.settled = s.settled ++ skipped.filterMap highWater
      ∧ ((s.nextOp.2 = none ∧ s.queue = skipped ∧ s.nextOp.1.queue = [])
        ∨ ∃ fx op, s.nextOp.2 = some op ∧ opOf s.node fx = some op
          ∧ s.queue = skipped ++ fx :: s.nextOp.1.queue) := by
  suffices h : ∀ queue settled, ∃ skipped, (∀ fx ∈ skipped, opOf s.node fx = none)
      ∧ (popOp s.node queue settled).1.settled = settled ++ skipped.filterMap highWater
      ∧ (((popOp s.node queue settled).2 = none ∧ queue = skipped
          ∧ (popOp s.node queue settled).1.queue = [])
        ∨ ∃ fx op, (popOp s.node queue settled).2 = some op ∧ opOf s.node fx = some op
          ∧ queue = skipped ++ fx :: (popOp s.node queue settled).1.queue) from h _ _
  intro queue
  induction queue with
  | nil => exact fun settled => ⟨[], by simp [popOp]⟩
  | cons e queue ih =>
    intro settled
    cases h : opOf s.node e with
    | some op => exact ⟨[], by simp [popOp, h]⟩
    | none =>
      obtain ⟨skipped, hs, hset, hq⟩ := ih (settled ++ (highWater e).toList)
      rw [popOp, h]
      refine ⟨e :: skipped, by simpa [h] using hs, ?_, ?_⟩
      · rw [hset, List.append_assoc, List.filterMap_cons]
        cases highWater e <;> rfl
      · refine hq.imp (fun h => ⟨h.1, congrArg _ h.2.1, h.2.2⟩) fun h => ?_
        obtain ⟨fx, op, hop, hfx, hq⟩ := h
        exact ⟨fx, op, hop, hfx, congrArg _ hq⟩

end Session

end Melissi.Wire
