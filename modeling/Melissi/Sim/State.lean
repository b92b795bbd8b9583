import Melissi.Common.AppendLog
import Melissi.Node.State

/-!
# The simulated neighbourhood

Reference: `crates/sim/src/lib.rs`. Symmetric nodes, each both puller and server, exchange messages
over one queue; a step delivers any of them. A node is known by its index, which is its peer id cut
to a byte. The draws of the seeded generator are inputs here: which message is next, and whether a
fetch is missed while the budget lasts. The step limit of the source is left out.
-/

namespace Melissi

open Melissi.Common Melissi.Machine

namespace Sim

def nbins : UInt8 := 2

def radius : Bin := 1

/-- Entries an offer covers at most. -/
def page : ℕ := 4

/-- Which bin a triple lives in: a stand-in for the proximity order. -/
def binOf (c : Triple) : Bin := radius + c.address.1.getD 31 0 % nbins

/-- The bins of the universe. -/
def bins : List Bin := [radius, radius + 1]

structure SimNode where
  puller : Node Triple
  byzantine : Bool
  /-- The serving reserve: one append log a bin. -/
  reserve : BTreeMap Bin (AppendLog Triple)
  index : BTreeSet Triple
  /-- Offers held on an empty range: requester, bin and start. -/
  parked : List (ℕ × Bin × ℕ)

namespace SimNode

/-- The log of a bin, empty where there is none. -/
def log (n : SimNode) (bin : Bin) : AppendLog Triple := n.reserve[bin]?.getD .empty

abbrev head (n : SimNode) (bin : Bin) : ℕ := (n.log bin).head

end SimNode

inductive Msg where
  /-- An effect travelling to the peer it names. -/
  | req (sender : ℕ) (eff : Effect Triple)
  /-- An event travelling back. -/
  | resp (receiver : ℕ) (ev : Event Triple)
deriving DecidableEq

end Sim

structure Sim where
  nodes : ℕ → Sim.SimNode
  k : ℕ
  queue : List Sim.Msg
  /-- Deliveries served per node. -/
  served : ℕ → ℕ
  /-- Honest outcomes that may still be turned into misses. -/
  spuriousBudget : ℕ

namespace Sim

def peerId (i : ℕ) : PeerId := UInt8.ofNat i

def withPolicy (k : ℕ) (byzantine : List ℕ) (policy : Policy) (spuriousBudget : ℕ) : Sim where
  nodes i :=
    { puller := Node.withPolicy Config.production radius policy
      byzantine := byzantine.contains i
      reserve := ∅
      index := ∅
      parked := [] }
  k := k
  queue := []
  served _ := 0
  spuriousBudget := spuriousBudget

/-- Replace the node at an index. -/
def setNode (s : Sim) (i : ℕ) (n : SimNode) : Sim :=
  { s with nodes := Function.update s.nodes i n }

/-- Put messages in flight. -/
def post (s : Sim) (msgs : List Msg) : Sim := { s with queue := s.queue ++ msgs }

/-- The puller of a node handles an event, and its effects are sent. -/
def feed (s : Sim) (i : ℕ) (ev : Event Triple) : Sim :=
  let r := (s.nodes i).puller.handle ev
  (s.setNode i { s.nodes i with puller := r.1 }).post (r.2.map (.req i))

/-- An offer: at most one page, and the last position of it. -/
def offerResponse (s : Sim) (j : ℕ) (bin : Bin) (start : ℕ) : Event Triple :=
  let refs := ((s.nodes j).log bin).page start page
  let topmost := max (((refs.getLast?).map (·.1)).getD (start - 1)) start
  .offerResult (peerId j) bin start refs topmost

/-- Store a triple that is new at the end of its bin, and answer the offers parked on it. -/
def store (s : Sim) (i : ℕ) (c : Triple) : Sim :=
  let n := s.nodes i
  if n.index.contains c then s
  else
    let bin := binOf c
    let head := n.head bin
    let s := s.setNode i { n with
      index := n.index.insert c
      reserve := n.reserve.insert bin ((n.log bin).append (head + 1) c (Nat.lt_succ_self _)) }
    let ready := n.parked.filter fun e => e.2.1 == bin && decide ((s.nodes i).head bin ≥ e.2.2)
    let s := s.setNode i { s.nodes i with
      parked := n.parked.filter fun e => !(e.2.1 == bin && decide (head + 1 ≥ e.2.2)) }
    s.post (ready.map fun e => .resp e.1 (s.offerResponse i e.2.1 e.2.2))

/-- The puller of a node is told what the node holds. -/
def preload (s : Sim) (i : ℕ) (c : Triple) : Sim :=
  s.setNode i { s.nodes i with puller := ((s.nodes i).puller.preload c).1 }

/-- An initial holding. -/
def seed (s : Sim) (i : ℕ) (c : Triple) : Sim := (s.store i c).preload i c

/-- An upload that lands at a node. -/
def arrive (s : Sim) (i : ℕ) (c : Triple) : Sim := (s.preload i c).store i c

/-- Everyone sees everyone. -/
def start (s : Sim) : Sim :=
  (List.range s.k).foldl (fun s' i => (List.range s.k).foldl (fun s' j =>
    if i ≠ j then s'.feed i (.peerSeen (peerId j)) else s') s') s

/-- What serving a fetch leaves: the outcomes, how many were delivered, and the budget. -/
structure Served where
  outcomes : List (Triple × Outcome)
  count : ℕ
  budget : ℕ

/-- Serve the wants one by one. A faulty node serves nothing; while the budget lasts, a draw decides
whether an outcome is missed. -/
def serve (n : SimNode) : List Triple → List Bool → ℕ → Served
  | [], _, budget => ⟨[], 0, budget⟩
  | c :: want, draws, budget =>
    if n.byzantine then
      let r := serve n want draws budget
      { r with outcomes := (c, .missed) :: r.outcomes }
    else if budget > 0 ∧ draws.headD false then
      let r := serve n want draws.tail (budget - 1)
      { r with outcomes := (c, .missed) :: r.outcomes }
    else
      let r := serve n want draws.tail budget
      if !n.index.contains c then { r with outcomes := (c, .missed) :: r.outcomes }
      else { r with outcomes := (c, .delivered) :: r.outcomes, count := r.count + 1 }

/-- The triples delivered by an event. -/
def delivered : Event Triple → List Triple
  | .fetchResult _ _ outcomes => (outcomes.filter fun e => e.2 = .delivered).map (·.1)
  | _ => []

/-- Deliver a message. -/
def deliver (s : Sim) (draws : List Bool) : Msg → Sim
  | .req sender (.getCursors p) =>
    let cursors := bins.map fun b => (b, (s.nodes p.toNat).head b)
    s.post [.resp sender (.cursorsResult p cursors)]
  | .req sender (.offer peer bin start) =>
    let j := peer.toNat
    if (s.nodes j).head bin ≥ start then s.post [.resp sender (s.offerResponse j bin start)]
    else s.setNode j { s.nodes j with parked := (s.nodes j).parked ++ [(sender, bin, start)] }
  | .req sender (.fetch peer bin want) =>
    let j := peer.toNat
    let r := serve (s.nodes j) want draws s.spuriousBudget
    { s with
      queue := s.queue ++ [.resp sender (.fetchResult peer bin r.outcomes)]
      served := Function.update s.served j (s.served j + r.count)
      spuriousBudget := r.budget }
  | .req _ (.settled _ _ _) => s
  | .resp receiver ev =>
    (delivered ev).foldl (fun s c => s.store receiver c) (s.feed receiver ev)

/-- Take out an element and put the last in its place. -/
def swapRemove {α : Type} (l : List α) (i : ℕ) : List α :=
  match l.getLast? with
  | none => []
  | some a => (l.set i a).dropLast

/-- Deliver the message at a place of the queue. -/
def step (s : Sim) (idx : ℕ) (draws : List Bool) : Sim :=
  match s.queue[idx]? with
  | none => s
  | some msg => ({ s with queue := swapRemove s.queue idx } : Sim).deliver draws msg

/-! ## Measurements -/

def nodeHas (s : Sim) (i : ℕ) (c : Triple) : Bool := (s.nodes i).index.contains c

def deliveries (s : Sim) (i : ℕ) : ℕ := (s.nodes i).puller.deliveries

def deficit (s : Sim) (i : ℕ) : ℕ := (s.nodes i).puller.deficit

/-! ## Runs -/

/-- What happens once the nodes have started. -/
inductive Act where
  | arrive (i : ℕ) (c : Triple)
  | step (idx : ℕ) (draws : List Bool)

def act (s : Sim) : Act → Sim
  | .arrive i c => s.arrive i c
  | .step idx draws => s.step idx draws

def run (s : Sim) (acts : List Act) : Sim := acts.foldl act s

/-- No node holds the triple. -/
def Unknown (s : Sim) (c : Triple) : Prop := ∀ i < s.k, c ∉ (s.nodes i).index

instance decidableUnknown (s : Sim) (c : Triple) : Decidable (s.Unknown c) :=
  inferInstanceAs (Decidable (∀ i < s.k, _))

/-- Every upload lands at a node, and is new to all of them. -/
def Fresh : Sim → List Act → Prop
  | _, [] => True
  | s, a :: acts =>
    (∀ i c, a = .arrive i c → i < s.k ∧ s.Unknown c) ∧ (s.act a).Fresh acts

instance decidableFresh : (s : Sim) → (acts : List Act) → Decidable (s.Fresh acts)
  | _, [] => .isTrue trivial
  | s, .arrive i c :: acts =>
    have := decidableFresh (s.act (.arrive i c)) acts
    decidable_of_iff ((i < s.k ∧ s.Unknown c) ∧ (s.act (.arrive i c)).Fresh acts) (by simp [Fresh])
  | s, .step idx draws :: acts =>
    have := decidableFresh (s.act (.step idx draws)) acts
    decidable_of_iff ((s.act (.step idx draws)).Fresh acts) (by simp [Fresh])

/-- The simulation once every holding is seeded. -/
def seeded (k : ℕ) (byzantine : List ℕ) (policy : Policy) (spuriousBudget : ℕ)
    (seeds : List (ℕ × Triple)) : Sim :=
  seeds.foldl (fun s e => s.seed e.1 e.2) (withPolicy k byzantine policy spuriousBudget)

/-- What a node holds by seeding. -/
def seedsOf (seeds : List (ℕ × Triple)) (i : ℕ) : List Triple :=
  (seeds.filter fun e => e.1 = i).map (·.2)

/-- What lands at a node. -/
def arrivalsOf (acts : List Act) (i : ℕ) : List Triple :=
  acts.filterMap fun
    | .arrive j c => if j = i then some c else none
    | .step _ _ => none

end Sim

end Melissi
