import Melissi.Machine.PullState
import Melissi.Settlement.PeerBinLog
import Melissi.Common.Feed

/-!
# The node core

Reference: `crates/node/src/lib.rs` and `crates/node/src/discovery.rs`. One pure function of events
to effects: an event is ingested through the machine's actions, and most events end in one pass that
settles, prunes, resets and schedules. The node never inspects a triple, so it is stated here over
any ordered identity; the source's `debug_assert`s are no-ops.
-/

namespace Melissi

open Melissi.Common Melissi.Machine Melissi.Settlement

/-- The key of everything kept per peer and bin, ordered by peer first. -/
@[ext]
structure PeerBin where
  peer : PeerId
  bin : Bin

instance linearOrderPeerBin : LinearOrder PeerBin :=
  LinearOrder.lift' (fun k => toLex (k.peer, k.bin)) (by
    intro k k' h
    simpa [PeerBin.ext_iff] using h)

/-- What the shell reports per wanted triple. -/
inductive Outcome where
  /-- Verified and stored. -/
  | delivered
  /-- Entry-fault: never storable, settles globally. -/
  | rejected
  /-- Peer-fault or gone. -/
  | missed
deriving DecidableEq, Repr

inductive Event (C : Type) where
  /-- A neighbourhood peer appeared. -/
  | peerSeen (p : PeerId)
  /-- It departed. -/
  | peerGone (p : PeerId)
  /-- Per-bin head BinIDs: the boundary between history and live. -/
  | cursorsResult (peer : PeerId) (cursors : List (Bin × ℕ))
  /-- An offer for `[start, topmost]`. -/
  | offerResult (peer : PeerId) (bin : Bin) (start : ℕ) (refs : List (ℕ × C)) (topmost : ℕ)
  /-- Per-triple outcomes of a `Fetch`. -/
  | fetchResult (peer : PeerId) (bin : Bin) (outcomes : List (C × Outcome))
  /-- The shell's refresh signal. -/
  | tick
deriving DecidableEq

inductive Effect (C : Type) where
  | getCursors (p : PeerId)
  /-- Keep one offer open per `(peer, bin)`. -/
  | offer (peer : PeerId) (bin : Bin) (start : ℕ)
  /-- Fetch exactly these triples from this peer. -/
  | fetch (peer : PeerId) (bin : Bin) (want : List C)
  /-- The `(peer, bin)` high-water advanced: the only durable transition. -/
  | settled (peer : PeerId) (bin : Bin) (upto : ℕ)
deriving DecidableEq

/-- The policy knobs. -/
structure Policy where
  /-- Route on cumulative realised assignments, or on outstanding load only. -/
  cumulativeRouting : Bool
  /-- The want-cap per scheduling round. -/
  window : ℕ
deriving DecidableEq, Repr

def Policy.shipped : Policy where
  cumulativeRouting := true
  window := 256

/-! ## The open-offer discipline -/

/-- At most one offer in flight per `(peer, bin)`. -/
structure Discovery where
  offerOpen : BTreeSet PeerBin

namespace Discovery

def new : Discovery := ⟨∅⟩

/-- Try to open an offer; `true` if newly opened. -/
def tryOpen (d : Discovery) (k : PeerBin) : Discovery × Bool :=
  (⟨d.offerOpen.insert k⟩, !d.offerOpen.contains k)

/-- An offer answered: it is no longer in flight. -/
def close (d : Discovery) (k : PeerBin) : Discovery := ⟨d.offerOpen.erase k⟩

/-- A peer departed: drop every trace of it. -/
def forgetPeer (d : Discovery) (p : PeerId) : Discovery :=
  ⟨d.offerOpen.filter fun k => k.peer != p⟩

end Discovery

/-! ## The node -/

structure Node (C : Type) [LinearOrder C] where
  m : PullState C
  policy : Policy
  radius : Bin
  peers : BTreeSet PeerId
  /-- The boundary between history and live, from `GetCursors`. -/
  cursors : BTreeMap PeerBin ℕ
  /-- Resume state: interval high-water and offered window. -/
  logs : BTreeMap PeerBin (PeerBinLog C)
  /-- Which bin each known triple lives in. -/
  binOf : BTreeMap C Bin
  /-- Cumulative fetch assignments per peer, the routing key. -/
  assigned : BTreeMap PeerId ℕ
  disc : Discovery

namespace Node

variable {C : Type} [LinearOrder C]

def withPolicy (cfg : Config) (radius : Bin) (policy : Policy) : Node C where
  m := PullState.new cfg
  policy := policy
  radius := radius
  peers := ∅
  cursors := ∅
  logs := ∅
  binOf := ∅
  assigned := ∅
  disc := Discovery.new

def new (cfg : Config) (radius : Bin) : Node C := withPolicy cfg radius Policy.shipped

def preload (n : Node C) (c : C) : Node C × Bool :=
  let r := n.m.preload c
  ({ n with m := r.1 }, r.2)

/-- The node the shell starts: what is already held is preloaded before the first event. -/
def start (cfg : Config) (radius : Bin) (policy : Policy) (held : List C) : Node C :=
  held.foldl (fun n c => (n.preload c).1) (withPolicy cfg radius policy)

/-- The log of `k`, fresh where there is none. -/
def log (n : Node C) (k : PeerBin) : PeerBinLog C := n.logs[k]?.getD .new

/-- The bin of `c`, as the scheduler reads it. -/
def bin (n : Node C) (c : C) : Bin := n.binOf[c]?.getD 0

/-- Stored or terminally rejected. -/
def settledIn (m : PullState C) (c : C) : Bool := m.has c || m.isRejected c

/-- Emit an offer for `k` unless one is open. -/
def openOffer (n : Node C) (k : PeerBin) (start : ℕ) : Node C × List (Effect C) :=
  let r := n.disc.tryOpen k
  ({ n with disc := r.1 }, if r.2 then [.offer k.peer k.bin start] else [])

/-! ### One pass: settle, prune, reset, schedule -/

/-- Settle one log, and keep its tail offered. -/
def settleLog (n : Node C) (k : PeerBin) : Node C × List (Effect C) :=
  let r := (n.log k).advance (settledIn n.m)
  let n := { n with logs := n.logs.insert k r.1 }
  let fx : List (Effect C) := (r.2.map fun upto => .settled k.peer k.bin upto).toList
  if r.1.next > r.1.topmost && n.peers.contains k.peer then
    let o := n.openOffer k r.1.next
    (o.1, fx ++ o.2)
  else (n, fx)

/-- Settle every log there is. -/
def settle (n : Node C) : Node C × List (Effect C) := feed settleLog n n.logs.keys

/-- The triples of every window. -/
def windowed (n : Node C) : BTreeSet C :=
  Std.ExtTreeSet.ofList (n.logs.toList.flatMap fun e => e.2.unsettled.map (·.2))
    (fun a b => compare a b)

/-- Forget the settled triples that have left every window. -/
def prune (n : Node C) : Node C :=
  let windowed := n.windowed
  let done := n.binOf.keys.filter fun c => settledIn n.m c && !windowed.contains c
  done.foldl (fun n c => { n with m := (n.m.forget c).1, binOf := n.binOf.erase c }) n

/-- Clear the bars that cover every holder. -/
def reset (n : Node C) : Node C :=
  { n with m := n.binOf.keys.foldl (fun m c => (m.resetExcluded c).1) n.m }

/-- What one scheduling pass keeps beside the node. -/
structure Sched (C : Type) [LinearOrder C] where
  n : Node C
  /-- Commitments this round: the window cap. -/
  committed : BTreeMap PeerBin ℕ
  batches : BTreeMap PeerBin (List C)

namespace Sched

/-- The wants whose `(peer, bin)` still has window budget this round. -/
def enabled (s : Sched C) : List (C × PeerId) :=
  s.n.m.enabledWants.filter fun e =>
    decide (s.committed[(⟨e.2, s.n.bin e.1⟩ : PeerBin)]?.getD 0 < s.n.policy.window)

/-- Deepest first, then lowest triple. -/
def deepest (s : Sched C) : Option C :=
  (s.enabled.argmax fun e => toLex (s.n.bin e.1, OrderDual.toDual e.1)).map (·.1)

/-- The least-assigned of the enabled holders of `c`, then the least loaded, then the lowest. -/
def leastLoaded (s : Sched C) (c : C) : Option PeerId :=
  ((s.enabled.filter fun e => e.1 == c).map (·.2)).argmin fun p =>
    let realised := if s.n.policy.cumulativeRouting then s.n.assigned[p]?.getD 0 else 0
    toLex (realised, toLex (s.n.m.load p, p))

/-- Claim `c` from `p` and put it in their batch. -/
def commit (s : Sched C) (c : C) (p : PeerId) : Sched C :=
  let k : PeerBin := ⟨p, s.n.bin c⟩
  { n := { s.n with
      m := (s.n.m.wantFrom c p).1
      assigned := s.n.assigned.insert p (s.n.assigned[p]?.getD 0 + 1) }
    committed := s.committed.insert k (s.committed[k]?.getD 0 + 1)
    batches := s.batches.insert k (s.batches[k]?.getD [] ++ [c]) }

/-- The scheduling loop. Every turn leases a held pair that was not leased, so the fuel given by
`schedule` is never used up. -/
def loop : ℕ → Sched C → Sched C
  | 0, s => s
  | fuel + 1, s =>
    match s.deepest with
    | none => s
    | some c =>
      match s.leastLoaded c with
      | none => s
      | some p => loop fuel (s.commit c p)

end Sched

/-- Every observed holding. -/
def holderPairs (m : PullState C) : List (C × PeerId) :=
  m.holders.toList.flatMap fun e => e.2.toList.map fun p => (e.1, p)

/-- Resolve the machine's nondeterminism by policy, and fetch what was claimed. -/
def schedule (n : Node C) : Node C × List (Effect C) :=
  let s := Sched.loop (holderPairs n.m).length ⟨n, ∅, ∅⟩
  (s.n, s.batches.toList.map fun e => .fetch e.1.peer e.1.bin e.2)

/-- One settle-reset-schedule pass: the body every event arm ends in. -/
def round (n : Node C) : Node C × List (Effect C) :=
  let r := n.settle
  let s := r.1.prune.reset.schedule
  (s.1, r.2 ++ s.2)

/-! ### The event arms -/

/-- Release the claims of a departed peer and drop its holdings. -/
def losePeer (m : PullState C) (p : PeerId) : PullState C :=
  let m := (m.heldBy p).foldl (fun m c => (m.loseHolder c p).1) m
  (m.claimsOf p).foldl (fun m c => (m.loseHolder c p).1) m

/-- One cursor of a `GetCursors` answer. -/
def openCursor (peer : PeerId) (n : Node C) (e : Bin × ℕ) : Node C × List (Effect C) :=
  if e.1 < n.radius then (n, [])
  else
    let k : PeerBin := ⟨peer, e.1⟩
    let n := { n with
      cursors := n.cursors.insert k e.2
      logs := n.logs.insert k (n.log k) }
    n.openOffer k (n.log k).next

/-- The entries of the window in the covered range that a fresh offer no longer names. -/
def lost (l : PeerBinLog C) (start : ℕ) (refs : List (ℕ × C)) (topmost : ℕ) : List (ℕ × C) :=
  l.unsettled.filter fun e =>
    decide (e.1 ≥ start) && decide (e.1 ≤ topmost) && !(refs.map (·.1)).contains e.1

/-- A lost entry leaves the window and the holder's claim is released. -/
def dropEntry (k : PeerBin) (n : Node C) (e : ℕ × C) : Node C :=
  { n with
    logs := n.logs.insert k ((n.log k).forgetEntry e.1).1
    m := (n.m.loseHolder e.2 k.peer).1 }

/-- Ingest one offered entry: window, holder and arrival. -/
def ingest (k : PeerBin) (cursor : ℕ) (n : Node C) (e : ℕ × C) : Node C :=
  let m := ((n.m.observeHolder e.2 k.peer).1).setPrio e.2 k.bin
  { n with
    logs := n.logs.insert k ((n.log k).observe e.1 e.2)
    binOf := n.binOf.insert e.2 k.bin
    m := if e.1 > cursor then (m.arriveLive e.2).1 else (m.arriveHist e.2).1 }

/-- An offer is answered: cover, drop what it no longer names, ingest what it does. An answer covers
at least what was asked. -/
def answerOffer (n : Node C) (k : PeerBin) (start : ℕ) (refs : List (ℕ × C)) (topmost : ℕ) :
    Node C :=
  let cursor := n.cursors[k]?.getD 0
  let n := { n with
    disc := n.disc.close k
    logs := n.logs.insert k ((n.log k).cover (max topmost start)) }
  let n := (lost (n.log k) start refs topmost).foldl (dropEntry k) n
  refs.foldl (ingest k cursor) n

/-- One outcome of a fetch. -/
def report (peer : PeerId) (m : PullState C) (e : C × Outcome) : PullState C :=
  match e.2 with
  | .delivered => (m.deliver e.1 peer).1
  | .rejected => (m.reject e.1).1
  | .missed => (m.stall e.1 peer).1

/-- The single entry point: ingest one event, return the effects. -/
def handle (n : Node C) : Event C → Node C × List (Effect C)
  | .peerSeen p =>
    if n.peers.contains p then (n, [])
    else ({ n with peers := n.peers.insert p }, [.getCursors p])
  | .peerGone p =>
    round { n with
      peers := n.peers.erase p
      m := losePeer n.m p
      logs := n.logs.filter fun k _ => k.peer != p
      cursors := n.cursors.filter fun k _ => k.peer != p
      disc := n.disc.forgetPeer p }
  | .cursorsResult peer cursors => feed (openCursor peer) n cursors
  | .offerResult peer bin start refs topmost =>
    round (n.answerOffer ⟨peer, bin⟩ start refs topmost)
  | .tick =>
    feed (fun n k =>
      if n.peers.contains k.peer then n.openOffer k (n.log k).next else (n, []))
      n n.logs.keys
  | .fetchResult peer _ outcomes =>
    round { n with m := outcomes.foldl (report peer) n.m }

/-! ### Observability -/

def workingSet (n : Node C) : ℕ := n.binOf.size

def deficit (n : Node C) : ℕ := n.m.deficit

def has (n : Node C) (c : C) : Bool := n.m.has c

def conflict (n : Node C) : Bool := n.m.conflict

def deliveries (n : Node C) : ℕ := n.m.ndeliv

def interval (n : Node C) (k : PeerBin) : Option ℕ := n.logs[k]?.map (·.interval)

def checkInvariants (n : Node C) : Except String Unit := n.m.checkInvariants

/-- The states and effects of a run of events. -/
def run (n : Node C) (evs : List (Event C)) : Node C × List (Effect C) := feed handle n evs

end Node

end Melissi
