import Melissi.Types

/-!
# The scheduling machine

Reference: `crates/machine/src/lib.rs`. The machine is polymorphic in the chunk identity: it
compares, stores and deduplicates ids and never looks inside them. Its actions are the only
mutators; each returns the next state and the flag the source returns.
-/

namespace Melissi.Machine

open Melissi.Common

/-- The design knobs. -/
structure Config where
  /-- One in-flight claim per id. -/
  dedup : Bool
  /-- A stalled claim is releasable. -/
  failover : Bool
  /-- The staller is barred for that id. -/
  exclude : Bool
  /-- Bars clear once they cover every holder. -/
  resetOnExhaust : Bool
  /-- Each id is bound to one source (disqualified; an ablation only). -/
  singleSource : Bool
  /-- Deepest-first ordering. -/
  priority : Bool
  /-- Pull post-cutoff arrivals. -/
  enableLive : Bool
deriving DecidableEq, Repr

/-- What production ships. -/
def Config.production : Config where
  dedup := true
  failover := true
  exclude := true
  resetOnExhaust := true
  singleSource := false
  priority := true
  enableLive := true

/-- The scheduling machine, over an opaque chunk identity. -/
structure PullState (C : Type) [LinearOrder C] where
  cfg : Config
  /-- The lease table: in-flight claims. -/
  want : SetMap C PeerId
  /-- Who currently offers each id. -/
  holders : SetMap C PeerId
  /-- Per-id bars. -/
  excluded : SetMap C PeerId
  /-- Offered and unsettled. -/
  arrived : BTreeSet C
  /-- Arrived after the cursor. -/
  live : BTreeSet C
  /-- Entry-faults: settled, never storable. -/
  rejected : BTreeSet C
  /-- Fetched and stored. -/
  got : BTreeSet C
  /-- Priority key: deeper is higher. -/
  prio : BTreeMap C UInt8
  /-- Single-source ablation only. -/
  assign : BTreeMap C PeerId
  /-- Latched on a double delivery. -/
  conflict : Bool
  /-- Deliveries so far. -/
  ndeliv : ℕ
  /-- Entries held before sync began. -/
  npre : ℕ
deriving DecidableEq

namespace PullState

variable {C : Type} [LinearOrder C]

/-- `PullState::new`. -/
def new (cfg : Config) : PullState C where
  cfg := cfg
  want := ∅
  holders := ∅
  excluded := ∅
  arrived := ∅
  live := ∅
  rejected := ∅
  got := ∅
  prio := ∅
  assign := ∅
  conflict := false
  ndeliv := 0
  npre := 0

/-- `c` is already held when sync begins. -/
def preload (m : PullState C) (c : C) : PullState C × Bool :=
  if m.got.contains c then (m, false)
  else ({ m with got := m.got.insert c, npre := m.npre + 1 }, true)

def setPrio (m : PullState C) (c : C) (depth : UInt8) : PullState C :=
  { m with prio := m.prio.insert c depth }

def setAssign (m : PullState C) (c : C) (p : PeerId) : PullState C :=
  { m with assign := m.assign.insert c p }

/-! ## Observation actions -/

/-- `Gain(c, p)`: peer `p` offers id `c`. -/
def observeHolder (m : PullState C) (c : C) (p : PeerId) : PullState C × Bool :=
  let r := setInsert m.holders c p
  ({ m with holders := r.1 }, r.2)

/-- `Lose(c, p)`: `p` no longer holds `c`, so a claim on it is released, with no bar. -/
def loseHolder (m : PullState C) (c : C) (p : PeerId) : PullState C × Bool :=
  let held := setRemove m.holders c p
  let claim := setRemove m.want c p
  ({ m with holders := held.1, want := claim.1 }, held.2)

/-- A pre-cursor id enters the window. -/
def arriveHist (m : PullState C) (c : C) : PullState C × Bool :=
  if m.got.contains c || m.rejected.contains c then (m, false)
  else ({ m with arrived := m.arrived.insert c }, !m.arrived.contains c)

/-- `NewChunk(c)`: a post-cursor arrival. -/
def arriveLive (m : PullState C) (c : C) : PullState C × Bool :=
  if m.got.contains c || m.rejected.contains c || m.arrived.contains c then (m, false)
  else ({ m with arrived := m.arrived.insert c, live := m.live.insert c }, true)

/-! ## The guard -/

/-- Started (leased) or finished. -/
def addressed (m : PullState C) (c : C) : Bool :=
  m.got.contains c || m.want.contains c

/-- `d` has a holder that is not barred. -/
def eligible (m : PullState C) (d : C) : Bool :=
  if m.got.contains d then false
  else match m.holders[d]? with
    | none => false
    | some hs => hs.toList.any fun p => !setContains m.excluded d p

/-- `PrioOK(c)`, quantified only over chunks with an eligible holder. -/
def prioOk (m : PullState C) (c : C) : Bool :=
  if !m.cfg.priority then true
  else
    let pc := m.prio[c]?.getD 0
    m.arrived.toList.all fun d =>
      let pd := m.prio[d]?.getD 0
      decide (pd ≤ pc) || !m.eligible d || m.addressed d

/-- `Claimable(c, p)`, conjunct for conjunct. -/
def claimable (m : PullState C) (c : C) (p : PeerId) : Bool :=
  m.arrived.contains c
    && setContains m.holders c p
    && !m.got.contains c
    && !setContains m.want c p
    && !setContains m.excluded c p
    && (!m.cfg.dedup || !m.want.contains c)
    && (!m.cfg.singleSource || m.assign[c]? == some p)
    && (!m.live.contains c || m.cfg.enableLive)
    && m.prioOk c

/-! ## The actions -/

/-- `Want(c, p)`: the check-and-mark, one indivisible step (the source's method `want`, which shares
its name with the lease table). -/
def wantFrom (m : PullState C) (c : C) (p : PeerId) : PullState C × Bool :=
  if !m.claimable c p then (m, false)
  else ({ m with want := (setInsert m.want c p).1 }, true)

/-- `Deliver(c, p)`: a verified delivery from `p`. -/
def deliver (m : PullState C) (c : C) (p : PeerId) : PullState C × Bool :=
  if !setContains m.want c p then (m, false)
  else
    ({ m with
        conflict := m.conflict || m.got.contains c
        got := m.got.insert c
        ndeliv := m.ndeliv + 1
        want := (setRemove m.want c p).1 }, true)

/-- `ByzStall(c, p)` and `SpuriousTimeout(c, p)`: one verb for every non-delivery. -/
def stall (m : PullState C) (c : C) (p : PeerId) : PullState C × Bool :=
  if !m.cfg.failover || !setContains m.want c p then (m, false)
  else
    ({ m with
        want := (setRemove m.want c p).1
        excluded := if m.cfg.exclude then (setInsert m.excluded c p).1 else m.excluded }, true)

/-- `Reject(c)`: an entry-fault settles the id globally. -/
def reject (m : PullState C) (c : C) : PullState C × Bool :=
  if m.got.contains c || m.rejected.contains c then (m, false)
  else
    ({ m with
        rejected := m.rejected.insert c
        arrived := m.arrived.erase c
        live := m.live.erase c
        want := m.want.erase c }, true)

/-- The bars of `c` cover every current holder and nothing is in flight. -/
def canResetExcluded (m : PullState C) (c : C) : Bool :=
  m.cfg.resetOnExhaust
    && m.arrived.contains c
    && !m.got.contains c
    && !m.want.contains c
    && m.excluded[c]?.any fun ex =>
      !ex.isEmpty && (m.holders[c]?.map fun hs => hs.toList.all fun p => ex.contains p).getD true

/-- `ResetExcluded(c)`: clear the bars of `c`. -/
def resetExcluded (m : PullState C) (c : C) : PullState C × Bool :=
  if !m.canResetExcluded c then (m, false)
  else ({ m with excluded := m.excluded.erase c }, true)

/-- Garbage-collect a settled id out of the scheduling maps. -/
def forget (m : PullState C) (c : C) : PullState C × Bool :=
  if !m.got.contains c && !m.rejected.contains c then (m, false)
  else
    ({ m with
        arrived := m.arrived.erase c
        live := m.live.erase c
        holders := m.holders.erase c
        excluded := m.excluded.erase c
        prio := m.prio.erase c }, true)

/-! ## Queries -/

def has (m : PullState C) (c : C) : Bool :=
  m.got.contains c

def isRejected (m : PullState C) (c : C) : Bool :=
  m.rejected.contains c

/-- The deficit over what is currently available. -/
def deficit (m : PullState C) : ℕ :=
  (m.arrived.toList.filter fun c => !m.got.contains c).length

/-- Outstanding leases held by `p`. -/
def load (m : PullState C) (p : PeerId) : ℕ :=
  (m.want.toList.filter fun e => e.2.contains p).length

/-- The ids `p` has in-flight claims on. -/
def claimsOf (m : PullState C) (p : PeerId) : List C :=
  (m.want.toList.filter fun e => e.2.contains p).map (·.1)

/-- The ids `p` is observed to hold. -/
def heldBy (m : PullState C) (p : PeerId) : List C :=
  (m.holders.toList.filter fun e => e.2.contains p).map (·.1)

/-- All enabled `Want(c, p)`. -/
def enabledWants (m : PullState C) : List (C × PeerId) :=
  m.arrived.toList.flatMap fun c =>
    if m.got.contains c then []
    else match m.holders[c]? with
      | none => []
      | some hs => (hs.toList.filter fun p => m.claimable c p).map fun p => (c, p)

/-- The machine-local safety invariants, checked in the source's order. -/
def checkInvariants (m : PullState C) : Except String Unit :=
  if m.conflict then .error "ConflictFree"
  else if m.ndeliv + m.npre ≠ m.got.size then .error "DeliveryFloor"
  else if m.cfg.dedup && m.want.toList.any fun e => decide (e.2.size > 1) then .error "DedupInv"
  else if m.want.toList.any fun e => e.2.toList.any fun p =>
      !setContains m.holders e.1 p || setContains m.excluded e.1 p then .error "ClaimsLive"
  else .ok ()

end PullState

/-! ## Actions as data -/

/-- A call of one of the machine's mutators. -/
inductive Action (C : Type) where
  | preload (c : C)
  | setPrio (c : C) (depth : UInt8)
  | setAssign (c : C) (p : PeerId)
  | observeHolder (c : C) (p : PeerId)
  | loseHolder (c : C) (p : PeerId)
  | arriveHist (c : C)
  | arriveLive (c : C)
  | want (c : C) (p : PeerId)
  | deliver (c : C) (p : PeerId)
  | stall (c : C) (p : PeerId)
  | reject (c : C)
  | resetExcluded (c : C)
  | forget (c : C)

/-- The state after a call. -/
def PullState.act {C : Type} [LinearOrder C] (m : PullState C) : Action C → PullState C
  | .preload c => (m.preload c).1
  | .setPrio c depth => m.setPrio c depth
  | .setAssign c p => m.setAssign c p
  | .observeHolder c p => (m.observeHolder c p).1
  | .loseHolder c p => (m.loseHolder c p).1
  | .arriveHist c => (m.arriveHist c).1
  | .arriveLive c => (m.arriveLive c).1
  | .want c p => (m.wantFrom c p).1
  | .deliver c p => (m.deliver c p).1
  | .stall c p => (m.stall c p).1
  | .reject c => (m.reject c).1
  | .resetExcluded c => (m.resetExcluded c).1
  | .forget c => (m.forget c).1

/-- The state after a list of calls. -/
def PullState.acts {C : Type} [LinearOrder C] (m : PullState C) (as : List (Action C)) :
    PullState C :=
  as.foldl PullState.act m

end Melissi.Machine
