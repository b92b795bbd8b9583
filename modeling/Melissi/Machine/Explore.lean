import Melissi.Machine.Safety

/-!
# The environment of the machine

Reference: `crates/machine/src/explore.rs`. A scenario fixes who holds what, who is honest and how
much misattribution and churn there may be; the environment then takes any enabled action. The
budgets live here and never in the machine. The source's `u8` budgets are naturals: they only count
down, and only where a guard has found them positive.
-/

namespace Melissi.Machine.Explore

open Melissi.Common

/-- The abstract chunk identity for model checking. -/
abbrev Cid : Type := ℕ

/-- One row of the matrix. -/
structure Scenario where
  cfg : Config
  chunks : List Cid
  peers : List PeerId
  /-- Per-peer initial holdings. -/
  holds : List (PeerId × List Cid)
  byzantine : List PeerId
  /-- What arrives during sync. -/
  live : List Cid
  /-- Bin depth per chunk. -/
  prio : List (Cid × UInt8)
  /-- The single-source ablation's fixed source. -/
  assign : List (Cid × PeerId)
  /-- Most spurious stalls of honest peers. -/
  timeoutBudget : ℕ
  /-- Most `Lose` and `Gain` events. -/
  churnBudget : ℕ

def Scenario.honest (sc : Scenario) (p : PeerId) : Bool :=
  !sc.byzantine.contains p

/-- The explored state: the machine and the environment's budgets. -/
structure World where
  m : PullState Cid
  tmo : ℕ
  chn : ℕ
deriving DecidableEq

/-- Every action the environment can take. -/
inductive Act where
  | want (c : Cid) (p : PeerId)
  | deliver (c : Cid) (p : PeerId)
  | stall (c : Cid) (p : PeerId)
  | lose (c : Cid) (p : PeerId)
  | gain (c : Cid) (p : PeerId)
  | new (c : Cid)
  | reset (c : Cid)
deriving DecidableEq, Repr

/-- The initial machine: holdings, priorities and sources, and the arrivals before the cursor. -/
def initMachine (sc : Scenario) : PullState Cid :=
  let m := sc.holds.foldl
    (fun m h => h.2.foldl (fun m c => (m.observeHolder c h.1).1) m) (PullState.new sc.cfg)
  let m := sc.prio.foldl (fun m e => m.setPrio e.1 e.2) m
  let m := sc.assign.foldl (fun m e => m.setAssign e.1 e.2) m
  sc.chunks.foldl (fun m c => if sc.live.contains c then m else (m.arriveHist c).1) m

def init (sc : Scenario) : World where
  m := initMachine sc
  tmo := sc.timeoutBudget
  chn := sc.churnBudget

/-- The holders of `c`, in order. -/
def holdersOf (w : World) (c : Cid) : List PeerId :=
  (w.m.holders[c]?.map fun s => s.toList).getD []

/-- Everything the environment can do in `w`, in the source's order. -/
def enabled (sc : Scenario) (w : World) : List Act :=
  (w.m.enabledWants.map fun e => .want e.1 e.2)
    ++ (w.m.want.toList.flatMap fun e => e.2.toList.flatMap fun p =>
      -- only an honest holder answers; an honest one stalls only within the budget
      (if sc.honest p then [Act.deliver e.1 p] else [])
        ++ if w.m.cfg.failover && (!sc.honest p || decide (w.tmo > 0)) then [Act.stall e.1 p]
          else [])
    ++ (sc.live.filter fun c =>
        !w.m.has c && !w.m.isRejected c && !w.m.arrived.contains c).map .new
    ++ (if w.chn > 0 then
        (sc.chunks.filter fun c => !w.m.has c).flatMap fun c =>
          -- another honest holder must survive the loss
          ((holdersOf w c).filter fun p =>
              (holdersOf w c).any fun q => q != p && sc.honest q).map (.lose c)
            ++ (sc.peers.filter fun p => !(holdersOf w c).contains p).map (.gain c)
      else [])
    ++ (sc.chunks.filter fun c => w.m.canResetExcluded c).map .reset

def apply (sc : Scenario) (w : World) : Act → World
  | .want c p => { w with m := (w.m.wantFrom c p).1 }
  | .deliver c p => { w with m := (w.m.deliver c p).1 }
  | .stall c p =>
    { w with
      m := (w.m.stall c p).1
      -- a spurious timeout consumes the budget
      tmo := if sc.honest p then w.tmo - 1 else w.tmo }
  | .lose c p => { w with m := (w.m.loseHolder c p).1, chn := w.chn - 1 }
  | .gain c p => { w with m := (w.m.observeHolder c p).1, chn := w.chn - 1 }
  | .new c => { w with m := (w.m.arriveLive c).1 }
  | .reset c => { w with m := (w.m.resetExcluded c).1 }

/-- The invariants the machine cannot state alone, after the machine's own. -/
def checkEnvInvariants (sc : Scenario) (w : World) : Except String Unit := do
  w.m.checkInvariants
  if sc.chunks.any fun c =>
      !((w.m.holders[c]?.map fun hs => hs.toList.any fun p => sc.honest p).getD false) then
    .error "SupplyInv"
  else if sc.timeoutBudget == 0
      && w.m.excluded.toList.any (fun e => e.2.toList.any fun p => sc.honest p) then
    .error "NoFalseExclusion"
  else .ok ()

/-- One enabled action. -/
def Step (sc : Scenario) (w w' : World) : Prop :=
  ∃ a ∈ enabled sc w, w' = apply sc w a

/-- The reachable graph. -/
abbrev Reachable (sc : Scenario) (w : World) : Prop :=
  Relation.ReflTransGen (Step sc) (init sc) w

end Melissi.Machine.Explore
