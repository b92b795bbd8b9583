import Melissi.Common.AppendLog
import Melissi.Node.Delivery
import Melissi.Node.Pacing

/-!
# One puller and the peers it pulls from

The node runs against peers with append-only logs that may still grow. The shell announces every
peer once and answers what the node asks in any order: cursors with the heads of all bins the peer
uses, an offer with a page of the log once there is one, a fetch with one outcome for every wanted
triple. A faulty entry is rejected whoever serves it; misses, ticks and appends come out of finite
budgets.
-/

namespace Melissi.Puller

open Melissi.Common Melissi.Machine Melissi.Settlement Melissi.Node

variable {C : Type} [LinearOrder C]

/-- What is fixed for a run. Nothing preloaded is faulty, and a round may schedule something. -/
structure Setting (C : Type) where
  policy : Policy
  radius : Bin
  /-- What is held before the first event. -/
  held : List C
  peers : List PeerId
  /-- All bins a peer ever uses. -/
  bins : PeerId → List Bin
  /-- The entry-faulted triples. -/
  bad : C → Bool
  window : 1 ≤ policy.window
  held_good : ∀ c ∈ held, ¬ bad c

/-- The keys the peers of the setting log under, within the radius. -/
def Setting.keys (S : Setting C) : List PeerBin :=
  (S.peers.flatMap fun p => (S.bins p).map fun b => ⟨p, b⟩).filter fun k => !decide (k.bin < S.radius)

omit [LinearOrder C] in
theorem Setting.mem_keys (S : Setting C) (k : PeerBin) :
    k ∈ S.keys ↔ (k.peer ∈ S.peers ∧ k.bin ∈ S.bins k.peer) ∧ ¬ k.bin < S.radius := by
  simp only [keys, List.mem_filter, List.mem_flatMap, List.mem_map, Bool.not_eq_true',
    decide_eq_false_iff_not]
  refine and_congr_left' ⟨?_, fun h => ⟨k.peer, h.1, k.bin, h.2, rfl⟩⟩
  rintro ⟨p, hp, b, hb, rfl⟩
  exact ⟨hp, hb⟩

structure World (C : Type) [LinearOrder C] where
  shell : Shell C
  logs : PeerBin → AppendLog C
  /-- The peers not announced yet. -/
  unseen : List PeerId
  appends : ℕ
  ticks : ℕ
  misses : ℕ

namespace World

/-- The node of a world. -/
def node (w : World C) : Node C := w.shell.node

/-- What the node has asked and the shell has not answered. -/
def pending (w : World C) : List (Effect C) := w.shell.pending

/-- Where a run starts: everything preloaded, no peer seen. -/
def init (S : Setting C) (logs : PeerBin → AppendLog C) (appends ticks misses : ℕ) : World C where
  shell := Shell.start (Node.start Config.production S.radius S.policy S.held)
  logs := logs
  unseen := S.peers
  appends := appends
  ticks := ticks
  misses := misses

/-- A move runs the node on its event. -/
theorem node_move {w w' : World C} {mv : Move C} (hw : w'.shell = w.shell.next mv) :
    w'.node = (w.node.handle mv.event).1 := congrArg Shell.node hw

/-- What a move leaves pending, and what the node asks next. -/
theorem pending_move {w w' : World C} {mv : Move C} (hw : w'.shell = w.shell.next mv) :
    w'.pending = w.shell.rest mv ++ (w.node.handle mv.event).2 := congrArg Shell.pending hw

end World

/-- The heads of all bins of a peer. -/
def cursors (S : Setting C) (w : World C) (p : PeerId) : List (Bin × ℕ) :=
  (S.bins p).map fun b => (b, (w.logs ⟨p, b⟩).head)

theorem bins_cursors (S : Setting C) (w : World C) (p : PeerId) :
    (cursors S w p).map (·.1) = S.bins p := by
  rw [cursors, List.map_map]
  exact List.map_id _

/-- The misses among the outcomes of a fetch. -/
def missed (outcomes : List (C × Outcome)) : ℕ := outcomes.countP fun e => e.2 = .missed

/-- What the shell does on its own: announce a peer, or answer what is pending. -/
inductive Reply (S : Setting C) : World C → World C → Prop
  | announce {w : World C} {p : PeerId} (hp : p ∈ w.unseen) :
    Reply S w { w with shell := w.shell.next (.peerSeen p), unseen := w.unseen.erase p }
  | cursors {w : World C} {p : PeerId} (hp : .getCursors p ∈ w.pending) :
    Reply S w { w with shell := w.shell.next (.cursors p (cursors S w p)) }
  | offer {w : World C} {k : PeerBin} {start limit : ℕ}
    (hp : .offer k.peer k.bin start ∈ w.pending) (hpage : (w.logs k).page start limit ≠ []) :
    Reply S w { w with
      shell := w.shell.next (.offer k.peer k.bin start ((w.logs k).page start limit)
        (AppendLog.topmost ((w.logs k).page start limit))) }
  | fetch {w : World C} {p : PeerId} {b : Bin} {want : List C} {outcomes : List (C × Outcome)}
    (hp : .fetch p b want ∈ w.pending) (hperm : (outcomes.map (·.1)).Perm want)
    (hbad : ∀ e ∈ outcomes, e.2 = .rejected ↔ S.bad e.1) (hmissed : missed outcomes ≤ w.misses) :
    Reply S w { w with
      shell := w.shell.next (.fetch p b want outcomes), misses := w.misses - missed outcomes }

/-- What happens to the shell: a tick, or an append at a peer. -/
inductive Happen (S : Setting C) : World C → World C → Prop
  | tick {w : World C} (h : 0 < w.ticks) :
    Happen S w { w with shell := w.shell.next .tick, ticks := w.ticks - 1 }
  | append {w : World C} {k : PeerBin} {b : ℕ} {c : C} (hk : k.bin ∈ S.bins k.peer)
    (hb : (w.logs k).head < b) (h : 0 < w.appends) :
    Happen S w { w with
      logs := Function.update w.logs k ((w.logs k).append b c hb), appends := w.appends - 1 }

def Step (S : Setting C) (w w' : World C) : Prop := Reply S w w' ∨ Happen S w w'

def Reachable (S : Setting C) (logs : PeerBin → AppendLog C) (appends ticks misses : ℕ) :
    World C → Prop :=
  Relation.ReflTransGen (Step S) (World.init S logs appends ticks misses)

/-- The shell has nothing left to announce or to answer. -/
def Quiescent (S : Setting C) (w : World C) : Prop := ∀ w', ¬ Reply S w w'

/-- `c` stands in a log of a peer, in a bin within the radius. -/
def Logged (S : Setting C) (w : World C) (c : C) : Prop :=
  ∃ k ∈ S.keys, ∃ b, (b, c) ∈ (w.logs k).entries

end Melissi.Puller
