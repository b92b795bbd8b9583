import Melissi.Node.Schedule
import Melissi.Node.WorkingSet

/-!
# The offer diff and the triples it is about

An answer is compared with the window by positions, while holdings and leases are kept by triple. So the
diff follows the triples only as long as no entry moves: a triple whose position is given to another one
stays held, and one that is named at a new position loses its lease with the old.
-/

namespace Melissi.Node

open Melissi.Common Melissi.Machine Melissi.Machine.PullState Melissi.Settlement
open Std (ExtTreeMap ExtTreeSet)

variable {C : Type} [LinearOrder C]

/-- The answer of an offer: the range it is for, what it names there and what it covers. -/
structure Answer (C : Type) where
  peer : PeerId
  bin : Bin
  start : ℕ
  refs : List (ℕ × C)
  topmost : ℕ

namespace Answer

def key (a : Answer C) : PeerBin := ⟨a.peer, a.bin⟩

def event (a : Answer C) : Event C := .offerResult a.peer a.bin a.start a.refs a.topmost

/-- The answer names the triple. -/
def Names (a : Answer C) (c : C) : Prop := c ∈ a.refs.map (·.2)

/-- The position is in the range that the answer is for. -/
def Spans (a : Answer C) (b : ℕ) : Prop := a.start ≤ b ∧ b ≤ a.topmost

/-- All places of `c` in the window lie in the range of the answer, which names `c` at none. -/
def Drops (a : Answer C) (n : Node C) (c : C) : Prop :=
  n.InWindow a.key c ∧ (∀ b : ℕ, (n.log a.key).entries[b]? = some c → a.Spans b) ∧ ¬ a.Names c

/-- The answer names `c` at a position above the interval. -/
def Offers (a : Answer C) (n : Node C) (c : C) : Prop :=
  ∃ b, (n.log a.key).interval < b ∧ (b, c) ∈ a.refs

/-- The call follows the triples: an unsettled one that the answer drops is afterwards neither in the
window nor held, and one that it offers is in the window and held, and keeps its lease, that is, it is
leased and not fetched anew. -/
structure Follows (a : Answer C) (n : Node C) : Prop where
  dropped : ∀ c, ¬ Settled n c → a.Drops n c →
    ¬ (n.handle a.event).1.InWindow a.key c ∧ ¬ (n.handle a.event).1.m.Held c a.peer
  offered : ∀ c, ¬ Settled n c → a.Offers n c →
    (n.handle a.event).1.InWindow a.key c ∧ (n.handle a.event).1.m.Held c a.peer
      ∧ (n.m.Leased c a.peer → (n.handle a.event).1.m.Leased c a.peer
        ∧ (a.peer, c) ∉ fetchPairs (n.handle a.event).2)

/-- No entry moves: an unsettled triple that is dropped while it is held stood at some position that the
answer names nothing at; one that is offered is the last that the answer names at some position above
the interval, or stands at one that it neither names nor spans; and if it is leased it stands at no
position that the answer spans and names nothing at. -/
structure Unmoved (a : Answer C) (n : Node C) : Prop where
  dropped : ∀ c, ¬ Settled n c → a.Drops n c → n.m.Held c a.peer →
    ∃ b : ℕ, (n.log a.key).entries[b]? = some c ∧ b ∉ a.refs.map (·.1)
  placed : ∀ c, ¬ Settled n c → a.Offers n c → ∃ b : ℕ, (n.log a.key).interval < b
    ∧ (named a.refs b = some c ∨ named a.refs b = none ∧ ¬ a.Spans b
      ∧ (n.log a.key).entries[b]? = some c)
  leased : ∀ c, ¬ Settled n c → a.Offers n c → n.m.Leased c a.peer →
    ∀ b : ℕ, (n.log a.key).entries[b]? = some c → a.Spans b → b ∈ a.refs.map (·.1)

variable (a : Answer C) (n : Node C)

/-! ## What the answer leaves of a triple -/

/-- What the diff drops: the triples at positions that the answer spans and names nothing at. -/
theorem mem_lost_map (c : C) :
    c ∈ (lost (n.log a.key) a.start a.refs a.topmost).map (·.2) ↔
      ∃ b : ℕ, (n.log a.key).entries[b]? = some c ∧ a.Spans b ∧ b ∉ a.refs.map (·.1) := by
  constructor
  · intro h
    obtain ⟨⟨b, c'⟩, he, rfl⟩ := List.mem_map.mp h
    obtain ⟨hc, hlow, hhigh, hno⟩ := mem_lost.mp he
    exact ⟨b, hc, ⟨hlow, hhigh⟩, hno⟩
  · rintro ⟨b, hc, ⟨hlow, hhigh⟩, hno⟩
    exact List.mem_map.mpr ⟨(b, c), mem_lost.mpr ⟨hc, hlow, hhigh, hno⟩, rfl⟩

/-- The diff keeps a triple exactly if the answer names something at each place it spans of it. -/
theorem not_mem_lost_map (c : C) :
    c ∉ (lost (n.log a.key) a.start a.refs a.topmost).map (·.2) ↔
      ∀ b : ℕ, (n.log a.key).entries[b]? = some c → a.Spans b → b ∈ a.refs.map (·.1) := by
  rw [mem_lost_map]
  push Not
  rfl

theorem handle_event : n.handle a.event = (n.ingested a.event).round := rfl

theorem ingested_event :
    n.ingested a.event = n.answerOffer a.key a.start a.refs a.topmost := rfl

variable {n}

theorem settled_ingested (c : C) : Settled (n.ingested a.event) c ↔ Settled n c := by
  obtain ⟨-, -, hgot, hrej, -⟩ := n.answerOffer_machine_frame a.key a.start a.refs a.topmost
  rw [ingested_event, Settled, Settled, hgot, hrej]

/-- The holders of an unsettled triple after the call. -/
theorem held_handle {c : C} (hs : ¬ Settled n c) : (n.handle a.event).1.m.Held c a.peer ↔
    a.Names c ∨ (∀ b : ℕ, (n.log a.key).entries[b]? = some c → a.Spans b → b ∈ a.refs.map (·.1))
      ∧ n.m.Held c a.peer := by
  have hkept : ¬ (n.ingested a.event).RoundPruned c := by
    intro hp
    have hset := hp.2.1
    rw [(n.ingested a.event).settle_frame.1] at hset
    exact hs ((a.settled_ingested c).mp hset)
  rw [handle_event, held_round, and_iff_right hkept, ingested_event, held_answerOffer, ← not_mem_lost_map,
    Names]
  simp [key]

/-- Its places in the window after the call. -/
theorem inWindow_handle {c : C} (hs : ¬ Settled n c) : (n.handle a.event).1.InWindow a.key c ↔
    ∃ b : ℕ, (n.log a.key).interval < b ∧ (named a.refs b = some c ∨ named a.refs b = none
      ∧ ¬ a.Spans b ∧ (n.log a.key).entries[b]? = some c) := by
  rw [handle_event, inWindow_round ((a.settled_ingested c).not.mpr hs), ingested_event,
    inWindow_answerOffer_self]
  rfl

/-- A lease is kept through the call exactly if the diff does not drop the triple. -/
theorem lease_kept_iff (c : C) : ((n.handle a.event).1.m.Leased c a.peer
      ∧ (a.peer, c) ∉ fetchPairs (n.handle a.event).2) ↔
    (∀ b : ℕ, (n.log a.key).entries[b]? = some c → a.Spans b → b ∈ a.refs.map (·.1))
      ∧ n.m.Leased c a.peer := by
  have hround : ((n.handle a.event).1.m.Leased c a.peer
      ∧ (a.peer, c) ∉ fetchPairs (n.handle a.event).2) ↔
        (n.ingested a.event).m.Leased c a.peer := by
    rw [handle_event, mem_fetchPairs_round, not_and, not_not, leased_round]
    exact ⟨fun h => h.2 h.1, fun h => ⟨.inl h, fun _ => h⟩⟩
  rw [hround, ingested_event, leased_answerOffer, ← not_mem_lost_map]
  simp [key]

/-- What is dropped leaves the window. -/
theorem not_inWindow_of_drops {c : C} (hs : ¬ Settled n c) (h : a.Drops n c) :
    ¬ (n.handle a.event).1.InWindow a.key c := by
  rw [inWindow_handle a hs]
  rintro ⟨b, -, hn | ⟨-, hspan, he⟩⟩
  · exact h.2.2 (List.mem_map.mpr ⟨_, mem_of_named hn, rfl⟩)
  · exact hspan (h.2.1 b he)

variable (n) in
/-- From every node state an answer's diff follows the triples if and only if no entry moves. -/
theorem follows_iff : a.Follows n ↔ a.Unmoved n := by
  constructor
  · intro h
    refine ⟨fun c hs hd hheld => ?_, fun c hs ho => ?_, fun c hs ho hl => ?_⟩
    · by_contra hno
      push Not at hno
      refine (h.dropped c hs hd).2 ((a.held_handle hs).mpr (.inr ⟨fun b he _ => hno b he, hheld⟩))
    · exact (a.inWindow_handle hs).mp (h.offered c hs ho).1
    · exact ((a.lease_kept_iff c).mp ((h.offered c hs ho).2.2 hl)).1
  · intro h
    refine ⟨fun c hs hd => ⟨a.not_inWindow_of_drops hs hd, fun hheld => ?_⟩, fun c hs ho => ?_⟩
    · rcases (a.held_handle hs).mp hheld with hn | ⟨hall, hold⟩
      · exact hd.2.2 hn
      · obtain ⟨b, he, hno⟩ := h.dropped c hs hd hold
        exact hno (hall b he (hd.2.1 b he))
    · have hname : a.Names c := by
        obtain ⟨b, -, hb⟩ := ho
        exact List.mem_map.mpr ⟨_, hb, rfl⟩
      exact ⟨(a.inWindow_handle hs).mpr (h.placed c hs ho), (a.held_handle hs).mpr (.inl hname),
        fun hl => (a.lease_kept_iff c).mpr ⟨h.leased c hs ho hl, hl⟩⟩

/-- The peer has entries 7 and 8 and evicts the first: its next answer names 8 at the first position. -/
def shifted : Answer ℕ := ⟨1, 0, 1, [(1, 8)], 10⟩

/-- The evicted entry is still held, and the other one is fetched a second time from the peer that has
the lease on it. -/
theorem shifted_not_follows :
    let n := ((Node.start Config.production 0 Policy.shipped []).run
      [.peerSeen 1, .cursorsResult 1 [(0, 10)], .offerResult 1 0 1 [(1, 7), (2, 8)] 10, .tick]).1
    n.m.Leased 8 1 ∧ (1, 8) ∈ fetchPairs (n.handle shifted.event).2
      ∧ (n.handle shifted.event).1.m.Held 7 1 ∧ ¬ shifted.Follows n := by
  intro n
  have hleased : n.m.Leased 8 1 := by decide +kernel
  have hagain : (1, 8) ∈ fetchPairs (n.handle shifted.event).2 := by decide +kernel
  refine ⟨hleased, hagain, by decide +kernel, fun h => ?_⟩
  have hsettled : ¬ Settled n 8 := by
    rw [Settled]
    decide +kernel
  have hoffers : shifted.Offers n 8 := ⟨1, by decide +kernel, by simp [shifted]⟩
  exact ((h.offered 8 hsettled hoffers).2.2 hleased).2 hagain

end Answer

end Melissi.Node
