import Melissi.Node.Delivery
import Melissi.Node.Failover
import Melissi.Node.Pacing

/-!
# A report of misses alone

A fetch all of whose wants are missed settles nothing, so where every log has settled what it can
the round leaves all intervals where they are and asks for no offer. It bars the peer for what it
missed, and lifts the bars of a triple only where that leaves no holder to ask.
-/

namespace Melissi.Node

open Melissi.Common Melissi.Machine Melissi.Machine.PullState Melissi.Settlement
open Std (ExtTreeMap ExtTreeSet)

variable {C : Type} [LinearOrder C]

/-- A log that settles no further: it has caught up, or the entry past its interval is unsettled. -/
def Stuck (n : Node C) (k : PeerBin) : Prop :=
  (n.log k).interval = (n.log k).topmost
    ∨ ∃ c, (n.log k).entries[(n.log k).interval + 1]? = some c ∧ ¬ Settled n c

section Missed

variable {n : Node C} {p : PeerId} {b : Bin} {outcomes : List (C × Outcome)}
  (hmiss : ∀ e ∈ outcomes, e.2 = .missed)
include hmiss

/-- Misses settle nothing. -/
theorem settled_missed : (n.reported p outcomes).m.got = n.m.got
    ∧ (n.reported p outcomes).m.rejected = n.m.rejected := by
  have hframe : ∀ {τ : Type} (f : PullState C → τ),
      (∀ m c, f (m.stall c p).1 = f m) → f (n.reported p outcomes).m = f n.m := by
    intro τ f hf
    refine foldl_frame f (report p) outcomes (fun m e he => ?_) n.m
    obtain ⟨c, o⟩ := e
    obtain rfl : o = .missed := hmiss _ he
    exact hf m c
  exact ⟨hframe PullState.got fun m c => by simp, hframe PullState.rejected fun m c => by simp⟩

/-- A stuck log stays where it is. -/
theorem log_missed {k : PeerBin} (hstuck : Stuck n k) :
    (((n.reported p outcomes).round.1).log k).interval = (n.log k).interval
      ∧ (((n.reported p outcomes).round.1).log k).topmost = (n.log k).topmost
      ∧ (((n.reported p outcomes).round.1).log k).entries[(n.log k).interval + 1]?
        = (n.log k).entries[(n.log k).interval + 1]? := by
  obtain ⟨hgot, hrej⟩ := settled_missed (n := n) (p := p) hmiss
  have hsame : (n.reported p outcomes).log k = n.log k := rfl
  rw [log_round, hsame, settledIn_congr hgot hrej]
  have hreached : (n.log k).reached (settledIn n.m) = (n.log k).interval := by
    refine le_antisymm ?_ ((n.log k).interval_le_reached _)
    rcases hstuck with heq | ⟨c, hc, hs⟩
    · exact ((n.log k).reached_le_topmost _).trans heq.ge
    · by_contra hlt
      exact hs ((settledIn_iff n.m c).mp ((n.log k).settled_of_le_reached _ hc (by omega)))
  refine ⟨hreached, rfl, Option.ext fun c => ?_⟩
  rw [PeerBinLog.entries_advance, hreached]
  exact and_iff_left (Nat.lt_succ_self _)

/-- A round after misses alone asks for no offer, if every closed log has ground left. -/
theorem offersTo_missed {k : PeerBin} (hpaced : Paced k n) (hstuck : Stuck n k) :
    offersTo k (n.reported p outcomes).round.2 = 0 := by
  refine ((n.reported p outcomes).offersTo_round k).resolve_right ?_
  rintro ⟨-, hopen, hlog, heq⟩
  have hlt := hpaced hlog hopen
  obtain ⟨hi, ht, -⟩ := log_missed (p := p) hmiss hstuck
  omega

end Missed

section Bars

variable {n : Node C} {p : PeerId} {b : Bin} {want : List C} {outcomes : List (C × Outcome)}

/-- A triple that stays leased keeps its bars in a round. -/
theorem barred_leased {c : C} {q : PeerId} (hl : n.m.Leased c q)
    (hs : ¬ Settled n c) (r : PeerId) : n.round.1.m.Barred c r ↔ n.m.Barred c r := by
  rw [barred_round, and_iff_left]
  rintro (⟨-, hset, -⟩ | ⟨-, hreset⟩)
  · rw [n.settle_frame.1] at hset
    exact hs hset
  · have hfree := ((canResetExcluded_iff _ c).mp hreset).2.2.2.1
    rw [n.settle.1.prune_machine_frame.2.1, n.settle_frame.1] at hfree
    exact hfree hl.mem_want

/-- What is missed under its lease bars its peer, unless the round lifts all bars of the triple,
which then covered its holders. -/
theorem barred_missed (hcfg : n.m.cfg = Config.production) (hnd : (outcomes.map (·.1)).Nodup)
    {c : C} (hc : (c, .missed) ∈ outcomes) (hl : n.m.Leased c p)
    (hs : ¬ Settled (n.reported p outcomes) c) :
    (∀ q, (n.reported p outcomes).round.1.m.Barred c q ↔ n.m.Barred c q ∨ p = q)
      ∨ (∀ q, ¬ (n.reported p outcomes).round.1.m.Barred c q)
        ∧ ∀ q, n.m.Held c q → n.m.Barred c q ∨ p = q := by
  have hbar : ∀ q, (n.reported p outcomes).m.Barred c q ↔ n.m.Barred c q ∨ p = q := by
    intro q
    refine (barred_ingested hcfg (.fetchResult p 0 outcomes) c q).trans (or_congr_right ?_)
    refine ⟨fun h => h.1, fun h => ⟨h, ?_⟩⟩
    obtain ⟨pre, post, heq⟩ := List.append_of_mem hc
    subst h
    rw [heq] at hnd
    exact ⟨pre, post, heq, (leased_until hnd).mpr hl⟩
  by_cases hclears : (n.reported p outcomes).RoundClears c
  · refine .inr ⟨fun q hq => ((barred_round _ c q).mp hq).2 hclears, fun q hq => ?_⟩
    have hheld : (n.reported p outcomes).m.Held = n.m.Held :=
      foldl_frame Held (report p) outcomes (by simp) n.m
    exact (hbar q).mp (barred_of_clears hclears hs (by rw [hheld]; exact hq))
  · refine .inl fun q => ?_
    rw [barred_round, and_iff_left hclears]
    exact hbar q

end Bars

end Melissi.Node
