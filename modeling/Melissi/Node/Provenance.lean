import Melissi.Node.Shell

/-!
# Where a fetch comes from

The bin of a triple is one entry for all peers, and every offer overwrites it, while a fetch goes to
one peer under that bin. The ghost kept here is what each peer has offered in which bin since it was
last seen; the fetches of a run agree with it as long as no offer moves a triple that somebody else
holds.
-/

namespace Melissi.Node

open Melissi.Common Melissi.Machine Melissi.Machine.PullState Melissi.Settlement
open Std (ExtTreeMap ExtTreeSet)

variable {C : Type} [LinearOrder C]

/-! ## The ghost -/

/-- The bins each peer has named each triple in since it was last seen, after one more event. -/
def record (n : Node C) (bins : PeerId → C → List Bin) (ev : Event C) : PeerId → C → List Bin :=
  fun p c => match ev with
    | .peerSeen q => if q = p ∧ q ∉ n.peers then [] else bins p c
    | .offerResult q b _ refs _ => if q = p ∧ c ∈ refs.map (·.2) then b :: bins p c else bins p c
    | _ => bins p c

/-- The bins each peer has named each triple in, over a run. -/
def offeredIn : Node C → (PeerId → C → List Bin) → List (Event C) → PeerId → C → List Bin
  | _, bins, [] => bins
  | n, bins, ev :: evs => offeredIn (n.handle ev).1 (record n bins ev) evs

theorem offeredIn_snoc (n : Node C) (bins : PeerId → C → List Bin) (evs : List (Event C))
    (ev : Event C) : offeredIn n bins (evs ++ [ev])
      = record (n.run evs).1 (offeredIn n bins evs) ev := by
  induction evs generalizing n bins with
  | nil => rfl
  | cons ev' evs ih => rw [List.cons_append, offeredIn, ih, run_cons, offeredIn]

/-! ## Sources -/

/-- An offer moves no unsettled triple that another peer holds, and nobody is seen holding one. -/
def Truthful (n : Node C) : Event C → Prop
  | .offerResult p b _ refs _ => ∀ c ∈ refs.map (·.2),
      Settled n c ∨ n.binOf[c]? = some b ∨ ∀ q, n.m.Held c q → q = p
  | .peerSeen p => p ∈ n.peers ∨ ∀ c, n.m.Held c p → Settled n c
  | _ => True

/-- Whoever holds an unsettled triple has offered it in the bin it is known under. -/
def Sourced (bins : PeerId → C → List Bin) (n : Node C) : Prop :=
  ∀ c p, n.m.Held c p → ¬ Settled n c → ∃ b, n.binOf[c]? = some b ∧ b ∈ bins p c

/-- What an event ingests is sourced. -/
theorem Sourced.ingested {bins : PeerId → C → List Bin} {n : Node C} (h : Sourced bins n)
    {ev : Event C} (ht : Truthful n ev) : Sourced (record n bins ev) (n.ingested ev) := by
  have hmono := (n.calls_ingested ev).settled_mono
  intro c p hp hns
  have hs : ¬ Settled n c := fun hn => hns (hn.imp (hmono.1 c) (hmono.2 c))
  clear hns hmono
  cases ev with
  | peerSeen q =>
    obtain ⟨b, hb, hm⟩ := h c p hp hs
    refine ⟨b, hb, ?_⟩
    rw [record]
    split
    · next hq =>
      obtain ⟨rfl, hq⟩ := hq
      exact absurd (ht.resolve_left hq c hp) hs
    · exact hm
  | peerGone q => exact h c p (((losePeer_spec n.m q c p).1.mp hp).2) hs
  | offerResult q b start refs topmost =>
    rw [Node.ingested] at hp ⊢
    rw [binOf_answerOffer, record]
    by_cases hc : c ∈ refs.map (·.2)
    · rw [if_pos hc]
      refine ⟨b, rfl, ?_⟩
      by_cases hq : q = p
      · simp [hq, hc]
      · -- another holder: the bin is the one that holder offered it in
        have hheld : n.m.Held c p := by
          rcases (n.held_answerOffer _ start refs topmost c p).mp hp with h | h
          · exact absurd h.2 hq
          · exact h.2
        rw [if_neg fun h => hq h.1]
        obtain ⟨b', hb', hm⟩ := h c p hheld hs
        rcases ht c hc with hset | hbin | honly
        · exact absurd hset hs
        · rw [hbin, Option.some.injEq] at hb'
          rwa [hb']
        · exact absurd (honly p hheld).symm hq
    · rw [if_neg hc, if_neg fun h => hc h.2]
      rcases (n.held_answerOffer _ start refs topmost c p).mp hp with h' | h'
      · exact absurd h'.1 hc
      · exact h c p h'.2 hs
  | cursorsResult peer cursors => exact h c p hp hs
  | tick => exact h c p hp hs
  | fetchResult peer bin outcomes =>
    have hheld : (n.reported peer outcomes).m.Held = n.m.Held :=
      foldl_frame Held (report peer) outcomes (by simp) n.m
    rw [Node.ingested, hheld] at hp
    exact h c p hp hs

/-- A round forgets the bin of a triple only with its holders. -/
theorem Sourced.round {bins : PeerId → C → List Bin} {n : Node C} (h : Sourced bins n) :
    Sourced bins n.round.1 := by
  intro c p hp hs
  obtain ⟨hpr, hp⟩ := (n.held_round c p).mp hp
  rw [Settled, n.settled_round.1, n.settled_round.2.1] at hs
  obtain ⟨b, hb, hm⟩ := h c p hp hs
  exact ⟨b, (n.binOf_round c b).mpr ⟨hpr, hb⟩, hm⟩

theorem Sourced.handle {bins : PeerId → C → List Bin} {n : Node C} (h : Sourced bins n)
    {ev : Event C} (ht : Truthful n ev) : Sourced (record n bins ev) (n.handle ev).1 := by
  have hing := h.ingested ht
  by_cases hr : endsInRound ev
  · rw [n.handle_eq_round hr]
    exact hing.round
  · rw [n.ingested_of_quiet hr] at hing
    have hquiet := n.quiet_handle hr
    intro c p hp hs
    rw [Settled, hquiet.m] at hs
    rw [hquiet.m] at hp
    rw [hquiet.binOf]
    exact hing c p hp hs

/-! ## Runs -/

theorem sourced_run {cfg : Config} {radius : Bin} {policy : Policy} {held : List C}
    {evs : List (Event C)} (h : Along Truthful (start cfg radius policy held) evs) :
    Sourced (offeredIn (start cfg radius policy held) (fun _ _ => []) evs)
      ((start cfg radius policy held).run evs).1 := by
  induction evs using List.reverseRecOn with
  | nil =>
    intro c p hp
    rw [run_nil, Held, (start_machine_frame cfg radius policy held).2.2.1] at hp
    simp [setContains] at hp
  | append_singleton evs ev ih =>
    obtain ⟨h, ht⟩ := (along_snoc _ _ _ _).mp h
    rw [offeredIn_snoc, run_snoc_fst]
    exact (ih h).handle ht

/-- An arrived id is never a rejected one. -/
theorem unrejected_run (cfg : Config) (radius : Bin) (policy : Policy) (held : List C)
    (evs : List (Event C)) : ∀ c ∈ ((start cfg radius policy held).run evs).1.m.arrived,
      c ∉ ((start cfg radius policy held).run evs).1.m.rejected := by
  refine feed_invariant Node.handle
    (I := fun n : Node C => ∀ c ∈ n.m.arrived, c ∉ n.m.rejected) evs
    (fun n h ev _ => (n.calls_handle ev).unrejected h) ?_
  rw [(start_machine_frame cfg radius policy held).2.2.2.2.1]
  simp

/-- A triple is only fetched from a peer in a bin where that peer offered it since it was last seen:
provided no offer names an unsettled triple under another bin than the known one while another peer
holds it, and no peer is seen anew holding one. -/
theorem fetched_where_offered (cfg : Config) (radius : Bin) (policy : Policy) (held : List C)
    (evs : List (Event C)) (ev : Event C)
    (ht : Along Truthful (start cfg radius policy held) (evs ++ [ev]))
    (p : PeerId) (b : Bin) (want : List C)
    (hf : .fetch p b want ∈ (((start cfg radius policy held).run evs).1.handle ev).2) :
    ∀ c ∈ want, b ∈ offeredIn (start cfg radius policy held) (fun _ _ => []) (evs ++ [ev]) p c := by
  intro c hc
  obtain ⟨h, ht⟩ := (along_snoc _ _ _ _).mp ht
  obtain ⟨-, -, rfl⟩ := (fetch_mem_handle _ ev p b want).mp hf
  obtain ⟨hbin, -, hheld, harr, hgot⟩ := mem_fetched hc
  obtain ⟨hpr, hp⟩ := (held_planned _ c p).mp hheld
  have hing := (sourced_run h).ingested ht
  have hunrej := (((start cfg radius policy held).run evs).1.calls_ingested ev).unrejected
    (unrejected_run cfg radius policy held evs)
  have hs : ¬ Settled (((start cfg radius policy held).run evs).1.ingested ev) c := by
    rintro (h | h)
    · exact hgot h
    · exact hunrej c ((mem_arrived_planned _ c).mp harr).2 h
  obtain ⟨b', hb', hm⟩ := hing c p hp hs
  have hb := (binOf_planned _ c b').mpr ⟨hpr, hb'⟩
  rw [bin, hb, Option.getD_some] at hbin
  rw [offeredIn_snoc, ← hbin]
  exact hm

/-- Two peers offer one triple in one bin; the first misses it, and the second is asked for it. -/
theorem fetched_where_offered_second : 1 ∈ offeredIn
    (start Config.production 0 Policy.shipped ([] : List ℕ)) (fun _ _ => [])
    ([.peerSeen 1, .peerSeen 2, .cursorsResult 1 [(1, 5)], .cursorsResult 2 [(1, 3)],
      .offerResult 1 1 1 [(5, 7)] 5, .offerResult 2 1 1 [(2, 7)] 3]
      ++ [.fetchResult 1 1 [(7, .missed)]]) 2 7 := by
  have hno : ∀ n : Node ℕ, n.m.holders.isEmpty → ∀ c q, ¬ n.m.Held c q := fun n h c q hq => by
    rw [Held, ExtTreeMap.isEmpty_iff.mp h] at hq
    simp [setContains] at hq
  refine fetched_where_offered Config.production 0 Policy.shipped [] _ _ ?_ 2 1 [7]
    (by decide +kernel) 7 (by simp)
  refine ⟨.inr fun c hc => ?_, .inr fun c hc => ?_, trivial, trivial,
    fun c hc => .inr (.inr fun q hq => ?_), fun c hc => .inr (.inl ?_), trivial, trivial⟩
  · exact absurd hc (hno _ (by decide +kernel) _ _)
  · exact absurd hc (hno _ (by decide +kernel) _ _)
  · exact absurd hq (hno _ (by decide +kernel) _ _)
  · obtain rfl := List.mem_singleton.mp hc
    decide +kernel

/-- Peer 2 names under bin 2 what peer 1 has offered in bin 1; once both have missed it, it is
fetched from peer 1 in bin 2. -/
theorem fetched_elsewhere :
    let s := Shell.start (start Config.production 0 Policy.shipped ([] : List ℕ))
    let mvs : List (Move ℕ) := [.peerSeen 1, .peerSeen 2, .cursors 1 [(1, 5)], .cursors 2 [(2, 5)],
      .offer 1 1 1 [(1, 7)] 1, .offer 2 2 1 [(1, 7)] 1, .fetch 1 1 [7] [(7, .missed)]]
    let mv : Move ℕ := .fetch 2 2 [7] [(7, .missed)]
    s.Plays (mvs ++ [mv])
      ∧ .fetch 1 2 [7] ∈ ((s.node.run (mvs.map Move.event)).1.handle mv.event).2
      ∧ 2 ∉ offeredIn s.node (fun _ _ => []) ((mvs ++ [mv]).map Move.event) 1 7 := by
  decide +kernel

end Melissi.Node
