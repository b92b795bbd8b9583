import Melissi.Puller.Converge

/-!
# How far a window reaches, and where what it wants stands

A pending offer starts at or below the next one, so a window reaches at most a page past the
interval. Whoever holds a triple has it in one of its logs, in the range that is covered, and what a
fetch wants stands in the log of its key. Where a missing triple is not in flight, some fetch wants
two triples at least.
-/

namespace Melissi.Puller

open Melissi.Common Melissi.Machine Melissi.Machine.PullState Melissi.Settlement Melissi.Node
open Std (ExtTreeMap ExtTreeSet)

variable {C : Type} [LinearOrder C]

/-- The peers agree on the bin of a triple. -/
def OneBin (logs : PeerBin → AppendLog C) : Prop :=
  ∀ k k' x x' c, (x, c) ∈ (logs k).entries → (x', c) ∈ (logs k').entries → k.bin = k'.bin

/-- `c` stands in the log of `k`, in the range that is covered. -/
def Stands (w : World C) (k : PeerBin) (c : C) : Prop :=
  ∃ x, (x, c) ∈ (w.logs k).entries ∧ x ≤ (w.node.log k).topmost

/-- Where things stand in a world whose offers are answered with at most `limit` entries. -/
structure Placed (limit : ℕ) (w : World C) : Prop where
  window : 2 ≤ w.node.policy.window
  reach : ∀ k, (w.node.log k).topmost ≤ (w.node.log k).interval + limit
  sourced : ∀ c p, w.node.m.Held c p → ∃ b, Stands w ⟨p, b⟩ c
  binned : ∀ c b, w.node.binOf[c]? = some b → ∃ p x, (x, c) ∈ (w.logs ⟨p, b⟩).entries
  wanted : ∀ p b want, .fetch p b want ∈ w.pending → ∀ c ∈ want, Stands w ⟨p, b⟩ c
  filled : ∀ c ∈ w.node.m.arrived, c ∉ w.node.m.got → (∃ p, w.node.m.Held c p) →
    (∃ p, w.node.m.Leased c p) ∨ ∃ p b want, .fetch p b want ∈ w.pending ∧ 2 ≤ want.length

/-- Where a run starts nothing stands anywhere. -/
theorem placed_init (S : Setting C) (hwin : 2 ≤ S.policy.window) (limit : ℕ)
    (logs : PeerBin → AppendLog C) (appends ticks misses : ℕ) :
    Placed limit (World.init S logs appends ticks misses) := by
  have hf := start_frame Config.production S.radius S.policy S.held
  have hm := start_machine_frame Config.production S.radius S.policy S.held
  refine ⟨?_, fun k => ?_, fun c p hp => ?_, fun c b hb => ?_, by rintro p b want ⟨⟩,
    fun c hc => ?_⟩
  · rw [World.init, World.node, Shell.start, hf.1]
    exact hwin
  · rw [World.init, World.node, Shell.start, log, hf.2.2.2.2.1]
    simp
  · rw [World.init, World.node, Shell.start, Held, hm.2.2.1] at hp
    simp [setContains] at hp
  · rw [World.init, World.node, Shell.start, hf.2.2.2.2.2.1] at hb
    simp at hb
  · rw [World.init, World.node, Shell.start, hm.2.2.2.2.1] at hc
    simp at hc

section Moves

variable {S : Setting C} {w w' : World C} {mv : Move C} {limit : ℕ}

/-- A move of the setting forgets no ground. -/
theorem interval_le_move (hf : Fits S w mv) (hw : w'.shell = w.shell.next mv) (k : PeerBin) :
    (w.node.log k).interval ≤ (w'.node.log k).interval := by
  rw [World.node_move hw]
  refine interval_handle ?_
  cases mv with
  | peerGone p => exact hf.elim
  | _ => simp [Move.event]

/-- What the covered range comes to in a move: only the answer to an offer covers more. -/
theorem topmost_move (hf : Fits S w mv) (hw : w'.shell = w.shell.next mv) (k : PeerBin) :
    (w'.node.log k).topmost = (w.node.log k).topmost ∨ ∃ start refs topmost,
      mv = .offer k.peer k.bin start refs topmost
        ∧ (w'.node.log k).topmost = max (w.node.log k).topmost topmost := by
  rw [World.node_move hw, topmost_handle]
  cases mv with
  | peerGone p => exact hf.elim
  | offer p b start refs topmost =>
    obtain ⟨-, limit, hne, rfl, rfl⟩ := hf
    rw [Move.event, ingestedLog]
    split
    · next hk =>
      subst hk
      exact .inr ⟨start, _, _, rfl, Tracks.topmost_page hne⟩
    · exact .inl rfl
  | _ => exact .inl rfl

theorem Stands.move {k : PeerBin} {c : C} (h : Stands w k c) (hf : Fits S w mv)
    (hw : w'.shell = w.shell.next mv) (hl : w'.logs = w.logs) : Stands w' k c := by
  obtain ⟨x, hx, hle⟩ := h
  refine ⟨x, by rwa [hl], hle.trans ?_⟩
  rcases topmost_move hf hw k with heq | ⟨_, _, _, _, heq⟩ <;> omega

/-- An entry of an answered page stands where it was offered. -/
theorem stands_of_page {p : PeerId} {b : Bin} {start size : ℕ}
    (hne : (w.logs ⟨p, b⟩).page start size ≠ [])
    (hw : w'.shell = w.shell.next (pageOffered w p b start size)) (hl : w'.logs = w.logs) {c : C}
    (hc : c ∈ ((w.logs ⟨p, b⟩).page start size).map (·.2)) : Stands w' ⟨p, b⟩ c := by
  obtain ⟨⟨x, c⟩, he, rfl⟩ := List.mem_map.mp hc
  refine ⟨x, by rw [hl]; exact (AppendLog.mem_of_mem_page he).1, ?_⟩
  rw [topmost_next hne hw, if_pos rfl]
  exact (AppendLog.le_topmost he).trans (le_max_right _ _)

theorem Placed.reach_move (h : Placed limit w) (hs : Sound S w) (hf : Fits S w mv)
    (hlimit : ∀ p b start refs topmost, mv = .offer p b start refs topmost → topmost < start + limit)
    (hw : w'.shell = w.shell.next mv) (k : PeerBin) :
    (w'.node.log k).topmost ≤ (w'.node.log k).interval + limit := by
  have hle := interval_le_move hf hw k
  have hreach := h.reach k
  rcases topmost_move hf hw k with heq | ⟨start, refs, topmost, rfl, heq⟩
  · omega
  · have hstart := (hs.account.starts k start hf.1).2
    have hlt := hlimit _ _ _ _ _ rfl
    rw [PeerBinLog.next] at hstart
    omega

theorem Placed.sourced_move (h : Placed limit w) (hf : Fits S w mv) (hw : w'.shell = w.shell.next mv)
    (hl : w'.logs = w.logs) {c : C} {p : PeerId} (hp : w'.node.m.Held c p) :
    ∃ b, Stands w' ⟨p, b⟩ c := by
  have hold : w.node.m.Held c p → ∃ b, Stands w' ⟨p, b⟩ c := fun hp => by
    obtain ⟨b, hb⟩ := h.sourced c p hp
    exact ⟨b, hb.move hf hw hl⟩
  rw [World.node_move hw] at hp
  by_cases hr : endsInRound mv.event
  · rw [w.node.handle_eq_round hr, held_round] at hp
    replace hp := hp.2
    cases mv with
    | peerGone q => exact hf.elim
    | offer q b start refs topmost =>
      rw [Move.event, ingested, held_answerOffer] at hp
      rcases hp with ⟨hc, rfl⟩ | ⟨-, hp⟩
      · obtain ⟨-, size, hne, rfl, rfl⟩ := hf
        exact ⟨b, stands_of_page hne hw hl hc⟩
      · exact hold hp
    | fetch q b want outcomes =>
      have hheld : (w.node.reported q outcomes).m.Held = w.node.m.Held :=
        foldl_frame Held (report q) outcomes (by simp) w.node.m
      rw [Move.event, ingested, hheld] at hp
      exact hold hp
    | _ => cases hr
  · rw [(w.node.quiet_handle hr).m] at hp
    exact hold hp

theorem Placed.binned_move (h : Placed limit w) (hf : Fits S w mv) (hw : w'.shell = w.shell.next mv)
    (hl : w'.logs = w.logs) {c : C} {b : Bin} (hb : w'.node.binOf[c]? = some b) :
    ∃ p x, (x, c) ∈ (w'.logs ⟨p, b⟩).entries := by
  rw [hl]
  rw [World.node_move hw] at hb
  by_cases hr : endsInRound mv.event
  · rw [w.node.handle_eq_round hr, binOf_round] at hb
    replace hb := hb.2
    cases mv with
    | peerGone q => exact hf.elim
    | offer q i start refs topmost =>
      rw [Move.event, ingested, binOf_answerOffer] at hb
      split at hb
      · next hc =>
        obtain rfl := Option.some.inj hb
        obtain ⟨-, size, -, rfl, -⟩ := hf
        obtain ⟨⟨x, c⟩, he, rfl⟩ := List.mem_map.mp hc
        exact ⟨q, x, (AppendLog.mem_of_mem_page he).1⟩
      · exact h.binned c b hb
    | fetch q i want outcomes => exact h.binned c b hb
    | _ => cases hr
  · rw [(w.node.quiet_handle hr).binOf] at hb
    exact h.binned c b hb

/-- What a round asks a peer for stands in the log of the key it asks under. -/
theorem Placed.wanted_move (h : Placed limit w) (hs : Sound S w) (hone : OneBin w.logs)
    (hf : Fits S w mv) (hw : w'.shell = w.shell.next mv) (hl : w'.logs = w.logs) {p : PeerId} {b : Bin}
    {want : List C} (hp : .fetch p b want ∈ w'.pending) {c : C} (hc : c ∈ want) :
    Stands w' ⟨p, b⟩ c := by
  rw [World.pending_move hw, List.mem_append] at hp
  rcases hp with hp | hp
  · exact (h.wanted p b want (Shell.mem_pending_of_rest hp) c hc).move hf hw hl
  · obtain ⟨hr, -, rfl⟩ := (fetch_mem_handle _ _ p b want).mp hp
    obtain ⟨hbin, -, hheld, harr, -⟩ := mem_fetched hc
    have hnode : w'.node = (w.node.ingested mv.event).round.1 := by
      rw [World.node_move hw, w.node.handle_eq_round hr]
    -- the bin the batch was made under is the bin of the log it stands in
    obtain ⟨i, hi⟩ := h.sourced_move hf hw hl (c := c) (p := p) (by
      rw [hnode, held_round, ← held_planned]
      exact hheld)
    have hknown := hs.lively.handle mv.event |>.known c (by
      rw [← World.node_move hw, hnode, mem_arrived_round, ← mem_arrived_planned]
      exact harr)
    rw [← World.node_move hw, mem_binOf_iff] at hknown
    obtain ⟨i', hi'⟩ := hknown
    have hb : i' = b := by
      rw [← hbin, bin, (binOf_planned _ c i').mpr ((binOf_round _ c i').mp (hnode ▸ hi'))]
      rfl
    subst hb
    obtain ⟨q, x, hx⟩ := h.binned_move hf hw hl hi'
    obtain ⟨x', hx', hle⟩ := hi
    obtain rfl : i = i' := by
      rw [hl] at hx hx'
      exact hone _ _ _ _ c hx' hx
    exact ⟨x', hx', hle⟩

/-- What is ingested keeps every arrived id known, and the policy. -/
theorem known_ingested (hs : Sound S w) (hf : Fits S w mv) : Known (w.node.ingested mv.event)
    ∧ (w.node.ingested mv.event).policy = w.node.policy := by
  cases mv with
  | peerGone p => exact hf.elim
  | offer p b start refs topmost =>
    exact ⟨hs.lively.known.answerOffer _ _ _ _, (w.node.answerOffer_frame _ _ _ _).1⟩
  | fetch p b want outcomes =>
    exact ⟨fun c hc => hs.lively.known c (w.node.arrived_reported p outcomes c hc), rfl⟩
  | _ => exact ⟨hs.lively.known, rfl⟩

/-- A move that does not end in a round answers no fetch. -/
theorem fetch_kept {p : PeerId} {b : Bin} {want : List C} (hw : w'.shell = w.shell.next mv)
    (hr : ¬ endsInRound mv.event) (hp : .fetch p b want ∈ w.pending) :
    .fetch p b want ∈ w'.pending := by
  rw [World.pending_move hw, List.mem_append]
  refine .inl ?_
  cases mv with
  | cursors q cs => exact (List.mem_erase_of_ne (by simp)).mpr hp
  | peerSeen q => exact hp
  | tick => exact hp
  | _ => exact absurd rfl hr

theorem Placed.filled_move (h : Placed limit w) (hs : Sound S w) (hf : Fits S w mv)
    (hw : w'.shell = w.shell.next mv) {c : C} (hc : c ∈ w'.node.m.arrived)
    (hg : c ∉ w'.node.m.got) {p : PeerId} (hp : w'.node.m.Held c p) :
    (∃ p, w'.node.m.Leased c p) ∨ ∃ p b want, .fetch p b want ∈ w'.pending ∧ 2 ≤ want.length := by
  by_cases hr : endsInRound mv.event
  · have hpend := World.pending_move hw
    rw [World.node_move hw, w.node.handle_eq_round hr] at hc hg hp ⊢
    rw [w.node.handle_eq_round hr] at hpend
    have hcalls := w.node.calls_ingested mv.event
    obtain ⟨hknown, hpolicy⟩ := known_ingested hs hf
    have hcfg := hcalls.cfg_eq
    have hwin := h.window
    rw [← hpolicy] at hwin
    refine (leased_or_filled (by rw [hcfg]; exact hs.lively.notSingleSource)
      (by rw [hcfg]; exact hs.lively.enableLive) (by rw [hcfg]; exact hs.lively.resetOnExhaust)
      (one_le_two.trans hwin) hknown (hcalls.normal hs.lively.normal) hc hg hp).imp_right ?_
    rintro ⟨q, b, want, hm, hlen⟩
    exact ⟨q, b, want, by rw [hpend]; exact List.mem_append_right _ hm, hwin.trans hlen⟩
  · have hm : w'.node.m = w.node.m := by
      rw [World.node_move hw]
      exact (w.node.quiet_handle hr).m
    rw [hm] at hc hg hp ⊢
    refine (h.filled c hc hg ⟨p, hp⟩).imp_right ?_
    rintro ⟨q, b, want, hfetch, hlen⟩
    exact ⟨q, b, want, fetch_kept hw hr hfetch, hlen⟩

/-- Every move of the setting whose pages have at most `limit` entries keeps where things stand. -/
theorem Placed.move (h : Placed limit w) (hs : Sound S w) (hone : OneBin w.logs) (hf : Fits S w mv)
    (hlimit : ∀ p b start refs topmost, mv = .offer p b start refs topmost → topmost < start + limit)
    (hw : w'.shell = w.shell.next mv) (hl : w'.logs = w.logs) : Placed limit w' where
  window := by
    rw [World.node_move hw, policy_handle]
    exact h.window
  reach := h.reach_move hs hf hlimit hw
  sourced _ _ := h.sourced_move hf hw hl
  binned _ _ := h.binned_move hf hw hl
  wanted _ _ _ hp _ := h.wanted_move hs hone hf hw hl hp
  filled _ hc hg hp := by
    obtain ⟨p, hp⟩ := hp
    exact h.filled_move hs hf hw hc hg hp

end Moves

end Melissi.Puller
