import Melissi.Node.Progress
import Melissi.Puller.Account

/-!
# What the node has found

Once announced, a peer is asked for its cursors, and once it has answered the node keeps a log for
each of its bins within the radius. A log that is closed has ground left to settle.
-/

namespace Melissi.Puller

open Melissi.Common Melissi.Machine Melissi.Machine.PullState Melissi.Settlement Melissi.Node
open Std (ExtTreeMap ExtTreeSet)

variable {C : Type} [LinearOrder C]

structure Found (S : Setting C) (w : World C) : Prop where
  radius : w.node.radius = S.radius
  seen : ∀ p ∈ S.peers, p ∈ w.unseen ∨ p ∈ w.node.peers
  asked : ∀ p, .getCursors p ∈ w.pending → p ∈ S.peers ∧ p ∈ w.node.peers
  listed : ∀ p ∈ w.node.peers, .getCursors p ∈ w.pending ∨
    ∀ b ∈ S.bins p, ¬ b < S.radius → (⟨p, b⟩ : PeerBin) ∈ w.node.logs
  keys : ∀ k ∈ w.node.logs, k ∈ S.keys ∧ k.peer ∈ w.node.peers
  opened : ∀ k ∈ w.node.disc.offerOpen, k ∈ w.node.logs
  paced : ∀ k, Paced k w.node

/-- A pending offer is for a log of the node. -/
theorem Found.mem_logs {S : Setting C} {w : World C} (h : Found S w) (ha : Account w) {k : PeerBin}
    {start : ℕ} (hp : .offer k.peer k.bin start ∈ w.pending) : k ∈ w.node.logs := by
  refine h.opened k ?_
  by_contra hno
  have hcount := ha.opens k
  rw [(set_contains_eq_false _ _).mpr hno, Bool.toNat_false, offersTo, List.countP_eq_zero] at hcount
  simpa using hcount _ hp

/-- Rounds keep what is found: they add no peer and no log. -/
theorem Found.of_round {S : Setting C} {w w' : World C} (h : Found S w) {n : Node C}
    (hw : w'.node = n.round.1) (hu : w'.unseen = w.unseen) (hr : n.radius = w.node.radius)
    (hp : n.peers = w.node.peers) (hl : ∀ k, k ∈ n.logs ↔ k ∈ w.node.logs)
    (ho : ∀ k ∈ n.disc.offerOpen, k ∈ w.node.disc.offerOpen)
    (hc : ∀ p, .getCursors p ∈ w'.pending ↔ .getCursors p ∈ w.pending) : Found S w' := by
  obtain ⟨-, hr', hp', -⟩ := n.round_frame
  have hlogs : ∀ k, k ∈ w'.node.logs ↔ k ∈ w.node.logs := fun k => by
    rw [hw, mem_logs_round, hl]
  have hpeers : w'.node.peers = w.node.peers := by rw [hw, hp', hp]
  refine ⟨by rw [hw, hr', hr, h.radius], ?_, ?_, ?_, ?_, ?_, ?_⟩
  · rw [hu, hpeers]
    exact h.seen
  · intro p hm
    rw [hpeers]
    exact h.asked p ((hc p).mp hm)
  · intro p hm
    rw [hpeers] at hm
    rw [hc]
    exact (h.listed p hm).imp_right fun hb b hb' hbr => (hlogs _).mpr (hb b hb' hbr)
  · intro k hk
    rw [hpeers]
    exact h.keys k ((hlogs k).mp hk)
  · intro k hk
    rw [hw, open_round] at hk
    rw [hlogs]
    rcases hk with hk | hk
    · exact h.opened k (ho k hk)
    · exact (hl k).mp hk.1
  · intro k hk
    have hpres := (h.keys k ((hlogs k).mp hk)).2
    revert hk
    rw [hw]
    exact paced_round (by rw [hp]; exact hpres)

/-- What only opens keys keeps what is found. -/
theorem paced_of_offered {n : Node C} {r : Node C × List (Effect C)} {K : PeerBin → Prop}
    (ho : Offered n r K) {k : PeerBin} (h : Paced k n) : Paced k r.1 := by
  intro hk hopen
  rw [ho.opened, not_or] at hopen
  rw [ho.log]
  exact h (((ho.logs k).mp hk).resolve_right hopen.2) hopen.1

/-- The answers of offers and fetches ask for no cursors. -/
theorem getCursors_not_mem_round (n : Node C) (p : PeerId) : .getCursors p ∉ n.round.2 := by
  rw [round_snd, List.mem_append, effects_settle, List.mem_flatMap]
  rintro (⟨k, -, h⟩ | h)
  · rw [settleEffects, List.mem_append] at h
    rcases h with h | h
    · simp at h
    · split at h <;> simp at h
  · obtain ⟨q, b, want, h⟩ := mem_schedule h
    cases h

/-- Only a peer that is seen is asked for its cursors. -/
theorem getCursors_not_mem_handle (n : Node C) {ev : Event C} (h : ∀ p, ev ≠ .peerSeen p)
    (p : PeerId) : .getCursors p ∉ (n.handle ev).2 := by
  by_cases hr : endsInRound ev
  · rw [n.handle_eq_round hr]
    exact getCursors_not_mem_round _ p
  · intro hm
    cases ev with
    | peerSeen q => exact h q rfl
    | cursorsResult q cs =>
      obtain ⟨k, -, -, hk⟩ := (n.offered_cursorsResult q cs).offers _ hm
      cases hk
    | tick =>
      obtain ⟨k, -, -, hk⟩ := n.offered_tick.offers _ hm
      cases hk
    | _ => exact hr rfl

/-! ## Every move of the setting keeps what is found -/

section Moves

variable {S : Setting C} {w w' : World C}

/-- A move that announces no peer leaves only the requests it does not answer. -/
theorem asked_rest {mv : Move C} (hw : w'.shell = w.shell.next mv)
    (hseen : ∀ p, mv.event ≠ .peerSeen p) (q : PeerId) :
    .getCursors q ∈ w'.pending ↔ .getCursors q ∈ w.shell.rest mv := by
  have hpend : w'.pending = w.shell.rest mv ++ (w.node.handle mv.event).2 :=
    World.pending_move hw
  rw [hpend, List.mem_append]
  exact or_iff_left (getCursors_not_mem_handle w.node hseen q)

/-- A peer that is seen is asked for its cursors, unless it is known. -/
theorem Found.announced (h : Found S w) {p : PeerId} (hf : p ∈ S.peers)
    (hw : w'.shell = w.shell.next (.peerSeen p))
    (hu : w'.unseen = w.unseen ∨ w'.unseen = w.unseen.erase p) : Found S w' := by
  have hnode : w'.node = (w.node.handle (.peerSeen p)).1 := World.node_move hw
  have hpend : w'.pending = w.pending ++ (w.node.handle (.peerSeen p)).2 :=
    World.pending_move hw
  have hm : w'.node = { w.node with peers := w.node.peers.insert p }
      ∧ ∀ q, .getCursors q ∈ w'.pending ↔
        .getCursors q ∈ w.pending ∨ q = p ∧ p ∉ w.node.peers := by
    rw [hnode, hpend]
    simp only [handle]
    split
    · next hp =>
      have hp : p ∈ w.node.peers := ExtTreeSet.mem_iff_contains.mpr hp
      have hins : w.node.peers.insert p = w.node.peers := ExtTreeSet.ext_mem fun q => by grind
      rw [hins]
      exact ⟨rfl, fun q => by simp [hp, World.pending]⟩
    · next hp =>
      have hp : p ∉ w.node.peers := fun hm => hp (ExtTreeSet.mem_iff_contains.mp hm)
      exact ⟨rfl, fun q => by simp [hp, World.pending]⟩
  obtain ⟨hn, hc⟩ := hm
  have hpeers : ∀ q, q ∈ w'.node.peers ↔ p = q ∨ q ∈ w.node.peers := fun q => by simp [hn]
  refine ⟨by rw [hn]; exact h.radius, fun q hq => ?_, fun q hq => ?_, fun q hq => ?_,
    fun k hk => ?_, fun k hk => ?_, fun k => ?_⟩
  · rw [hpeers]
    by_cases hqp : p = q
    · exact .inr (.inl hqp)
    · refine (h.seen q hq).imp (fun hm => ?_) .inr
      rcases hu with hu | hu
      · rwa [hu]
      · rw [hu]
        exact (List.mem_erase_of_ne (Ne.symm hqp)).mpr hm
  · rcases (hc q).mp hq with hq | ⟨rfl, -⟩
    · exact ⟨(h.asked q hq).1, (hpeers q).mpr (.inr (h.asked q hq).2)⟩
    · exact ⟨hf, (hpeers q).mpr (.inl rfl)⟩
  · rw [hc, hn]
    by_cases hqp : q ∈ w.node.peers
    · exact (h.listed q hqp).imp .inl id
    · obtain rfl := ((hpeers q).mp hq).resolve_right hqp
      exact .inl (.inr ⟨rfl, hqp⟩)
  · rw [hn] at hk
    exact ⟨(h.keys k hk).1, (hpeers _).mpr (.inr (h.keys k hk).2)⟩
  · rw [hn] at hk ⊢
    exact h.opened k hk
  · rw [hn]
    exact h.paced k

/-- A tick opens only keys that have a log. -/
theorem Found.ticked (h : Found S w) (hw : w'.shell = w.shell.next .tick)
    (hu : w'.unseen = w.unseen) : Found S w' := by
  have hnode : w'.node = (w.node.handle .tick).1 := World.node_move hw
  have ho := w.node.offered_tick
  have hlogs : ∀ k, k ∈ w'.node.logs ↔ k ∈ w.node.logs := fun k => by
    rw [hnode]
    exact (ho.logs k).trans (or_iff_left_of_imp fun hk => hk.1)
  have hc : ∀ p, .getCursors p ∈ w'.pending ↔ .getCursors p ∈ w.pending :=
    asked_rest hw fun p hp => by cases hp
  have hpeers : w'.node.peers = w.node.peers := by rw [hnode]; exact ho.peers
  refine ⟨by rw [hnode]; exact ho.radius.trans h.radius, by rw [hu, hpeers]; exact h.seen,
    fun p hp => ?_, fun p hp => ?_, fun k hk => ?_, fun k hk => ?_, fun k => ?_⟩
  · rw [hpeers]
    exact h.asked p ((hc p).mp hp)
  · rw [hpeers] at hp
    rw [hc]
    exact (h.listed p hp).imp_right fun hb b hb' hbr => (hlogs _).mpr (hb b hb' hbr)
  · rw [hpeers]
    exact h.keys k ((hlogs k).mp hk)
  · rw [hlogs]
    rw [hnode] at hk
    exact ((ho.opened k).mp hk).elim (h.opened k) And.left
  · rw [hnode]
    exact paced_of_offered ho (h.paced k)

/-- The cursors of a peer open a log for each of its bins within the radius. -/
theorem Found.listed_cursors (h : Found S w) {p : PeerId} {cs : List (Bin × ℕ)}
    (hp : .getCursors p ∈ w.pending) (hcs : cs.map (·.1) = S.bins p)
    (hw : w'.shell = w.shell.next (.cursors p cs)) (hu : w'.unseen = w.unseen) : Found S w' := by
  have hnode : w'.node = (w.node.handle (.cursorsResult p cs)).1 := World.node_move hw
  have ho := w.node.offered_cursorsResult p cs
  obtain ⟨hpS, hpn⟩ := h.asked p hp
  have hkey : ∀ k, w.node.CursorKey p cs k ↔
      k.peer = p ∧ ¬ k.bin < S.radius ∧ k.bin ∈ S.bins p := by
    intro k
    rw [CursorKey, h.radius, ← hcs]
    simp
  have hlogs : ∀ k, k ∈ w'.node.logs ↔ k ∈ w.node.logs ∨ _ := fun k => by
    rw [hnode]
    exact ho.logs k
  have hc : ∀ q, q ≠ p → (.getCursors q ∈ w'.pending ↔ .getCursors q ∈ w.pending) := by
    intro q hq
    refine (asked_rest hw (fun p hp => by cases hp) q).trans ?_
    simp only [Shell.rest, Move.answered, Option.elim]
    rw [List.mem_erase_of_ne (by simpa using hq)]
    exact Iff.rfl
  have hpeers : w'.node.peers = w.node.peers := by rw [hnode]; exact ho.peers
  refine ⟨by rw [hnode]; exact ho.radius.trans h.radius, by rw [hu, hpeers]; exact h.seen,
    fun q hq => ?_, fun q hq => ?_, fun k hk => ?_, fun k hk => ?_, fun k => ?_⟩
  · rw [hpeers]
    by_cases hqp : q = p
    · exact hqp ▸ ⟨hpS, hpn⟩
    · exact h.asked q ((hc q hqp).mp hq)
  · rw [hpeers] at hq
    by_cases hqp : q = p
    · subst hqp
      exact .inr fun b hb hbr => (hlogs _).mpr (.inr ((hkey _).mpr ⟨rfl, hbr, hb⟩))
    · rw [hc q hqp]
      exact (h.listed q hq).imp_right fun hb b hb' hbr => (hlogs _).mpr (.inl (hb b hb' hbr))
  · rw [hpeers]
    rcases (hlogs k).mp hk with hk | hk
    · exact h.keys k hk
    · obtain ⟨hkp, hkr, hkb⟩ := (hkey k).mp hk
      exact ⟨(S.mem_keys k).mpr ⟨⟨hkp ▸ hpS, hkp ▸ hkb⟩, hkr⟩, hkp ▸ hpn⟩
  · rw [hlogs]
    rw [hnode] at hk
    exact ((ho.opened k).mp hk).imp (h.opened k) id
  · rw [hnode]
    exact paced_of_offered ho (h.paced k)

/-- The answer of an offer opens no log: its key has one. -/
theorem Found.paged (h : Found S w) (ha : Account w) {p : PeerId} {b : Bin} {start topmost : ℕ}
    {refs : List (ℕ × C)} (hp : .offer p b start ∈ w.pending)
    (hw : w'.shell = w.shell.next (.offer p b start refs topmost)) (hu : w'.unseen = w.unseen) :
    Found S w' := by
  have hk := h.mem_logs ha (k := ⟨p, b⟩) hp
  have hframe := w.node.answerOffer_frame ⟨p, b⟩ start refs topmost
  have hnode : w'.node = (w.node.answerOffer ⟨p, b⟩ start refs topmost).round.1 := by
    rw [World.node_move hw, Move.event, handle_offerResult]
  refine h.of_round hnode hu hframe.2.1 hframe.2.2.1 (fun k => ?_) (fun k hk => ?_) fun q => ?_
  · by_cases hkk : (⟨p, b⟩ : PeerBin) = k
    · subst hkk
      exact iff_of_true (w.node.mem_logs_answerOffer _ _ _ _) hk
    · rw [mem_logs_iff, logs_answerOffer_ne _ _ _ _ _ hkk, mem_logs_iff]
  · rw [hframe.2.2.2.2.2, Discovery.close, ExtTreeSet.mem_erase] at hk
    exact hk.2
  · refine (asked_rest hw (fun p hp => by cases hp) q).trans ?_
    simp only [Shell.rest, Move.answered, Option.elim]
    rw [List.mem_erase_of_ne (by simp)]
    exact Iff.rfl

/-- The report of a fetch changes neither peers nor logs. -/
theorem Found.fetched (h : Found S w) {p : PeerId} {b : Bin} {want : List C}
    {outcomes : List (C × Outcome)} (hw : w'.shell = w.shell.next (.fetch p b want outcomes))
    (hu : w'.unseen = w.unseen) : Found S w' := by
  have hnode : w'.node = (w.node.reported p outcomes).round.1 := by
    rw [World.node_move hw, Move.event, handle_fetchResult]
  refine h.of_round hnode hu rfl rfl
    (fun k => Iff.rfl) (fun k hk => hk) fun q => ?_
  refine (asked_rest hw (fun p hp => by cases hp) q).trans ?_
  simp only [Shell.rest, Move.answered, Option.elim]
  rw [List.mem_erase_of_ne (by simp)]
  exact Iff.rfl

/-- Every move of the setting keeps what is found. -/
theorem Found.move (h : Found S w) (ha : Account w) {mv : Move C} (hf : Fits S w mv)
    (hw : w'.shell = w.shell.next mv)
    (hu : w'.unseen = w.unseen ∨ ∃ p, mv = .peerSeen p ∧ w'.unseen = w.unseen.erase p) :
    Found S w' := by
  have hu' : (∀ p, mv ≠ .peerSeen p) → w'.unseen = w.unseen := fun hmv =>
    hu.resolve_right (not_exists.mpr fun p hp => hmv p hp.1)
  cases mv with
  | peerGone p => exact hf.elim
  | peerSeen p =>
    refine h.announced hf hw (hu.imp_right fun he => ?_)
    obtain ⟨q, hq, hu⟩ := he
    rwa [Move.peerSeen.inj hq]
  | tick => exact h.ticked hw (hu' (by simp))
  | cursors p cs =>
    exact h.listed_cursors hf.1 hf.2 hw (hu' (by simp))
  | offer p b start refs topmost => exact h.paged ha hf.1 hw (hu' (by simp))
  | fetch p b want outcomes => exact h.fetched hw (hu' (by simp))

end Moves

end Melissi.Puller
