import Melissi.Node.Delivery

/-!
# After a departure

A departure drops every trace of the peer, and no event of others brings one back. Two of its own
late answers do: the arms of `CursorsResult` and `OfferResult` make logs on demand and do not ask
whether the peer is still there.
-/

namespace Melissi

/-- The peer an effect names. -/
def Effect.peer {C : Type} : Effect C → PeerId
  | .getCursors p => p
  | .offer p _ _ => p
  | .fetch p _ _ => p
  | .settled p _ _ => p

namespace Node

open Melissi.Common Melissi.Machine Melissi.Machine.PullState Melissi.Settlement
open Std (ExtTreeMap ExtTreeSet)

variable {C : Type} [LinearOrder C]

/-- No trace of `p`: it holds nothing, has no claim, and nothing is kept for its bins. -/
structure Gone (p : PeerId) (n : Node C) : Prop where
  held : ∀ c, ¬ n.m.Held c p
  leased : ∀ c, ¬ n.m.Leased c p
  logs : ∀ k ∈ n.logs, k.peer ≠ p
  cursors : ∀ k ∈ n.cursors, k.peer ≠ p
  offers : ∀ k ∈ n.disc.offerOpen, k.peer ≠ p

/-- The late answers of `p` that make a log for it. -/
def Revives (radius : Bin) (p : PeerId) : Event C → Prop
  | .cursorsResult q cursors => q = p ∧ ∃ e ∈ cursors, ¬ e.1 < radius
  | .offerResult q .. => q = p
  | _ => False

/-! ## A round -/

/-- A round names the peers it keeps logs of and those that hold something. -/
theorem peer_of_mem_round {n : Node C} {fx : Effect C} (h : fx ∈ n.round.2) :
    (∃ k ∈ n.logs, k.peer = fx.peer) ∨ ∃ c, n.m.Held c fx.peer := by
  rw [round_snd, List.mem_append, effects_settle, List.mem_flatMap] at h
  rcases h with ⟨k, hk, h⟩ | h
  · refine .inl ⟨k, ExtTreeMap.mem_keys.mp hk, ?_⟩
    rw [settleEffects, List.mem_append] at h
    rcases h with h | h
    · obtain ⟨upto, -, rfl⟩ := Option.map_eq_some_iff.mp (Option.mem_toList.mp h)
      rfl
    · split at h
      · obtain rfl := List.mem_singleton.mp h
        rfl
      · cases h
  · obtain ⟨p, b, want, rfl⟩ := mem_schedule h
    obtain ⟨hne, rfl⟩ := (fetch_mem_schedule n.planned p b want).mp h
    obtain ⟨c, hc⟩ := List.exists_mem_of_ne_nil _ hne
    exact .inr ⟨c, ((n.held_planned c p).mp (n.planned.scheduled_spec.1.fresh _ c hc).2.2.1).2⟩

theorem Gone.not_mem_round {p : PeerId} {n : Node C} (h : Gone p n) :
    ∀ fx ∈ n.round.2, fx.peer ≠ p := by
  rintro fx hfx rfl
  rcases peer_of_mem_round hfx with ⟨k, hk, hp⟩ | ⟨c, hc⟩
  · exact h.logs k hk hp
  · exact h.held c hc

theorem Gone.round {p : PeerId} {n : Node C} (h : Gone p n) : Gone p n.round.1 where
  held c hc := h.held c ((n.held_round c p).mp hc).2
  leased c hc := by
    rcases (n.leased_round c p).mp hc with hl | hf
    · exact h.leased c hl
    · exact h.held c ((n.held_planned c p).mp (n.planned.scheduled_spec.1.fresh _ c hf).2.2.1).2
  logs k hk := h.logs k ((n.mem_logs_round k).mp hk)
  cursors := by
    rw [(round_frame n).2.2.2]
    exact h.cursors
  offers k hk := by
    rcases (n.open_round k).mp hk with ho | ⟨hl, -⟩
    · exact h.offers k ho
    · exact h.logs k hl

/-! ## The departure -/

theorem gone_departed (n : Node C) (p : PeerId) : Gone p (n.departed p) where
  held c hc := ((losePeer_spec n.m p c p).1.mp hc).1 rfl
  leased c hc := ((losePeer_spec n.m p c p).2.mp hc).1 rfl
  logs k hk hp := by
    obtain ⟨l, hl⟩ := mem_logs_iff.mp hk
    rw [logs_departed, if_pos hp] at hl
    cases hl
  cursors k hk hp := by
    rw [← ExtTreeMap.isSome_getElem?_iff_mem, departed, getElem?_filter] at hk
    cases hb : n.cursors[k]? <;> simp [hb, hp] at hk
  offers k hk := ((n.open_departed p k).mp hk).1

/-! ## Later events -/

/-- The departure of another peer brings nothing back. -/
theorem Gone.departed {p : PeerId} {n : Node C} (h : Gone p n) (q : PeerId) :
    Gone p (n.departed q) where
  held c hc := h.held c ((losePeer_spec n.m q c p).1.mp hc).2
  leased c hc := h.leased c ((losePeer_spec n.m q c p).2.mp hc).2
  logs k hk := by
    rw [mem_logs_iff, logs_departed] at hk
    split at hk
    · simp at hk
    · exact h.logs k (mem_logs_iff.mpr hk)
  cursors k hk := by
    refine h.cursors k ?_
    rw [← ExtTreeMap.isSome_getElem?_iff_mem, Node.departed, getElem?_filter] at hk
    rw [← ExtTreeMap.isSome_getElem?_iff_mem]
    cases hb : n.cursors[k]? <;> simp [hb] at hk ⊢
  offers k hk := h.offers k ((n.open_departed q k).mp hk).2

/-- An answered offer of another peer brings nothing back. -/
theorem Gone.answerOffer {p : PeerId} {n : Node C} (h : Gone p n) {k : PeerBin} (hk : k.peer ≠ p)
    (start : ℕ) (refs : List (ℕ × C)) (topmost : ℕ) :
    Gone p (n.answerOffer k start refs topmost) := by
  obtain ⟨-, -, -, hcursors, -, hdisc⟩ := n.answerOffer_frame k start refs topmost
  refine ⟨fun c hc => ?_, fun c hc => ?_, fun k' hk' => ?_, ?_, ?_⟩
  · rcases (n.held_answerOffer k start refs topmost c p).mp hc with hc | hc
    · exact hk hc.2
    · exact h.held c hc.2
  · exact h.leased c ((n.leased_answerOffer k start refs topmost c p).mp hc).2
  · by_cases hkk : k = k'
    · rwa [← hkk]
    · rw [mem_logs_iff, n.logs_answerOffer_ne k start refs topmost hkk, ← mem_logs_iff] at hk'
      exact h.logs k' hk'
  · rw [hcursors]
    exact h.cursors
  · rw [hdisc]
    exact fun k' hk' => h.offers k' (ExtTreeSet.mem_of_mem_erase hk')

/-- Opening keys of other peers brings nothing back. -/
theorem Gone.offered {p : PeerId} {n : Node C} (h : Gone p n) {r : Node C × List (Effect C)}
    {K : PeerBin → Prop} (ho : Offered n r K) (hK : ∀ k, K k → k.peer ≠ p)
    (hc : ∀ k ∈ r.1.cursors, k ∈ n.cursors ∨ K k) :
    Gone p r.1 ∧ ∀ fx ∈ r.2, fx.peer ≠ p := by
  refine ⟨⟨?_, ?_, fun k hk => ?_, fun k hk => ?_, fun k hk => ?_⟩, fun fx hfx => ?_⟩
  · rw [ho.m]
    exact h.held
  · rw [ho.m]
    exact h.leased
  · exact ((ho.logs k).mp hk).elim (h.logs k) (hK k)
  · exact (hc k hk).elim (h.cursors k) (hK k)
  · exact ((ho.opened k).mp hk).elim (h.offers k) (hK k)
  · obtain ⟨k, hk, -, rfl⟩ := ho.offers fx hfx
    exact hK k hk

/-- The cursors a `GetCursors` answer leaves. -/
theorem mem_cursors_cursorsResult (n : Node C) (q : PeerId) (cursors : List (Bin × ℕ)) :
    ∀ k ∈ (n.handle (.cursorsResult q cursors)).1.cursors, k ∈ n.cursors ∨ n.CursorKey q cursors k := by
  have hopen : ∀ n' : Node C, ∀ e : Bin × ℕ, ∀ k ∈ (n'.openCursor q e).1.cursors,
      k ∈ n'.cursors ∨ k = ⟨q, e.1⟩ ∧ ¬ e.1 < n'.radius := by
    intro n' e k hk
    rw [openCursor] at hk
    split at hk
    · exact .inl hk
    · next hr =>
      simp only [openOffer_frame, ExtTreeMap.mem_insert, compare_eq_iff_eq] at hk
      exact hk.elim (fun he => .inr ⟨he.symm, hr⟩) .inl
  refine (feed_invariant (openCursor q) (I := fun n' : Node C => n'.radius = n.radius ∧
    ∀ k ∈ n'.cursors, k ∈ n.cursors ∨ n.CursorKey q cursors k) cursors
    (fun n' hn e he => ⟨?_, fun k hk => ?_⟩) ⟨rfl, fun _ => .inl⟩).2
  · exact (offered_openCursor n' q e).radius.trans hn.1
  · rcases hopen n' e k hk with hk | ⟨rfl, hr⟩
    · exact hn.2 k hk
    · exact .inr ⟨rfl, hn.1 ▸ hr, e.2, he⟩

/-- No event but the return of the peer and its two late answers brings anything back. -/
theorem Gone.handle {p : PeerId} {n : Node C} (h : Gone p n) {ev : Event C}
    (hs : ev ≠ .peerSeen p) (hr : ¬ Revives n.radius p ev) :
    Gone p (n.handle ev).1 ∧ ∀ fx ∈ (n.handle ev).2, fx.peer ≠ p := by
  cases ev with
  | peerSeen q =>
    simp only [Node.handle]
    split
    · exact ⟨h, by simp⟩
    · refine ⟨⟨h.held, h.leased, h.logs, h.cursors, h.offers⟩, ?_⟩
      simpa [Effect.peer] using fun hq : q = p => hs (by rw [hq])
  | peerGone q =>
    have hd := h.departed q
    exact ⟨hd.round, hd.not_mem_round⟩
  | cursorsResult q cursors =>
    refine h.offered (n.offered_cursorsResult q cursors) ?_ (n.mem_cursors_cursorsResult q cursors)
    rintro k ⟨hq, hk, head, hh⟩ rfl
    exact hr ⟨hq.symm, (k.bin, head), hh, hk⟩
  | offerResult q b start refs topmost =>
    have ha := h.answerOffer (k := ⟨q, b⟩) hr start refs topmost
    exact ⟨ha.round, ha.not_mem_round⟩
  | tick =>
    refine h.offered n.offered_tick (fun k hk => h.logs k hk.1) fun k hk => .inl ?_
    rwa [Node.handle, feed_frame _ Node.cursors fun n' k' => by split <;> rfl] at hk
  | fetchResult q b outcomes =>
    have hheld : (n.reported q outcomes).m.Held = n.m.Held :=
      foldl_frame Held (report q) outcomes (by simp) n.m
    have ha : Gone p (n.reported q outcomes) :=
      ⟨by rw [hheld]; exact h.held, fun c hc => h.leased c (leased_of_reported hc), h.logs, h.cursors,
        h.offers⟩
    exact ⟨ha.round, ha.not_mem_round⟩

/-- The two late answers do bring a log back. -/
theorem mem_logs_of_revives {p : PeerId} {n : Node C} {ev : Event C} (hr : Revives n.radius p ev) :
    ∃ k ∈ (n.handle ev).1.logs, k.peer = p := by
  cases ev with
  | cursorsResult q cursors =>
    obtain ⟨rfl, e, he, hb⟩ := hr
    exact ⟨⟨q, e.1⟩, ((n.offered_cursorsResult q cursors).logs _).mpr (.inr ⟨rfl, hb, e.2, he⟩), rfl⟩
  | offerResult q b start refs topmost =>
    exact ⟨⟨q, b⟩, (mem_logs_round _ _).mpr (n.mem_logs_answerOffer _ start refs topmost), hr⟩
  | _ => exact hr.elim

/-! ## Runs -/

theorem radius_run (n : Node C) (evs : List (Event C)) : (n.run evs).1.radius = n.radius :=
  feed_frame Node.handle Node.radius radius_handle n evs

theorem Gone.run {p : PeerId} {n : Node C} (h : Gone p n) {evs : List (Event C)}
    (hs : .peerSeen p ∉ evs) (hr : ∀ ev ∈ evs, ¬ Revives n.radius p ev) :
    Gone p (n.run evs).1 ∧ ∀ fx ∈ (n.run evs).2, fx.peer ≠ p := by
  induction evs generalizing n with
  | nil => exact ⟨h, by simp⟩
  | cons ev evs ih =>
    rw [List.mem_cons, not_or] at hs
    obtain ⟨hstep, hfx⟩ := h.handle (Ne.symm hs.1) (hr ev List.mem_cons_self)
    obtain ⟨hrun, hfxs⟩ := ih hstep hs.2 fun ev' he => by
      rw [radius_handle]
      exact hr ev' (List.mem_cons_of_mem _ he)
    rw [run_cons]
    exact ⟨hrun, fun fx hm => (List.mem_append.mp hm).elim (hfx fx) (hfxs fx)⟩

/-- From a departure on, and as long as the peer does not return, no trace of it is kept and nothing
names it, if and only if none of its own late answers makes a log: no answered offer of it, and no
cursors of it for a bin within the radius. -/
theorem departure_final_iff (n : Node C) (p : PeerId) (evs : List (Event C))
    (hs : .peerSeen p ∉ evs) :
    ((∀ pre, pre <+: evs → Gone p (n.run (.peerGone p :: pre)).1)
        ∧ ∀ fx ∈ (n.run (.peerGone p :: evs)).2, fx.peer ≠ p)
      ↔ ∀ ev ∈ evs, ¬ Revives n.radius p ev := by
  have hd := n.gone_departed p
  have hradius : (n.handle (.peerGone p)).1.radius = n.radius := n.radius_handle _
  constructor
  · rintro ⟨hgone, -⟩ ev he hr
    obtain ⟨pre, post, rfl⟩ := List.append_of_mem he
    have hlast := hgone (pre ++ [ev]) ⟨post, by simp⟩
    rw [← List.cons_append, run_snoc_fst] at hlast
    rw [← radius_run n (.peerGone p :: pre)] at hr
    obtain ⟨k, hk, hp⟩ := mem_logs_of_revives hr
    exact hlast.logs k hk hp
  · intro hr
    refine ⟨fun pre hpre => ?_, fun fx hfx => ?_⟩
    · rw [run_cons, handle_peerGone]
      refine (hd.round.run (fun he => hs (hpre.subset he)) fun ev he => ?_).1
      rw [← handle_peerGone, hradius]
      exact hr ev (hpre.subset he)
    · rw [run_cons, List.mem_append] at hfx
      rcases hfx with hfx | hfx
      · exact hd.not_mem_round fx hfx
      · refine (hd.round.run hs fun ev he => ?_).2 fx hfx
        rw [← handle_peerGone, hradius]
        exact hr ev he

/-- A peer with a log, holdings and leases departs, and its fetch fails late, while another peer that
offered one of the triples goes on answering. -/
theorem departure_final_missed :
    let n := ((start Config.production 0 Policy.shipped ([] : List ℕ)).run
      [.peerSeen 1, .peerSeen 2, .cursorsResult 1 [(1, 5)], .cursorsResult 2 [(1, 3)],
        .offerResult 1 1 1 [(4, 7), (5, 8)] 5, .offerResult 2 1 1 [(3, 7)] 3]).1
    let late := [.fetchResult 1 1 [(7, .missed), (8, .missed)], .fetchResult 2 1 [(7, .delivered)],
      .offerResult 2 1 4 [(4, 9)] 4]
    ⟨1, 1⟩ ∈ n.logs ∧ n.m.Held 7 1 ∧ n.m.Leased 7 1 ∧ n.m.Leased 8 1
      ∧ (∀ pre, pre <+: late → Gone 1 (n.run (.peerGone 1 :: pre)).1)
      ∧ ∀ fx ∈ (n.run (.peerGone 1 :: late)).2, fx.peer ≠ 1 := by
  intro n late
  refine ⟨by decide +kernel, by decide +kernel, by decide +kernel, by decide +kernel, ?_⟩
  exact (departure_final_iff n 1 late (by simp [late])).mpr (by simp [late, Revives])

/-- The cursors of a departed peer, answered late, are followed by an offer to it. -/
theorem departure_revived :
    let n := ((start Config.production 0 Policy.shipped ([] : List ℕ)).run [.peerSeen 1, .peerGone 1]).1
    (n.handle (.cursorsResult 1 [(1, 5)])).2 = [.offer 1 1 1]
      ∧ ⟨1, 1⟩ ∈ (n.handle (.cursorsResult 1 [(1, 5)])).1.logs
      ∧ ⟨1, 1⟩ ∈ (n.handle (.cursorsResult 1 [(1, 5)])).1.disc.offerOpen := by
  decide +kernel

end Node

end Melissi
