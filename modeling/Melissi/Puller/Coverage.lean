import Melissi.Puller.Discovery

/-!
# What is covered, and whose it is

Every log of the node tracks the peer's log it was offered from, its unsettled entries are held and
arrived, and whatever the node knows, stores or rejects stands in some log of the setting.
-/

namespace Melissi.Puller

open Melissi.Common Melissi.Machine Melissi.Machine.PullState Melissi.Settlement Melissi.Node
open Std (ExtTreeMap ExtTreeSet)

variable {C : Type} [LinearOrder C]

structure Covered (S : Setting C) (w : World C) : Prop where
  tracks : ∀ k, Tracks (w.logs k) (w.node.log k) (Settled w.node)
  /-- An interval stops only at the end of what is covered or below an unsettled entry. -/
  stuck : ∀ k, (w.node.log k).interval = (w.node.log k).topmost ∨
    ∃ c, (w.node.log k).entries[(w.node.log k).interval + 1]? = some c ∧ ¬ Settled w.node c
  held : ∀ (k : PeerBin) (b : ℕ) (c : C), (w.node.log k).entries[b]? = some c → ¬ Settled w.node c →
    w.node.m.Held c k.peer ∧ c ∈ w.node.m.arrived
  arrived : ∀ c ∈ w.node.m.arrived, Logged S w c
  known : ∀ c ∈ w.node.binOf, Logged S w c
  /-- A settled triple is known only while some window has it. -/
  windowed : ∀ c ∈ w.node.binOf, Settled w.node c →
    ∃ (k : PeerBin) (b : ℕ), (w.node.log k).entries[b]? = some c
  preloaded : ∀ c ∈ S.held, c ∈ w.node.m.got
  stored : ∀ c ∈ w.node.m.got, c ∈ S.held ∨ ¬ S.bad c ∧ Logged S w c
  rejected : ∀ c ∈ w.node.m.rejected, S.bad c ∧ Logged S w c

/-! ## What a move ingests -/

/-- A pending offer's page is of a log of the setting. -/
theorem logged_of_page {S : Setting C} {w : World C} (hfd : Found S w) (ha : Account w) {p : PeerId}
    {b : Bin} {start : ℕ} (hp : .offer p b start ∈ w.pending) {limit : ℕ} {c : C}
    (hc : c ∈ ((w.logs ⟨p, b⟩).page start limit).map (·.2)) : Logged S w c := by
  obtain ⟨e, he, rfl⟩ := List.mem_map.mp hc
  exact ⟨⟨p, b⟩, (hfd.keys _ (hfd.mem_logs ha (k := ⟨p, b⟩) hp)).1, e.1,
    (AppendLog.mem_of_mem_page he).1⟩

/-- What a fetch wants stands in some log. -/
theorem Covered.logged_of_wanted {S : Setting C} {w : World C} (h : Covered S w) (ha : Account w)
    {p : PeerId} {b : Bin} {want : List C} (hp : .fetch p b want ∈ w.pending) {c : C}
    (hc : c ∈ want) : Logged S w c :=
  h.arrived c (ha.safe.claims.arrived c p (ha.accounted.leased p b want hp c hc))

theorem Covered.tracks_ingested {S : Setting C} {w : World C} (h : Covered S w) (ha : Account w)
    {mv : Move C} (hf : Fits S w mv) (k : PeerBin) :
    Tracks (w.logs k) (ingestedLog k (w.node.log k) mv.event) (Settled w.node) := by
  cases mv with
  | peerGone p => exact hf.elim
  | offer p b start refs topmost =>
    obtain ⟨hp, limit, hne, rfl, rfl⟩ := hf
    rw [Move.event, ingestedLog]
    split
    · next hk =>
      subst hk
      exact (h.tracks _).answered hne (ha.starts ⟨p, b⟩ start hp).2
    · exact h.tracks k
  | peerSeen p => exact h.tracks k
  | tick => exact h.tracks k
  | cursors p cs => exact h.tracks k
  | fetch p b want outcomes => exact h.tracks k

theorem mem_arrived_reported {n : Node C} {peer : PeerId} {outcomes : List (C × Outcome)} {c : C}
    (h : c ∈ n.m.arrived) : c ∈ (n.reported peer outcomes).m.arrived
      ∨ c ∈ (n.reported peer outcomes).m.rejected := by
  refine foldl_invariant (I := fun m : PullState C => c ∈ m.arrived ∨ c ∈ m.rejected)
    (report peer) outcomes (fun m hm e _ => ?_) (.inl h)
  obtain ⟨d, o⟩ := e
  cases o with
  | delivered => simpa [report] using hm
  | missed => simpa [report] using hm
  | rejected =>
    rw [report, mem_arrived_reject, mem_rejected_reject]
    by_cases hd : d = c ∧ d ∉ m.got ∧ d ∉ m.rejected
    · exact .inr (.inl ⟨hd.1, hd.2.1⟩)
    · exact hm.imp (fun hm => ⟨hd, hm⟩) .inr

/-- What an ingested window holds unsettled is held and arrived. -/
theorem Covered.held_ingested {S : Setting C} {w : World C} (h : Covered S w) {mv : Move C}
    (hf : Fits S w mv) {k : PeerBin} {b : ℕ} {c : C}
    (he : (ingestedLog k (w.node.log k) mv.event).entries[b]? = some c)
    (hs : ¬ Settled (w.node.ingested mv.event) c) :
    (w.node.ingested mv.event).m.Held c k.peer ∧ c ∈ (w.node.ingested mv.event).m.arrived := by
  have hmono := (w.node.calls_ingested mv.event).settled_mono
  have hs₀ : ¬ Settled w.node c := fun hn => hs (hn.imp (hmono.1 c) (hmono.2 c))
  cases mv with
  | peerGone p => exact hf.elim
  | offer p b' start refs topmost =>
    obtain ⟨-, limit, hne, rfl, rfl⟩ := hf
    simp only [Move.event, ingested, held_answerOffer, mem_arrived_answerOffer,
      (h.tracks ⟨p, b'⟩).lost_page hne, List.map_nil, List.not_mem_nil, false_and, not_false_iff,
      true_and]
    have hold : (w.node.log k).entries[b]? = some c → _ := fun he => h.held k b c he hs₀
    rw [Move.event, ingestedLog] at he
    split at he
    · next hk =>
      subst hk
      have hb := (PeerBinLog.bounds_of_entry he).1
      rw [interval_answeredLog] at hb
      rw [entries_answeredLog _ _ _ _ hb, Option.or_eq_some_iff] at he
      rcases he with hn | ⟨-, he⟩
      · have hc : c ∈ ((w.logs ⟨p, b'⟩).page start limit).map (·.2) :=
          List.mem_map.mpr ⟨_, mem_of_named hn, rfl⟩
        exact ⟨.inl ⟨hc, rfl⟩, .inr ⟨hc, fun hg => hs₀ (.inl hg), fun hr => hs₀ (.inr hr)⟩⟩
      · split at he
        · cases he
        · exact ⟨.inr (hold he).1, .inl (hold he).2⟩
    · exact ⟨.inr (hold he).1, .inl (hold he).2⟩
  | fetch p b' want outcomes =>
    obtain ⟨hh, harr⟩ := h.held k b c he hs₀
    have hheld : (w.node.reported p outcomes).m.Held = w.node.m.Held :=
      foldl_frame Held (report p) outcomes (by simp) w.node.m
    refine ⟨?_, (mem_arrived_reported harr).resolve_right fun hr => hs (.inr hr)⟩
    rw [Move.event, ingested, hheld]
    exact hh
  | peerSeen p => exact h.held k b c he hs₀
  | tick => exact h.held k b c he hs₀
  | cursors p cs => exact h.held k b c he hs₀

theorem Covered.arrived_ingested {S : Setting C} {w : World C} (h : Covered S w) (hfd : Found S w)
    (ha : Account w) {mv : Move C} (hf : Fits S w mv) :
    ∀ c ∈ (w.node.ingested mv.event).m.arrived, Logged S w c := by
  intro c hc
  cases mv with
  | peerGone p => exact hf.elim
  | offer p b start refs topmost =>
    obtain ⟨hp, limit, -, rfl, rfl⟩ := hf
    rcases (mem_arrived_answerOffer _ _ _ _ _ c).mp hc with hc | hc
    · exact h.arrived c hc
    · exact logged_of_page hfd ha hp hc.1
  | fetch p b want outcomes => exact h.arrived c (w.node.arrived_reported p outcomes c hc)
  | peerSeen p => exact h.arrived c hc
  | tick => exact h.arrived c hc
  | cursors p cs => exact h.arrived c hc

theorem Covered.known_ingested {S : Setting C} {w : World C} (h : Covered S w) (hfd : Found S w)
    (ha : Account w) {mv : Move C} (hf : Fits S w mv) :
    ∀ c ∈ (w.node.ingested mv.event).binOf, Logged S w c := by
  intro c hc
  cases mv with
  | peerGone p => exact hf.elim
  | offer p b start refs topmost =>
    obtain ⟨hp, limit, -, rfl, rfl⟩ := hf
    rw [mem_binOf_iff, Move.event, ingested, binOf_answerOffer] at hc
    split at hc
    · next hr => exact logged_of_page hfd ha hp hr
    · exact h.known c ((mem_binOf_iff _ c).mpr hc)
  | fetch p b want outcomes => exact h.known c hc
  | peerSeen p => exact h.known c hc
  | tick => exact h.known c hc
  | cursors p cs => exact h.known c hc

theorem Covered.stored_ingested {S : Setting C} {w : World C} (h : Covered S w) (ha : Account w)
    {mv : Move C} (hf : Fits S w mv) :
    (∀ c ∈ (w.node.ingested mv.event).m.got, c ∈ S.held ∨ ¬ S.bad c ∧ Logged S w c)
      ∧ ∀ c ∈ (w.node.ingested mv.event).m.rejected, S.bad c ∧ Logged S w c := by
  cases mv with
  | peerGone p => exact hf.elim
  | offer p b start refs topmost =>
    have hframe := w.node.answerOffer_machine_frame ⟨p, b⟩ start refs topmost
    rw [Move.event, ingested, hframe.2.2.1, hframe.2.2.2.1]
    exact ⟨h.stored, h.rejected⟩
  | fetch p b want outcomes =>
    obtain ⟨hp, hperm, hbad⟩ := hf
    have hlogged : ∀ c o, (c, o) ∈ outcomes → Logged S w c := fun c o he =>
      h.logged_of_wanted ha hp (hperm.subset (List.mem_map.mpr ⟨_, he, rfl⟩))
    refine ⟨fun c hc => ?_, fun c hc => ?_⟩
    · rcases mem_got_reported hc with hc | he
      · exact h.stored c hc
      · exact .inr ⟨fun hb => by simpa using (hbad _ he).mpr hb, hlogged c _ he⟩
    · rcases mem_rejected_reported hc with hc | he
      · exact h.rejected c hc
      · exact ⟨(hbad _ he).mp rfl, hlogged c _ he⟩
  | peerSeen p => exact ⟨h.stored, h.rejected⟩
  | tick => exact ⟨h.stored, h.rejected⟩
  | cursors p cs => exact ⟨h.stored, h.rejected⟩

/-! ## Moves and appends -/

/-- Whatever is handled, every log goes on tracking its peer's. -/
theorem Covered.tracks_handle {S : Setting C} {w : World C} (h : Covered S w) (ha : Account w)
    {mv : Move C} (hf : Fits S w mv) (k : PeerBin) : Tracks (w.logs k)
      ((w.node.handle mv.event).1.log k) (Settled (w.node.handle mv.event).1) := by
  have hsettled : ∀ c, Settled w.node c → Settled (w.node.handle mv.event).1 c :=
    fun c hs => hs.handle mv.event
  rw [log_handle]
  split
  · exact ((h.tracks_ingested ha hf k).mono hsettled).advance fun c hc => (settledIn_iff _ c).mp hc
  · exact (h.tracks k).mono hsettled

/-- An advance stops only at the end of what is covered or below an unsettled entry. -/
theorem stuck_advance (l : PeerBinLog C) (n : Node C) :
    (l.advance (settledIn n.m)).1.interval = (l.advance (settledIn n.m)).1.topmost ∨
      ∃ c, (l.advance (settledIn n.m)).1.entries[(l.advance (settledIn n.m)).1.interval + 1]? = some c
        ∧ ¬ Settled n c := by
  rcases l.reached_maximal (settledIn n.m) with hm | ⟨c, hc, hs⟩
  · exact .inl hm
  · exact .inr ⟨c, (PeerBinLog.entries_advance _ _ _ c).mpr ⟨hc, Nat.lt_succ_self _⟩,
      fun hn => hs ((settledIn_iff _ c).mpr hn)⟩

/-- The round prunes only what is settled, so what a window holds unsettled stays held. -/
theorem Covered.held_through {S : Setting C} {w : World C} (h : Covered S w) {mv : Move C}
    (hf : Fits S w mv) {k : PeerBin} {b : ℕ} {c : C}
    (he : (ingestedLog k (w.node.log k) mv.event).entries[b]? = some c)
    (hs : ¬ Settled (w.node.ingested mv.event).round.1 c) :
    (w.node.ingested mv.event).round.1.m.Held c k.peer
      ∧ c ∈ (w.node.ingested mv.event).round.1.m.arrived := by
  have hsr := (w.node.ingested mv.event).settled_round
  have hs' : ¬ Settled (w.node.ingested mv.event) c := fun hn => hs (by
    rw [Settled, hsr.1, hsr.2.1]
    exact hn)
  have hunpruned : ¬ (w.node.ingested mv.event).RoundPruned c := by
    rintro ⟨-, hset, -⟩
    rw [(settle_frame _).1] at hset
    exact hs' hset
  obtain ⟨hh, harr⟩ := h.held_ingested hf he hs'
  rw [held_round, mem_arrived_round]
  exact ⟨⟨hunpruned, hh⟩, hunpruned, harr⟩

/-- A move that ends in a round keeps the coverage. -/
theorem Covered.move_round {S : Setting C} {w w' : World C} (h : Covered S w) (hfd : Found S w)
    (ha : Account w) {mv : Move C} (hf : Fits S w mv) (hr : endsInRound mv.event)
    (hnode : w'.node = (w.node.handle mv.event).1) (hl : w'.logs = w.logs)
    (htracks : ∀ k, Tracks (w'.logs k) (w'.node.log k) (Settled w'.node)) : Covered S w' := by
  have hlogged : ∀ c, Logged S w' c ↔ Logged S w c := fun c => by rw [Logged, Logged, hl]
  have hround : w'.node = (w.node.ingested mv.event).round.1 := by
    rw [hnode, w.node.handle_eq_round hr]
  have hlog : ∀ k, w'.node.log k = ((ingestedLog k (w.node.log k) mv.event).advance
      (settledIn w'.node.m)).1 := fun k => by
    rw [hnode, log_handle, if_pos hr]
  have hsr := (w.node.ingested mv.event).settled_round
  rw [← hround] at hsr
  refine ⟨htracks, fun k => ?_, fun k b c he hs => ?_, fun c hc => ?_, fun c hc => ?_,
    fun c hc hs => ?_, fun c hc => ?_, fun c hc => ?_, fun c hc => ?_⟩
  · rw [hlog]
    exact stuck_advance _ w'.node
  · rw [hlog, PeerBinLog.entries_advance] at he
    rw [hround] at hs ⊢
    exact h.held_through hf he.1 hs
  · rw [hround, mem_arrived_round] at hc
    exact (hlogged c).mpr (h.arrived_ingested hfd ha hf c hc.2)
  · rw [hround, mem_binOf_iff] at hc
    obtain ⟨b, hb⟩ := hc
    exact (hlogged c).mpr (h.known_ingested hfd ha hf c
      ((mem_binOf_iff _ c).mpr ⟨b, ((binOf_round _ c b).mp hb).2⟩))
  · rw [hround] at hc hs ⊢
    exact windowed_round hc hs
  · rw [hnode]
    exact (w.node.calls_handle mv.event).settled_mono.1 c (h.preloaded c hc)
  · rw [hsr.1] at hc
    rw [hlogged]
    exact (h.stored_ingested ha hf).1 c hc
  · rw [hsr.2.1] at hc
    rw [hlogged]
    exact (h.stored_ingested ha hf).2 c hc

/-- A move that ends in no round leaves machine and logs alone, and so keeps the coverage. -/
theorem Covered.move_quiet {S : Setting C} {w w' : World C} (h : Covered S w) {mv : Move C}
    (hr : ¬ endsInRound mv.event) (hnode : w'.node = (w.node.handle mv.event).1)
    (hl : w'.logs = w.logs)
    (htracks : ∀ k, Tracks (w'.logs k) (w'.node.log k) (Settled w'.node)) : Covered S w' := by
  have hlogged : ∀ c, Logged S w' c ↔ Logged S w c := fun c => by rw [Logged, Logged, hl]
  have hq := w.node.quiet_handle hr
  have hm : w'.node.m = w.node.m := by rw [hnode]; exact hq.m
  have hb : w'.node.binOf = w.node.binOf := by rw [hnode]; exact hq.binOf
  have hlog : ∀ k, w'.node.log k = w.node.log k := fun k => by rw [hnode]; exact hq.log k
  have hset : Settled w'.node = Settled w.node := by
    unfold Settled
    rw [hm]
  refine ⟨htracks, fun k => ?_, fun k b c => ?_, ?_, ?_, ?_, ?_, ?_, ?_⟩
  · rw [hlog, hset]
    exact h.stuck k
  · rw [hlog, hset, hm]
    exact h.held k b c
  · simp only [hm, hlogged]
    exact h.arrived
  · simp only [hb, hlogged]
    exact h.known
  · simp only [hb, hset, hlog]
    exact h.windowed
  · rw [hm]
    exact h.preloaded
  · simp only [hm, hlogged]
    exact h.stored
  · simp only [hm, hlogged]
    exact h.rejected

/-- Every move of the setting keeps the coverage. -/
theorem Covered.move {S : Setting C} {w w' : World C} (h : Covered S w) (hfd : Found S w)
    (ha : Account w) {mv : Move C} (hf : Fits S w mv) (hw : w'.shell = w.shell.next mv)
    (hl : w'.logs = w.logs) : Covered S w' := by
  have hnode : w'.node = (w.node.handle mv.event).1 := World.node_move hw
  have htracks : ∀ k, Tracks (w'.logs k) (w'.node.log k) (Settled w'.node) := fun k => by
    rw [hl, hnode]
    exact h.tracks_handle ha hf k
  by_cases hr : endsInRound mv.event
  · exact h.move_round hfd ha hf hr hnode hl htracks
  · exact h.move_quiet hr hnode hl htracks

/-- An append keeps the coverage. -/
theorem Covered.append {S : Setting C} {w : World C} (h : Covered S w) {k : PeerBin} {b : ℕ} {c : C}
    (hb : (w.logs k).head < b) (appends : ℕ) :
    Covered S { w with
      logs := Function.update w.logs k ((w.logs k).append b c hb), appends := appends } := by
  have hlogged : ∀ d, Logged S w d → Logged S { w with
      logs := Function.update w.logs k ((w.logs k).append b c hb), appends := appends } d := by
    rintro d ⟨k', hk', i, hi⟩
    refine ⟨k', hk', i, ?_⟩
    dsimp only
    by_cases hkk : k' = k
    · subst hkk
      rw [Function.update_self]
      exact (AppendLog.mem_append _ hb _).mpr (.inl hi)
    · rwa [Function.update_of_ne hkk]
  refine ⟨fun k' => ?_, h.stuck, h.held, fun d hd => hlogged d (h.arrived d hd),
    fun d hd => hlogged d (h.known d hd), h.windowed, h.preloaded,
    fun d hd => (h.stored d hd).imp_right (And.imp_right (hlogged d)),
    fun d hd => ⟨(h.rejected d hd).1, hlogged d (h.rejected d hd).2⟩⟩
  dsimp only
  by_cases hkk : k' = k
  · subst hkk
    rw [Function.update_self]
    exact (h.tracks k').append hb
  · rw [Function.update_of_ne hkk]
    exact h.tracks k'

end Melissi.Puller
