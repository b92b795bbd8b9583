import Melissi.Common.Rank
import Melissi.Puller.Coverage

/-!
# Every reachable world is sound, and a quiescent one is done

The account of what is pending, what has been found and what is covered hold along every run. Once
the shell has nothing to announce and nothing to answer they leave no room: no lease is in flight,
every log is covered to its head, and no covered entry is unsettled.
-/

namespace Melissi.Puller

open Melissi.Common Melissi.Machine Melissi.Machine.PullState Melissi.Settlement Melissi.Node
open Std (ExtTreeMap ExtTreeSet)

variable {C : Type} [LinearOrder C]

/-- The invariant of a run. -/
structure Sound (S : Setting C) (w : World C) : Prop where
  account : Account w
  found : Found S w
  covered : Covered S w
  lively : Lively w.node
  unseen : ∀ p ∈ w.unseen, p ∈ S.peers
  /-- The preloaded entries are counted once and for all. -/
  npre : w.node.m.npre = (Node.start Config.production S.radius S.policy S.held).m.got.size

/-! ## Where a run starts -/

section Init

variable (S : Setting C) (logs : PeerBin → AppendLog C) (appends ticks misses : ℕ)

theorem account_init : Account (World.init S logs appends ticks misses) := by
  have hf := start_frame Config.production S.radius S.policy S.held
  have hm := start_machine_frame Config.production S.radius S.policy S.held
  refine ⟨⟨by rintro p b want ⟨⟩, .nil, fun _ => safe_start rfl _ _ _⟩, hm.1, fun c p hl => ?_,
    by rintro p b want ⟨⟩, fun k => ?_, by rintro k start ⟨⟩⟩
  · have := hl.mem_want
    rw [World.init, World.node, Shell.start, hm.2.1] at this
    simp at this
  · rw [World.init, World.node, World.pending, Shell.start, hf.2.2.2.2.2.2]
    simp [offersTo, Discovery.new]

theorem found_init : Found S (World.init S logs appends ticks misses) := by
  have hf := start_frame Config.production S.radius S.policy S.held
  have hnone : ∀ k, k ∉ (World.init S logs appends ticks misses).node.logs := fun k => by
    rw [World.init, World.node, Shell.start, hf.2.2.2.2.1]
    simp
  refine ⟨hf.2.1, fun p hp => .inl hp, by rintro p ⟨⟩, fun p hp => ?_,
    fun k hk => absurd hk (hnone k), fun k hk => ?_, fun k hk => absurd hk (hnone k)⟩
  · rw [World.init, World.node, Shell.start, hf.2.2.1] at hp
    simp at hp
  · rw [World.init, World.node, Shell.start, hf.2.2.2.2.2.2] at hk
    simp [Discovery.new] at hk

theorem covered_init : Covered S (World.init S logs appends ticks misses) := by
  have hf := start_frame Config.production S.radius S.policy S.held
  have hm := start_machine_frame Config.production S.radius S.policy S.held
  have hnew : ∀ k, (World.init S logs appends ticks misses).node.log k = .new := fun k => by
    rw [World.init, World.node, Shell.start, log, hf.2.2.2.2.1]
    simp
  refine ⟨fun k => ?_, fun k => .inl ?_, fun k b c he => ?_, fun c hc => ?_, fun c hc => ?_,
    fun c hc => ?_, fun c hc => ?_, fun c hc => .inl ?_, fun c hc => ?_⟩
  · rw [hnew]
    exact .new _ _
  · rw [hnew]
    rfl
  · rw [hnew] at he
    simp at he
  · rw [World.init, World.node, Shell.start, hm.2.2.2.2.1] at hc
    simp at hc
  · rw [World.init, World.node, Shell.start, hf.2.2.2.2.2.1] at hc
    simp at hc
  · rw [World.init, World.node, Shell.start, hf.2.2.2.2.2.1] at hc
    simp at hc
  · exact (mem_got_start _ _ _ _ c).mpr hc
  · exact (mem_got_start _ _ _ _ c).mp hc
  · rw [World.init, World.node, Shell.start, hm.2.2.2.2.2.1] at hc
    simp at hc

theorem sound_init : Sound S (World.init S logs appends ticks misses) where
  account := account_init S logs appends ticks misses
  found := found_init S logs appends ticks misses
  covered := covered_init S logs appends ticks misses
  lively := lively_start S.radius S.window S.held
  unseen _ hp := hp
  npre := by
    have hm := start_machine_frame Config.production S.radius S.policy S.held
    have hs := (safe_start (show Config.production.dedup from rfl) S.radius S.policy
      S.held).counted.floor
    rw [hm.2.2.2.2.2.2, Nat.zero_add] at hs
    exact hs

end Init

/-! ## Steps -/

/-- Every move of the setting keeps the invariant. -/
theorem Sound.move {S : Setting C} {w w' : World C} (h : Sound S w) (mv : Move C)
    (hf : Fits S w mv) (hw : w'.shell = w.shell.next mv) (hl : w'.logs = w.logs)
    (hu : w'.unseen = w.unseen ∨ ∃ p, mv = .peerSeen p ∧ w'.unseen = w.unseen.erase p) :
    Sound S w' where
  account := h.account.move h.covered.tracks hf hw
  found := h.found.move h.account hf hw hu
  covered := h.covered.move h.found h.account hf hw hl
  lively := by
    rw [World.node_move hw]
    exact h.lively.handle mv.event
  unseen p hp := by
    rcases hu with hu | ⟨q, -, hu⟩
    · exact h.unseen p (hu ▸ hp)
    · rw [hu] at hp
      exact h.unseen p (List.mem_of_mem_erase hp)
  npre := by
    rw [World.node_move hw, npre_handle]
    exact h.npre

/-- An append leaves the shell alone. -/
theorem Sound.append {S : Setting C} {w : World C} (h : Sound S w) {k : PeerBin} {b : ℕ} {c : C}
    (hb : (w.logs k).head < b) (appends : ℕ) :
    Sound S { w with
      logs := Function.update w.logs k ((w.logs k).append b c hb), appends := appends } where
  account := ⟨h.account.accounted, h.account.cfg, h.account.wanted, h.account.batches,
    h.account.opens, h.account.starts⟩
  found := ⟨h.found.radius, h.found.seen, h.found.asked, h.found.listed, h.found.keys,
    h.found.opened, h.found.paced⟩
  covered := h.covered.append hb appends
  lively := h.lively
  unseen := h.unseen
  npre := h.npre

theorem Sound.step {S : Setting C} {w w' : World C} (h : Sound S w) (hs : Step S w w') :
    Sound S w' := by
  rcases hs with hs | hs
  · cases hs with
    | announce hp => exact h.move (.peerSeen _) (h.unseen _ hp) rfl rfl (.inr ⟨_, rfl, rfl⟩)
    | cursors hp => exact h.move (.cursors _ _) ⟨hp, bins_cursors S _ _⟩ rfl rfl (.inl rfl)
    | offer hp hpage => exact h.move (.offer ..) ⟨hp, _, hpage, rfl, rfl⟩ rfl rfl (.inl rfl)
    | fetch hp hperm hbad => exact h.move (.fetch ..) ⟨hp, hperm, hbad⟩ rfl rfl (.inl rfl)
  · cases hs with
    | tick => exact h.move .tick trivial rfl rfl (.inl rfl)
    | append hk hb => exact h.append hb _

theorem sound_of_reachable {S : Setting C} {logs : PeerBin → AppendLog C} {appends ticks misses : ℕ}
    {w : World C} (h : Reachable S logs appends ticks misses w) : Sound S w :=
  invariant_of_reachable (fun _ _ => Sound.step) (sound_init S logs appends ticks misses) h

/-! ## Uploads -/

/-- The setting in which `c` too is held before the first event. -/
def Setting.hold (S : Setting C) (c : C) (hc : ¬ S.bad c) : Setting C :=
  { S with
    held := S.held ++ [c]
    held_good := by
      intro d hd
      rcases List.mem_append.mp hd with hd | hd
      · exact S.held_good d hd
      · rw [List.mem_singleton.mp hd]
        exact hc }

/-- The world in which the node stores `c` by itself. -/
def World.upload (w : World C) (c : C) : World C :=
  { w with shell := { w.shell with node := (w.node.preload c).1 } }

section Upload

variable {S : Setting C} {w : World C} {c : C}

theorem Covered.not_leased (h : Covered S w) (ha : Account w) (hc : ¬ Logged S w c) (p : PeerId) :
    ¬ w.node.m.Leased c p := fun hl =>
  hc (h.arrived c (ha.safe.claims.arrived c p hl))

theorem settled_upload (d : C) : Settled (w.upload c).node d ↔ c = d ∨ Settled w.node d := by
  rw [Settled, Settled, ← or_assoc]
  simp [World.upload, World.node, Node.preload]

theorem Account.upload (h : Account w) (hcov : Covered S w) (hc : ¬ Logged S w c) :
    Account (w.upload c) := by
  have hwant : c ∉ w.node.m.want := fun hm => by
    obtain ⟨p, hp⟩ := (h.safe.normal.want.mem_iff c).mp hm
    exact hcov.not_leased h hc p hp
  have hrej : c ∉ w.node.m.rejected := fun hr => hc (hcov.rejected c hr).2
  have hleased : (w.upload c).node.m.Leased = w.node.m.Leased := by
    simp [World.upload, World.node, Node.preload]
  have hcfg : (w.upload c).node.m.cfg = w.node.m.cfg := by
    simp [World.upload, World.node, Node.preload]
  refine ⟨⟨fun p b want hp d hd => ?_, h.accounted.apart, fun hd => ?_⟩, by rw [hcfg]; exact h.cfg,
    by rw [hleased]; exact h.wanted, h.batches, h.opens, h.starts⟩
  · change (w.upload c).node.m.Leased d p
    rw [hleased]
    exact h.accounted.leased p b want hp d hd
  · exact h.safe.act (by rw [← hcfg]; exact hd) (.preload c) ⟨hwant, hrej⟩

/-- What a window of the node names stands in a log of the setting. -/
theorem Covered.logged_of_entry (h : Covered S w) (hfd : Found S w) {k : PeerBin} {b : ℕ} {d : C}
    (he : (w.node.log k).entries[b]? = some d) : Logged S w d := by
  refine ⟨k, (hfd.keys k ?_).1, b, (h.tracks k).sub b d he⟩
  by_contra hk
  rw [log, ExtTreeMap.getElem?_eq_none hk] at he
  simp at he

theorem Covered.upload (h : Covered S w) (hfd : Found S w) (hc : ¬ Logged S w c)
    (hgood : ¬ S.bad c) :
    Covered (S.hold c hgood) (w.upload c) := by
  have hset := settled_upload (w := w) (c := c)
  have hframe := w.node.m.preload_frame c
  have hm : (w.upload c).node.m = (w.node.m.preload c).1 := rfl
  have hother : ∀ d, Logged S w d → (Settled (w.upload c).node d ↔ Settled w.node d) := fun d hd => by
    rw [hset]
    exact or_iff_right (by rintro rfl; exact hc hd)
  refine ⟨fun k => (h.tracks k).mono fun d hd => (hset d).mpr (.inr hd), fun k => ?_,
    fun k b d he hs => ?_, fun d hd => ?_, h.known, fun d hd hs => ?_, fun d hd => ?_, fun d hd => ?_,
    fun d hd => ?_⟩
  · refine (h.stuck k).imp_right fun hstuck => ?_
    obtain ⟨d, he, hs⟩ := hstuck
    exact ⟨d, he, mt (hother d (h.logged_of_entry hfd he)).mp hs⟩
  · rw [hm, hframe.2.2.2.2.1, hframe.2.2.2.2.2.2.2.1]
    exact h.held k b d he fun hn => hs ((hset d).mpr (.inr hn))
  · rw [hm, hframe.2.2.2.2.2.2.2.1] at hd
    exact h.arrived d hd
  · exact h.windowed d hd ((hother d (h.known d hd)).mp hs)
  · rw [hm, mem_got_preload]
    rcases List.mem_append.mp hd with hd | hd
    · exact .inr (h.preloaded d hd)
    · exact .inl (List.mem_singleton.mp hd).symm
  · rw [hm, mem_got_preload] at hd
    rcases hd with rfl | hd
    · exact .inl (List.mem_append_right _ (List.mem_singleton_self c))
    · exact (h.stored d hd).imp_left (List.mem_append_left _)
  · rw [hm, hframe.2.2.2.2.2.2.2.2.2.1] at hd
    exact h.rejected d hd

theorem lively_upload (h : Lively w.node) : Lively (w.upload c).node := by
  have hframe := w.node.m.preload_frame c
  have hm : (w.upload c).node.m = (w.node.m.preload c).1 := rfl
  refine ⟨?_, ?_, ?_, h.window, fun d hd => ?_, h.normal.act (.preload c), ?_⟩
  · rw [hm, hframe.1]
    exact h.notSingleSource
  · rw [hm, hframe.1]
    exact h.enableLive
  · rw [hm, hframe.1]
    exact h.resetOnExhaust
  · rw [hm, hframe.2.2.2.2.2.2.2.1] at hd
    exact h.known d hd
  · rintro ⟨d, hd, hg, p, hp⟩
    rw [hm, hframe.2.2.2.2.2.2.2.1] at hd
    rw [hm, mem_got_preload] at hg
    rw [hm, hframe.2.2.2.2.1] at hp
    rw [hm, hframe.2.2.1]
    exact h.busy ⟨d, hd, fun hn => hg (.inr hn), p, hp⟩

/-- A triple that stands in no log of the setting may be stored at any time. -/
theorem Sound.upload (h : Sound S w) (hc : ¬ Logged S w c) (hnew : c ∉ w.node.m.got)
    (hgood : ¬ S.bad c) : Sound (S.hold c hgood) (w.upload c) where
  account := h.account.upload h.covered hc
  found := ⟨h.found.radius, h.found.seen, h.found.asked, h.found.listed, h.found.keys,
    h.found.opened, h.found.paced⟩
  covered := h.covered.upload h.found hc hgood
  lively := lively_upload h.lively
  unseen := h.unseen
  npre := by
    have hstart : c ∉ (Node.start Config.production S.radius S.policy S.held).m.got := by
      rw [mem_got_start]
      exact fun hd => hnew (h.covered.preloaded c hd)
    have hpush : ∀ m : PullState C, c ∉ m.got → (m.preload c).1.npre = m.npre + 1
        ∧ (m.preload c).1.got.size = m.got.size + 1 := fun m hm => by
      have hno : m.got.contains c = false := (set_contains_eq_false _ _).mpr hm
      simp [PullState.preload, hno, ExtTreeSet.size_insert]
    have hhold : Node.start Config.production S.radius S.policy (S.held ++ [c])
        = ((Node.start Config.production S.radius S.policy S.held).preload c).1 := by
      rw [Node.start, List.foldl_append]
      rfl
    have hnpre := h.npre
    have h₁ := (hpush w.node.m hnew).1
    have h₂ := (hpush _ hstart).2
    change (w.node.m.preload c).1.npre
      = (Node.start Config.production S.radius S.policy (S.held ++ [c])).m.got.size
    rw [hhold, h₁, hnpre]
    exact h₂.symm

end Upload

/-! ## Holders -/

/-- Whoever holds something for the node is a peer of the setting. -/
def Met (S : Setting C) (w : World C) : Prop := ∀ c p, w.node.m.Held c p → p ∈ S.peers

theorem Met.move {S : Setting C} {w w' : World C} (h : Met S w) (hs : Sound S w) {mv : Move C}
    (hf : Fits S w mv) (hw : w'.shell = w.shell.next mv) : Met S w' := by
  intro c p hp
  have hnode : w'.node = (w.node.handle mv.event).1 := World.node_move hw
  rw [hnode] at hp
  by_cases hr : endsInRound mv.event
  · rw [w.node.handle_eq_round hr, held_round] at hp
    replace hp := hp.2
    cases mv with
    | peerGone q => exact hf.elim
    | offer q b start refs topmost =>
      rw [Move.event, ingested, held_answerOffer] at hp
      rcases hp with ⟨-, rfl⟩ | ⟨-, hp⟩
      · have hk := hs.found.mem_logs hs.account (k := ⟨q, b⟩) hf.1
        exact ((S.mem_keys _).mp (hs.found.keys _ hk).1).1.1
      · exact h c p hp
    | fetch q b want outcomes =>
      have hheld : (w.node.reported q outcomes).m.Held = w.node.m.Held :=
        foldl_frame Held (report q) outcomes (by simp) w.node.m
      rw [Move.event, ingested, hheld] at hp
      exact h c p hp
    | _ => cases hr
  · rw [(w.node.quiet_handle hr).m] at hp
    exact h c p hp

/-- A fetch is pending at a peer of the setting only. -/
theorem Met.mem_peers {S : Setting C} {w : World C} (h : Met S w) (hs : Sound S w) {p : PeerId}
    {b : Bin} {want : List C} (hp : .fetch p b want ∈ w.pending) : p ∈ S.peers := by
  obtain ⟨c, hc⟩ := List.exists_mem_of_ne_nil _ (hs.account.batches p b want hp).1
  exact h c p (hs.account.safe.claims.held c p (hs.account.accounted.leased p b want hp c hc))

/-! ## Deliveries -/

/-- A move stores what it delivers and counts it, and nothing else. -/
theorem Sound.delivers {S : Setting C} {w : World C} (h : Sound S w) {mv : Move C}
    (hf : Fits S w mv) :
    (w.node.handle mv.event).1.m.ndeliv
        = w.node.m.ndeliv + mv.outcomes.countP (fun e => e.2 = .delivered)
      ∧ ∀ c, c ∈ (w.node.handle mv.event).1.m.got ↔
        c ∈ w.node.m.got ∨ (c, .delivered) ∈ mv.outcomes := by
  by_cases hr : endsInRound mv.event
  · rw [w.node.handle_eq_round hr, (settled_round _).2.2.1, (settled_round _).1]
    cases mv with
    | peerGone q => exact hf.elim
    | offer q b start refs topmost =>
      have hframe := w.node.answerOffer_machine_frame ⟨q, b⟩ start refs topmost
      rw [Move.event, ingested, hframe.2.2.1, hframe.2.2.2.2.1]
      simp [Move.outcomes]
    | fetch q b want outcomes =>
      obtain ⟨hp, hperm, -⟩ := hf
      exact deliveries_reported (hperm.nodup_iff.mpr (h.account.batches q b want hp).2) fun e he =>
        h.account.accounted.leased q b want hp e.1 (hperm.subset (List.mem_map.mpr ⟨e, he, rfl⟩))
    | _ => cases hr
  · rw [(w.node.quiet_handle hr).m]
    cases mv with
    | fetch q b want outcomes => exact absurd rfl hr
    | _ => simp [Move.outcomes]

/-! ## Nothing left to do -/

section Quiescent

variable {S : Setting C} {w : World C}

/-- A quiescent shell has announced every peer and has only offers pending, each past its head. -/
theorem Quiescent.unseen (hq : Quiescent S w) : w.unseen = [] :=
  List.eq_nil_iff_forall_not_mem.mpr fun _ hp => hq _ (.announce hp)

theorem Quiescent.getCursors (hq : Quiescent S w) (p : PeerId) : .getCursors p ∉ w.pending :=
  fun hp => hq _ (.cursors hp)

/-- The outcomes of a fetch that misses nothing. -/
def answers (S : Setting C) (want : List C) : List (C × Outcome) :=
  want.map fun c => (c, if S.bad c then .rejected else .delivered)

omit [LinearOrder C] in
theorem answers_bad (S : Setting C) (want : List C) :
    ∀ e ∈ answers S want, e.2 = .rejected ↔ S.bad e.1 := by
  intro e he
  obtain ⟨c, -, rfl⟩ := List.mem_map.mp he
  dsimp only
  split <;> simp_all

omit [LinearOrder C] in
theorem missed_answers (S : Setting C) (want : List C) : missed (answers S want) = 0 := by
  rw [missed, List.countP_eq_zero]
  intro e he
  obtain ⟨c, -, rfl⟩ := List.mem_map.mp he
  dsimp only
  split <;> simp

theorem Quiescent.fetch (hq : Quiescent S w) (p : PeerId) (b : Bin) (want : List C) :
    .fetch p b want ∉ w.pending := by
  intro hp
  have hperm : ((answers S want).map (·.1)).Perm want := by simp [answers, Function.comp_def]
  exact hq _ (.fetch hp hperm (answers_bad S want) (by rw [missed_answers]; exact Nat.zero_le _))

theorem Quiescent.offer (hq : Quiescent S w) (h : Sound S w) {k : PeerBin} {start : ℕ}
    (hp : .offer k.peer k.bin start ∈ w.pending) : (w.logs k).head < start := by
  by_contra hle
  exact hq _ (.offer hp (AppendLog.page_ne_nil (h.account.starts k start hp).1
    (Nat.le_of_not_lt hle) Nat.one_pos))

/-- No lease is in flight. -/
theorem Quiescent.free (hq : Quiescent S w) (h : Sound S w) (c : C) (p : PeerId) :
    ¬ w.node.m.Leased c p := fun hl => by
  obtain ⟨b, want, hp, -⟩ := h.account.wanted c p hl
  exact hq.fetch p b want hp

/-- The node keeps a log for every key of the setting. -/
theorem Quiescent.mem_logs (hq : Quiescent S w) (h : Sound S w) {k : PeerBin} (hk : k ∈ S.keys) :
    k ∈ w.node.logs := by
  obtain ⟨⟨hp, hb⟩, hr⟩ := (S.mem_keys k).mp hk
  have hseen := (h.found.seen k.peer hp).resolve_left (by rw [hq.unseen]; simp)
  exact (h.found.listed k.peer hseen).resolve_left (hq.getCursors k.peer) k.bin hb hr

/-- Nothing covered is unsettled, or its holder would be asked for it. -/
theorem Quiescent.caught (hq : Quiescent S w) (h : Sound S w) (k : PeerBin) :
    (w.node.log k).interval = (w.node.log k).topmost := by
  refine (h.covered.stuck k).resolve_right ?_
  rintro ⟨c, he, hs⟩
  obtain ⟨hheld, harr⟩ := h.covered.held k _ c he hs
  obtain ⟨d, p, hl⟩ := h.lively.busy ⟨c, harr, fun hg => hs (.inl hg), k.peer, hheld⟩
  exact hq.free h d p hl

/-- Every log of the setting is covered to its head. -/
theorem Quiescent.topmost (hq : Quiescent S w) (h : Sound S w) {k : PeerBin} (hk : k ∈ S.keys) :
    (w.node.log k).topmost = (w.logs k).head := by
  refine le_antisymm (h.covered.tracks k).le_head ?_
  have hcaught := hq.caught h k
  -- a log that has caught up is open, and its pending offer starts past the head
  have hopen : k ∈ w.node.disc.offerOpen := by
    by_contra hno
    have := h.found.paced k (hq.mem_logs h hk) hno
    omega
  have hcount := h.account.opens k
  rw [ExtTreeSet.mem_iff_contains.mp hopen, Bool.toNat_true] at hcount
  obtain ⟨fx, hfx, hoff⟩ := List.countP_pos_iff.mp (show 0 < offersTo k w.pending by omega)
  cases fx with
  | offer p b start =>
    simp only [decide_eq_true_eq] at hoff
    obtain ⟨rfl, rfl⟩ := hoff
    have hlt := hq.offer h (k := k) hfx
    have hle := (h.account.starts k start hfx).2
    rw [PeerBinLog.next] at hle
    omega
  | _ => simp at hoff

/-- Every entry of the setting's logs is settled. -/
theorem Quiescent.settled (hq : Quiescent S w) (h : Sound S w) {c : C} (hc : Logged S w c) :
    Settled w.node c := by
  obtain ⟨k, hk, b, hb⟩ := hc
  refine (h.covered.tracks k).settled_of_le hb ?_
  rw [hq.caught h k, hq.topmost h hk]
  exact (w.logs k).le_head hb

theorem Quiescent.window (hq : Quiescent S w) (h : Sound S w) (k : PeerBin) (b : ℕ) :
    (w.node.log k).entries[b]? = none :=
  ExtTreeMap.getElem?_eq_none (not_mem_of_caught (hq.caught h k) b)

end Quiescent

end Melissi.Puller
