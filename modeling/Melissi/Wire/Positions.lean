import Melissi.Wire.Pull

/-!
# Synthetic positions

Reference: `crates/wire/src/adapter.rs`. Entry `i` of an offer for `[start, …]` is given the
position `start + i`, at or below its own, while the topmost the offer states is a position of the
peer's own. The interval moves over both. So an answer keeps track of what it covers only if it puts
every unsettled entry above the interval as it stands when the answer arrives, and an offer that was
asked before the interval moved need not.
-/

namespace Melissi.Wire

open Melissi.Common Melissi.Machine Melissi.Settlement Melissi.Node Melissi.Wire.Pb

/-! ## What is covered is not lost -/

/-- Every covered entry of the peer's log is settled, or stands in the window at or below its own
position. -/
def Traced (log : AppendLog Triple) (l : PeerBinLog Triple) (settled : Triple → Prop) : Prop :=
  ∀ b t, (b, t) ∈ log.entries → b ≤ l.topmost → settled t ∨ ∃ x ≤ b, l.entries[x]? = some t

/-- An answer that loses nothing unsettled: what it names is put above the interval, and what it
covers of the window it names. -/
structure Spares (l : PeerBinLog Triple) (settled : Triple → Prop) (start : ℕ)
    (refs : List (ℕ × Triple)) (topmost : ℕ) : Prop where
  above : ∀ x t, (x, t) ∈ refs → ¬ settled t → l.interval < x
  named : ∀ x t, l.entries[x]? = some t → ¬ settled t → start ≤ x → x ≤ topmost →
    t ∈ refs.map (·.2)

namespace Traced

variable {log : AppendLog Triple} {l : PeerBinLog Triple} {settled : Triple → Prop}

theorem new (log : AppendLog Triple) (settled : Triple → Prop) : Traced log .new settled := by
  intro b t ht hle
  have hpos := log.pos_of_mem ht
  rw [PeerBinLog.topmost_new] at hle
  omega

theorem mono (h : Traced log l settled) {settled' : Triple → Prop}
    (hs : ∀ t, settled t → settled' t) : Traced log l settled' :=
  fun b t ht hle => (h b t ht hle).imp_left (hs t)

/-- Everything at or below the interval is settled. -/
theorem settled_of_le (h : Traced log l settled) {b : ℕ} {t : Triple} (ht : (b, t) ∈ log.entries)
    (hb : b ≤ l.interval) : settled t := by
  refine (h b t ht (hb.trans l.interval_le)).resolve_right ?_
  rintro ⟨x, hx, he⟩
  have := (PeerBinLog.bounds_of_entry he).1
  omega

/-- Advancing settles what it takes out of the window. -/
theorem advance {p : Triple → Bool} (h : Traced log l settled) (hp : ∀ t, p t → settled t) :
    Traced log (l.advance p).1 settled := by
  intro b t ht hle
  rcases h b t ht hle with hs | ⟨x, hx, he⟩
  · exact .inl hs
  · by_cases hr : x ≤ l.reached p
    · exact .inl (hp t (l.settled_of_le_reached p he hr))
    · exact .inr ⟨x, hx, (l.entries_advance p x t).mpr ⟨he, by omega⟩⟩

/-- What the refs of a page name at the position of its entry `i`. -/
theorem named_refsAt {start i : ℕ} {page : List (ℕ × Triple)} {e : ℕ × Triple}
    (h : page[i]? = some e) : named (refsAt start page) (start + i) = some e.2 := by
  cases hn : named (refsAt start page) (start + i) with
  | none =>
    refine absurd (List.mem_map.mpr ⟨(start + i, e.2), ?_, rfl⟩) (named_eq_none.mp hn)
    exact mem_refsAt.mpr ⟨i, e, h, rfl, rfl⟩
  | some t =>
    obtain ⟨j, e', hj, hx, rfl⟩ := mem_refsAt.mp (mem_of_named hn)
    obtain rfl : i = j := by omega
    rw [Option.some.inj (h.symm.trans hj)]

/-- An answer that spares what is unsettled keeps track of it: everything below its start is
settled, and it brings a page of the log as it was. -/
theorem answered (h : Traced log l settled) {before : AppendLog Triple}
    (hbefore : ∀ e ∈ log.entries, e.1 ≤ before.head → e ∈ before.entries) {start limit : ℕ}
    (hpassed : ∀ e ∈ log.entries, e.1 < start → settled e.2) (hne : before.page start limit ≠ [])
    (hspares : Spares l settled start (refsAt start (before.page start limit))
      (AppendLog.topmost (before.page start limit))) :
    Traced log (answeredLog l start (refsAt start (before.page start limit))
      (AppendLog.topmost (before.page start limit))) settled := by
  intro b t ht hle
  by_cases hs : settled t
  · exact .inl hs
  right
  -- an entry of the page stands at its synthetic position
  have hpage : ∀ b', b' ≤ b → (b', t) ∈ before.page start limit → ∃ x ≤ b,
      (answeredLog l start (refsAt start (before.page start limit))
        (AppendLog.topmost (before.page start limit))).entries[x]? = some t := by
    intro b' hb' hmem
    obtain ⟨i, hi⟩ := List.mem_iff_getElem?.mp hmem
    have hpos := AppendLog.add_le_of_getElem? hi
    have habove := hspares.above (start + i) t (mem_refsAt.mpr ⟨i, _, hi, rfl, rfl⟩) hs
    refine ⟨start + i, by dsimp only at hpos; omega, ?_⟩
    rw [entries_answeredLog _ _ _ _ habove, named_refsAt hi, Option.some_or]
  have hstart := AppendLog.start_le_topmost hne
  have hin : ∀ x t', (x, t') ∈ refsAt start (before.page start limit) →
      start ≤ x ∧ x ≤ AppendLog.topmost (before.page start limit) := by
    intro x t' hx
    obtain ⟨i, e, hi, rfl, -⟩ := mem_refsAt.mp hx
    have hpos := AppendLog.add_le_of_getElem? hi
    have htop := AppendLog.le_topmost (List.mem_of_getElem? hi)
    omega
  by_cases htop : b ≤ AppendLog.topmost (before.page start limit)
  · -- the page has it, since what is below the start is settled
    have hge : start ≤ b := by
      by_contra hlt
      exact hs (hpassed _ ht (by dsimp only; omega))
    have hold := hbefore _ ht (htop.trans (before.topmost_le_head _ _))
    exact hpage b le_rfl (AppendLog.mem_page hold hge htop hne)
  · have hcovered : b ≤ l.topmost := by
      rcases (le_topmost_answeredLog _ _ _ _ _).mp hle with hx | hx | hx | ⟨⟨x, t'⟩, he, hx⟩
      · exact hx
      · exact absurd hx htop
      · omega
      · have := hin x t' he
        dsimp only at hx
        omega
    obtain ⟨x, hx, he⟩ := (h b t ht hcovered).resolve_left hs
    by_cases hr : start ≤ x ∧ x ≤ AppendLog.topmost (before.page start limit)
    · -- it stood where the answer reaches, so the page has it too
      obtain ⟨⟨x', t'⟩, he', ht'⟩ := List.mem_map.mp (hspares.named x t he hs hr.1 hr.2)
      obtain ⟨i, e, hi, -, heq⟩ := mem_refsAt.mp he'
      dsimp only at ht'
      have hmem := List.mem_of_getElem? hi
      have hlast := AppendLog.le_topmost hmem
      refine hpage e.1 (by omega) ?_
      rwa [← ht', heq]
    · refine ⟨x, hx, ?_⟩
      rw [entries_answeredLog _ _ _ _ (PeerBinLog.bounds_of_entry he).1, if_neg hr]
      cases hn : named (refsAt start (before.page start limit)) x with
      | none => rw [Option.none_or, he]
      | some t' => exact absurd (hin x t' (mem_of_named hn)) hr

end Traced

/-! ## Every run -/

namespace World

/-- The move loses nothing unsettled. -/
def Spares (w : World) : Move → Prop
  | .answer _ (.offerResult p b start refs topmost) =>
    Wire.Spares (w.node.log ⟨p, b⟩) (Settled w.node) start refs topmost
  | _ => True

/-- What is covered is traced, and what an offer does not ask for any more is settled. -/
structure Anchored (w : World) : Prop where
  sound : w.Sound
  traced : ∀ k, Traced (w.logs k) (w.node.log k) (Settled w.node)
  passed : ∀ k s, w.Pending k s → ∀ e ∈ (w.logs k).entries, e.1 < s → Settled w.node e.2

/-- A move unsettles nothing. -/
theorem settled_next {w : World} {t : Triple} (h : Settled w.node t) (mv : Move) :
    Settled (w.next mv).node t := by
  rw [node_next]
  cases fed mv with
  | none => exact h
  | some ev => exact h.handle ev

/-- What an admitted event ingests is traced. -/
theorem Anchored.traced_ingested {codec : TripleCodec} (hnames : ∀ t, Names codec t) {w : World}
    (h : w.Anchored) {mv : Move} (ha : w.Admits codec mv) (hs : w.Spares mv) {ev : Event Triple}
    (hev : fed mv = some ev) (k : PeerBin) :
    Traced (w.logs k) (ingestedLog k (w.node.log k) ev) (Settled w.node) := by
  cases ev with
  | peerGone p =>
    rw [ingestedLog]
    split
    · exact .new _ _
    · exact h.traced k
  | offerResult p b start refs topmost =>
    rw [ingestedLog]
    split
    · next hk =>
      subst hk
      cases mv with
      | feed ev =>
        obtain rfl := Option.some.inj hev
        cases ha
      | answer i ev =>
        obtain rfl := Option.some.inj hev
        obtain ⟨f, hf, hans⟩ := ha
        obtain ⟨hpend, held, hgrows, hne, rfl, rfl⟩ :=
          h.sound.page hnames (List.mem_of_getElem? hf) hans
        exact (h.traced _).answered (fun e he hle => hgrows.mem_of_le he hle) (h.passed _ _ hpend)
          hne hs
      | _ => cases hev
    · exact h.traced k
  | _ => exact h.traced k

theorem Anchored.next {codec : TripleCodec} (hnames : ∀ t, Names codec t) {w : World}
    (h : w.Anchored) {mv : Move} (ha : w.Admits codec mv) (hs : w.Spares mv) :
    (w.next mv).Anchored := by
  have hgrows := w.grows_next mv
  have hmono : ∀ t, Settled w.node t → Settled (w.next mv).node t := fun t ht => settled_next ht mv
  have htraced : ∀ k, Traced (w.logs k) ((w.next mv).node.log k) (Settled (w.next mv).node) := by
    intro k
    cases hev : fed mv with
    | none =>
      rw [node_next, hev]
      exact h.traced k
    | some ev =>
      have hing := (h.traced_ingested hnames ha hs hev k).mono hmono
      rw [node_next, hev] at hing ⊢
      show Traced _ ((w.node.handle ev).1.log k) _
      rw [log_handle]
      split
      · exact hing.advance fun t ht => (settledIn_iff _ t).mp ht
      · next hr => exact (h.traced k).mono fun t ht => ht.handle ev
  have hsound := h.sound.next hnames ha
  -- what was appended is past all that was covered or asked
  have hold : ∀ k, ∀ e ∈ ((w.next mv).logs k).entries, e.1 ≤ (w.logs k).head →
      e ∈ (w.logs k).entries := fun k e he hle => hgrows.mem_of_le he hle
  have htop : ∀ k, ((w.next mv).node.log k).topmost ≤ (w.logs k).head := by
    intro k
    rw [node_next]
    cases hev : fed mv with
    | none => exact h.sound.topmost_le k
    | some ev =>
      exact (topmost_handle _ ev k).trans_le (h.sound.topmost_ingested hnames ha hev k)
  have htraced' : ∀ k, Traced ((w.next mv).logs k) ((w.next mv).node.log k)
      (Settled (w.next mv).node) :=
    fun k b t ht hle => htraced k b t (hold k _ ht (hle.trans (htop k))) hle
  refine ⟨hsound, htraced', fun k s hp e he hlt => ?_⟩
  rcases pending_next hp with hp | ⟨-, rfl⟩
  · have hle := (h.sound.offers k s hp).2
    exact hmono _ (h.passed k s hp e (hold k e he (by omega)) hlt)
  · exact (htraced' k).settled_of_le he (Nat.le_of_lt_succ hlt)

theorem anchored_init (cfg : Config) (radius : Bin) (policy : Policy) (held : List Triple)
    {logs : Holdings} (hlogs : ∀ k, (logs k).head < u64Max) :
    (init (start cfg radius policy held) logs).Anchored where
  sound := sound_init cfg radius policy held hlogs
  traced k := by
    have hlog : (start cfg radius policy held).log k = .new := by
      rw [Node.log, (start_frame cfg radius policy held).2.2.2.2.1]
      simp
    show Traced _ ((start cfg radius policy held).log k) _
    rw [hlog]
    exact .new _ _
  passed k s h := by
    rcases h with h | ⟨f, hf, -⟩
    · cases h
    · cases hf

/-! ## The high-waters of a run -/

/-- Whenever a high-water is emitted as settled, every entry of the peer's log up to it is stored or
terminally rejected. -/
def Grounds (w : World) (mv : Move) : Prop :=
  ∀ p b upto, .settled p b upto ∈ w.emitted mv →
    ∀ x t, (x, t) ∈ (w.logs ⟨p, b⟩).entries → x ≤ upto → Settled (w.next mv).node t

/-- What is emitted as settled is the new interval. -/
theorem le_interval_of_emitted {w : World} {mv : Move} {p : PeerId} {b : Bin} {upto : ℕ}
    (h : .settled p b upto ∈ w.emitted mv) : upto ≤ ((w.next mv).node.log ⟨p, b⟩).interval := by
  rw [node_next]
  rw [emitted] at h
  cases hev : fed mv with
  | none =>
    rw [hev] at h
    cases h
  | some ev =>
    rw [hev] at h
    have hmem : upto ∈ uptos ⟨p, b⟩ (w.node.handle ev).2 := mem_uptos.mpr h
    rw [uptos_handle] at hmem
    split at hmem
    · rw [List.mem_singleton.mp hmem]
      exact le_rfl
    · cases hmem

/-- Synthetic positions never skip unsettled ground, as long as every answered offer puts what it
names of it above the interval and names what it covers of it in the window: along every such run,
whenever a high-water is emitted as settled, every entry of the peer's log up to it is stored or
terminally rejected. -/
theorem settled_ground (P : Primitives) (store : Triple → Option (Bytes × Bytes))
    (validate : Triple → Delivery → Except String Outcome) (cfg : Config) (radius : Bin)
    (policy : Policy) (held : List Triple) (logs : Holdings) (hlogs : ∀ k, (logs k).head < u64Max)
    (mvs : List Move)
    (hp : (init (start cfg radius policy held) logs).Along
      (Admits (storeCodec P store validate)) mvs)
    (hs : (init (start cfg radius policy held) logs).Along Spares mvs) :
    (init (start cfg radius policy held) logs).Along Grounds mvs := by
  have hnames := names_storeCodec P store validate
  refine ((hp.and hs).run (anchored_init cfg radius policy held hlogs) fun w mv h hmv => ?_).2
  have hnext := h.next hnames hmv.1 hmv.2
  refine ⟨hnext, fun p b upto hupto x t ht hle => ?_⟩
  have hmem := ((w.grows_next mv) _).subset ht
  exact (hnext.traced ⟨p, b⟩).settled_of_le hmem (hle.trans (le_interval_of_emitted hupto))

/-! ## A stale offer -/

section Stale

variable {codec : TripleCodec} {w : World} {i : ℕ}

/-- Any cursors are admitted. -/
theorem admits_cursors {p : PeerId} (cursors : List (Bin × ℕ))
    (hop : (w.flight[i]?).map Flight.op = some (.cursors p)) :
    w.Admits codec (.answer i (.cursorsResult p cursors)) := by
  obtain ⟨⟨op, seen⟩, hf, rfl⟩ := Option.map_eq_some_iff.mp hop
  exact ⟨_, hf, .cursors cursors⟩

/-- So are any outcomes of what was wanted. -/
theorem admits_fetch {p : PeerId} {b : Bin} {s : ℕ} {want : List Triple}
    {outcomes : List (Triple × Outcome)}
    (hop : (w.flight[i]?).map Flight.op = some (.fetch p b s want))
    (hout : ∀ e ∈ outcomes, e.1 ∈ want) :
    w.Admits codec (.answer i (.fetchResult p b outcomes)) := by
  obtain ⟨⟨op, seen⟩, hf, rfl⟩ := Option.map_eq_some_iff.mp hop
  exact ⟨_, hf, .fetch hout⟩

/-- So is the page a server has read. -/
theorem admits_offer (hnames : ∀ t, Names codec t) {p : PeerId} {b : Bin} {s : ℕ}
    {page : List (ℕ × Triple)} (hop : (w.flight[i]?).map Flight.op = some (.offer p b s))
    (hpage : ((w.flight[i]?).bind Flight.seen).map (fun held => (held ⟨p, b⟩).page s maxPage)
      = some page) (hne : page ≠ []) (hs : s < 2 ^ 64) (htop : AppendLog.topmost page < 2 ^ 64) :
    w.Admits codec
      (.answer i (.offerResult p b s (refsAt s page) (AppendLog.topmost page))) := by
  obtain ⟨⟨op, seen⟩, hf, rfl⟩ := Option.map_eq_some_iff.mp hop
  rw [hf] at hpage
  obtain ⟨held, hheld, rfl⟩ := Option.map_eq_some_iff.mp hpage
  obtain rfl : seen = some held := hheld
  have hrange : (held.reserve p).InRange b s := ⟨hs, htop, List.length_take_le _ _⟩
  obtain ⟨k, hrun⟩ := @advertise_page codec hnames (held.reserve p) b s hrange
    (fun hblocks => hne hblocks.1) [] []
  exact ⟨_, hf, .offer hrun (List.mem_append_right _ List.mem_cons_self)⟩

/-- What `n` zero bytes are minted as, with `Primitives.plain`. -/
def zeros (n : ℕ) : Triple :=
  ⟨⟨UInt8.ofNat n :: List.replicate 31 0, rfl⟩, ⟨List.replicate 32 5, rfl⟩,
    ⟨List.replicate 32 5, rfl⟩⟩

/-- A peer with one entry, at position 5. -/
def sparse : Holdings := fun _ => AppendLog.empty.append 5 (zeros 5) (by decide)

/-- A fresh puller, and the peer. -/
def fresh : World := init (start Config.production 0 Policy.shipped []) sparse

/-- The entry is offered and asked for, and a tick asks for the offer again. -/
def overtaken : List Move :=
  [.feed (.peerSeen 1), .take, .answer 0 (.cursorsResult 1 [(0, 0)]), .take, .read 0,
    .answer 0 (.offerResult 1 0 1 [(1, zeros 5)] 5), .feed .tick, .take, .read 0]

/-- The entry arrives: the interval goes to 5. -/
def arrived : Move := .answer 0 (.fetchResult 1 0 [(zeros 5, .delivered)])

/-- The log grows before the second offer, asked from 1 on, is read. -/
def late : List Move :=
  [.append ⟨1, 0⟩ 10 (zeros 10), .append ⟨1, 0⟩ 20 (zeros 20), .take, .read 0]

/-- It names all three entries at positions the interval has passed. -/
def stale : Move :=
  .answer 0 (.offerResult 1 0 1 [(1, zeros 5), (2, zeros 10), (3, zeros 20)] 20)

theorem head_sparse (k : PeerBin) : (sparse k).head < u64Max := by
  rw [sparse, AppendLog.head_append]
  decide

theorem admits_overtaken (hnames : ∀ t, Names codec t) :
    fresh.Along (Admits codec) (overtaken ++ [arrived]) := by
  have hfetch : ((fresh.play overtaken).flight[0]?).map Flight.op
      = some (.fetch 1 0 0 [zeros 5]) := by decide +kernel
  refine ⟨rfl, trivial, admits_cursors _ (by decide +kernel), trivial, trivial, ?_, rfl, trivial,
    trivial, admits_fetch hfetch (by decide +kernel), trivial⟩
  exact @admits_offer _ _ _ hnames 1 0 1 [(5, zeros 5)] (by decide +kernel) (by decide +kernel)
    (by decide) (by decide) (by decide)

theorem admits_stale (hnames : ∀ t, Names codec t) :
    fresh.Along (Admits codec) (overtaken ++ [arrived] ++ (late ++ [stale])) := by
  refine along_append.mpr ⟨admits_overtaken hnames, ⟨by decide +kernel, by decide⟩,
    ⟨by decide +kernel, by decide⟩, trivial, trivial, ?_, trivial⟩
  exact @admits_offer _ _ _ hnames 1 0 1 [(5, zeros 5), (10, zeros 10), (20, zeros 20)]
    (by decide +kernel) (by decide +kernel) (by decide) (by decide) (by decide)

/-- Nothing stands in the window when the first offer is answered. -/
theorem spares_overtaken : fresh.Along Spares (overtaken ++ [arrived]) := by
  have hinterval : ((fresh.play (overtaken.take 5)).node.log ⟨1, 0⟩).interval = 0 := by
    decide +kernel
  have hentries : ((fresh.play (overtaken.take 5)).node.log ⟨1, 0⟩).entries.toList = [] := by
    decide +kernel
  refine ⟨trivial, trivial, trivial, trivial, trivial, ⟨?_, ?_⟩, trivial, trivial, trivial, trivial,
    trivial⟩
  · intro x t hx _
    show ((fresh.play (overtaken.take 5)).node.log ⟨1, 0⟩).interval < x
    rw [hinterval]
    simp only [List.mem_singleton, Prod.mk.injEq] at hx
    omega
  · intro x t he
    have hmem : (x, t) ∈ ((fresh.play (overtaken.take 5)).node.log ⟨1, 0⟩).entries.toList :=
      (mem_entries _ x t).mpr he
    rw [hentries] at hmem
    cases hmem

theorem settled_ground_overtaken :
    .settled 1 0 5 ∈ (fresh.play overtaken).emitted arrived
      ∧ fresh.Along Grounds (overtaken ++ [arrived]) :=
  ⟨by decide +kernel, settled_ground .plain (fun _ => none) (PullCodec.validate .plain) _ _ _ _ _
    head_sparse _ (admits_overtaken (names_storeCodec _ _ _)) spares_overtaken⟩

/-- An offer that was asked before the interval moved, and answered after the log grew, takes the
interval over two entries that are not stored. -/
theorem stale_skips :
    fresh.Along (Admits (PullCodec.codec .plain)) (overtaken ++ [arrived] ++ (late ++ [stale]))
      ∧ ¬ fresh.Along Grounds (overtaken ++ [arrived] ++ (late ++ [stale])) := by
  refine ⟨admits_stale (names_storeCodec _ _ _), fun h => ?_⟩
  have hlast := (along_append.mp (along_append.mp h).2).2.1 1 0 20 (by decide +kernel) 10 (zeros 10)
    (by decide +kernel) (by decide)
  rcases hlast with hgot | hrejected
  · exact absurd hgot (by decide +kernel)
  · exact absurd hrejected (by decide +kernel)

end Stale

end World

end Melissi.Wire
