import Melissi.Puller.Queue
import Melissi.Wire.Carrier

/-!
# A session driven over the wire converges

Reference: `crates/wire/src/session.rs`, `drive`, and `crates/wire/tests/session_play.rs`. The loop
pops one operation at a time and pumps it over a stream of its own, so the session is a queue that
is served in turn: every operation the peers answer is a move of the puller, and an offer past the
head is left open. Whatever the policy, the peers, what they hold and the pieces their bytes arrive
in, the loop runs out of operations, and what the session ends with is what the peers hold.
-/

namespace Melissi.Wire

open Melissi.Common Melissi.Machine Melissi.Node Melissi.Puller

/-! ## Sessions as lines -/

/-- Peers whose reserves number what they stored and lost nothing, under an honest codec. -/
structure Hosts (S : Setting Triple) (minted : MintedCodec) (held : Holdings) : Prop where
  bins : ∀ p, S.bins p = allBins
  window : 2 ≤ S.policy.window
  good : ∀ t, ¬ S.bad t
  head : ∀ k, (held k).head < u64Max
  dense : ∀ k, (held k).Dense
  oneBin : OneBin held
  stored : ∀ k, ∀ e ∈ (held k).entries, e.2 ∈ minted.store
  addressed : ∀ k, ∀ e ∈ (held k).entries, ¬ Unaddressed e.2

/-- A session that has been told of its peers. -/
def session (S : Setting Triple) : Session Triple :=
  S.peers.foldl Session.addPeer (.new (Node.start Config.production S.radius S.policy S.held))

/-- The world of a session that has left `spent` behind. -/
def line (held : Holdings) (spent : List (Effect Triple)) (s : Session Triple) : Line Triple where
  world := ⟨⟨s.node, spent ++ s.queue⟩, held, [], 0, 0, 0⟩
  spent := spent
  queue := s.queue

/-- An effect that asks for no operation is a high-water. -/
theorem tells_of_opOf {n : Node Triple} {fx : Effect Triple} (h : Session.opOf n fx = none) :
    Tells fx := by
  cases fx with
  | settled p b upto => trivial
  | _ => cases h

/-- A fetch starts from the interval of its log. -/
theorem interval_getD (n : Node Triple) (k : PeerBin) :
    (n.interval k).getD 0 = (n.log k).interval := by
  rw [Node.interval, Node.log]
  cases n.logs[k]? <;> rfl

section Turns

variable {P : Primitives} {minted : MintedCodec} {S : Setting Triple} {held : Holdings}
  {spent : List (Effect Triple)} {s : Session Triple}

/-- No page of theirs holds a triple that a client would read as gone. -/
theorem Hosts.within_iff (h : Hosts S minted held) (k : PeerBin) (start : ℕ) (t : Triple) :
    Within (held k) start t ↔ t ∈ ((held k).page start maxPage).map (·.2) := by
  rw [mem_page_iff, Within, and_iff_right_iff_imp]
  rintro ⟨x, hx, -⟩
  exact h.addressed k _ hx

theorem Hosts.supply (h : Hosts S minted held) : Supply S maxPage held :=
  ⟨by decide, h.dense, h.oneBin, h.good⟩

/-- A session that is fed the event of an answer. -/
theorem turn_feed (h : Orderly S maxPage (line held spent s)) {skipped : List (Effect Triple)}
    {fx : Effect Triple} {mv : Node.Move Triple} (hskip : ∀ f ∈ skipped, Tells f)
    (hq : s.queue = skipped ++ fx :: s.nextOp.1.queue)
    (ha : Puller.Answers S maxPage (line held spent s).world fx mv) :
    Turn S maxPage (line held spent s)
      (line held (spent ++ skipped) (s.nextOp.1.feed mv.event)) := by
  have hrest := h.rest hskip hq ha
  have hline : line held (spent ++ skipped) (s.nextOp.1.feed mv.event)
      = ⟨{ (line held spent s).world with shell := (line held spent s).world.shell.next mv },
        spent ++ skipped,
        s.nextOp.1.queue ++ ((line held spent s).world.node.handle mv.event).2⟩ := by
    have hshell : (line held spent s).world.shell.next mv
        = ⟨(s.node.handle mv.event).1, spent ++ skipped
          ++ (s.nextOp.1.queue ++ (s.node.handle mv.event).2)⟩ := by
      rw [Shell.next, hrest, List.append_assoc]
      rfl
    rw [hshell, line, Session.queue_feed, Session.node_feed, s.node_nextOp]
    rfl
  rw [hline]
  exact .answer hskip hq ha

/-- An offer past the head is given up and left open. -/
theorem turn_block {skipped : List (Effect Triple)} {p : PeerId} {b : Bin} {start : ℕ}
    (hskip : ∀ f ∈ skipped, Tells f) (hq : s.queue = skipped ++ .offer p b start :: s.nextOp.1.queue)
    (hlt : (held ⟨p, b⟩).head < start) : Turn S maxPage (line held spent s)
      (line held (spent ++ skipped ++ [.offer p b start]) s.nextOp.1) := by
  have hline : line held (spent ++ skipped ++ [.offer p b start]) s.nextOp.1
      = ⟨(line held spent s).world, spent ++ skipped ++ [.offer p b start], s.nextOp.1.queue⟩ := by
    rw [line, line, s.node_nextOp, hq]
    simp
  rw [hline]
  exact .block hskip hq hlt

/-- What a peer brings for an operation: the event of its answer, or nothing for an offer past the
head. -/
theorem Hosts.answers (hP : P.RecoverInvertsSign) (hc : MintedCodec.Reached P minted)
    (hh : Hosts S minted held) (h : Orderly S maxPage (line held spent s)) (cuts : Cuts)
    {fx : Effect Triple} {op : Op Triple} (hfx : fx ∈ s.queue)
    (hop : Session.opOf s.node fx = some op) :
    (∃ mv : Node.Move Triple, Puller.Answers S maxPage (line held spent s).world fx mv
      ∧ pump (minted.codec P) held cuts op = some mv.event)
    ∨ ∃ p b start, fx = .offer p b start ∧ op = .offer p b start ∧ (held ⟨p, b⟩).head < start
      ∧ pump (minted.codec P) held cuts op = none := by
  have hnames : ∀ t, Names (minted.codec P) t :=
    names_storeCodec P (fun t => minted.store[t]?) (minted.validate P)
  have hp := h.mem_pending hfx
  cases fx with
  | settled p b upto => cases hop
  | getCursors p =>
    obtain rfl : Op.cursors p = op := by simpa [Session.opOf] using hop
    refine .inl ⟨_, .cursors p, ?_⟩
    rw [pump_cursors hh.head, Move.event, Puller.cursors, hh.bins]
    rfl
  | offer p b start =>
    obtain rfl : Op.offer p b start = op := by simpa [Session.opOf] using hop
    obtain ⟨hpos, hnext⟩ := h.sound.account.starts ⟨p, b⟩ start hp
    by_cases hle : start ≤ (held ⟨p, b⟩).head
    · obtain ⟨hpage, hans⟩ := pump_offer hh.head hnames cuts (hh.dense ⟨p, b⟩) hpos hle
      exact .inl ⟨_, .offer hpage, hans⟩
    · have hcovered : _ ≤ (held ⟨p, b⟩).head := (h.sound.covered.tracks ⟨p, b⟩).le_head
      have hint := ((line held spent s).world.node.log ⟨p, b⟩).interval_le
      have hhead := hh.head ⟨p, b⟩
      rw [Settlement.PeerBinLog.next] at hnext
      exact .inr ⟨p, b, start, rfl, rfl, Nat.lt_of_not_le hle,
        pump_offer_blocked hh.head hnames cuts (k := ⟨p, b⟩) (Nat.lt_of_not_le hle) (by omega)⟩
  | fetch p b want =>
    obtain rfl : Op.fetch p b (s.node.log ⟨p, b⟩).interval want = op := by
      rw [← interval_getD]
      simpa [Session.opOf] using hop
    obtain ⟨hne, hnd⟩ := h.sound.account.batches p b want hp
    obtain ⟨c, hcw⟩ := List.exists_mem_of_ne_nil _ hne
    obtain ⟨x, hx, -⟩ := h.placed.wanted p b want hp c hcw
    have hint := ((line held spent s).world.node.log ⟨p, b⟩).interval_le
    have hcovered := (h.sound.covered.tracks ⟨p, b⟩).le_head
    obtain ⟨outcomes, hans, hperm, hout⟩ := pump_fetch hP hc cuts (hh.head ⟨p, b⟩) (hh.stored ⟨p, b⟩)
      (hint.trans hcovered) (((held ⟨p, b⟩).pos_of_mem hx).trans_le ((held ⟨p, b⟩).le_head hx)) hnd
    refine .inl ⟨.fetch p b want outcomes, .fetch hperm fun e he => ?_, hans⟩
    exact (hout e he).imp (And.imp_right (hh.within_iff _ _ _).mp)
      (And.imp_right (mt (hh.within_iff _ _ _).mpr))

/-- What is pumped for an operation is a turn of the line. -/
theorem Hosts.turn (hP : P.RecoverInvertsSign) (hc : MintedCodec.Reached P minted)
    (hh : Hosts S minted held) (h : Orderly S maxPage (line held spent s)) (cuts : Cuts)
    {op : Op Triple} (hop : s.nextOp.2 = some op) : ∃ spent', Turn S maxPage (line held spent s)
      (line held spent' (s.nextOp.1.carry op (pump (minted.codec P) held cuts op))) := by
  obtain ⟨skipped, hskip, -, hend | ⟨fx, op', hop', hfx, hq⟩⟩ := s.nextOp_spec
  · rw [hend.1] at hop
    cases hop
  obtain rfl := Option.some.inj (hop.symm.trans hop')
  replace hskip : ∀ f ∈ skipped, Tells f := fun f hf => tells_of_opOf (hskip f hf)
  rcases hh.answers hP hc h cuts (by simp [hq]) hfx with
    ⟨mv, ha, hans⟩ | ⟨p, b, start, rfl, rfl, hlt, hans⟩
  · rw [hans]
    exact ⟨_, turn_feed h hskip hq ha⟩
  · rw [hans]
    exact ⟨_, turn_block hskip hq hlt⟩

/-! ## What is recorded -/

/-- The interval of every log that has one is recorded, or will be when its turn comes. -/
def Recorded (s : Session Triple) : Prop := ∀ k : PeerBin, 0 < (s.node.log k).interval →
  .settled k.peer k.bin (s.node.log k).interval ∈ s.queue
    ∨ (k.peer, k.bin, (s.node.log k).interval) ∈ s.settled

/-- What a call moves an interval to it asks to record. -/
theorem Recorded.feed (h : Recorded s) (ev : Event Triple) : Recorded (s.feed ev) := by
  intro k hpos
  rw [Session.node_feed] at hpos
  rw [Session.queue_feed, Session.node_feed, List.mem_append]
  by_cases hlt : (ingestedLog k (s.node.log k) ev).interval < ((s.node.handle ev).1.log k).interval
  · refine .inl (.inr (mem_uptos.mp ?_))
    rw [uptos_handle, if_pos hlt]
    exact List.mem_singleton_self _
  · by_cases hgone : ev = .peerGone k.peer
    · rw [hgone, ingestedLog, if_pos rfl, ← hgone] at hlt
      exact absurd hpos hlt
    · rw [interval_ingestedLog hgone] at hlt
      have heq := le_antisymm (Nat.le_of_not_lt hlt) (interval_handle hgone)
      rw [heq] at hpos ⊢
      exact (h k hpos).imp_left .inl

/-- Popping an operation records the high-waters before it. -/
theorem Recorded.nextOp (h : Recorded s) : Recorded s.nextOp.1 := by
  intro k hpos
  rw [s.node_nextOp] at hpos ⊢
  obtain ⟨skipped, hskip, hset, hq⟩ := s.nextOp_spec
  rw [hset, List.mem_append, List.mem_filterMap]
  have hsome : .settled k.peer k.bin (s.node.log k).interval ∈ skipped →
      ∃ fx ∈ skipped, Session.highWater fx = some (k.peer, k.bin, (s.node.log k).interval) :=
    fun hm => ⟨_, hm, rfl⟩
  rcases h k hpos with hm | hm
  · rcases hq with ⟨-, heq, -⟩ | ⟨fx, op, -, hfx, heq⟩
    · exact .inr (.inr (hsome (heq ▸ hm)))
    · rw [heq, List.mem_append, List.mem_cons] at hm
      rcases hm with hm | rfl | hm
      · exact .inr (.inr (hsome hm))
      · cases hfx
      · exact .inl hm
  · exact .inr (.inl hm)

theorem Recorded.carry (h : Recorded s) (op : Op Triple) (answer : Option (Event Triple)) :
    Recorded (s.carry op answer) := by
  rw [Session.carry]
  cases fedBack op answer with
  | none => exact h
  | some ev => exact h.feed ev

theorem recorded_session (S : Setting Triple) : Recorded (session S) := by
  refine foldl_invariant (I := Recorded) Session.addPeer S.peers (fun s h p _ => h.feed _) ?_
  intro k hpos
  rw [Session.new, log, (start_frame Config.production S.radius S.policy S.held).2.2.2.2.1] at hpos
  simp at hpos

/-! ## The run of the loop -/

/-- Announcing the peers leaves a queue that is served in turn. -/
theorem orderly_announced (hh : Hosts S minted held) {ps : List PeerId}
    (hs : Sound S ⟨⟨s.node, s.queue⟩, held, ps, 0, 0, 0⟩)
    (hp : Placed maxPage ⟨⟨s.node, s.queue⟩, held, ps, 0, 0, 0⟩)
    (hm : Met S ⟨⟨s.node, s.queue⟩, held, ps, 0, 0, 0⟩) :
    Orderly S maxPage (line held [] (ps.foldl Session.addPeer s)) := by
  induction ps generalizing s with
  | nil => exact ⟨hh.supply, hs, hp, hm, rfl, rfl, by rintro fx ⟨⟩⟩
  | cons p ps ih =>
    have hf : Fits S ⟨⟨s.node, s.queue⟩, held, p :: ps, 0, 0, 0⟩ (.peerSeen p) :=
      hs.unseen p List.mem_cons_self
    exact ih
      (hs.move (.peerSeen p) hf rfl rfl (.inr ⟨p, rfl, (List.erase_cons_head ..).symm⟩))
      (hp.move hs hh.oneBin hf (by simp) rfl rfl) (hm.move hs hf rfl)

theorem Hosts.orderly (hh : Hosts S minted held) : Orderly S maxPage (line held [] (session S)) := by
  refine orderly_announced hh (sound_init S held 0 0 0)
    (placed_init S hh.window maxPage held 0 0 0) ?_
  intro c p hp
  have hnone := (start_machine_frame Config.production S.radius S.policy S.held).2.2.1
  change (Node.start Config.production S.radius S.policy S.held).m.Held c p at hp
  rw [PullState.Held, hnone] at hp
  simp [setContains] at hp

/-- The shell that opens a stream for every operation; the pieces of the bytes are those of the
turn. -/
def runOp (codec : TripleCodec) (held : Holdings) (cuts : ℕ → Cuts) (turn : ℕ) (op : Op Triple) :
    Option (Event Triple) × ℕ := (pump codec held (cuts turn) op, turn + 1)

/-- Whatever is read of the node and the logs alone is read of every world that has them. -/
theorem converged_congr {w w' : Puller.World Triple} (hn : w'.node = w.node) (hl : w'.logs = w.logs)
    (h : Converged S w) : Converged S w' := by
  have hlogged : ∀ t, Logged S w' t ↔ Logged S w t := fun t => by rw [Logged, Logged, hl]
  refine ⟨?_, ?_, ?_, ?_, ?_, ?_, ?_, ?_⟩ <;> simp only [hn, hl, hlogged]
  exacts [h.has, h.isRejected, h.interval, h.free, h.deficit, h.workingSet, h.deliveries,
    h.checkInvariants]

/-- With enough turns the loop ends, and what it ends with has converged. -/
theorem Hosts.driveLoop_ends (hP : P.RecoverInvertsSign) (hc : MintedCodec.Reached P minted)
    (hh : Hosts S minted held) (cuts : ℕ → Cuts) (h : Orderly S maxPage (line held spent s))
    (hr : Recorded s) (turn : ℕ) : ∃ n s', (∀ left, n ≤ left →
        (driveLoop (runOp (minted.codec P) held cuts) left s turn).1 = s')
      ∧ s'.queue = [] ∧ Recorded s' ∧ Converged S ⟨⟨s'.node, []⟩, held, [], 0, 0, 0⟩ := by
  generalize hl : line held spent s = l at h
  have hacc := h.acc
  induction hacc generalizing s spent turn with
  | intro l _ ih =>
    subst hl
    cases hop : s.nextOp.2 with
    | none =>
      obtain ⟨skipped, hskip, -, ⟨-, hq, hnil⟩ | ⟨fx, op, hop', -⟩⟩ := s.nextOp_spec
      · refine ⟨0, s.nextOp.1, fun left _ => ?_, hnil, hr.nextOp, ?_⟩
        · cases left with
          | zero => rfl
          | succ left =>
            rw [driveLoop]
            split
            · next heq => rw [heq]
            · next heq => simp [heq] at hop
        · exact converged_congr (w := (line held spent s).world) s.node_nextOp rfl
            (h.converged fun fx hfx => tells_of_opOf (hskip fx (hq ▸ hfx)))
      · rw [hop] at hop'
        cases hop'
    | some op =>
      obtain ⟨spent', ht⟩ := hh.turn hP hc h (cuts turn) hop
      obtain ⟨n, s', hrun, hend⟩ := ih _ ht (hr.nextOp.carry op _) (turn + 1) rfl (h.turn ht)
      refine ⟨n + 1, s', fun left hle => ?_, hend⟩
      obtain ⟨left, rfl⟩ : ∃ left', left = left' + 1 := ⟨left - 1, by omega⟩
      rw [← hrun left (by omega), driveLoop]
      split
      · next heq => simp [heq] at hop
      · next heq =>
        rw [heq] at hop ⊢
        obtain rfl := Option.some.inj hop
        rfl

end Turns

/-- Whatever the policy (with a window of two at least), the radius, what is held already, the peers
and what they hold (nothing lost, and each triple in one bin), and whatever pieces the bytes arrive
in: given enough turns, the loop over a session that has been told of its peers ends with an empty
queue. Then every triple that stands in a peer's bin within the radius is stored and nothing else is,
nothing is leased, missing or kept in memory, and each such bin is settled to its head, which is
recorded. -/
theorem drive_converges {P : Primitives} {minted : MintedCodec} (hP : P.RecoverInvertsSign)
    (hc : MintedCodec.Reached P minted) (S : Setting Triple) (held : Holdings)
    (hh : Hosts S minted held) (cuts : ℕ → Cuts) : ∃ n s, (∀ left, n ≤ left →
        (driveLoop (runOp (minted.codec P) held cuts) left (session S) 0).1 = s)
      ∧ s.queue = [] ∧ Converged S ⟨⟨s.node, []⟩, held, [], 0, 0, 0⟩
      ∧ ∀ k ∈ S.keys, (held k).head ≠ 0 → (k.peer, k.bin, (held k).head) ∈ s.settled := by
  obtain ⟨n, s, hrun, hq, hr, hconv⟩ :=
    hh.driveLoop_ends hP hc cuts hh.orderly (recorded_session S) 0
  refine ⟨n, s, hrun, hq, hconv, fun k hk hhead => ?_⟩
  have hint : s.node.interval k = some (held k).head := by
    have h := hconv.interval k
    rwa [if_pos hk] at h
  have hlog : (s.node.log k).interval = (held k).head := by
    rw [← interval_getD, hint]
    rfl
  have hmem := hr k (by rw [hlog]; exact Nat.pos_of_ne_zero hhead)
  rw [hq, hlog] at hmem
  exact hmem.resolve_left List.not_mem_nil

/-- Two peers that both hold one triple, and one of them another. -/
def shared : Holdings := fun k =>
  .numbered (if k = ⟨1, 0⟩ then [World.zeros 5, World.zeros 10]
    else if k = ⟨2, 0⟩ then [World.zeros 10] else [])

/-- The setting of a puller of both. -/
def both : Setting Triple where
  policy := Policy.shipped
  radius := 0
  held := []
  peers := [1, 2]
  bins := fun _ => allBins
  bad := fun _ => false
  window := by decide
  held_good := by rintro t ⟨⟩

theorem mem_shared {k : PeerBin} {e : ℕ × Triple} (he : e ∈ (shared k).entries) :
    k.bin = 0 ∧ (e.2 = World.zeros 5 ∨ e.2 = World.zeros 10) := by
  rw [shared] at he
  split at he
  · next hk =>
    rcases List.mem_pair.mp he with rfl | rfl
    · exact ⟨congrArg PeerBin.bin hk, .inl rfl⟩
    · exact ⟨congrArg PeerBin.bin hk, .inr rfl⟩
  · split at he
    · next hk =>
      rw [List.mem_singleton.mp he]
      exact ⟨congrArg PeerBin.bin hk, .inr rfl⟩
    · cases he

theorem hosts_shared {minted : MintedCodec} (h5 : World.zeros 5 ∈ minted.store)
    (h10 : World.zeros 10 ∈ minted.store) : Hosts both minted shared where
  bins _ := rfl
  window := by decide
  good t := by simp [both]
  head k := by
    rw [shared]
    split
    · decide
    · split <;> decide
  dense k := AppendLog.dense_numbered _
  oneBin k k' x x' t hx hx' := (mem_shared hx).1.trans (mem_shared hx').1.symm
  stored k e he := by
    rcases (mem_shared he).2 with heq | heq <;> rw [heq] <;> assumption
  addressed k e he := by
    rcases (mem_shared he).2 with heq | heq <;> rw [heq] <;> decide +kernel

theorem drive_converges_shared : ∃ (minted : MintedCodec) (n : ℕ) (s : Session Triple),
    MintedCodec.Reached .plain minted
      ∧ (∀ left, n ≤ left →
        (driveLoop (runOp (minted.codec .plain) shared fun _ => ⟨[1], [2, 0], [3], []⟩) left
          (session both) 0).1 = s)
      ∧ s.node.has (World.zeros 5) ∧ s.node.has (World.zeros 10) ∧ (1, 0, 2) ∈ s.settled := by
  obtain ⟨minted, hc, h5, h10, -⟩ := World.minted_zeros
  obtain ⟨n, s, hrun, -, hconv, hset⟩ := drive_converges Primitives.plain_recoverInvertsSign hc both
    shared (hosts_shared h5 h10) fun _ => ⟨[1], [2, 0], [3], []⟩
  have hkey : (⟨1, 0⟩ : PeerBin) ∈ both.keys := (both.mem_keys _).mpr
    ⟨⟨List.mem_cons_self, mem_allBins 0⟩, by decide⟩
  have hlogged : ∀ x t, (x, t) ∈ (shared ⟨1, 0⟩).entries → s.node.has t := fun x t hx =>
    (hconv.has t).mpr (.inr ⟨by simp [both], ⟨1, 0⟩, hkey, x, hx⟩)
  exact ⟨minted, n, s, hc, hrun, hlogged 1 _ (by decide +kernel), hlogged 2 _ (by decide +kernel),
    hset ⟨1, 0⟩ hkey (by decide)⟩

end Melissi.Wire
