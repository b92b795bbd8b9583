import Melissi.Common.AppendLog
import Melissi.Node.Pacing
import Melissi.Wire.Exchange
import Melissi.Wire.Range
import Melissi.Wire.Session

/-!
# A session and the peers it pulls from

Reference: `crates/wire/src/session.rs` and `crates/wire/src/adapter.rs`. A session hands out its
operations one by one; those under way are read by their servers and answered in any order, and an
offer is answered with what the server held when it read the `Get`. The servers hold append-only
logs that may grow at any time. Peers may come and go, ticks may be fed and operations may be lost.
-/

namespace Melissi.Wire

open Melissi.Common Melissi.Machine Melissi.Settlement Melissi.Node

/-! ## What the peers hold -/

/-- One append-only log for each peer and bin. -/
abbrev Holdings : Type := PeerBin → AppendLog Triple

namespace Holdings

variable (h : Holdings)

/-- The reserve a peer serves from: pages of its logs, and nothing is evicted. -/
def reserve (p : PeerId) : ServeReserve where
  collect bin start limit :=
    let page := (h ⟨p, bin⟩).page start limit
    (page, AppendLog.topmost page)
  has t := (List.range 256).any fun b => ((h ⟨p, UInt8.ofNat b⟩).entries.map (·.2)).contains t
  cursors := (List.range 256).map fun b => (h ⟨p, UInt8.ofNat b⟩).head
  epoch := 0

/-- One more entry in the log of `k`. -/
def grow (k : PeerBin) (b : ℕ) (t : Triple) : Holdings :=
  if hb : (h k).head < b then Function.update h k ((h k).append b t hb) else h

/-- Every log of `h'` continues that of `h`. -/
def Grows (h h' : Holdings) : Prop := ∀ k, (h k).entries <+: (h' k).entries

variable {h}

theorem topmost_reserve (p : PeerId) (b : Bin) (start : ℕ) :
    (h.reserve p).topmost b start = AppendLog.topmost ((h ⟨p, b⟩).page start maxPage) := rfl

/-- What stands in some log of a peer is held. -/
theorem has_reserve {k : PeerBin} {e : ℕ × Triple} (he : e ∈ (h k).entries) :
    (h.reserve k.peer).has e.2 = true := by
  refine List.any_eq_true.mpr ⟨k.bin.toNat, List.mem_range.mpr k.bin.toNat_lt, ?_⟩
  rw [UInt8.ofNat_toNat, List.contains_iff_mem]
  exact List.mem_map.mpr ⟨e, he, rfl⟩

theorem grows_refl : h.Grows h := fun _ => List.prefix_rfl

theorem Grows.trans {h' h'' : Holdings} (h₁ : h.Grows h') (h₂ : h'.Grows h'') : h.Grows h'' :=
  fun k => (h₁ k).trans (h₂ k)

theorem grows_grow (k : PeerBin) (b : ℕ) (t : Triple) : h.Grows (h.grow k b t) := by
  intro k'
  rw [grow]
  split
  · by_cases hk : k' = k
    · subst hk
      rw [Function.update_self]
      exact List.prefix_append _ _
    · rw [Function.update_of_ne hk]
  · exact List.prefix_rfl

/-- A grown log has at most the one entry more. -/
theorem mem_grow {k k' : PeerBin} {b : ℕ} {t : Triple} {e : ℕ × Triple}
    (he : e ∈ (h.grow k b t k').entries) : e ∈ (h k').entries ∨ e = (b, t) := by
  rw [grow] at he
  split at he
  · by_cases hk : k' = k
    · subst hk
      rwa [Function.update_self, AppendLog.mem_append] at he
    · rw [Function.update_of_ne hk] at he
      exact .inl he
  · exact .inl he

theorem head_grow (k k' : PeerBin) (b : ℕ) (t : Triple) :
    (h k').head ≤ (h.grow k b t k').head ∧ (h.grow k b t k').head ≤ max (h k').head b := by
  rw [grow]
  split
  · next hb =>
    by_cases hk : k' = k
    · subst hk
      rw [Function.update_self, AppendLog.head_append]
      omega
    · rw [Function.update_of_ne hk]
      omega
  · omega

/-- The head of a log that grew has not gone back. -/
theorem Grows.head_le {h' : Holdings} (hg : h.Grows h') (k : PeerBin) :
    (h k).head ≤ (h' k).head := by
  by_cases h0 : (h k).head = 0
  · omega
  · obtain ⟨c, hc⟩ := (h k).head_mem h0
    exact (h' k).le_head ((hg k).subset hc)

/-- Of a log that grew, everything up to the old head was there before. -/
theorem Grows.mem_of_le {h' : Holdings} (hg : h.Grows h') {k : PeerBin} {e : ℕ × Triple}
    (he : e ∈ (h' k).entries) (hle : e.1 ≤ (h k).head) : e ∈ (h k).entries := by
  obtain ⟨post, hpost⟩ := hg k
  have hinc := (h' k).entries_increasing
  have hpos := (h' k).pos_of_mem he
  rw [← hpost] at he hinc
  refine (List.mem_append.mp he).resolve_right fun hin => ?_
  obtain ⟨c, hc⟩ := (h k).head_mem (by omega)
  have := (List.pairwise_append.mp hinc).2.2 _ hc e hin
  dsimp only at this
  omega

end Holdings

/-! ## The world -/

/-- An operation under way, and what the peers held when its server read it. -/
structure Flight where
  op : Op Triple
  seen : Option Holdings

structure World where
  session : Session Triple
  logs : Holdings
  flight : List Flight

/-- What may happen. -/
inductive Move
  /-- A peer appears or departs, or the shell ticks. -/
  | feed (ev : Event Triple)
  | append (k : PeerBin) (b : ℕ) (t : Triple)
  /-- The shell takes the next operation. -/
  | take
  /-- The server of the `i`-th operation under way reads it; one that blocks looks again. -/
  | read (i : ℕ)
  /-- The `i`-th operation under way comes to nothing, and nothing is fed for it. -/
  | lose (i : ℕ)
  /-- The `i`-th operation under way is answered. -/
  | answer (i : ℕ) (ev : Event Triple)

/-- The events that are no answers. -/
def isNews : Event Triple → Bool
  | .peerSeen _ => true
  | .peerGone _ => true
  | .tick => true
  | _ => false

/-- What an operation may be answered with: any cursors; an offer as its client reads it, whatever
the pieces, from the server as it stood when it read the `Get`; any outcomes of what was wanted. -/
inductive Answers (codec : TripleCodec) : Flight → Event Triple → Prop
  | cursors {p : PeerId} {seen : Option Holdings} (cursors : List (Bin × ℕ)) :
    Answers codec ⟨.cursors p, seen⟩ (.cursorsResult p cursors)
  | offer {p : PeerId} {b : Bin} {start : ℕ} {held : Holdings} {asked told : List ℕ}
    {outs : List ClientOut} {refs : List (ℕ × Triple)} {topmost : ℕ}
    (hrun : advertise codec (held.reserve p) b start asked told = .ok outs)
    (hdone : .offerDone refs topmost ∈ outs) :
    Answers codec ⟨.offer p b start, some held⟩ (.offerResult p b start refs topmost)
  | fetch {p : PeerId} {b : Bin} {start : ℕ} {want : List Triple} {seen : Option Holdings}
    {outcomes : List (Triple × Outcome)} (hout : ∀ e ∈ outcomes, e.1 ∈ want) :
    Answers codec ⟨.fetch p b start want, seen⟩ (.fetchResult p b outcomes)

namespace World

/-- A session that has asked nothing, and peers that hold `logs`. -/
def init (n : Node Triple) (logs : Holdings) : World := ⟨.new n, logs, []⟩

def node (w : World) : Node Triple := w.session.node

/-- What is fed to the node. -/
def fed : Move → Option (Event Triple)
  | .feed ev => some ev
  | .answer _ ev => some ev
  | _ => none

/-- The effects the node emits. -/
def emitted (w : World) (mv : Move) : List (Effect Triple) :=
  (fed mv).elim [] fun ev => (w.node.handle ev).2

/-- A move is admitted if it may happen. New positions are past the head and below the last one. -/
def Admits (codec : TripleCodec) (w : World) : Move → Prop
  | .feed ev => isNews ev
  | .append k b _ => (w.logs k).head < b ∧ b < u64Max
  | .answer i ev => ∃ f, w.flight[i]? = some f ∧ Answers codec f ev
  | _ => True

def next (w : World) : Move → World
  | .feed ev => { w with session := w.session.feed ev }
  | .append k b t => { w with logs := w.logs.grow k b t }
  | .take =>
    let r := w.session.nextOp
    { w with session := r.1, flight := w.flight ++ (r.2.map fun op => ⟨op, none⟩).toList }
  | .read i => { w with flight := w.flight.modify i fun f => { f with seen := some w.logs } }
  | .lose i => { w with flight := w.flight.eraseIdx i }
  | .answer i ev => { w with session := w.session.feed ev, flight := w.flight.eraseIdx i }

def play (w : World) (mvs : List Move) : World := mvs.foldl next w

/-- Every move of a run is as `P` says, in the world it is made in. -/
def Along (P : World → Move → Prop) : World → List Move → Prop
  | _, [] => True
  | w, mv :: mvs => P w mv ∧ (w.next mv).Along P mvs

theorem along_append {P : World → Move → Prop} {w : World} {mvs mvs' : List Move} :
    w.Along P (mvs ++ mvs') ↔ w.Along P mvs ∧ (w.play mvs).Along P mvs' := by
  induction mvs generalizing w with
  | nil => simp [Along, play]
  | cons mv mvs ih =>
    rw [List.cons_append, Along, Along, ih, and_assoc, play, play, List.foldl_cons]

theorem Along.and {P Q : World → Move → Prop} {w : World} {mvs : List Move} (hp : w.Along P mvs)
    (hq : w.Along Q mvs) : w.Along (fun w mv => P w mv ∧ Q w mv) mvs := by
  induction mvs generalizing w with
  | nil => trivial
  | cons mv mvs ih => exact ⟨⟨hp.1, hq.1⟩, ih hp.2 hq.2⟩

/-- The rule for runs: an invariant that every move keeps holds where the run comes to, and so does
along the run whatever it gives of a move. -/
theorem Along.run {P Q : World → Move → Prop} {I : World → Prop} {w : World} {mvs : List Move}
    (hp : w.Along P mvs) (hI : I w)
    (hstep : ∀ w mv, I w → P w mv → I (w.next mv) ∧ Q w mv) : I (w.play mvs) ∧ w.Along Q mvs := by
  induction mvs generalizing w with
  | nil => exact ⟨hI, trivial⟩
  | cons mv mvs ih =>
    obtain ⟨hnext, hq⟩ := hstep w mv hI hp.1
    obtain ⟨hend, hrest⟩ := ih hp.2 hnext
    exact ⟨hend, hq, hrest⟩

/-! ## What is under way -/

/-- An offer to `k` from `s` on is asked and not answered. -/
def Pending (w : World) (k : PeerBin) (s : ℕ) : Prop :=
  .offer k.peer k.bin s ∈ w.session.queue ∨ ∃ f ∈ w.flight, f.op = .offer k.peer k.bin s

/-- The node moves by what it is fed. -/
theorem node_next (w : World) (mv : Move) :
    (w.next mv).node = (fed mv).elim w.node fun ev => (w.node.handle ev).1 := by
  cases mv with
  | take => exact w.session.node_nextOp
  | _ => rfl

/-- What is under way after a move was under way before, and read then or before, or was taken from
the queue. -/
theorem mem_flight_next {w : World} {mv : Move} {f : Flight} (hf : f ∈ (w.next mv).flight) :
    (∃ f' ∈ w.flight, f'.op = f.op ∧ (f.seen = f'.seen ∨ f.seen = some w.logs))
      ∨ f.seen = none ∧ ∃ fx ∈ w.session.queue, Session.opOf w.node fx = some f.op := by
  have hsub : ∀ i, f ∈ w.flight.eraseIdx i → ∃ f' ∈ w.flight, f'.op = f.op
      ∧ (f.seen = f'.seen ∨ f.seen = some w.logs) := fun i h =>
    ⟨f, List.mem_of_mem_eraseIdx h, rfl, .inl rfl⟩
  cases mv with
  | feed ev => exact .inl ⟨f, hf, rfl, .inl rfl⟩
  | append k b t => exact .inl ⟨f, hf, rfl, .inl rfl⟩
  | take =>
    rcases List.mem_append.mp hf with hf | hf
    · exact .inl ⟨f, hf, rfl, .inl rfl⟩
    · obtain ⟨skipped, -, -, hnone | ⟨fx, op, hop, hfx, hq⟩⟩ := w.session.nextOp_spec
      · rw [hnone.1] at hf
        cases hf
      · rw [hop] at hf
        obtain rfl := List.mem_singleton.mp hf
        refine .inr ⟨rfl, fx, ?_, hfx⟩
        rw [hq]
        exact List.mem_append_right _ List.mem_cons_self
  | read i =>
    obtain ⟨j, hj⟩ := List.mem_iff_getElem?.mp hf
    rw [next, List.getElem?_modify] at hj
    obtain ⟨f', hf', rfl⟩ := Option.map_eq_some_iff.mp hj
    refine .inl ⟨f', List.mem_of_getElem? hf', ?_⟩
    split
    · exact ⟨rfl, .inr rfl⟩
    · exact ⟨rfl, .inl rfl⟩
  | lose i => exact .inl (hsub i hf)
  | answer i ev => exact .inl (hsub i hf)

/-- An offer that is pending after a move was pending before, or starts where its log then stands.
-/
theorem pending_next {w : World} {mv : Move} {k : PeerBin} {s : ℕ} (h : (w.next mv).Pending k s) :
    w.Pending k s ∨ ((fed mv).isSome ∧ s = ((w.next mv).node.log k).next) := by
  have hfeed : ∀ ev, .offer k.peer k.bin s ∈ (w.session.feed ev).queue →
      w.Pending k s ∨ s = (((w.node.handle ev).1).log k).next := by
    intro ev hq
    rw [Session.queue_feed, List.mem_append] at hq
    exact hq.imp .inl offer_mem_handle
  rcases h with hq | ⟨f, hf, hop⟩
  · cases mv with
    | feed ev => exact (hfeed ev hq).imp_right fun hs => ⟨rfl, hs⟩
    | answer i ev => exact (hfeed ev hq).imp_right fun hs => ⟨rfl, hs⟩
    | take =>
      obtain ⟨skipped, -, -, hnone | ⟨fx, op, -, -, hsplit⟩⟩ := w.session.nextOp_spec
      · rw [next, hnone.2.2] at hq
        cases hq
      · refine .inl (.inl ?_)
        rw [hsplit]
        exact List.mem_append_right _ (List.mem_cons_of_mem _ hq)
    | _ => exact .inl (.inl hq)
  · refine .inl ?_
    rcases mem_flight_next hf with ⟨f', hf', hop', -⟩ | ⟨-, fx, hfx, hop'⟩
    · exact .inr ⟨f', hf', hop'.trans hop⟩
    · rw [hop] at hop'
      left
      cases fx with
      | offer p b start =>
        obtain ⟨rfl, rfl, rfl⟩ : p = k.peer ∧ b = k.bin ∧ start = s := by
          simpa [Session.opOf] using hop'
        exact hfx
      | _ => simp [Session.opOf] at hop'

end World

/-! ## What an answered offer brings -/

/-- What a peer is asked for below the last position, and what it answers, is in range. -/
theorem Holdings.inRange {h : Holdings} {p : PeerId} {b : Bin} {start : ℕ} (hs : start ≤ u64Max)
    (hh : (h ⟨p, b⟩).head < u64Max) : (h.reserve p).InRange b start := by
  have htop := (h ⟨p, b⟩).topmost_le_head start maxPage
  have hmax : u64Max < 2 ^ 64 := by decide
  refine ⟨by omega, ?_, List.length_take_le _ _⟩
  rw [topmost_reserve]
  omega

/-- An offer is answered with a page that is not empty: entry `i` at `start + i`, and the true
position of the last. -/
theorem Answers.page {codec : TripleCodec} (hnames : ∀ t, Names codec t) {f : Flight} {p : PeerId}
    {b : Bin} {start : ℕ} {refs : List (ℕ × Triple)} {topmost : ℕ}
    (h : Answers codec f (.offerResult p b start refs topmost)) (hs : 1 ≤ start)
    (hmax : start ≤ u64Max) (hhead : ∀ held, f.seen = some held → (held ⟨p, b⟩).head < u64Max) :
    f.op = .offer p b start ∧ ∃ held, f.seen = some held
      ∧ (held ⟨p, b⟩).page start maxPage ≠ []
      ∧ refs = refsAt start ((held ⟨p, b⟩).page start maxPage)
      ∧ topmost = AppendLog.topmost ((held ⟨p, b⟩).page start maxPage) := by
  cases h with
  | @offer _ _ _ held _ _ _ _ _ hrun hdone =>
    obtain ⟨hopen, hrefs, htop⟩ :=
      advertise_done hnames (Holdings.inRange hmax (hhead held rfl)) hrun hdone
    refine ⟨rfl, held, rfl, fun hnil => hopen ⟨hnil, ?_⟩, hrefs, htop⟩
    rw [Holdings.topmost_reserve, hnil]
    exact hs

/-! ## Every run is in range -/

namespace World

/-- What is covered is held, what is asked starts at or below what comes next, and what a server has
read it still holds. -/
structure Sound (w : World) : Prop where
  head_lt : ∀ k, (w.logs k).head < u64Max
  topmost_le : ∀ k, (w.node.log k).topmost ≤ (w.logs k).head
  offers : ∀ k s, w.Pending k s → 1 ≤ s ∧ s ≤ (w.logs k).head + 1
  fetches : ∀ f ∈ w.flight, ∀ p b s want, f.op = .fetch p b s want → s ≤ (w.logs ⟨p, b⟩).head
  seen : ∀ f ∈ w.flight, ∀ held, f.seen = some held → held.Grows w.logs

theorem grows_next (w : World) (mv : Move) : w.logs.Grows (w.next mv).logs := by
  cases mv with
  | append k b t => exact Holdings.grows_grow k b t
  | _ => exact Holdings.grows_refl

/-- The answer of an offer under way. -/
theorem Sound.page {codec : TripleCodec} (hnames : ∀ t, Names codec t) {w : World} (h : w.Sound)
    {f : Flight} (hf : f ∈ w.flight) {p : PeerId} {b : Bin} {start : ℕ} {refs : List (ℕ × Triple)}
    {topmost : ℕ} (ha : Answers codec f (.offerResult p b start refs topmost)) :
    w.Pending ⟨p, b⟩ start ∧ ∃ held : Holdings, held.Grows w.logs
      ∧ (held ⟨p, b⟩).page start maxPage ≠ []
      ∧ refs = refsAt start ((held ⟨p, b⟩).page start maxPage)
      ∧ topmost = AppendLog.topmost ((held ⟨p, b⟩).page start maxPage) := by
  have hop : f.op = .offer p b start := by
    cases ha
    rfl
  have hpend : w.Pending ⟨p, b⟩ start := .inr ⟨f, hf, hop⟩
  obtain ⟨hs, hle⟩ := h.offers _ _ hpend
  have hlt := h.head_lt ⟨p, b⟩
  obtain ⟨-, held, hseen, hpage⟩ := ha.page hnames hs (by omega) fun held hheld =>
    ((h.seen f hf held hheld).head_le _).trans_lt hlt
  exact ⟨hpend, held, h.seen f hf held hseen, hpage⟩

/-- What is fed covers nothing that is not held. -/
theorem Sound.topmost_ingested {codec : TripleCodec} (hnames : ∀ t, Names codec t) {w : World}
    (h : w.Sound) {mv : Move} (ha : w.Admits codec mv) {ev : Event Triple} (hev : fed mv = some ev)
    (k : PeerBin) : (ingestedLog k (w.node.log k) ev).topmost ≤ (w.logs k).head := by
  have hold := h.topmost_le k
  cases ev with
  | peerGone p =>
    rw [ingestedLog]
    split
    · exact Nat.zero_le _
    · exact hold
  | offerResult p b start refs topmost =>
    rw [ingestedLog]
    split
    · next hk =>
      subst hk
      obtain ⟨f, hf, hans⟩ : ∃ f ∈ w.flight,
          Answers codec f (.offerResult p b start refs topmost) := by
        cases mv with
        | feed ev =>
          obtain rfl := Option.some.inj hev
          cases ha
        | answer i ev =>
          obtain rfl := Option.some.inj hev
          obtain ⟨f, hf, hans⟩ := ha
          exact ⟨f, List.mem_of_getElem? hf, hans⟩
        | _ => cases hev
      obtain ⟨-, held, hgrows, hne, rfl, rfl⟩ := h.page hnames hf hans
      have hstart := AppendLog.start_le_topmost hne
      have hhead := ((held ⟨p, b⟩).topmost_le_head start maxPage).trans (hgrows.head_le _)
      rcases (le_topmost_answeredLog _ _ _ _ _).mp le_rfl with hx | hx | hx | ⟨⟨x, t⟩, he, hx⟩
      · exact hx.trans hold
      · exact hx.trans hhead
      · exact (hx.trans hstart).trans hhead
      · obtain ⟨i, e, hi, rfl, -⟩ := mem_refsAt.mp he
        have hpos := AppendLog.add_le_of_getElem? hi
        have htop := AppendLog.le_topmost (List.mem_of_getElem? hi)
        omega
    · exact hold
  | _ => exact hold

theorem Sound.next {codec : TripleCodec} (hnames : ∀ t, Names codec t) {w : World} (h : w.Sound)
    {mv : Move} (ha : w.Admits codec mv) : (w.next mv).Sound := by
  have hgrows := w.grows_next mv
  have htop : ∀ k, ((w.next mv).node.log k).topmost ≤ ((w.next mv).logs k).head := by
    intro k
    refine le_trans ?_ (hgrows.head_le k)
    rw [node_next]
    cases hev : fed mv with
    | none => exact h.topmost_le k
    | some ev => exact (topmost_handle _ ev k).trans_le (h.topmost_ingested hnames ha hev k)
  refine ⟨fun k => ?_, htop, fun k s hp => ?_, fun f hf p b s want hop => ?_,
    fun f hf held hs => ?_⟩
  · cases mv with
    | append k' b t => exact (Holdings.head_grow k' k b t).2.trans_lt (max_lt (h.head_lt k) ha.2)
    | _ => exact h.head_lt k
  · have hmono := hgrows.head_le k
    rcases pending_next hp with hp | ⟨-, rfl⟩
    · have := h.offers k s hp
      omega
    · have hle := ((w.next mv).node.log k).interval_le
      have := htop k
      rw [PeerBinLog.next]
      omega
  · refine le_trans ?_ (hgrows.head_le _)
    rcases mem_flight_next hf with ⟨f', hf', hop', -⟩ | ⟨-, fx, -, hfx⟩
    · exact h.fetches f' hf' p b s want (hop'.trans hop)
    · rw [hop] at hfx
      cases fx with
      | fetch p' b' want' =>
        obtain ⟨rfl, rfl, rfl, -⟩ : p' = p ∧ b' = b ∧ (w.node.interval ⟨p', b'⟩).getD 0 = s
            ∧ want' = want := by simpa [Session.opOf] using hfx
        refine le_trans ?_ (h.topmost_le _)
        refine le_trans ?_ (w.node.log _).interval_le
        rw [Node.interval, Node.log]
        cases w.node.logs[(⟨p', b'⟩ : PeerBin)]? <;> exact le_rfl
      | _ => simp [Session.opOf] at hfx
  · rcases mem_flight_next hf with ⟨f', hf', -, hseen⟩ | ⟨hnone, -⟩
    · rcases hseen with hseen | hseen
      · exact (h.seen f' hf' held (hseen ▸ hs)).trans hgrows
      · obtain rfl := Option.some.inj (hseen.symm.trans hs)
        exact hgrows
    · rw [hnone] at hs
      cases hs

/-- Where a run starts. -/
theorem sound_init (cfg : Config) (radius : Bin) (policy : Policy) (held : List Triple)
    {logs : Holdings} (hlogs : ∀ k, (logs k).head < u64Max) :
    (init (start cfg radius policy held) logs).Sound where
  head_lt := hlogs
  topmost_le k := by
    have hlog : (init (start cfg radius policy held) logs).node.log k = .new := by
      show (start cfg radius policy held).log k = .new
      rw [Node.log, (start_frame cfg radius policy held).2.2.2.2.1]
      simp
    rw [hlog]
    exact Nat.zero_le _
  offers k s h := by
    rcases h with h | ⟨f, hf, -⟩
    · cases h
    · cases hf
  fetches f hf := by cases hf
  seen f hf := by cases hf

end World

end Melissi.Wire
