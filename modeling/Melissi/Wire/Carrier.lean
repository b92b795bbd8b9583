import Melissi.Wire.Drive
import Melissi.Wire.Honest

/-!
# The in-memory carrier

Reference: `run_op` of `crates/wire/tests/session_play.rs`, over `crates/wire/src/adapter.rs`. Every
operation is pumped over a stream of its own, client against server, to the event it is answered
with. The bytes arrive in pieces of any lengths. An advertisement that the server blocks on brings
nothing.
-/

namespace Melissi.Wire

open Melissi.Common Melissi.Machine Melissi.Node Melissi.Protobuf Melissi.Wire.Pb
open Melissi.Wire.FetchClient (verdict)

/-! ## The cursors -/

/-- A cursors stream carried out: the server reads the `Syn` whole and the client its answer in
pieces. -/
def learn (reserve : ServeReserve) (told : List ℕ) : Except String (List ClientOut) :=
  (CursorsClient.new.poll []).bind fun c =>
    (CursorsServer.respond reserve c.2.sent).bind fun ack =>
      (pollAll CursorsClient.poll c.1 (pieces told (ack.getD []))).map (·.2)

/-- The cursors of a reserve as a client reads them. -/
def ServeReserve.heads (r : ServeReserve) : List (Bin × ℕ) :=
  r.cursors.zipIdx.map fun e => (UInt8.ofNat e.2, e.1)

/-- As many cursors as there are bins fit a frame, and are read as they were written. -/
theorem ack_framed {m : Ack} (hlen : m.cursors.length ≤ 256) (hcursors : ∀ c ∈ m.cursors, c < 2 ^ 64)
    (hepoch : m.epoch < 2 ^ 64) :
    m.encode.length ≤ maxFrame ∧ Ack.decode m.encode = .ok (some m) := by
  have hflat : ∀ cs : List ℕ, (cs.flatMap putUvarint).length ≤ cs.length * 10 := by
    intro cs
    induction cs with
    | nil => exact Nat.zero_le _
    | cons c cs ih =>
      have hone := (length_putUvarint c).2
      simp only [List.flatMap_cons, List.length_append, List.length_cons]
      omega
  have hcs := hflat m.cursors
  have hepo := length_putVarintField_le 2 m.epoch
  have hfield := length_putBytesField_le 1 (m.cursors.flatMap putUvarint)
  have hbound : m.encode.length ≤ 2600 := by
    rw [Ack.encode, List.length_append]
    split
    · omega
    · rw [List.length_nil]
      omega
  exact ⟨hbound.trans (by decide),
    Ack.decode_encode hcursors hepoch (hbound.trans_lt (by decide))⟩

/-- Whatever the pieces, a cursors stream brings the heads of the bins. -/
theorem learn_heads {r : ServeReserve} (hlen : r.cursors.length ≤ 256)
    (hcursors : ∀ c ∈ r.cursors, c < 2 ^ 64) (hepoch : r.epoch < 2 ^ 64) (told : List ℕ) :
    ∃ k, learn r told = .ok (List.replicate k .need ++ [.cursors r.heads r.epoch]) := by
  obtain ⟨hframe, hdec⟩ := @ack_framed ⟨r.cursors, r.epoch⟩ hlen hcursors hepoch
  obtain ⟨k, hread⟩ := @pollAll_frame CursorsClient ClientOut String CursorsClient.poll .need
    (.cursors r.heads r.epoch) _ hframe (fun buf => ⟨buf, true⟩) ⟨[], true⟩
    (fun buf piece h => by
      simp only [CursorsClient.poll, takeMessage_none h, Except.map, Bool.not_true,
        Bool.false_eq_true, if_false])
    (fun buf piece h => by
      have htake := @takeMessage_frame _ "malformed Ack" _ _ _ hframe hdec []
      rw [List.append_nil, ← h] at htake
      simp only [CursorsClient.poll, htake, Except.map, Bool.not_true, Bool.false_eq_true, if_false]
      rfl)
    told
  refine ⟨k, ?_⟩
  have hsyn : CursorsServer.respond r (frame Syn.encode)
      = .ok (some (frame (Ack.encode ⟨r.cursors, r.epoch⟩))) := by
    have hsplit : deframe (frame Syn.encode ++ []) = _ := deframe_frame (Nat.zero_le _) []
    rw [List.append_nil] at hsplit
    rw [CursorsServer.respond, hsplit]
    rfl
  simp only [learn, CursorsClient.new, CursorsClient.poll, Bool.not_false, if_true, Except.bind,
    ClientOut.sent, hsyn, Option.getD_some]
  rw [hread, Except.map]

/-! ## One operation -/

/-- The lengths the bytes of one operation arrive in: the pieces of the `Get`, of the server's
answer, of the `Want` and of the deliveries. -/
structure Cuts where
  asked : List ℕ
  told : List ℕ
  wanted : List ℕ
  got : List ℕ

/-- The event an operation is answered with by the peer that holds `held`. -/
def pump (codec : TripleCodec) (held : Holdings) (cuts : Cuts) :
    Op Triple → Option (Event Triple)
  | .cursors p =>
    match learn (held.reserve p) cuts.told with
    | .ok outs => outs.findSome? fun
      | .cursors cursors _ => some (.cursorsResult p cursors)
      | _ => none
    | .error _ => none
  | .offer p b start =>
    match advertise codec (held.reserve p) b start cuts.asked cuts.told with
    | .ok outs => outs.findSome? fun
      | .offerDone refs topmost => some (.offerResult p b start refs topmost)
      | _ => none
    | .error _ => none
  | .fetch p b start want =>
    match deliver codec (held.reserve p) (held.reserve p) b start want cuts.asked cuts.told
        cuts.wanted cuts.got with
    | .ok r => some (.fetchResult p b r.2)
    | .error _ => none

/-- All bins, in the order of the cursors. -/
def allBins : List Bin := (List.range 256).map UInt8.ofNat

theorem mem_allBins (b : Bin) : b ∈ allBins :=
  List.mem_map.mpr ⟨b.toNat, List.mem_range.mpr b.toNat_lt, UInt8.ofNat_toNat⟩

theorem heads_reserve (held : Holdings) (p : PeerId) :
    (held.reserve p).heads = allBins.map fun b => (b, (held ⟨p, b⟩).head) := by
  rw [ServeReserve.heads, Holdings.reserve, allBins, List.zipIdx_map, List.map_map, List.map_map]
  refine List.ext_getElem (by simp) fun i h _ => ?_
  simp

/-- What the polls before the last one bring is nothing. -/
theorem findSome?_last {α β : Type} {f : α → Option β} {need : α} (h : f need = none) (k : ℕ)
    (out : α) : (List.replicate k need ++ [out]).findSome? f = f out := by
  rw [List.findSome?_append, List.findSome?_eq_none_iff.mpr, Option.none_or]
  · simp
  · intro a ha
    rw [List.eq_of_mem_replicate ha, h]

section Pump

variable {codec : TripleCodec} {held : Holdings} (hhead : ∀ k, (held k).head < u64Max)
include hhead

theorem pump_cursors (cuts : Cuts) (p : PeerId) : pump codec held cuts (.cursors p)
    = some (.cursorsResult p (allBins.map fun b => (b, (held ⟨p, b⟩).head))) := by
  obtain ⟨k, h⟩ := @learn_heads (held.reserve p) (by simp [Holdings.reserve])
    (fun c hc => by
      obtain ⟨i, -, rfl⟩ := List.mem_map.mp hc
      exact (hhead _).trans (by decide))
    (by decide : (0 : ℕ) < 2 ^ 64) cuts.told
  rw [pump, h]
  dsimp only
  rw [findSome?_last rfl, heads_reserve]

/-- An advertisement brings a page of a log without gaps at the positions of its entries. -/
theorem pump_offer (hnames : ∀ t, Names codec t) (cuts : Cuts) {k : PeerBin}
    (hdense : (held k).Dense) {start : ℕ} (hs : 1 ≤ start) (hle : start ≤ (held k).head) :
    (held k).page start maxPage ≠ [] ∧ pump codec held cuts (.offer k.peer k.bin start)
      = some (.offerResult k.peer k.bin start ((held k).page start maxPage)
        (AppendLog.topmost ((held k).page start maxPage))) := by
  have hne := AppendLog.page_ne_nil hs hle (show 0 < maxPage by decide)
  have hlt := hhead k
  obtain ⟨j, h⟩ := advertise_page hnames (Holdings.inRange (h := held) (p := k.peer) (b := k.bin)
    (by omega) hlt) (fun hb => hne hb.1) cuts.asked cuts.told
  have hrefs : refsAt start ((held k).page start maxPage) = (held k).page start maxPage := by
    refine List.ext_getElem? fun i => ?_
    rw [refsAt, List.getElem?_map, List.getElem?_zipIdx]
    cases hi : ((held k).page start maxPage)[i]? with
    | none => rfl
    | some e =>
      have hpos := hdense.pos_page hs hi
      simp [← hpos]
  refine ⟨hne, ?_⟩
  rw [pump, h]
  dsimp only
  rw [findSome?_last rfl]
  exact congrArg (fun refs => some (Event.offerResult k.peer k.bin start refs _)) hrefs

/-- Past the head the server blocks, and an advertisement brings nothing. -/
theorem pump_offer_blocked (hnames : ∀ t, Names codec t) (cuts : Cuts) {k : PeerBin} {start : ℕ}
    (hlt : (held k).head < start) (hmax : start ≤ u64Max) :
    pump codec held cuts (.offer k.peer k.bin start) = none := by
  have hnil : (held k).page start maxPage = [] := by
    by_contra hne
    have := (AppendLog.start_le_topmost hne).trans ((held k).topmost_le_head _ _)
    omega
  have hblocks : (held.reserve k.peer).Blocks k.bin start := by
    refine ⟨hnil, ?_⟩
    rw [Holdings.topmost_reserve, show held ⟨k.peer, k.bin⟩ = held k from rfl, hnil]
    exact Nat.zero_lt_of_lt hlt
  rw [pump]
  split
  · next outs hrun =>
    refine List.findSome?_eq_none_iff.mpr fun out hout => ?_
    cases out with
    | offerDone refs topmost =>
      exact absurd hblocks (advertise_done hnames (Holdings.inRange hmax (hhead k)) hrun hout).1
    | _ => rfl
  · rfl

end Pump

/-- A fetch from where something stands brings each want once: delivered where the page reaches it,
and missed elsewhere. -/
theorem pump_fetch {P : Primitives} {minted : MintedCodec} (hP : P.RecoverInvertsSign)
    (hc : MintedCodec.Reached P minted) {held : Holdings} (cuts : Cuts) {k : PeerBin} {start : ℕ}
    (hhead : (held k).head < u64Max) (hstored : ∀ e ∈ (held k).entries, e.2 ∈ minted.store)
    (hs : start ≤ (held k).head) (hpos : 0 < (held k).head) {want : List Triple} (hnd : want.Nodup) :
    ∃ outcomes, pump (minted.codec P) held cuts (.fetch k.peer k.bin start want)
        = some (.fetchResult k.peer k.bin outcomes)
      ∧ (outcomes.map (·.1)).Perm want
      ∧ ∀ e ∈ outcomes, e.2 = .delivered ∧ Within (held k) start e.1
        ∨ e.2 = .missed ∧ ¬ Within (held k) start e.1 := by
  have hopen : ¬ (held.reserve k.peer).Blocks k.bin start := by
    rintro ⟨hnil, -⟩
    obtain ⟨c, hc⟩ := (held k).head_mem hpos.ne'
    have hmem : ((held k).head, c) ∈ (held k).entries.filter fun e => decide (start ≤ e.1) :=
      List.mem_filter.mpr ⟨hc, by simpa using hs⟩
    have hpage : (held k).page start maxPage = [] := hnil
    rw [AppendLog.page, List.take_eq_nil_iff] at hpage
    exact hpage.elim (by decide) (List.ne_nil_of_mem hmem)
  obtain ⟨sent, outcomes, hrun, hmem, hnodup⟩ := carried_page hP hc (k := k) (by omega) hhead hstored
    hopen held want cuts.asked cuts.told cuts.wanted cuts.got
  refine ⟨outcomes, ?_, ?_, fun e he => ?_⟩
  · rw [pump, hrun]
  · refine (List.perm_ext_iff_of_nodup (hnodup hnd) hnd).mpr fun t => ?_
    rw [List.mem_map]
    constructor
    · rintro ⟨e, he, rfl⟩
      exact ((hmem e).mp he).1
    · intro ht
      have hin := (hmem (t, verdict ((held k).page start maxPage) (held.reserve k.peer) t)).mpr ⟨ht, rfl⟩
      exact ⟨_, hin, rfl⟩
  · have hverdict := ((hmem e).mp he).2
    have hiff := @verdict_iff held held Holdings.grows_refl k start e.1
    by_cases hw : Within (held k) start e.1
    · exact .inl ⟨hverdict.trans (hiff.mpr hw), hw⟩
    · refine .inr ⟨hverdict.trans ?_, hw⟩
      rw [verdict] at hiff ⊢
      split at hiff
      · next h => exact absurd (hiff.mp rfl) hw
      · next h => rw [if_neg h]

end Melissi.Wire
