import Melissi.Protobuf.Pieces
import Melissi.Wire.Codec
import Melissi.Wire.Fetch

/-!
# Carrying an operation out

Reference: `crates/wire/src/adapter.rs`, and `run_op` of `crates/wire/tests/session_play.rs`. A
client and a `ServerStream` talk in turns: each sends only when what the other sent has been read.
An operation is carried out here over a stream that loses nothing, and what is sent over it arrives
in pieces of any lengths.
-/

namespace Melissi.Wire

open Melissi.Common Melissi.Node Melissi.Protobuf Melissi.Wire.Pb
open Std (ExtTreeMap ExtTreeSet)

/-! ## The page of a reserve -/

namespace ServeReserve

variable (r : ServeReserve) (bin : Bin) (start : ℕ)

/-- The entries a `Get` is answered with. -/
def page : List (ℕ × Triple) := (r.collect bin start maxPage).1

/-- The topmost a `Get` is answered with. -/
def topmost : ℕ := (r.collect bin start maxPage).2

/-- Nothing is at or past the start: the server blocks. -/
def Blocks : Prop := r.page bin start = [] ∧ r.topmost bin start < start

instance decidableBlocks : Decidable (r.Blocks bin start) := inferInstanceAs (Decidable (_ ∧ _))

/-- What is asked and what is answered are 64-bit numbers, and the page is as long as was asked at
most. -/
structure InRange : Prop where
  start_lt : start < 2 ^ 64
  topmost_lt : r.topmost bin start < 2 ^ 64
  length_le : (r.page bin start).length ≤ maxPage

end ServeReserve

/-! ## What goes over the stream -/

/-- What a client writes. -/
def ClientOut.sent : ClientOut → Bytes
  | .send bytes => bytes
  | _ => []

/-- What a server writes. -/
def ServerOut.sent : ServerOut → Bytes
  | .send bytes => bytes
  | _ => []

/-- An advertisement carried out: the pieces the server reads, the pieces the client reads, and what
the client has to say to them. -/
def advertise (codec : TripleCodec) (reserve : ServeReserve) (bin : Bin) (start : ℕ)
    (asked told : List ℕ) : Except String (List ClientOut) :=
  ((OfferClient.new bin start).poll codec []).bind fun c =>
    (pollAll (ServerStream.poll codec reserve) .new (pieces asked c.2.sent)).bind fun s =>
      (pollAll (OfferClient.poll codec) c.1 (pieces told (s.2.flatMap ServerOut.sent))).map (·.2)

/-- A delivery carried out: the pieces of the `Get`, the `Offer`, the `Want` and the deliveries.
What the server sends for the `Want`, and the outcomes handed out until the client is closed. The
reserve may change between the `Get` and the `Want`. -/
def deliver (codec : TripleCodec) (before after : ServeReserve) (bin : Bin) (start : ℕ)
    (want : List Triple) (asked told wanted got : List ℕ) :
    Except String (Bytes × List (Triple × Outcome)) :=
  ((FetchClient.new bin start want).poll codec []).bind fun c =>
    (pollAll (ServerStream.poll codec before) .new (pieces asked c.2.sent)).bind fun s =>
      (pollAll (FetchClient.poll codec) c.1 (pieces told (s.2.flatMap ServerOut.sent))).bind fun c =>
        (pollAll (ServerStream.poll codec after) s.1
            (pieces wanted (c.2.flatMap ClientOut.sent))).bind fun s =>
          (pollAll (FetchClient.poll codec) c.1 (pieces got (s.2.flatMap ServerOut.sent))).map
            fun r => (s.2.flatMap ServerOut.sent,
              (c.2 ++ r.2 ++ [r.1.close.2]).flatMap ClientOut.outcomes)

/-! ## What is offered -/

/-- The codec names a triple on the wire by its bytes, and reads it back. -/
structure Names (codec : TripleCodec) (t : Triple) : Prop where
  address : codec.address t = t.address.1
  batchId : codec.batchId t = t.batchId.1
  stampHash : codec.stampHash t = t.stampHash.1
  tripleOf : codec.tripleOf t.address.1 t.batchId.1 t.stampHash.1 = some t

/-- Every codec over a store does. -/
theorem names_storeCodec (P : Primitives) (store : Triple → Option (Bytes × Bytes))
    (validate : Triple → Delivery → Except String Outcome) (t : Triple) :
    Names (storeCodec P store validate) t where
  address := rfl
  batchId := rfl
  stampHash := rfl
  tripleOf := by
    show Wire.tripleOf _ _ _ = some t
    rw [Wire.tripleOf, dif_pos ⟨t.address.2, t.batchId.2, t.stampHash.2⟩]

/-- The offer a `Get` is answered with. -/
def ServeReserve.offer (codec : TripleCodec) (r : ServeReserve) (bin : Bin) (start : ℕ) : Offer :=
  ⟨r.topmost bin start, (r.page bin start).map (ServerStream.chunkOf codec)⟩

section Offered

variable {codec : TripleCodec} (hnames : ∀ t, Names codec t)
include hnames

theorem chunkOf_eq (e : ℕ × Triple) :
    ServerStream.chunkOf codec e = ⟨e.2.address.1, e.2.batchId.1, e.2.stampHash.1⟩ := by
  rw [ServerStream.chunkOf, (hnames e.2).address, (hnames e.2).batchId, (hnames e.2).stampHash]

/-- A chunk is read as the triple it was written for. -/
theorem tripleOf_chunkOf (e : ℕ × Triple) :
    codec.tripleOf (ServerStream.chunkOf codec e).address (ServerStream.chunkOf codec e).batchId
      (ServerStream.chunkOf codec e).stampHash = some e.2 := by
  rw [chunkOf_eq hnames]
  exact (hnames e.2).tripleOf

theorem length_chunkOf (e : ℕ × Triple) :
    (ServerStream.chunkOf codec e).encode.length ≤ 156
      ∧ (ServerStream.chunkOf codec e).encode ≠ [] := by
  rw [chunkOf_eq hnames, Chunk.encode]
  have ha := length_putBytesField_le 1 e.2.address.1
  have ha' := le_length_putBytesField 1 e.2.address.1
  have hb := length_putBytesField_le 2 e.2.batchId.1
  have hs := length_putBytesField_le 3 e.2.stampHash.1
  rw [e.2.address.2] at ha ha'
  rw [e.2.batchId.2] at hb
  rw [e.2.stampHash.2] at hs
  constructor
  · simp only [List.length_append]
    omega
  · rw [← List.length_pos_iff]
    simp only [List.length_append]
    omega

/-- The chunks of a page, each in a field. -/
theorem length_chunks (page : List (ℕ × Triple)) :
    ((page.map (ServerStream.chunkOf codec)).flatMap fun c => putBytesField 2 c.encode).length
      ≤ page.length * 176 := by
  induction page with
  | nil => exact Nat.zero_le _
  | cons e page ih =>
    have hone := length_putBytesField_le 2 (ServerStream.chunkOf codec e).encode
    have hlen := (length_chunkOf hnames e).1
    simp only [List.map_cons, List.flatMap_cons, List.length_append, List.length_cons] at ih ⊢
    omega

/-- An offer fits a frame, and is read as it was written. -/
theorem offer_framed {r : ServeReserve} {bin : Bin} {start : ℕ} (h : r.InRange bin start) :
    (r.offer codec bin start).encode.length ≤ maxFrame
      ∧ Offer.decode (r.offer codec bin start).encode = .ok (some (r.offer codec bin start)) := by
  have hchunks := length_chunks hnames (r.page bin start)
  have htopmost := length_putVarintField_le 1 (r.topmost bin start)
  have hpage := h.length_le
  rw [maxPage] at hpage
  have hlen : (r.offer codec bin start).encode.length ≤ 20 + 250 * 176 := by
    rw [ServeReserve.offer, Offer.encode, List.length_append]
    exact (Nat.add_le_add htopmost hchunks).trans (by omega)
  refine ⟨hlen.trans (by decide), Offer.decode_encode h.topmost_lt (hlen.trans_lt (by decide)) ?_⟩
  intro c hc
  obtain ⟨e, -, rfl⟩ := List.mem_map.mp hc
  exact (length_chunkOf hnames e).2

end Offered

/-! ## The server reads the `Get` -/

variable {codec : TripleCodec}

theorem get_framed (bin : Bin) {start : ℕ} (hstart : start < 2 ^ 64) :
    (Get.encode ⟨bin.toNat, start⟩).length ≤ maxFrame
      ∧ Get.decode (Get.encode ⟨bin.toNat, start⟩) = .ok (some ⟨bin.toNat, start⟩) := by
  have hbin := bin.toNat_lt
  refine ⟨?_, Get.decode_encode (hbin.trans (by decide)) hstart⟩
  have h₁ := length_putVarintField_le 1 bin.toNat
  have h₂ := length_putVarintField_le 2 start
  rw [Get.encode, List.length_append, maxFrame]
  show (putVarintField 1 bin.toNat).length + (putVarintField 2 start).length ≤ _
  omega

/-- Where the server stands once the `Get` is read, and what it says. -/
def ServeReserve.answer (codec : TripleCodec) (r : ServeReserve) (bin : Bin) (start : ℕ) :
    ServerStream × ServerOut :=
  (⟨[], if r.page bin start = [] then .awaitGet else .awaitWant (r.page bin start)⟩,
    if r.Blocks bin start then .blocked bin start else .send (frame (r.offer codec bin start).encode))

/-- Whatever the pieces, a `Get` is answered. -/
theorem serve_get (r : ServeReserve) (bin : Bin) {start : ℕ} (hstart : start < 2 ^ 64)
    (cuts : List ℕ) : ∃ k, pollAll (ServerStream.poll codec r) .new
        (pieces cuts (frame (Get.encode ⟨bin.toNat, start⟩)))
      = .ok ((r.answer codec bin start).1, List.replicate k .need ++ [(r.answer codec bin start).2]) := by
  obtain ⟨hlen, hdec⟩ := get_framed bin hstart
  refine pollAll_frame hlen (fun buf => (⟨buf, .awaitGet⟩ : ServerStream)) (fun buf piece h => ?_)
    (fun buf piece h => ?_) cuts
  · simp only [ServerStream.poll, takeMessage_none h, Except.map]
  · have htake := @takeMessage_frame _ "malformed Get" _ _ _ hlen hdec []
    rw [List.append_nil, ← h] at htake
    simp only [ServerStream.poll, htake, Except.map, UInt8.ofNat_toNat, ServeReserve.answer,
      ServeReserve.Blocks, ServeReserve.offer, ServeReserve.page, ServeReserve.topmost]
    by_cases hpage : (r.collect bin start maxPage).1 = []
    · by_cases hlt : (r.collect bin start maxPage).2 < start <;> simp [hpage, hlt]
    · simp [hpage]

/-- Needing more sends nothing. -/
theorem sent_answer (r : ServeReserve) (bin : Bin) (start k : ℕ) :
    (List.replicate k ServerOut.need ++ [(r.answer codec bin start).2]).flatMap ServerOut.sent
      = if r.Blocks bin start then [] else frame (r.offer codec bin start).encode := by
  rw [flatMap_last rfl, ServeReserve.answer]
  by_cases hb : r.Blocks bin start <;> simp [hb, ServerOut.sent]

/-! ## The advertisement -/

/-- The refs of a page: entry `i` at `start + i`. -/
def refsAt (start : ℕ) (page : List (ℕ × Triple)) : List (ℕ × Triple) :=
  page.zipIdx.map fun e => (start + e.2, e.1.2)

theorem mem_refsAt {start : ℕ} {page : List (ℕ × Triple)} {x : ℕ} {t : Triple} :
    (x, t) ∈ refsAt start page ↔ ∃ i e, page[i]? = some e ∧ x = start + i ∧ t = e.2 := by
  simp only [refsAt, List.mem_map, Prod.exists, List.mk_mem_zipIdx_iff_getElem?, Prod.mk.injEq]
  constructor
  · rintro ⟨b, c, i, hi, rfl, rfl⟩
    exact ⟨i, b, c, hi, rfl, rfl⟩
  · rintro ⟨i, b, c, hi, rfl, rfl⟩
    exact ⟨b, _, i, hi, rfl, rfl⟩

theorem refsOf_chunks (hnames : ∀ t, Names codec t) (r : ServeReserve) (bin : Bin) (start : ℕ) :
    refsOf codec start (r.offer codec bin start).chunks = refsAt start (r.page bin start) := by
  rw [ServeReserve.offer, refsOf, refsAt, List.zipIdx_map, List.filterMap_map,
    ← List.filterMap_eq_map]
  congr 1
  funext e
  simp only [Function.comp_def, Prod.map, id, tripleOf_chunkOf hnames, Option.map_some]

/-- Whatever the pieces, an advertisement brings the page at its synthetic positions, and the
topmost. -/
theorem advertise_page (hnames : ∀ t, Names codec t) {r : ServeReserve} {bin : Bin} {start : ℕ}
    (h : r.InRange bin start) (hopen : ¬ r.Blocks bin start) (asked told : List ℕ) : ∃ k,
    advertise codec r bin start asked told = .ok (List.replicate k .need ++
      [.offerDone (refsAt start (r.page bin start)) (r.topmost bin start)]) := by
  obtain ⟨k, hserve⟩ := @serve_get codec r bin start h.start_lt asked
  obtain ⟨hlen, hdec⟩ := offer_framed hnames h
  obtain ⟨k', hread⟩ := @pollAll_frame OfferClient ClientOut String (OfferClient.poll codec) .need
    (.offerDone (refsAt start (r.page bin start)) (r.topmost bin start)) _ hlen
    (fun buf => ⟨bin, start, buf, true⟩) ⟨bin, start, [], true⟩
    (fun buf piece h => by
      simp only [OfferClient.poll, takeMessage_none h, Except.map, Bool.not_true,
        Bool.false_eq_true, if_false])
    (fun buf piece h => by
      have htake := @takeMessage_frame _ "malformed Offer" _ _ _ hlen hdec []
      rw [List.append_nil, ← h] at htake
      simp only [OfferClient.poll, htake, Except.map, Bool.not_true, Bool.false_eq_true, if_false]
      rw [refsOf_chunks hnames]
      rfl)
    told
  refine ⟨k', ?_⟩
  have hsent := @sent_answer codec r bin start k
  rw [if_neg hopen] at hsent
  simp only [advertise, OfferClient.new, OfferClient.poll, Bool.not_false, if_true, Except.bind,
    ClientOut.sent, hserve, hsent]
  rw [hread, Except.map]

/-- An advertisement that is done was answered, and brought the page. -/
theorem advertise_done (hnames : ∀ t, Names codec t) {r : ServeReserve} {bin : Bin} {start : ℕ}
    (h : r.InRange bin start) {asked told : List ℕ} {outs : List ClientOut} {refs : List (ℕ × Triple)}
    {topmost : ℕ} (hrun : advertise codec r bin start asked told = .ok outs)
    (hdone : .offerDone refs topmost ∈ outs) : ¬ r.Blocks bin start
      ∧ refs = refsAt start (r.page bin start) ∧ topmost = r.topmost bin start := by
  by_cases hopen : r.Blocks bin start
  · -- a blocked server sends nothing, so the client waits
    obtain ⟨k, hserve⟩ := @serve_get codec r bin start h.start_lt asked
    have hsent := @sent_answer codec r bin start k
    rw [if_pos hopen] at hsent
    simp only [advertise, OfferClient.new, OfferClient.poll, Bool.not_false, if_true, Except.bind,
      ClientOut.sent, hserve, hsent] at hrun
    have hwait : outs = [] ∨ outs = [.need] := by
      rcases @pieces_nil UInt8 told with hp | hp <;> rw [hp] at hrun
      · exact .inl (Except.ok.inj hrun).symm
      · exact .inr (Except.ok.inj hrun).symm
    rcases hwait with rfl | rfl <;> simp at hdone
  · obtain ⟨k, hpage⟩ := advertise_page hnames h hopen asked told
    rw [hrun] at hpage
    obtain rfl := Except.ok.inj hpage
    simp only [List.mem_append, List.mem_replicate, reduceCtorEq, and_false, List.mem_singleton,
      ClientOut.offerDone.injEq, false_or] at hdone
    exact ⟨hopen, hdone⟩

end Melissi.Wire
