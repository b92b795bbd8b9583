import Melissi.Node.State
import Melissi.Wire.Pb

/-!
# The wire adapter

Reference: `crates/wire/src/adapter.rs`. One poller for each kind of stream: it is fed what arrived
and says what to do next. The wire has no positions, so entry `i` of an offer for `[start, …]` gets
the synthetic position `start + i`. A poller that aborts returns the text of its panic.
-/

namespace Melissi.Wire

open Melissi.Common Melissi.Protobuf Melissi.Wire.Pb

/-- Identity to wire and back, and the validation of a delivery, which may abort. -/
structure TripleCodec where
  address : Triple → Bytes
  batchId : Triple → Bytes
  stampHash : Triple → Bytes
  stamp : Triple → Bytes
  data : Triple → Bytes
  /-- The triple an offered chunk names. -/
  tripleOf : Bytes → Bytes → Bytes → Option Triple
  /-- The triple a delivery settles. -/
  tripleOfDelivery : Delivery → Option Triple
  validate : Triple → Delivery → Except String Outcome

/-- Validation returns. -/
def TripleCodec.Validates (codec : TripleCodec) (t : Triple) (d : Delivery) : Prop :=
  ∃ outcome, codec.validate t d = .ok outcome

/-- What a client wants the shell to do next. -/
inductive ClientOut where
  | send (bytes : Bytes)
  /-- Waiting for more bytes. -/
  | need
  | cursors (cursors : List (Bin × ℕ)) (epoch : ℕ)
  /-- Refs at their synthetic positions, and the topmost. -/
  | offerDone (refs : List (ℕ × Triple)) (topmost : ℕ)
  /-- Per-triple outcomes. -/
  | fetchDone (outcomes : List (Triple × Outcome))
deriving DecidableEq

/-! ## The cursors stream -/

structure CursorsClient where
  buf : Bytes
  sent : Bool

def CursorsClient.new : CursorsClient := ⟨[], false⟩

/-- What is fed to the poll that sends is dropped. -/
def CursorsClient.poll (c : CursorsClient) (input : Bytes) :
    Except String (CursorsClient × ClientOut) :=
  if !c.sent then .ok ({ c with sent := true }, .send (frame Syn.encode))
  else
    let buf := c.buf ++ input
    (takeMessage "malformed Ack" Ack.decode buf).map fun
    | none => ({ c with buf := buf }, .need)
    | some (ack, rest) =>
      ({ c with buf := rest },
        .cursors (ack.cursors.zipIdx.map fun e => (UInt8.ofNat e.2, e.1)) ack.epoch)

/-! ## The advertisement leg -/

structure OfferClient where
  bin : Bin
  start : ℕ
  buf : Bytes
  sent : Bool

def OfferClient.new (bin : Bin) (start : ℕ) : OfferClient := ⟨bin, start, [], false⟩

/-- The refs of an offer, entry `i` at `start + i`. -/
def refsOf (codec : TripleCodec) (start : ℕ) (chunks : List Chunk) : List (ℕ × Triple) :=
  chunks.zipIdx.filterMap fun e =>
    (codec.tripleOf e.1.address e.1.batchId e.1.stampHash).map fun t => (start + e.2, t)

def OfferClient.poll (codec : TripleCodec) (c : OfferClient) (input : Bytes) :
    Except String (OfferClient × ClientOut) :=
  if !c.sent then
    .ok ({ c with sent := true }, .send (frame (Get.encode ⟨c.bin.toNat, c.start⟩)))
  else
    let buf := c.buf ++ input
    (takeMessage "malformed Offer" Offer.decode buf).map fun
    | none => ({ c with buf := buf }, .need)
    | some (offer, rest) =>
      ({ c with buf := rest }, .offerDone (refsOf codec c.start offer.chunks) offer.topmost)

/-- An all-zero `Want`, which closes an advertisement. -/
def OfferClient.closeFrame (offered : ℕ) : Bytes := frame (Want.encode ⟨bitvectorNew offered⟩)

/-! ## The delivery leg -/

inductive FetchState where
  | sendGet
  | awaitOffer
  | awaitDeliveries (pending : BTreeSet Triple) (remaining : ℕ)

structure FetchClient where
  bin : Bin
  start : ℕ
  want : List Triple
  buf : Bytes
  state : FetchState
  outcomes : List (Triple × Outcome)

namespace FetchClient

def new (bin : Bin) (start : ℕ) (want : List Triple) : FetchClient :=
  ⟨bin, start, want, [], .sendGet, []⟩

/-- The unmet wants go missed, if an offer has named any, and the outcomes are handed out. -/
def close (c : FetchClient) : FetchClient × ClientOut :=
  match c.state with
  | .awaitDeliveries pending _ =>
    ({ c with state := .awaitDeliveries ∅ 0, outcomes := [] },
      .fetchDone (c.outcomes ++ pending.toList.map fun t => (t, .missed)))
  | _ => ({ c with outcomes := [] }, .fetchDone c.outcomes)

/-- One chunk of a fresh offer: if it is wanted and not yet named, its bit is set. -/
def matchChunk (codec : TripleCodec) (want : List Triple) (s : Bytes × BTreeSet Triple)
    (e : Chunk × ℕ) : Bytes × BTreeSet Triple :=
  match codec.tripleOf e.1.address e.1.batchId e.1.stampHash with
  | some t =>
    if want.contains t && !s.2.contains t then (bitvectorSet s.1 e.2, s.2.insert t) else s
  | none => s

/-- Match the wants against a fresh offer: the bits to set, and the wants it names. -/
def matchOffer (codec : TripleCodec) (want : List Triple) (chunks : List Chunk) :
    Bytes × BTreeSet Triple :=
  chunks.zipIdx.foldl (matchChunk codec want) (bitvectorNew (max chunks.length 1), ∅)

/-- One delivery: a zero address is the server's "no longer held", an unsolicited one is ignored.
Where validation aborts, so does the client. -/
def receive (codec : TripleCodec) (pending : BTreeSet Triple) (outcomes : List (Triple × Outcome))
    (d : Delivery) : Except String (BTreeSet Triple × List (Triple × Outcome)) :=
  if d.address.all (· == 0) || d.address.isEmpty then .ok (pending, outcomes)
  else
    match codec.tripleOfDelivery d with
    | some t =>
      if pending.contains t then
        (codec.validate t d).map fun outcome => (pending.erase t, outcomes ++ [(t, outcome)])
      else .ok (pending, outcomes)
    | none => .ok (pending, outcomes)

/-- The deliveries in the buffer, as many as remain. -/
def drain (codec : TripleCodec) : ℕ → BTreeSet Triple → FetchClient →
    Except String (FetchClient × ClientOut)
  | 0, pending, c => .ok (close { c with state := .awaitDeliveries pending 0 })
  | remaining + 1, pending, c =>
    match takeMessage "malformed Delivery" Delivery.decode c.buf with
    | .error e => .error e
    | .ok none => .ok ({ c with state := .awaitDeliveries pending (remaining + 1) }, .need)
    | .ok (some (d, rest)) =>
      match receive codec pending c.outcomes d with
      | .error e => .error e
      | .ok r => drain codec remaining r.1 { c with buf := rest, outcomes := r.2 }

def poll (codec : TripleCodec) (c : FetchClient) (input : Bytes) :
    Except String (FetchClient × ClientOut) :=
  let c := { c with buf := c.buf ++ input }
  match c.state with
  | .sendGet =>
    .ok ({ c with state := .awaitOffer }, .send (frame (Get.encode ⟨c.bin.toNat, c.start⟩)))
  | .awaitOffer =>
    (takeMessage "malformed Offer" Offer.decode c.buf).map fun
    | none => (c, .need)
    | some (offer, rest) =>
      let m := matchOffer codec c.want offer.chunks
      let c := { c with
        buf := rest
        -- wanted but absent from the fresh offer
        outcomes := c.outcomes ++ (c.want.filter fun t => !m.2.contains t).map fun t => (t, Outcome.missed) }
      if offer.chunks.isEmpty then c.close
      else
        ({ c with state := .awaitDeliveries m.2 m.2.size }, .send (frame (Want.encode ⟨m.1⟩)))
  | .awaitDeliveries pending remaining => drain codec remaining pending c

end FetchClient

/-! ## The serving side -/

/-- What a server needs from the node it fronts. -/
structure ServeReserve where
  /-- At most `limit` entries of a bin from `start` on, in order, and the topmost covered. -/
  collect : Bin → ℕ → ℕ → List (ℕ × Triple) × ℕ
  has : Triple → Bool
  /-- The heads of the bins, from bin 0 on. -/
  cursors : List ℕ
  epoch : ℕ

def maxPage : ℕ := 250

inductive ServerOut where
  | send (bytes : Bytes)
  | need
  /-- The stream is complete. -/
  | done
  /-- The range is empty: the server blocks. -/
  | blocked (bin : Bin) (start : ℕ)
deriving DecidableEq

inductive ServeState where
  | awaitGet
  | awaitWant (offered : List (ℕ × Triple))

structure ServerStream where
  buf : Bytes
  state : ServeState

namespace ServerStream

def new : ServerStream := ⟨[], .awaitGet⟩

/-- The offered chunk of an entry. -/
def chunkOf (codec : TripleCodec) (e : ℕ × Triple) : Chunk :=
  ⟨codec.address e.2, codec.batchId e.2, codec.stampHash e.2⟩

/-- The delivery of a wanted entry: a zero address where it is no longer held. -/
def deliveryOf (codec : TripleCodec) (reserve : ServeReserve) (t : Triple) : Delivery :=
  if reserve.has t then ⟨codec.address t, codec.data t, codec.stamp t⟩
  else ⟨List.replicate 32 0, [], []⟩

/-- The frames of the wanted entries, in the order of the offer. -/
def deliveries (codec : TripleCodec) (reserve : ServeReserve) (offered : List (ℕ × Triple))
    (bitvector : Bytes) : Bytes :=
  (offered.zipIdx.filter fun e => bitvectorGet bitvector e.2).flatMap fun e =>
    frame (deliveryOf codec reserve e.1.2).encode

def poll (codec : TripleCodec) (reserve : ServeReserve) (s : ServerStream) (input : Bytes) :
    Except String (ServerStream × ServerOut) :=
  let s := { s with buf := s.buf ++ input }
  match s.state with
  | .awaitGet =>
    (takeMessage "malformed Get" Get.decode s.buf).map fun
    | none => (s, .need)
    | some (get, rest) =>
      let s := { s with buf := rest }
      let bin := UInt8.ofNat get.bin
      let page := reserve.collect bin get.start maxPage
      if page.1.isEmpty && decide (page.2 < get.start) then (s, .blocked bin get.start)
      else
        let offer := frame (Offer.encode ⟨page.2, page.1.map (chunkOf codec)⟩)
        if page.1.isEmpty then ({ s with state := .awaitGet }, .send offer)
        else ({ s with state := .awaitWant page.1 }, .send offer)
  | .awaitWant offered =>
    (takeMessage "malformed Want" Want.decode s.buf).map fun
    | none => (s, .need)
    | some (want, rest) =>
      let s := { s with buf := rest }
      let frames := deliveries codec reserve offered want.bitvector
      if frames.isEmpty then (s, .done) else (s, .send frames)

end ServerStream

/-- The serving side of a cursors stream. -/
def CursorsServer.respond (reserve : ServeReserve) (input : Bytes) : Except String (Option Bytes) :=
  (deframe input).map fun r => r.bind fun m =>
    (Syn.decode m.1).map fun _ => frame (Ack.encode ⟨reserve.cursors, reserve.epoch⟩)

end Melissi.Wire
