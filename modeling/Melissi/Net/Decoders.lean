import Melissi.Net.Handshake
import Melissi.Net.Hive
import Melissi.Protobuf.Walk
import Melissi.Wire.Pb

/-!
# The decoders on hostile bytes

Reference: `crates/wire/src/pb.rs`, `crates/net/src/lib.rs`, `crates/net/src/pb.rs` and
`crates/net/src/hive.rs`. Every message decoder hands a callback to the one field walker, so that
one condition on the bytes, taken at the shape of the message, decides for all of them whether they
return.
-/

namespace Melissi.Net

open Melissi.Protobuf

/-- The walker and the decoders that are built on it. -/
inductive Decoder
  | walker
  | get
  | chunk
  | offer
  | want
  | delivery
  | cursors
  | syn
  | ack
  | synAck
  | bzzAddress
  | peers

namespace Decoder

/-- Run a decoder: whether it makes a value of the bytes. A list of peers is made of any bytes. -/
def run : Decoder → Bytes → Except String Bool
  | walker, b => (fields b).map (·.2)
  | get, b => (Wire.Pb.Get.decode b).map Option.isSome
  | chunk, b => (Wire.Pb.Chunk.decode b).map Option.isSome
  | offer, b => (Wire.Pb.Offer.decode b).map Option.isSome
  | want, b => (Wire.Pb.Want.decode b).map Option.isSome
  | delivery, b => (Wire.Pb.Delivery.decode b).map Option.isSome
  | cursors, b => (Wire.Pb.Ack.decode b).map Option.isSome
  | syn, b => (Syn.decode b).map Option.isSome
  | ack, b => (Ack.decode b).map Option.isSome
  | synAck, b => (SynAck.decode b).map Option.isSome
  | bzzAddress, b => (BzzAddress.decode b).map Option.isSome
  | peers, b => (decodePeers b).map fun _ => true

/-- A message of which no field is a message. -/
def flat : Shape := .message fun _ => .bytes

def ackShape : Shape := .message fun
  | 1 => flat
  | _ => .bytes

/-- Which fields a decoder takes as messages. -/
def shape : Decoder → Shape
  | offer => .message fun
    | 2 => flat
    | _ => .bytes
  | ack => ackShape
  | synAck => .message fun
    | 1 => flat
    | 2 => ackShape
    | _ => .bytes
  | peers => .message fun
    | 1 => flat
    | _ => .bytes
  | _ => flat

/-- The decoder is safe on the bytes: it returns, and if a field claims more than remains it returns
that there is no message. -/
def SafeOn (d : Decoder) (b : Bytes) : Prop :=
  ∃ whole, d.run b = .ok whole
    ∧ (d ≠ peers → (∃ c, Reaches b c ∧ Overclaims c) → whole = false)

section Decode

variable {α : Type}

/-- A flat decoder returns exactly where its message fits. -/
theorem decodeWith_flat_iff {step : α → Field → α} (s : α) (b : Bytes) :
    Returns (decodeWith (fun s f => .ok (step s f)) s) b ↔ flat.Fits b :=
  decodeWith_returns_iff returns_flat s b

theorem chunk_returns_iff (b : Bytes) : Returns Wire.Pb.Chunk.decode b ↔ flat.Fits b :=
  decodeWith_flat_iff _ b

theorem syn_returns_iff (b : Bytes) : Returns Syn.decode b ↔ flat.Fits b :=
  decodeWith_flat_iff _ b

theorem bzzAddress_returns_iff (b : Bytes) : Returns BzzAddress.decode b ↔ flat.Fits b :=
  map_returns.trans (decodeWith_flat_iff _ b)

theorem offer_returns_iff (b : Bytes) : Returns Wire.Pb.Offer.decode b ↔ offer.shape.Fits b := by
  refine map_returns.trans (decodeWith_returns_iff (fun s f => ?_) _ b)
  rw [Wire.Pb.Offer.take]
  split
  · next h =>
    simp only [h]
    exact iff_of_true ⟨_, rfl⟩ trivial
  · next h =>
    simp only [h]
    exact map_returns.trans (chunk_returns_iff f.payload)
  · next h1 h2 =>
    simp only
    exact iff_of_true ⟨_, rfl⟩ trivial

theorem ack_returns_iff (b : Bytes) : Returns Ack.decode b ↔ ackShape.Fits b := by
  refine map_returns.trans (decodeWith_returns_iff (fun s f => ?_) _ b)
  rw [AckFields.take]
  split
  · next h =>
    simp only [h]
    exact map_returns.trans (bzzAddress_returns_iff f.payload)
  · next h =>
    simp only [h]
    exact iff_of_true ⟨_, rfl⟩ trivial
  · next h =>
    simp only [h]
    exact iff_of_true ⟨_, rfl⟩ trivial
  · next h =>
    simp only [h]
    exact iff_of_true ⟨_, rfl⟩ trivial
  · next h1 h2 h3 h4 =>
    simp only
    exact iff_of_true ⟨_, rfl⟩ trivial

theorem synAck_returns_iff (b : Bytes) : Returns SynAck.decode b ↔ synAck.shape.Fits b := by
  refine map_returns.trans (decodeWith_returns_iff (fun s f => ?_) _ b)
  obtain ⟨number, -, payload⟩ := f
  match number with
  | 0 => exact iff_of_true ⟨_, rfl⟩ trivial
  | 1 => exact map_returns.trans (syn_returns_iff payload)
  | 2 => exact map_returns.trans (ack_returns_iff payload)
  | _ + 3 => exact iff_of_true ⟨_, rfl⟩ trivial

/-- A list of peers keeps what was read before the message goes wrong, and aborts where a walk does.
-/
theorem peers_returns_iff (b : Bytes) : Returns decodePeers b ↔ peers.shape.Fits b := by
  have hstep : ∀ (out : List BzzAddress) (f : Field),
      (∃ t, (if f.number = 1 then (BzzAddress.decode f.payload).map fun a => out ++ a.toList
        else .ok out) = .ok t)
        ↔ ((fun | 1 => flat | _ => .bytes : ℕ → Shape) f.number).Fits f.payload := by
    intro out f
    split
    · next h =>
      simp only [h]
      exact map_returns.trans (bzzAddress_returns_iff f.payload)
    · next h =>
      simp only
      exact iff_of_true ⟨_, rfl⟩ trivial
  rw [shape, ← walk_returns_iff hstep [], Returns]
  simp only [decodePeers]
  cases fields b with
  | error e => simp
  | ok r =>
    obtain ⟨fs, whole⟩ := r
    simp

theorem walker_returns_iff (b : Bytes) : Returns fields b ↔ flat.Fits b := by
  rw [fields_returns_iff, flat, Shape.Fits]
  exact forall₂_congr fun c _ => ⟨fun h => ⟨h, fun _ _ _ => trivial⟩, fun h => h.1⟩

/-- A decoder returns exactly where the bytes fit the shape of its message. -/
theorem run_returns_iff (d : Decoder) (b : Bytes) :
    (∃ whole, d.run b = .ok whole) ↔ d.shape.Fits b := by
  cases d with
  | walker => exact map_returns.trans (walker_returns_iff b)
  | offer => exact map_returns.trans (offer_returns_iff b)
  | ack => exact map_returns.trans (ack_returns_iff b)
  | synAck => exact map_returns.trans (synAck_returns_iff b)
  | peers => exact map_returns.trans (peers_returns_iff b)
  | bzzAddress => exact map_returns.trans (bzzAddress_returns_iff b)
  | _ => exact map_returns.trans (decodeWith_flat_iff _ b)

/-- What makes nothing of a message that is not whole makes nothing of one that claims too much. -/
theorem map_overclaims {step : α → Field → Except String α} {s : α} {b c : Bytes} {whole : Bool}
    {g : Option α → Bool} (hg : g none = false) (hc : Reaches b c) (hover : Overclaims c)
    (h : (decodeWith step s b).map g = .ok whole) : whole = false := by
  cases hr : decodeWith step s b with
  | error e =>
    rw [hr] at h
    cases h
  | ok r =>
    rw [hr, decodeWith_overclaims hc hover hr] at h
    exact (Except.ok.inj h).symm.trans hg

theorem map_map {γ : Type} (x : Except String α) (f : α → β) (g : β → γ) :
    (x.map f).map g = x.map (g ∘ f) := by
  cases x <;> rfl

/-- A decoder makes no message of bytes in which some field claims more than remains. -/
theorem run_overclaims {d : Decoder} {b c : Bytes} {whole : Bool} (hd : d ≠ peers)
    (hc : Reaches b c) (hover : Overclaims c) (h : d.run b = .ok whole) : whole = false := by
  cases d with
  | walker =>
    rw [run] at h
    cases hr : fields b with
    | error e =>
      rw [hr] at h
      cases h
    | ok r =>
      rw [hr] at h
      exact (Except.ok.inj h).symm.trans (fields_overclaims hc hover hr)
  | peers => exact absurd rfl hd
  | offer | ack | synAck | bzzAddress =>
    exact map_overclaims rfl hc hover ((map_map _ _ _).symm.trans h)
  | _ => exact map_overclaims rfl hc hover h

end Decode

/-- The walker, and with it each decoder, is safe on exactly those bytes that fit the shape of its
message: where no field that it comes to, nor that it comes to in a message of its own, claims a
length that overflows together with the size of its own varint. -/
theorem safeOn_iff (d : Decoder) (b : Bytes) : d.SafeOn b ↔ d.shape.Fits b := by
  rw [← run_returns_iff]
  constructor
  · rintro ⟨whole, hrun, -⟩
    exact ⟨whole, hrun⟩
  · rintro ⟨whole, hrun⟩
    exact ⟨whole, hrun, fun hd ⟨c, hc, hover⟩ => run_overclaims hd hc hover hrun⟩

/-- The first field, of bytes, claims all of 64 bits: the length's varint is ten bytes itself. -/
def overflowing : Bytes := 0x0A :: (List.replicate 9 0xFF ++ [0x01])

/-- No decoder returns on it: the sum of the claimed length and ten overflows. -/
theorem overflowing_aborts (d : Decoder) :
    d.run overflowing = .error "attempt to add with overflow" := by
  cases d <;> decide +kernel

theorem overflowing_unsafe : ¬ ∀ (d : Decoder) (b : Bytes), d.SafeOn b := by
  intro h
  obtain ⟨whole, hrun, -⟩ := h .walker overflowing
  rw [overflowing_aborts] at hrun
  cases hrun

end Decoder

end Melissi.Net
