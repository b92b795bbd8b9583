import Melissi.Common.Utf8
import Melissi.Net.BzzAddress

/-!
# The handshake exchange

Reference: `crates/net/src/pb.rs` and `crates/net/src/handshake.rs`. Three messages: the initiator's
`Syn`, the responder's `SynAck` and the initiator's `Ack`. Each side is a driver that is polled with
what arrived. A driver's own welcome message is empty, and it does not read the peer's.
-/

namespace Melissi.Net

open Melissi.Protobuf

/-! ## The messages -/

/-- The underlay the sender observed the peer at. -/
structure Syn where
  observedUnderlay : Bytes
deriving DecidableEq

def Syn.encode (m : Syn) : Bytes := putBytesField 1 m.observedUnderlay

def Syn.decode (b : Bytes) : Except String (Option Syn) :=
  decodeWith (fun m f => .ok <| if f.number = 1 then { m with observedUnderlay := f.payload } else m)
    (⟨[]⟩ : Syn) b

/-- The sender's own signed identity and its node role. -/
@[ext]
structure Ack where
  address : BzzAddress
  networkId : ℕ
  fullNode : Bool
  welcomeMessage : String
deriving DecidableEq

def Ack.encode (m : Ack) : Bytes :=
  putBytesField 1 m.address.encode ++ (putVarintField 2 m.networkId
    ++ (putVarintField 3 m.fullNode.toNat ++ putBytesField 99 (Utf8.asBytes m.welcomeMessage)))

/-- The fields read so far. -/
structure AckFields where
  address : Option BzzAddress
  networkId : ℕ
  fullNode : Bool
  welcomeMessage : String

/-- One field of an `Ack`: a later address replaces an earlier one, also where it does not decode.
-/
def AckFields.take (s : AckFields) (f : Field) : Except String AckFields :=
  match f.number with
  | 1 => (BzzAddress.decode f.payload).map fun a => { s with address := a }
  | 2 => .ok { s with networkId := varintOf f.payload }
  | 3 => .ok { s with fullNode := decide (varintOf f.payload ≠ 0) }
  | 99 => .ok { s with welcomeMessage := Utf8.fromUtf8Lossy f.payload }
  | _ => .ok s

def Ack.decode (b : Bytes) : Except String (Option Ack) :=
  (decodeWith AckFields.take ⟨none, 0, false, ""⟩ b).map fun r => r.bind fun s =>
    s.address.map fun a => ⟨a, s.networkId, s.fullNode, s.welcomeMessage⟩

/-- The responder's single reply. -/
structure SynAck where
  syn : Syn
  ack : Ack
deriving DecidableEq

def SynAck.encode (m : SynAck) : Bytes :=
  putBytesField 1 m.syn.encode ++ putBytesField 2 m.ack.encode

def SynAck.take (s : Option Syn × Option Ack) (f : Field) :
    Except String (Option Syn × Option Ack) :=
  match f.number with
  | 1 => (Syn.decode f.payload).map fun m => (m, s.2)
  | 2 => (Ack.decode f.payload).map fun m => (s.1, m)
  | _ => .ok s

def SynAck.decode (b : Bytes) : Except String (Option SynAck) :=
  (decodeWith SynAck.take (none, none) b).map fun r => r.bind fun s =>
    s.1.bind fun syn => s.2.map fun ack => ⟨syn, ack⟩

/-! ## Reading back what was written -/

theorem Syn.decode_encode {m : Syn} (h : m.encode.length < 2 ^ 63) :
    Syn.decode m.encode = .ok (some m) := by
  obtain ⟨observed⟩ := m
  have ho : observed.length < 2 ^ 63 := (le_length_putBytesField 1 observed).trans_lt h
  rw [Syn.decode, Syn.encode, ← List.append_nil (putBytesField _ _),
    @decodeWith_putBytesField _ _ _ ⟨observed⟩ _ _ (by decide) ho, decodeWith_nil]
  all_goals simp

theorem Ack.encode_ne_nil (m : Ack) : m.encode ≠ [] := by
  intro hnil
  have hlen := le_length_putBytesField 1 m.address.encode
  have hpos := List.length_pos_iff.mpr m.address.length_encode.1
  have := congrArg List.length hnil
  simp only [Ack.encode, List.length_append, List.length_nil] at this
  omega

theorem Ack.decode_encode {m : Ack} (hnet : m.networkId < 2 ^ 64)
    (htime : m.address.timestamp < 2 ^ 64) (h : m.encode.length < 2 ^ 63) :
    Ack.decode m.encode = .ok (some m) := by
  obtain ⟨address, networkId, fullNode, welcome⟩ := m
  have haddr := le_length_putBytesField 1 address.encode
  have hwelcome := le_length_putBytesField 99 (Utf8.asBytes welcome)
  obtain ⟨hne, hunder⟩ := address.length_encode
  simp only [Ack.encode, List.length_append] at h
  have haddr' : address.encode.length < 2 ^ 63 := by omega
  have hunder' : address.underlay.length < 2 ^ 63 := by omega
  have hwelcome' : (Utf8.asBytes welcome).length < 2 ^ 63 := by omega
  have hfull : fullNode.toNat < 2 ^ 64 := by cases fullNode <;> decide
  rw [Ack.decode, Ack.encode, ← List.append_nil (_ ++ _), List.append_assoc, List.append_assoc,
    List.append_assoc,
    @decodeWith_putBytesField _ _ _ ⟨some address, 0, false, ""⟩ _ _ (by decide) haddr',
    @decodeWith_putVarintField _ _ _ ⟨some address, networkId, false, ""⟩ _ _ (by decide) hnet,
    @decodeWith_putVarintField _ _ _ ⟨some address, networkId, fullNode, ""⟩ _ _ (by decide) hfull,
    @decodeWith_putBytesField _ _ _ ⟨some address, networkId, fullNode, welcome⟩ _ _ (by decide)
      hwelcome',
    decodeWith_nil]
  · rfl
  · intro hnil
    rw [Utf8.asBytes_eq_nil.mp hnil]
  · intro _
    simp only [AckFields.take, Utf8.fromUtf8Lossy_asBytes]
  · cases fullNode <;> simp
  · intro _
    simp only [AckFields.take, varintOf_put hfull]
    cases fullNode <;> rfl
  · rintro rfl
    rfl
  · intro _
    simp only [AckFields.take, varintOf_put hnet]
  · exact fun hnil => absurd hnil hne
  · intro _
    rw [AckFields.take, BzzAddress.decode_encode htime hunder']
    rfl

theorem SynAck.decode_encode {m : SynAck} (hsyn : m.syn.observedUnderlay ≠ [])
    (hnet : m.ack.networkId < 2 ^ 64) (htime : m.ack.address.timestamp < 2 ^ 64)
    (h : m.encode.length < 2 ^ 63) : SynAck.decode m.encode = .ok (some m) := by
  obtain ⟨syn, ack⟩ := m
  have hs := le_length_putBytesField 1 syn.encode
  have ha := le_length_putBytesField 2 ack.encode
  have hne : syn.encode ≠ [] := by
    refine List.length_pos_iff.mp ((List.length_pos_iff.mpr hsyn).trans_le ?_)
    exact le_length_putBytesField 1 syn.observedUnderlay
  simp only [SynAck.encode, List.length_append] at h
  have hs' : syn.encode.length < 2 ^ 63 := by omega
  have ha' : ack.encode.length < 2 ^ 63 := by omega
  rw [SynAck.decode, SynAck.encode, ← List.append_nil (_ ++ _), List.append_assoc,
    @decodeWith_putBytesField _ _ _ (some syn, none) _ _ (by decide) hs',
    @decodeWith_putBytesField _ _ _ (some syn, some ack) _ _ (by decide) ha',
    decodeWith_nil]
  · rfl
  · exact fun hnil => absurd hnil ack.encode_ne_nil
  · intro _
    rw [SynAck.take, Ack.decode_encode hnet htime ha']
    rfl
  · exact fun hnil => absurd hnil hne
  · intro _
    rw [SynAck.take, Syn.decode_encode hs']
    rfl

/-! ## The driver -/

/-- Which side of the exchange a driver plays. -/
inductive Role where
  /-- Dials, sends `Syn` first and its `Ack` last. -/
  | initiator
  /-- Accepts, replies `SynAck` and reads the peer's `Ack` last. -/
  | responder
deriving DecidableEq

/-- What the driver wants the shell to do next. -/
inductive HsOut where
  | send (bytes : Bytes)
  /-- Awaiting more bytes. -/
  | need
  /-- The peer's verified ethereum address. -/
  | done (eth : ByteArr 20)
  | failed
deriving DecidableEq

inductive Step where
  | start
  | awaitSynAck
  | awaitSyn
  | awaitAck
  | finish (eth : ByteArr 20)
  | failed
deriving DecidableEq

/-- One side of the handshake. -/
structure Handshake where
  role : Role
  mine : BzzAddress
  networkId : ℕ
  fullNode : Bool
  /-- The underlay the peer was observed at. -/
  observed : Bytes
  step : Step
  buf : Bytes
  /-- Captured once the peer's `Ack` verifies. -/
  peerOverlay : Option Address

namespace Handshake

def new (role : Role) (mine : BzzAddress) (networkId : ℕ) (fullNode : Bool) (observed : Bytes) :
    Handshake :=
  ⟨role, mine, networkId, fullNode, observed, .start, [], none⟩

def myAck (h : Handshake) : Ack := ⟨h.mine, h.networkId, h.fullNode, ""⟩

/-- Check the peer's `Ack`: the network id and the signed binding. Its overlay is captured. -/
def check (P : Primitives) (h : Handshake) (ack : Ack) : Option (Handshake × ByteArr 20) :=
  if ack.networkId = h.networkId then
    (ack.address.verify P h.networkId).map fun eth =>
      ({ h with peerOverlay := some ack.address.overlay }, eth)
  else none

/-- Consume the peer's `Syn` and answer it. -/
def driveResponder (h : Handshake) : Except String (Handshake × HsOut) :=
  match deframe h.buf with
  | .error e => .error e
  | .ok none => .ok (h, .need)
  | .ok (some (msg, n)) =>
    let h := { h with buf := h.buf.drop n }
    (Syn.decode msg).map fun
    | none => ({ h with step := .failed }, .failed)
    | some _ =>
      ({ h with step := .awaitAck }, .send (frame (SynAck.encode ⟨⟨h.observed⟩, h.myAck⟩)))

/-- Read a message with an `Ack` in it: none where it does not decode or check. -/
def readAck (P : Primitives) (decode : Bytes → Except String (Option Ack)) (h : Handshake)
    (accept : Handshake → ByteArr 20 → Handshake × HsOut) : Except String (Handshake × HsOut) :=
  match deframe h.buf with
  | .error e => .error e
  | .ok none => .ok (h, .need)
  | .ok (some (msg, n)) =>
    let h := { h with buf := h.buf.drop n }
    (decode msg).map fun r =>
      match r.bind (h.check P) with
      | some (h, eth) => accept h eth
      | none => ({ h with step := .failed }, .failed)

/-- Feed what arrived and get the next action. -/
def poll (P : Primitives) (h : Handshake) (input : Bytes) : Except String (Handshake × HsOut) :=
  let h := { h with buf := h.buf ++ input }
  match h.role, h.step with
  | .initiator, .start =>
    .ok ({ h with step := .awaitSynAck }, .send (frame (Syn.encode ⟨h.observed⟩)))
  | .initiator, .awaitSynAck =>
    readAck P (fun b => (SynAck.decode b).map fun r => r.map (·.ack)) h fun h eth =>
      -- the responder is verified: the own identity goes out last
      ({ h with step := .finish eth }, .send (frame h.myAck.encode))
  | .responder, .start => driveResponder { h with step := .awaitSyn }
  | .responder, .awaitSyn => driveResponder h
  | .responder, .awaitAck =>
    readAck P Ack.decode h fun h eth => ({ h with step := .finish eth }, .done eth)
  | _, .finish eth => .ok (h, .done eth)
  | _, .failed => .ok (h, .failed)
  | .initiator, .awaitSyn | .initiator, .awaitAck | .responder, .awaitSynAck => .ok (h, .failed)

end Handshake

end Melissi.Net
