import Melissi.Crypto
import Melissi.Protobuf.Fields

/-!
# The signed network identity

Reference: `crates/net/src/lib.rs`. A node binds its overlay, its underlay and its key with a
signature. Verifying recovers the signer and derives the overlay from it, so that an overlay cannot
be claimed without the key.
-/

namespace Melissi.Net

open Melissi.Protobuf

/-- What goes on the wire. -/
abbrev Bytes : Type := List UInt8

def handshakePrefix : Bytes := "bee-handshake-".toList.map fun c => UInt8.ofNat c.toNat

/-- The exact bytes a node signs. -/
def signData (underlay : Bytes) (overlay : Address) (networkId : ℕ) (nonce : Bytes32)
    (timestamp : ℕ) (chequebook : ByteArr 20) : Bytes :=
  handshakePrefix ++ underlay ++ overlay.1 ++ Primitives.toBeBytes networkId ++ nonce.1
    ++ Primitives.toBeBytes timestamp ++ chequebook.1

/-- A node's signed network identity. -/
@[ext]
structure BzzAddress where
  /-- Where to dial the node. -/
  underlay : Bytes
  /-- The node's address in the chunk space. -/
  overlay : Address
  signature : ByteArr 65
  nonce : Bytes32
  timestamp : ℕ
  /-- May be zero before funding. -/
  chequebook : ByteArr 20
deriving DecidableEq

/-- `n` zero bytes. -/
def zeroArr (n : ℕ) : ByteArr n := ⟨List.replicate n 0, List.length_replicate⟩

namespace BzzAddress

/-- Build and sign an identity: the overlay is derived from the key. -/
def new (P : Primitives) (secret : Bytes32) (underlay : Bytes) (networkId : ℕ) (nonce : Bytes32)
    (timestamp : ℕ) (chequebook : ByteArr 20) : Option BzzAddress := do
  let eth ← P.publicEthAddress secret
  let overlay := P.overlayAddress eth networkId nonce
  let data := signData underlay overlay networkId nonce timestamp chequebook
  let signature ← P.sign secret (P.ethPrefixed data)
  return ⟨underlay, overlay, signature, nonce, timestamp, chequebook⟩

def encode (a : BzzAddress) : Bytes :=
  putBytesField 1 a.underlay ++ (putBytesField 2 a.signature.1 ++ (putBytesField 3 a.overlay.1
    ++ (putBytesField 4 a.nonce.1 ++ (putVarintField 5 a.timestamp
    ++ putBytesField 6 a.chequebook.1))))

/-- One field of an identity: a fixed-width one of the wrong length spoils it. -/
def take (s : BzzAddress × Bool) (f : Field) : BzzAddress × Bool :=
  match f.number with
  | 1 => ({ s.1 with underlay := f.payload }, s.2)
  | 2 =>
    if h : f.payload.length = 65 then ({ s.1 with signature := ⟨f.payload, h⟩ }, s.2)
    else (s.1, true)
  | 3 =>
    if h : f.payload.length = 32 then ({ s.1 with overlay := ⟨f.payload, h⟩ }, s.2)
    else (s.1, true)
  | 4 =>
    if h : f.payload.length = 32 then ({ s.1 with nonce := ⟨f.payload, h⟩ }, s.2)
    else (s.1, true)
  | 5 => ({ s.1 with timestamp := varintOf f.payload }, s.2)
  | 6 =>
    if h : f.payload.length = 20 then ({ s.1 with chequebook := ⟨f.payload, h⟩ }, s.2)
    else (s.1, true)
  | _ => s

/-- Parse an identity: none if a fixed-width field has the wrong size or the message is malformed.
-/
def decode (b : Bytes) : Except String (Option BzzAddress) :=
  (decodeWith (fun s f => .ok (take s f))
    (⟨[], zeroArr 32, zeroArr 65, zeroArr 32, 0, zeroArr 20⟩, false) b).map fun r =>
      r.bind fun s => if s.2 then none else some s.1

/-- Recover the signer, derive the overlay from it, and require it to be the claimed one. -/
def verify (P : Primitives) (a : BzzAddress) (networkId : ℕ) : Option (ByteArr 20) := do
  let data := signData a.underlay a.overlay networkId a.nonce a.timestamp a.chequebook
  let recovered ← P.recover (P.ethPrefixed data) a.signature
  if P.overlayAddress recovered networkId a.nonce = a.overlay then some recovered else none

/-- The address recovered from the signature, under a network id. -/
def recovered (P : Primitives) (a : BzzAddress) (networkId : ℕ) : Option (ByteArr 20) :=
  P.recover (P.ethPrefixed
    (signData a.underlay a.overlay networkId a.nonce a.timestamp a.chequebook)) a.signature

theorem verify_eq_some {P : Primitives} {a : BzzAddress} {networkId : ℕ} {eth : ByteArr 20} :
    a.verify P networkId = some eth ↔
      a.recovered P networkId = some eth ∧ P.overlayAddress eth networkId a.nonce = a.overlay := by
  rw [verify, recovered, Option.bind_eq_bind, Option.bind_eq_some_iff]
  constructor
  · rintro ⟨r, hr, hov⟩
    split at hov
    · next h =>
      obtain rfl := Option.some.inj hov
      exact ⟨hr, h⟩
    · cases hov
  · rintro ⟨hr, hov⟩
    exact ⟨eth, hr, if_pos hov⟩

/-- A node's own identity verifies to its address, and its overlay is the one derived from its key.
-/
theorem verify_new {P : Primitives} (hP : P.RecoverInvertsSign) {secret nonce : Bytes32}
    {underlay : Bytes} {networkId timestamp : ℕ} {chequebook : ByteArr 20} {a : BzzAddress}
    (h : new P secret underlay networkId nonce timestamp chequebook = some a) :
    ∃ eth, P.publicEthAddress secret = some eth ∧ a.verify P networkId = some eth := by
  rw [new, Option.bind_eq_bind, Option.bind_eq_some_iff] at h
  obtain ⟨eth, heth, h⟩ := h
  rw [Option.bind_eq_bind, Option.bind_eq_some_iff] at h
  obtain ⟨sig, hsig, h⟩ := h
  obtain rfl := Option.some.inj h
  exact ⟨eth, heth, verify_eq_some.mpr ⟨(Primitives.recover_sign hP hsig).trans heth, rfl⟩⟩

/-- An identity reads back as it was written. -/
theorem decode_encode {a : BzzAddress} (htime : a.timestamp < 2 ^ 64)
    (hunder : a.underlay.length < 2 ^ 63) : decode a.encode = .ok (some a) := by
  obtain ⟨underlay, overlay, signature, nonce, timestamp, chequebook⟩ := a
  have hlen : ∀ {n : ℕ} (b : ByteArr n), n < 2 ^ 63 → b.1.length < 2 ^ 63 := fun b h => by
    rw [b.2]
    exact h
  have hne : ∀ {n : ℕ} (b : ByteArr n), 0 < n → b.1 ≠ [] := fun b h hnil => by
    have := b.2
    rw [hnil] at this
    simp only [List.length_nil] at this
    omega
  rw [decode, encode, ← List.append_nil (_ ++ _)]
  simp only [List.append_assoc]
  rw [decodeWith_putBytesField
      (t := (⟨underlay, zeroArr 32, zeroArr 65, zeroArr 32, 0, zeroArr 20⟩, false)) (by decide)
      hunder,
    decodeWith_putBytesField
      (t := (⟨underlay, zeroArr 32, signature, zeroArr 32, 0, zeroArr 20⟩, false)) (by decide)
      (hlen signature (by decide)),
    decodeWith_putBytesField
      (t := (⟨underlay, overlay, signature, zeroArr 32, 0, zeroArr 20⟩, false)) (by decide)
      (hlen overlay (by decide)),
    decodeWith_putBytesField
      (t := (⟨underlay, overlay, signature, nonce, 0, zeroArr 20⟩, false)) (by decide)
      (hlen nonce (by decide)),
    decodeWith_putVarintField
      (t := (⟨underlay, overlay, signature, nonce, timestamp, zeroArr 20⟩, false)) (by decide)
      htime,
    decodeWith_putBytesField
      (t := (⟨underlay, overlay, signature, nonce, timestamp, chequebook⟩, false)) (by decide)
      (hlen chequebook (by decide)), decodeWith_nil]
  · rfl
  · exact fun h => absurd h (hne chequebook (by decide))
  · intro _
    simp only [take, chequebook.2, dif_pos]
  · rintro rfl
    rfl
  · intro _
    simp only [take, varintOf_put htime]
  · exact fun h => absurd h (hne nonce (by decide))
  · intro _
    simp only [take, nonce.2, dif_pos]
  · exact fun h => absurd h (hne overlay (by decide))
  · intro _
    simp only [take, overlay.2, dif_pos]
  · exact fun h => absurd h (hne signature (by decide))
  · intro _
    simp only [take, signature.2, dif_pos]
  · rintro rfl
    rfl
  · intro _
    rfl

/-- An identity is never written as nothing, and holds its underlay. -/
theorem length_encode (a : BzzAddress) :
    a.encode ≠ [] ∧ a.underlay.length ≤ a.encode.length := by
  have hunder := le_length_putBytesField 1 a.underlay
  have hsig := le_length_putBytesField 2 a.signature.1
  rw [a.signature.2] at hsig
  refine ⟨fun hnil => ?_, ?_⟩
  · have := congrArg List.length hnil
    simp only [encode, List.length_append, List.length_nil] at this
    omega
  · simp only [encode, List.length_append]
    omega

/-- An identity to evaluate on, of the key that repeats `seed`. -/
def plain (seed : UInt8) (networkId : ℕ) : BzzAddress :=
  (new .plain ⟨List.replicate 32 seed, rfl⟩ [seed] networkId (zeroArr 32) 0 (zeroArr 20)).getD
    ⟨[], zeroArr 32, zeroArr 65, zeroArr 32, 0, zeroArr 20⟩

end BzzAddress

end Melissi.Net
