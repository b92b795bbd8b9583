import Melissi.Crypto
import Melissi.Wire.Adapter

/-!
# The codecs

Reference: `crates/wire/src/bmt.rs`, `crates/wire/src/postage.rs` and `crates/wire/src/codec.rs`. A
triple is its own identity on the wire. A delivery is validated from its bytes alone: the data must
hash to the address, and the stamp must recover an owner for it. What hashing asserts is returned as
an error.
-/

namespace Melissi.Wire

open Melissi.Common Melissi.Protobuf Melissi.Wire.Pb

variable (P : Primitives)

/-! ## The chunk address -/

def chunkSize : ℕ := 4096

/-- The root of a tree of hashes over `2 ^ depth` sections. -/
def bmtRoot : ℕ → Bytes → Bytes32
  | 0, data => P.keccak256 data
  | depth + 1, data =>
    let half := data.length / 2
    P.keccak256 ((bmtRoot depth (data.take half)).1 ++ (bmtRoot depth (data.drop half)).1)

/-- The content address: the padded payload is 64 sections of 64 bytes. -/
def chunkAddress (payload : Bytes) : Except String Address :=
  if payload.length ≤ chunkSize then
    let padded := payload ++ List.replicate (chunkSize - payload.length) 0
    .ok (P.keccak256 (Primitives.toLeBytes payload.length ++ (bmtRoot P 6 padded).1))
  else .error "chunk payload exceeds 4096 bytes"

/-! ## The stamp -/

def stampSize : ℕ := 113

/-- Batch, index, timestamp and signature. -/
abbrev Stamp : Type := ByteArr stampSize

namespace Stamp

def parse (b : Bytes) : Option Stamp := if h : b.length = stampSize then some ⟨b, h⟩ else none

variable (s : Stamp)

def batchId : BatchId := ⟨s.1.take 32, by rw [List.length_take, s.2]; rfl⟩

def index : Bytes := (s.1.drop 32).take 8

def timestamp : Bytes := (s.1.drop 40).take 8

def sig : ByteArr 65 := ⟨s.1.drop 48, by rw [List.length_drop, s.2]; rfl⟩

end Stamp

/-- What a stamp signs, before the prefix. -/
def toSignDigest (chunkAddr batchId index timestamp : Bytes) : Bytes32 :=
  P.keccak256 (chunkAddr ++ batchId ++ index ++ timestamp)

/-- The owner that signed the stamp for this address. -/
def recoverOwner (chunkAddr : Bytes) (stamp : Stamp) : Option (ByteArr 20) :=
  P.recover (P.ethPrefixed (toSignDigest P chunkAddr stamp.batchId.1 stamp.index stamp.timestamp).1)
    stamp.sig

/-- The stamp is the owner's. -/
def valid (chunkAddr : Bytes) (stamp : Stamp) (owner : ByteArr 20) : Bool :=
  recoverOwner P chunkAddr stamp == some owner

/-! ## What the codecs share -/

/-- Three fields of 32 bytes are a triple. -/
def tripleOf (address batchId stampHash : Bytes) : Option Triple :=
  if h : address.length = 32 ∧ batchId.length = 32 ∧ stampHash.length = 32 then
    some ⟨⟨address, h.1⟩, ⟨batchId, h.2.1⟩, ⟨stampHash, h.2.2⟩⟩
  else none

/-- The triple a delivery is of: its stamp names the batch, and is hashed. -/
def tripleOfDelivery (d : Delivery) : Option Triple :=
  if h : d.address.length = 32 then
    (Stamp.parse d.stamp).map fun stamp =>
      ⟨⟨d.address, h⟩, stamp.batchId, P.keccak256 d.stamp⟩
  else none

/-- Validate a delivery: the content first, then the stamp, as `accepts` has it. -/
def validateWith (accepts : Stamp → Bool) (c : Triple) (d : Delivery) : Except String Outcome :=
  (chunkAddress P d.data).map fun address =>
    if address ≠ c.address then .missed
    else
      match Stamp.parse d.stamp with
      | some stamp => if accepts stamp then .delivered else .rejected
      | none => .rejected

/-- A codec that serves from a store. -/
def storeCodec (store : Triple → Option (Bytes × Bytes))
    (validate : Triple → Delivery → Except String Outcome) : TripleCodec where
  address t := t.address.1
  batchId t := t.batchId.1
  stampHash t := t.stampHash.1
  stamp t := ((store t).map (·.2)).getD []
  data t := ((store t).map (·.1)).getD []
  tripleOf := tripleOf
  tripleOfDelivery := tripleOfDelivery P
  validate := validate

/-! ## The codec that mints -/

structure MintedCodec where
  secret : Bytes32
  owner : ByteArr 20
  batchId : BatchId
  /-- The payload and the stamp of each triple minted. -/
  store : BTreeMap Triple (Bytes × Bytes)

namespace MintedCodec

theorem length_batch (seed : UInt8) : (List.replicate 32 seed).length = 32 :=
  List.length_replicate

def new (ownerSecret : Bytes32) (batchSeed : UInt8) : Except String MintedCodec :=
  match P.publicEthAddress ownerSecret with
  | some owner => .ok ⟨ownerSecret, owner, ⟨List.replicate 32 batchSeed, length_batch batchSeed⟩, ∅⟩
  | none => .error "valid secret"

/-- Stamp a payload, and keep both. -/
def mint (codec : MintedCodec) (payload : Bytes) (index timestamp : ℕ) :
    Except String (MintedCodec × Triple) :=
  (chunkAddress P payload).bind fun address =>
    let idx := Primitives.toBeBytes index
    let ts := Primitives.toBeBytes timestamp
    let digest := toSignDigest P address.1 codec.batchId.1 idx ts
    match P.sign codec.secret (P.ethPrefixed digest.1) with
    | none => .error "called `Option::unwrap()` on a `None` value"
    | some sig =>
      let stamp := codec.batchId.1 ++ idx ++ ts ++ sig.1
      let triple : Triple := ⟨address, codec.batchId, P.keccak256 stamp⟩
      .ok ({ codec with store := codec.store.insert triple (payload, stamp) }, triple)

def validate (codec : MintedCodec) (c : Triple) (d : Delivery) : Except String Outcome :=
  validateWith P (fun stamp => valid P c.address.1 stamp codec.owner) c d

def codec (codec : MintedCodec) : TripleCodec :=
  storeCodec P (fun t => codec.store[t]?) (codec.validate P)

end MintedCodec

/-! ## The codec that only pulls -/

namespace PullCodec

/-- Any owner will do that the stamp recovers. -/
def validate (c : Triple) (d : Delivery) : Except String Outcome :=
  validateWith P (fun stamp => (recoverOwner P c.address.1 stamp).isSome) c d

def codec : TripleCodec := storeCodec P (fun _ => none) (validate P)

end PullCodec

/-! ## Either codec -/

/-- The codecs that validate. -/
inductive Validator where
  | minted (codec : MintedCodec)
  | pull

namespace Validator

def codec : Validator → TripleCodec
  | minted c => c.codec P
  | pull => PullCodec.codec P

def validate : Validator → Triple → Delivery → Except String Outcome
  | minted c => c.validate P
  | pull => PullCodec.validate P

/-- The stamps a codec accepts for a triple. -/
def accepts : Validator → Triple → Stamp → Bool
  | minted c, t => fun stamp => valid P t.address.1 stamp c.owner
  | pull, t => fun stamp => (recoverOwner P t.address.1 stamp).isSome

variable {P}

theorem tripleOfDelivery_codec (v : Validator) (d : Delivery) :
    (v.codec P).tripleOfDelivery d = Wire.tripleOfDelivery P d := by
  cases v <;> rfl

theorem validate_codec (v : Validator) (t : Triple) (d : Delivery) :
    (v.codec P).validate t d = v.validate P t d := by
  cases v <;> rfl

theorem validate_eq (v : Validator) (t : Triple) (d : Delivery) :
    v.validate P t d = validateWith P (v.accepts P t) t d := by
  cases v <;> rfl

theorem chunkAddress_fits {payload : Bytes} (h : payload.length ≤ chunkSize) :
    ∃ address, chunkAddress P payload = .ok address := by
  rw [chunkAddress, if_pos h]
  exact ⟨_, rfl⟩

theorem chunkAddress_long {payload : Bytes} (h : ¬ payload.length ≤ chunkSize) :
    chunkAddress P payload = .error "chunk payload exceeds 4096 bytes" := by
  rw [chunkAddress, if_neg h]

/-- The payload is no longer than a chunk. -/
def Fits (_ : Triple) (d : Delivery) : Prop := d.data.length ≤ chunkSize

/-- A delivery is validated exactly where its payload fits. -/
theorem validates_eq (v : Validator) : (v.codec P).Validates = Fits := by
  funext t d
  rw [TripleCodec.Validates, validate_codec, validate_eq, validateWith, map_returns, Fits]
  refine propext ⟨fun ⟨address, ha⟩ => ?_, chunkAddress_fits⟩
  by_contra hlong
  rw [chunkAddress_long hlong] at ha
  cases ha

end Validator

end Melissi.Wire
