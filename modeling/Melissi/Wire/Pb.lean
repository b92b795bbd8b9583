import Melissi.Protobuf.Fields

/-!
# The pull-sync messages

Reference: `crates/wire/src/pb.rs`. The message shapes of bee's pull-sync protocol and its
bitvector. A decoder takes a field by its number whatever its wire type, ignores the numbers it does
not know and lets a later field override an earlier one.
-/

namespace Melissi.Wire.Pb

open Melissi.Protobuf

/-- What goes on the wire. -/
abbrev Bytes : Type := List UInt8

structure Get where
  bin : ℕ
  start : ℕ
deriving DecidableEq

def Get.encode (m : Get) : Bytes := putVarintField 1 m.bin ++ putVarintField 2 m.start

def Get.decode (b : Bytes) : Except String (Option Get) :=
  decodeWith (fun m f => .ok <| match f.number with
    | 1 => { m with bin := varintOf f.payload % 2 ^ 32 }
    | 2 => { m with start := varintOf f.payload }
    | _ => m) (⟨0, 0⟩ : Get) b

structure Chunk where
  address : Bytes
  batchId : Bytes
  stampHash : Bytes
deriving DecidableEq

def Chunk.encode (m : Chunk) : Bytes :=
  putBytesField 1 m.address ++ (putBytesField 2 m.batchId ++ putBytesField 3 m.stampHash)

def Chunk.decode (b : Bytes) : Except String (Option Chunk) :=
  decodeWith (fun m f => .ok <| match f.number with
    | 1 => { m with address := f.payload }
    | 2 => { m with batchId := f.payload }
    | 3 => { m with stampHash := f.payload }
    | _ => m) (⟨[], [], []⟩ : Chunk) b

structure Offer where
  topmost : ℕ
  chunks : List Chunk
deriving DecidableEq

def Offer.encode (m : Offer) : Bytes :=
  putVarintField 1 m.topmost ++ m.chunks.flatMap fun c => putBytesField 2 c.encode

/-- One field of an offer: a chunk that does not decode spoils the offer. -/
def Offer.take (s : Offer × Bool) (f : Field) : Except String (Offer × Bool) :=
  match f.number with
  | 1 => .ok ({ s.1 with topmost := varintOf f.payload }, s.2)
  | 2 => (Chunk.decode f.payload).map fun
    | some c => ({ s.1 with chunks := s.1.chunks ++ [c] }, s.2)
    | none => (s.1, true)
  | _ => .ok s

def Offer.decode (b : Bytes) : Except String (Option Offer) :=
  (decodeWith Offer.take (⟨0, []⟩, false) b).map fun r =>
    r.bind fun s => if s.2 then none else some s.1

structure Want where
  bitvector : Bytes
deriving DecidableEq

def Want.encode (m : Want) : Bytes := putBytesField 1 m.bitvector

def Want.decode (b : Bytes) : Except String (Option Want) :=
  decodeWith (fun m f => .ok <| if f.number = 1 then { m with bitvector := f.payload } else m)
    (⟨[]⟩ : Want) b

structure Delivery where
  address : Bytes
  data : Bytes
  stamp : Bytes
deriving DecidableEq

def Delivery.encode (m : Delivery) : Bytes :=
  putBytesField 1 m.address ++ (putBytesField 2 m.data ++ putBytesField 3 m.stamp)

def Delivery.decode (b : Bytes) : Except String (Option Delivery) :=
  decodeWith (fun m f => .ok <| match f.number with
    | 1 => { m with address := f.payload }
    | 2 => { m with data := f.payload }
    | 3 => { m with stamp := f.payload }
    | _ => m) (⟨[], [], []⟩ : Delivery) b

/-- The opening of a cursors stream carries nothing. -/
def Syn.encode : Bytes := []

def Syn.decode (_ : Bytes) : Option Unit := some ()

structure Ack where
  cursors : List ℕ
  epoch : ℕ
deriving DecidableEq

def Ack.encode (m : Ack) : Bytes :=
  (if m.cursors ≠ [] then putBytesField 1 (m.cursors.flatMap putUvarint) else [])
    ++ putVarintField 2 m.epoch

/-- The numbers of a packed field, as far as they are well formed. Each takes at least a byte. -/
def packed : ℕ → Bytes → List ℕ
  | 0, _ => []
  | fuel + 1, b =>
    match getUvarint b with
    | none => []
    | some (v, n) => v :: packed fuel (b.drop n)

def Ack.decode (b : Bytes) : Except String (Option Ack) :=
  decodeWith (fun m f => .ok <| match f.number, f.wireType with
    | 1, 2 => { m with cursors := m.cursors ++ packed f.payload.length f.payload }
    | 1, 0 => { m with cursors := m.cursors ++ [varintOf f.payload] }
    | 2, _ => { m with epoch := varintOf f.payload }
    | _, _ => m) (⟨[], 0⟩ : Ack) b

/-! ## The bitvector -/

/-- One byte more than full bytes of bits. -/
def bitvectorNew (len : ℕ) : Bytes := List.replicate (len / 8 + 1) 0

def bitvectorSet (bv : Bytes) (i : ℕ) : Bytes :=
  bv.modify (i / 8) fun b => UInt8.ofNat (b.toNat ||| 2 ^ (i % 8))

def bitvectorGet (bv : Bytes) (i : ℕ) : Bool := bv[i / 8]?.any fun b => b.toNat.testBit (i % 8)

@[simp] theorem length_bitvectorSet (bv : Bytes) (i : ℕ) :
    (bitvectorSet bv i).length = bv.length := by
  rw [bitvectorSet, List.length_modify]

theorem bitvectorGet_new (len i : ℕ) : bitvectorGet (bitvectorNew len) i = false := by
  rw [bitvectorGet, bitvectorNew, List.getElem?_replicate]
  split <;> simp

/-- Setting a bit sets that bit and no other. -/
theorem bitvectorGet_set {bv : Bytes} {i : ℕ} (hi : i / 8 < bv.length) (j : ℕ) :
    bitvectorGet (bitvectorSet bv i) j = (decide (i = j) || bitvectorGet bv j) := by
  rw [bitvectorGet, bitvectorGet, bitvectorSet, List.getElem?_modify]
  by_cases hbyte : i / 8 = j / 8
  · obtain ⟨b, hb⟩ : ∃ b, bv[j / 8]? = some b :=
      ⟨_, List.getElem?_eq_getElem (hbyte ▸ hi)⟩
    have hlt : b.toNat ||| 2 ^ (i % 8) < 2 ^ 8 :=
      Nat.or_lt_two_pow b.toNat_lt (Nat.pow_lt_pow_right (by decide) (Nat.mod_lt _ (by decide)))
    have hnat : (UInt8.ofNat (b.toNat ||| 2 ^ (i % 8))).toNat = b.toNat ||| 2 ^ (i % 8) := by
      rw [UInt8.toNat_ofNat', Nat.mod_eq_of_lt hlt]
    have hbit : i % 8 = j % 8 ↔ i = j := by omega
    rw [hb]
    simp only [hbyte, Option.map_eq_map, Option.map_some, if_true, Option.any_some, hnat,
      Nat.testBit_or, Nat.testBit_two_pow, hbit]
    exact Bool.or_comm _ _
  · have hne : i ≠ j := fun h => hbyte (h ▸ rfl)
    simp [hbyte, hne]

/-! ## Reading what was written -/

theorem Get.decode_encode {m : Get} (hbin : m.bin < 2 ^ 32) (hstart : m.start < 2 ^ 64) :
    Get.decode m.encode = .ok (some m) := by
  obtain ⟨bin, start⟩ := m
  have hlt : bin < 2 ^ 64 := lt_trans hbin (by decide)
  rw [Get.decode, Get.encode, ← List.append_nil (_ ++ _), List.append_assoc,
    decodeWith_putVarintField (t := ⟨bin, 0⟩) (by decide) hlt,
    decodeWith_putVarintField (t := ⟨bin, start⟩) (by decide) hstart, decodeWith_nil]
  · simp
  · simp [varintOf_put hstart]
  · simp
  · simpa [varintOf_put hlt] using fun _ => hbin

theorem Chunk.decode_encode {m : Chunk} (h : m.encode.length < 2 ^ 63) :
    Chunk.decode m.encode = .ok (some m) := by
  obtain ⟨address, batchId, stampHash⟩ := m
  rw [Chunk.encode, List.length_append, List.length_append] at h
  simp only at h
  have ha : address.length < 2 ^ 63 := by have := le_length_putBytesField 1 address; omega
  have hb : batchId.length < 2 ^ 63 := by have := le_length_putBytesField 2 batchId; omega
  have hs : stampHash.length < 2 ^ 63 := by have := le_length_putBytesField 3 stampHash; omega
  rw [Chunk.decode, Chunk.encode, ← List.append_nil (_ ++ _), List.append_assoc, List.append_assoc,
    decodeWith_putBytesField (t := ⟨address, [], []⟩) (by decide) ha,
    decodeWith_putBytesField (t := ⟨address, batchId, []⟩) (by decide) hb,
    decodeWith_putBytesField (t := ⟨address, batchId, stampHash⟩) (by decide) hs,
    decodeWith_nil]
  all_goals simp

theorem Delivery.decode_encode {m : Delivery} (h : m.encode.length < 2 ^ 63) :
    Delivery.decode m.encode = .ok (some m) := by
  obtain ⟨address, data, stamp⟩ := m
  rw [Delivery.encode, List.length_append, List.length_append] at h
  simp only at h
  have ha : address.length < 2 ^ 63 := by have := le_length_putBytesField 1 address; omega
  have hd : data.length < 2 ^ 63 := by have := le_length_putBytesField 2 data; omega
  have hs : stamp.length < 2 ^ 63 := by have := le_length_putBytesField 3 stamp; omega
  rw [Delivery.decode, Delivery.encode, ← List.append_nil (_ ++ _), List.append_assoc,
    List.append_assoc, decodeWith_putBytesField (t := ⟨address, [], []⟩) (by decide) ha,
    decodeWith_putBytesField (t := ⟨address, data, []⟩) (by decide) hd,
    decodeWith_putBytesField (t := ⟨address, data, stamp⟩) (by decide) hs,
    decodeWith_nil]
  all_goals simp

theorem Want.decode_encode {m : Want} (h : m.encode.length < 2 ^ 63) :
    Want.decode m.encode = .ok (some m) := by
  obtain ⟨bitvector⟩ := m
  have hb : bitvector.length < 2 ^ 63 := (le_length_putBytesField 1 bitvector).trans_lt h
  rw [Want.decode, Want.encode, ← List.append_nil (putBytesField _ _),
    decodeWith_putBytesField (t := ⟨bitvector⟩) (by decide) hb, decodeWith_nil]
  all_goals simp

/-- A chunk writes nothing exactly where all of its fields are empty. -/
theorem Chunk.encode_eq_nil {c : Chunk} : c.encode = [] ↔ c = ⟨[], [], []⟩ := by
  obtain ⟨address, batchId, stampHash⟩ := c
  simp only [Chunk.encode, List.append_eq_nil_iff, putBytesField_eq_nil, Chunk.mk.injEq]

/-- The chunks of an offer, one field after the other: those that write something are read back. -/
theorem decodeWith_chunks {chunks : List Chunk}
    (h : (chunks.flatMap fun c => putBytesField 2 c.encode).length < 2 ^ 63) (s : Offer) :
    decodeWith Offer.take (s, false) (chunks.flatMap fun c => putBytesField 2 c.encode)
      = .ok (some ({ s with chunks := s.chunks ++ chunks.filter (· ≠ ⟨[], [], []⟩) }, false)) := by
  induction chunks generalizing s with
  | nil => simp [decodeWith_nil]
  | cons c chunks ih =>
    rw [List.flatMap_cons, List.length_append] at h
    have hc := le_length_putBytesField 2 c.encode
    by_cases hnil : c = ⟨[], [], []⟩
    · have hnone : putBytesField 2 c.encode = [] := by
        rw [putBytesField_eq_nil, Chunk.encode_eq_nil, hnil]
      rw [List.flatMap_cons, hnone, List.nil_append, ih (by omega),
        List.filter_cons_of_neg (by simp [hnil])]
    · rw [List.flatMap_cons,
        decodeWith_putBytesField (t := ({ s with chunks := s.chunks ++ [c] }, false)) (by decide)
          (by omega), ih (by omega), List.filter_cons_of_pos (by simp [hnil])]
      · simp
      · exact fun h => absurd (Chunk.encode_eq_nil.mp h) hnil
      · intro _
        rw [Offer.take, Chunk.decode_encode (by omega)]
        rfl

/-- An offer reads back without the chunks of which every field is empty. -/
theorem Offer.decode_encode_filter {m : Offer} (htop : m.topmost < 2 ^ 64)
    (h : m.encode.length < 2 ^ 63) : Offer.decode m.encode
      = .ok (some { m with chunks := m.chunks.filter (· ≠ ⟨[], [], []⟩) }) := by
  obtain ⟨topmost, chunks⟩ := m
  rw [Offer.encode, List.length_append] at h
  have hchunks : (chunks.flatMap fun c => putBytesField 2 c.encode).length < 2 ^ 63 :=
    lt_of_le_of_lt (Nat.le_add_left _ _) h
  rw [Offer.decode, Offer.encode, decodeWith_putVarintField (t := (⟨topmost, []⟩, false)) (by decide)
    htop, decodeWith_chunks hchunks]
  · simp [Except.map]
  · simp
  · simp [Offer.take, varintOf_put htop]

theorem Offer.decode_encode {m : Offer} (htop : m.topmost < 2 ^ 64) (h : m.encode.length < 2 ^ 63)
    (hne : ∀ c ∈ m.chunks, c.encode ≠ []) : Offer.decode m.encode = .ok (some m) := by
  have hall : m.chunks.filter (· ≠ ⟨[], [], []⟩) = m.chunks := by
    refine List.filter_eq_self.mpr fun c hc => ?_
    simpa using fun hnil => hne c hc (Chunk.encode_eq_nil.mpr hnil)
  rw [Offer.decode_encode_filter htop h, hall]

/-- Packed numbers read back, each taking at least a byte. -/
theorem packed_flatMap {vs : List ℕ} (h : ∀ v ∈ vs, v < 2 ^ 64) {fuel : ℕ}
    (hfuel : (vs.flatMap putUvarint).length ≤ fuel) :
    packed fuel (vs.flatMap putUvarint) = vs := by
  induction vs generalizing fuel with
  | nil => cases fuel <;> rfl
  | cons v vs ih =>
    have hpos := (length_putUvarint v).1
    rw [List.flatMap_cons, List.length_append] at hfuel
    obtain ⟨fuel, rfl⟩ := Nat.exists_eq_succ_of_ne_zero (show fuel ≠ 0 by omega)
    rw [List.flatMap_cons, packed, getUvarint_put (h v List.mem_cons_self)]
    simp only [List.drop_left]
    rw [ih (fun w hw => h w (List.mem_cons_of_mem v hw)) (by omega)]

theorem Ack.decode_encode {m : Ack} (hcursors : ∀ c ∈ m.cursors, c < 2 ^ 64)
    (hepoch : m.epoch < 2 ^ 64) (h : m.encode.length < 2 ^ 63) :
    Ack.decode m.encode = .ok (some m) := by
  obtain ⟨cursors, epoch⟩ := m
  have hpacked := le_length_putBytesField 1 (cursors.flatMap putUvarint)
  -- Without cursors the packed field is empty and is omitted by its own writer as well.
  have hfield : (if cursors ≠ [] then putBytesField 1 (cursors.flatMap putUvarint) else [])
      = putBytesField 1 (cursors.flatMap putUvarint) := by
    cases cursors with
    | nil => rfl
    | cons c cursors => rfl
  simp only [Ack.encode, hfield, List.length_append] at h
  have hnil : cursors.flatMap putUvarint = [] → cursors = [] := by
    intro hflat
    have := packed_flatMap hcursors le_rfl
    rw [hflat] at this
    exact this.symm
  rw [Ack.decode, Ack.encode, hfield, ← List.append_nil (_ ++ _), List.append_assoc,
    decodeWith_putBytesField (t := ⟨cursors, 0⟩) (by decide) (by omega),
    decodeWith_putVarintField (t := ⟨cursors, epoch⟩) (by decide) hepoch, decodeWith_nil]
  · rintro rfl
    rfl
  · simp [varintOf_put hepoch]
  · intro hflat
    rw [hnil hflat]
  · intro _
    simp only [List.nil_append, packed_flatMap hcursors le_rfl]

/-! ## The messages together -/

/-- A message of the protocol that carries something. -/
inductive Message
  | get (m : Get)
  | offer (m : Offer)
  | want (m : Want)
  | delivery (m : Delivery)
  | ack (m : Ack)

namespace Message

def encode : Message → Bytes
  | .get m => m.encode
  | .offer m => m.encode
  | .want m => m.encode
  | .delivery m => m.encode
  | .ack m => m.encode

/-- The message reads back as it was written. -/
def RoundTrips : Message → Prop
  | .get m => Get.decode m.encode = .ok (some m)
  | .offer m => Offer.decode m.encode = .ok (some m)
  | .want m => Want.decode m.encode = .ok (some m)
  | .delivery m => Delivery.decode m.encode = .ok (some m)
  | .ack m => Ack.decode m.encode = .ok (some m)

/-- The values that the machine holds: the numbers are in the widths of their types, and a vector of
bytes is no longer than an allocation. -/
def InRange (m : Message) : Prop :=
  m.encode.length < 2 ^ 63 ∧ match m with
    | .get m => m.bin < 2 ^ 32 ∧ m.start < 2 ^ 64
    | .offer m => m.topmost < 2 ^ 64
    | .ack m => (∀ c ∈ m.cursors, c < 2 ^ 64) ∧ m.epoch < 2 ^ 64
    | _ => True

/-- No chunk of an offer has all of its fields empty. -/
def NoEmptyChunk : Message → Prop
  | .offer m => ∀ c ∈ m.chunks, c ≠ ⟨[], [], []⟩
  | _ => True

/-- A message reads back as it was written exactly where it holds no chunk of which every field is
empty: such a chunk writes nothing, its field is omitted, and those after it move up a place. -/
theorem roundTrips_iff {m : Message} (h : m.InRange) : m.RoundTrips ↔ m.NoEmptyChunk := by
  obtain ⟨hlen, hrange⟩ := h
  cases m with
  | get m => exact iff_of_true (Get.decode_encode hrange.1 hrange.2) trivial
  | want m => exact iff_of_true (Want.decode_encode hlen) trivial
  | delivery m => exact iff_of_true (Delivery.decode_encode hlen) trivial
  | ack m => exact iff_of_true (Ack.decode_encode hrange.1 hrange.2 hlen) trivial
  | offer m =>
    rw [RoundTrips, NoEmptyChunk, Offer.decode_encode_filter hrange hlen]
    rw [Except.ok.injEq, Option.some.injEq]
    constructor
    · intro hm c hc
      have hall := List.filter_eq_self.mp (congrArg Offer.chunks hm)
      simpa using hall c hc
    · intro hne
      have hall : m.chunks.filter (· ≠ ⟨[], [], []⟩) = m.chunks :=
        List.filter_eq_self.mpr fun c hc => by simpa using hne c hc
      rw [hall]

/-- An empty chunk before one that is not. -/
def withEmptyChunk : Message := .offer ⟨1, [⟨[], [], []⟩, ⟨[7], [], []⟩]⟩

theorem withEmptyChunk_inRange : withEmptyChunk.InRange := by
  have hlen : withEmptyChunk.encode.length < 2 ^ 63 := by decide +kernel
  exact ⟨hlen, show 1 < 2 ^ 64 by decide⟩

theorem roundTrips_withEmptyChunk_iff : withEmptyChunk.RoundTrips ↔ withEmptyChunk.NoEmptyChunk :=
  roundTrips_iff withEmptyChunk_inRange

/-- The offer of two chunks reads back with one, now at the first place. -/
theorem withEmptyChunk_shifts :
    Offer.decode withEmptyChunk.encode = .ok (some ⟨1, [⟨[7], [], []⟩]⟩)
      ∧ ¬ ∀ m : Message, m.InRange → m.RoundTrips := by
  have hdec : Offer.decode withEmptyChunk.encode = .ok (some ⟨1, [⟨[7], [], []⟩]⟩) := by
    decide +kernel
  refine ⟨hdec, fun hall => ?_⟩
  have h : Offer.decode withEmptyChunk.encode
      = .ok (some ⟨1, [⟨[], [], []⟩, ⟨[7], [], []⟩]⟩) := hall withEmptyChunk withEmptyChunk_inRange
  have := hdec.symm.trans h
  simp at this

end Message

end Melissi.Wire.Pb
