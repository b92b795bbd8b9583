import Melissi.Common.BTree

/-!
# The identity seam

Reference: `crates/types/src/lib.rs`. A chunk is named by its reserve entry, the triple of its
address, its postage batch and the hash of its stamp. The scheduling core only compares and stores
triples; the codecs read their bytes. A BinID, the position of an entry in one peer's append log of
one bin, is a natural number throughout: the source's `u64` is stated where its width matters.
-/

namespace Melissi

/-- An array of `n` bytes. -/
abbrev ByteArr (n : ℕ) : Type := {b : List UInt8 // b.length = n}

/-- A 256-bit value as its 32 bytes, compared byte by byte from the front. -/
abbrev Bytes32 : Type := {b : List UInt8 // b.length = 32}

/-- A chunk address. -/
abbrev Address : Type := Bytes32

/-- A postage batch identifier. -/
abbrev BatchId : Type := Bytes32

/-- The hash of the postage stamp that proves the payment. -/
abbrev StampHash : Type := Bytes32

/-- An accountable reserve entry: the unit of claiming, deduplication and completeness. -/
@[ext]
structure Triple where
  address : Address
  batchId : BatchId
  stampHash : StampHash

/-- Triples are ordered field by field, as the source derives it. -/
instance linearOrderTriple : LinearOrder Triple :=
  LinearOrder.lift' (fun t => toLex (t.address, toLex (t.batchId, t.stampHash))) (by
    intro t t' h
    simpa [Triple.ext_iff] using h)

/-- `b[0] = k` and `n` big-endian in the last four bytes. -/
def Triple.tag (n : ℕ) (k : UInt8) : Bytes32 :=
  ⟨k :: List.replicate 27 0 ++
    [UInt8.ofNat (n / 2 ^ 24), UInt8.ofNat (n / 2 ^ 16), UInt8.ofNat (n / 2 ^ 8), UInt8.ofNat n],
    by simp⟩

/-- A distinct triple for each small seed. -/
def Triple.mock (n : ℕ) : Triple where
  address := tag n 0xA
  batchId := tag n 0xB
  stampHash := tag n 0xC

/-- A neighbourhood peer. -/
abbrev PeerId : Type := UInt8

/-- A pull-sync bin: deeper is nearer and fetched first. -/
abbrev Bin : Type := UInt8

end Melissi
