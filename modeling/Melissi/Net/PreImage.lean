import Melissi.Net.BzzAddress
import Melissi.Wire.Codec

/-!
# What is signed

Reference: `eth_prefixed` of `crates/crypto/src/lib.rs`, `sign_data` of `crates/net/src/lib.rs` and
`to_sign_digest` of `crates/wire/src/postage.rs`. The bytes that are hashed have no separators, but
determine what they were made of. So one signature covers two identities or two stamped entries only
with two byte strings that hash alike.
-/

namespace Melissi

namespace Primitives

/-- The bytes of which a personal-sign hash is taken. -/
def signedBytes (data : List UInt8) : List UInt8 :=
  signedMessage ++ ((Nat.toDigits 10 data.length).map fun c => UInt8.ofNat c.toNat) ++ data

theorem ethPrefixed_eq (P : Primitives) (data : List UInt8) :
    P.ethPrefixed data = P.keccak256 (signedBytes data) := rfl

/-- A greater number has no fewer digits. -/
theorem length_toDigits_le {n n' : ℕ} (h : n ≤ n') :
    (Nat.toDigits 10 n).length ≤ (Nat.toDigits 10 n').length := by
  have hlt := (Nat.length_toDigits_le_iff (b := 10) (by decide) Nat.length_toDigits_pos).mp
    (le_refl (Nat.toDigits 10 n').length)
  exact (Nat.length_toDigits_le_iff (by decide) Nat.length_toDigits_pos).mpr (h.trans_lt hlt)

/-- Longer data makes longer bytes, whatever digits the data begins with; and at one length the
digits of the length are the same. -/
theorem signedBytes_injective : Function.Injective signedBytes := by
  intro data data' h
  have htotal := congrArg List.length h
  simp only [signedBytes, List.length_append, List.length_map] at htotal
  have hlen : data.length = data'.length := by
    -- were one longer, so would be its bytes: its digits are no fewer
    obtain hle | hle := le_total data.length data'.length
    · have := length_toDigits_le hle
      omega
    · have := length_toDigits_le hle
      omega
  exact (List.append_inj' h hlen).2

end Primitives

/-! ## The identity -/

namespace Net

/-- What is signed ends in parts of fixed lengths, so that the underlay is what is before them. -/
theorem signData_injective {u u' : Bytes} {o o' : Address} {net net' : ℕ} {nonce nonce' : Bytes32}
    {time time' : ℕ} {chq chq' : ByteArr 20} (hnet : net < 2 ^ 64) (hnet' : net' < 2 ^ 64)
    (htime : time < 2 ^ 64) (htime' : time' < 2 ^ 64)
    (h : signData u o net nonce time chq = signData u' o' net' nonce' time' chq') :
    u = u' ∧ o = o' ∧ net = net' ∧ nonce = nonce' ∧ time = time' ∧ chq = chq' := by
  rw [signData, signData] at h
  -- cut from the end, where each part has its length
  obtain ⟨h, hchq⟩ := List.append_inj' h (by rw [chq.2, chq'.2])
  obtain ⟨h, ht⟩ := List.append_inj' h (by simp)
  obtain ⟨h, hnonce⟩ := List.append_inj' h (by rw [nonce.2, nonce'.2])
  obtain ⟨h, hn⟩ := List.append_inj' h (by simp)
  obtain ⟨h, ho⟩ := List.append_inj' h (by rw [o.2, o'.2])
  exact ⟨List.append_cancel_left h, Subtype.ext ho, Primitives.toBeBytes_injective hnet hnet' hn,
    Subtype.ext hnonce, Primitives.toBeBytes_injective htime htime' ht, Subtype.ext hchq⟩

/-- The bytes an identity signs under a network id. -/
def BzzAddress.signed (a : BzzAddress) (networkId : ℕ) : Bytes :=
  signData a.underlay a.overlay networkId a.nonce a.timestamp a.chequebook

/-- Identities of one signature that sign alike are one. -/
theorem BzzAddress.signed_injective {a a' : BzzAddress} {net net' : ℕ}
    (htime : a.timestamp < 2 ^ 64) (htime' : a'.timestamp < 2 ^ 64) (hnet : net < 2 ^ 64)
    (hnet' : net' < 2 ^ 64) (hsig : a.signature = a'.signature)
    (h : a.signed net = a'.signed net') : (a, net) = (a', net') := by
  obtain ⟨hu, ho, hn, hnonce, ht, hchq⟩ := signData_injective hnet hnet' htime htime' h
  exact Prod.ext (BzzAddress.ext hu ho hsig hnonce ht hchq) hn

end Net

/-! ## The stamp -/

namespace Wire

open Pb (Bytes)

/-- The bytes of which the digest of a stamp is taken. -/
def digestBytes (chunkAddr batchId index timestamp : Bytes) : Bytes :=
  chunkAddr ++ batchId ++ index ++ timestamp

theorem toSignDigest_eq (P : Primitives) (chunkAddr batchId index timestamp : Bytes) :
    toSignDigest P chunkAddr batchId index timestamp
      = P.keccak256 (digestBytes chunkAddr batchId index timestamp) := rfl

/-- The digest a stamp signs for an address, and its bytes. -/
def Stamp.digest (P : Primitives) (s : Stamp) (addr : Address) : Bytes32 :=
  toSignDigest P addr.1 s.batchId.1 s.index s.timestamp

def Stamp.digested (s : Stamp) (addr : Address) : Bytes :=
  digestBytes addr.1 s.batchId.1 s.index s.timestamp

theorem Stamp.length_index (s : Stamp) : s.index.length = 8 := by
  rw [index, List.length_take, List.length_drop, s.2]
  rfl

theorem Stamp.length_timestamp (s : Stamp) : s.timestamp.length = 8 := by
  rw [timestamp, List.length_take, List.length_drop, s.2]
  rfl

/-- Each part of what is signed has its length. -/
theorem Stamp.digested_injective {s s' : Stamp} {addr addr' : Address}
    (h : s.digested addr = s'.digested addr') : addr = addr' ∧ s.batchId = s'.batchId
      ∧ s.index = s'.index ∧ s.timestamp = s'.timestamp := by
  rw [digested, digested, digestBytes, digestBytes] at h
  obtain ⟨h, ht⟩ := List.append_inj' h (by rw [s.length_timestamp, s'.length_timestamp])
  obtain ⟨h, hi⟩ := List.append_inj' h (by rw [s.length_index, s'.length_index])
  obtain ⟨ha, hb⟩ := List.append_inj' h (by rw [s.batchId.2, s'.batchId.2])
  exact ⟨Subtype.ext ha, Subtype.ext hb, hi, ht⟩

/-- A stamp is its four parts. -/
theorem Stamp.eq_of_parts {s s' : Stamp} (hb : s.batchId = s'.batchId) (hi : s.index = s'.index)
    (ht : s.timestamp = s'.timestamp) (hsig : s.sig = s'.sig) : s = s' := by
  have hparts : ∀ s : Stamp, s.1 = s.batchId.1 ++ (s.index ++ (s.timestamp ++ s.sig.1)) := by
    intro s
    have hlast : (s.1.drop 40).take 8 ++ s.1.drop 48 = s.1.drop 40 := by
      rw [show s.1.drop 48 = (s.1.drop 40).drop 8 by rw [List.drop_drop], List.take_append_drop]
    have hmid : (s.1.drop 32).take 8 ++ s.1.drop 40 = s.1.drop 32 := by
      rw [show s.1.drop 40 = (s.1.drop 32).drop 8 by rw [List.drop_drop], List.take_append_drop]
    rw [batchId, index, timestamp, sig, hlast, hmid, List.take_append_drop]
  refine Subtype.ext ?_
  rw [hparts s, hparts s', hb, hi, ht, hsig]

end Wire

/-! ## Two under one signature -/

namespace Net

open Primitives Wire

/-- What is hashed for a signature determines what is signed; and two identities under one
signature, or two stamped entries, with one recovered key and one prehash, are made of two byte
strings that hash alike. -/
theorem preimages_unambiguous :
    (∀ (u u' : Bytes) (o o' : Address) (net net' : ℕ) (nonce nonce' : Bytes32) (time time' : ℕ)
      (chq chq' : ByteArr 20), net < 2 ^ 64 → net' < 2 ^ 64 → time < 2 ^ 64 → time' < 2 ^ 64 →
      signedBytes (signData u o net nonce time chq)
        = signedBytes (signData u' o' net' nonce' time' chq') →
      (u, o, net, nonce, time, chq) = (u', o', net', nonce', time', chq'))
    ∧ Function.Injective signedBytes
    ∧ (∀ (s s' : Stamp) (addr addr' : Address), s.digested addr = s'.digested addr' →
      addr = addr' ∧ s.batchId = s'.batchId ∧ s.index = s'.index ∧ s.timestamp = s'.timestamp)
    ∧ (∀ (P : Primitives) (a a' : BzzAddress) (net net' : ℕ) (eth : ByteArr 20),
      a.timestamp < 2 ^ 64 → a'.timestamp < 2 ^ 64 → net < 2 ^ 64 → net' < 2 ^ 64 →
      a.verify P net = some eth → a'.verify P net' = some eth → a.signature = a'.signature →
      P.ethPrefixed (a.signed net) = P.ethPrefixed (a'.signed net') → (a, net) ≠ (a', net') →
      P.Collides (signedBytes (a.signed net)) (signedBytes (a'.signed net')))
    ∧ ∀ (P : Primitives) (s s' : Stamp) (addr addr' : Address) (owner : ByteArr 20),
      valid P addr.1 s owner = true → valid P addr'.1 s' owner = true → s.sig = s'.sig →
      P.ethPrefixed (s.digest P addr).1 = P.ethPrefixed (s'.digest P addr').1 →
      (addr, s) ≠ (addr', s') →
      P.Collides (s.digested addr) (s'.digested addr')
        ∨ P.Collides (signedBytes (s.digest P addr).1) (signedBytes (s'.digest P addr').1) := by
  refine ⟨?_, signedBytes_injective, fun s s' addr addr' h => Stamp.digested_injective h, ?_, ?_⟩
  · intro u u' o o' net net' nonce nonce' time time' chq chq' hnet hnet' htime htime' h
    obtain ⟨rfl, rfl, rfl, rfl, rfl, rfl⟩ :=
      signData_injective hnet hnet' htime htime' (signedBytes_injective h)
    rfl
  · intro P a a' net net' eth htime htime' hnet hnet' _ _ hsig hpre hne
    refine ⟨fun h => hne ?_, hpre⟩
    exact BzzAddress.signed_injective htime htime' hnet hnet' hsig (signedBytes_injective h)
  · intro P s s' addr addr' owner _ _ hsig hpre hne
    by_cases hdigest : s.digest P addr = s'.digest P addr'
    · refine .inl ⟨fun h => hne ?_, hdigest⟩
      obtain ⟨rfl, hb, hi, ht⟩ := Stamp.digested_injective h
      exact Prod.ext rfl (Stamp.eq_of_parts hb hi ht hsig)
    · exact .inr ⟨fun h => hdigest (Subtype.ext (signedBytes_injective h)), hpre⟩

/-- An identity with another time, of the same signature. -/
def plainTwin : BzzAddress := { BzzAddress.plain 7 1 with timestamp := 1 }

/-- A stamp of the key that repeats 7, of the zero batch and for the zero address. -/
def plainStamp (time : UInt8) : Stamp :=
  ⟨List.replicate 40 0 ++ List.replicate 8 time ++ List.replicate 32 7
    ++ (Primitives.plain.ethPrefixed (List.replicate 32 0)).1 ++ [27],
    by simp [(Primitives.plain.ethPrefixed _).2, stampSize]⟩

/-- The hash that cuts off confuses two identities and two stamps. -/
theorem preimages_unambiguous_plain :
    Primitives.plain.Collides (signedBytes ((BzzAddress.plain 7 1).signed 1))
      (signedBytes (plainTwin.signed 1))
    ∧ (Primitives.plain.Collides ((plainStamp 0).digested (zeroArr 32))
        ((plainStamp 1).digested (zeroArr 32))
      ∨ Primitives.plain.Collides (signedBytes ((plainStamp 0).digest .plain (zeroArr 32)).1)
        (signedBytes ((plainStamp 1).digest .plain (zeroArr 32)).1)) := by
  obtain ⟨-, -, -, hidentity, hstamp⟩ := preimages_unambiguous
  refine ⟨hidentity .plain _ _ 1 1 ⟨List.replicate 20 7, rfl⟩ ?_ ?_ ?_ ?_ ?_ ?_ ?_ ?_ ?_,
    hstamp .plain _ _ _ _ ⟨List.replicate 20 7, rfl⟩ ?_ ?_ ?_ ?_ ?_⟩
  all_goals decide +kernel

end Net

end Melissi
