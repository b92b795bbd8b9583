import Melissi.Types

/-!
# The shared primitives

Reference: `crates/crypto/src/lib.rs` and `overlay_address` of `crates/overlay/src/lib.rs`. The hash
and the curve come from libraries outside the repository and are parameters here; what is built on
them is not.
-/

namespace Melissi

/-- What the libraries provide. -/
structure Primitives where
  keccak256 : List UInt8 → Bytes32
  /-- The uncompressed public key of a secret, if that is a key. -/
  publicKey : Bytes32 → Option (List UInt8)
  /-- The signature of a prehash and its recovery id. -/
  signPrehash : Bytes32 → Bytes32 → Option (ByteArr 64 × UInt8)
  /-- The uncompressed public key a signature and its recovery id recover to. -/
  recoverFromPrehash : Bytes32 → ByteArr 64 → UInt8 → Option (List UInt8)

namespace Primitives

/-- Recovery inverts signing: recovery ids are below four, and what was signed with a secret
recovers to its public key. -/
def RecoverInvertsSign (P : Primitives) : Prop :=
  ∀ secret prehash sig recid, P.signPrehash secret prehash = some (sig, recid) →
    recid < 4 ∧ P.recoverFromPrehash prehash sig recid = P.publicKey secret

variable (P : Primitives)

/-- The prefix of a personal-sign hash. -/
def signedMessage : List UInt8 :=
  "\x19Ethereum Signed Message:\n".toList.map fun c => UInt8.ofNat c.toNat

/-- The personal-sign hash, aware of the length. -/
def ethPrefixed (data : List UInt8) : Bytes32 :=
  P.keccak256 (signedMessage
    ++ ((Nat.toDigits 10 data.length).map fun c => UInt8.ofNat c.toNat) ++ data)

/-- The last twenty bytes of the hash of the public key, less its prefix byte. -/
def ethAddress (pubkey : List UInt8) : ByteArr 20 :=
  ⟨(P.keccak256 (pubkey.drop 1)).1.drop 12, by rw [List.length_drop, (P.keccak256 _).2]⟩

def publicEthAddress (secret : Bytes32) : Option (ByteArr 20) :=
  (P.publicKey secret).map P.ethAddress

/-- A recoverable signature: the signature, then 27 and the recovery id. -/
def sign (secret prehash : Bytes32) : Option (ByteArr 65) :=
  (P.signPrehash secret prehash).map fun r =>
    ⟨r.1.1 ++ [r.2 + 27], by rw [List.length_append, r.1.2, List.length_singleton]⟩

/-- The signer's address. -/
def recover (prehash : Bytes32) (sig65 : ByteArr 65) : Option (ByteArr 20) :=
  let v := sig65.1.getD 64 0
  if 27 ≤ v then
    (P.recoverFromPrehash prehash ⟨sig65.1.take 64, by rw [List.length_take, sig65.2]; rfl⟩
      (v - 27)).map P.ethAddress
  else none

/-- A `u64`, the least significant byte first. -/
def toLeBytes (v : ℕ) : List UInt8 := (List.range 8).map fun i => UInt8.ofNat (v / 2 ^ (8 * i))

/-- A `u64`, the most significant byte first. -/
def toBeBytes (v : ℕ) : List UInt8 := (toLeBytes v).reverse

/-- A node's address in the chunk space, a commitment to its key, its network and its nonce. -/
def overlayAddress (eth : ByteArr 20) (networkId : ℕ) (nonce : Bytes32) : Address :=
  P.keccak256 (eth.1 ++ toLeBytes networkId ++ nonce.1)

variable {P}

/-- A signature recovers to the signer's address. -/
theorem recover_sign (h : P.RecoverInvertsSign) {secret prehash : Bytes32} {sig : ByteArr 65}
    (hs : P.sign secret prehash = some sig) :
    P.recover prehash sig = P.publicEthAddress secret := by
  rw [sign, Option.map_eq_some_iff] at hs
  obtain ⟨⟨sig64, recid⟩, hsign, rfl⟩ := hs
  obtain ⟨hlt, hrec⟩ := h secret prehash sig64 recid hsign
  have hv : (sig64.1 ++ [recid + 27]).getD 64 0 = recid + 27 := by
    rw [List.getD_eq_getElem?_getD, List.getElem?_append_right (by rw [sig64.2]), sig64.2]
    rfl
  have hnat : recid.toNat < 4 := hlt
  have hle : (27 : UInt8) ≤ recid + 27 := by
    rw [UInt8.le_iff_toNat_le, UInt8.toNat_add]
    simp only [UInt8.reduceToNat]
    omega
  have htake : (⟨(sig64.1 ++ [recid + 27]).take 64, by simp [sig64.2]⟩ : ByteArr 64) = sig64 :=
    Subtype.ext (List.take_left' sig64.2)
  rw [recover]
  simp only [hv, if_pos hle, UInt8.add_sub_cancel, htake, hrec]
  rfl

/-! ## What bytes determine -/

@[simp] theorem length_toLeBytes (v : ℕ) : (toLeBytes v).length = 8 := by
  rw [toLeBytes, List.length_map, List.length_range]

@[simp] theorem length_toBeBytes (v : ℕ) : (toBeBytes v).length = 8 := by
  rw [toBeBytes, List.length_reverse, length_toLeBytes]

/-- Numbers with the same `n` lowest digits to base 256 are the same modulo `256 ^ n`. -/
theorem mod_eq_of_digits {v w : ℕ} (n : ℕ)
    (h : ∀ i < n, v / 2 ^ (8 * i) % 2 ^ 8 = w / 2 ^ (8 * i) % 2 ^ 8) :
    v % 2 ^ (8 * n) = w % 2 ^ (8 * n) := by
  induction n with
  | zero => rw [Nat.mul_zero, Nat.pow_zero, Nat.mod_one, Nat.mod_one]
  | succ n ih =>
    rw [Nat.mul_succ, Nat.pow_add, Nat.mod_mul, Nat.mod_mul, h n (Nat.lt_succ_self n),
      ih fun i hi => h i (Nat.lt_succ_of_lt hi)]

/-- A `u64` is determined by its bytes. -/
theorem toLeBytes_injective {v w : ℕ} (hv : v < 2 ^ 64) (hw : w < 2 ^ 64)
    (h : toLeBytes v = toLeBytes w) : v = w := by
  have hbytes : ∀ i < 8, v / 2 ^ (8 * i) % 2 ^ 8 = w / 2 ^ (8 * i) % 2 ^ 8 := by
    intro i hi
    have hget := congrArg (fun l => l[i]?) h
    simp only [toLeBytes, List.getElem?_map, List.getElem?_range hi, Option.map_some,
      Option.some.injEq] at hget
    rw [← UInt8.toNat_ofNat', ← UInt8.toNat_ofNat', hget]
  have hmod := mod_eq_of_digits 8 hbytes
  rwa [Nat.mod_eq_of_lt hv, Nat.mod_eq_of_lt hw] at hmod

theorem toBeBytes_injective {v w : ℕ} (hv : v < 2 ^ 64) (hw : w < 2 ^ 64)
    (h : toBeBytes v = toBeBytes w) : v = w :=
  toLeBytes_injective hv hw (List.reverse_injective h)

/-- Two byte strings that hash alike. -/
def Collides (P : Primitives) (x y : List UInt8) : Prop := x ≠ y ∧ P.keccak256 x = P.keccak256 y

/-! ## Primitives to evaluate on -/

/-- A hash that cuts off, and signatures that show the secret. -/
def plain : Primitives where
  keccak256 b := ⟨(b ++ List.replicate 32 0).take 32, by simp⟩
  publicKey secret := some (4 :: (secret.1 ++ secret.1))
  signPrehash secret prehash :=
    some (⟨secret.1 ++ prehash.1, by rw [List.length_append, secret.2, prehash.2]⟩, 0)
  recoverFromPrehash prehash sig _ :=
    if sig.1.drop 32 = prehash.1 then some (4 :: (sig.1.take 32 ++ sig.1.take 32)) else none

theorem plain_recoverInvertsSign : plain.RecoverInvertsSign := by
  intro secret prehash sig recid h
  obtain ⟨rfl, rfl⟩ := Prod.mk.inj (Option.some.inj h)
  refine ⟨by decide, ?_⟩
  simp only [plain]
  rw [List.drop_left' secret.2, List.take_left' secret.2, if_pos rfl]

end Primitives

end Melissi
