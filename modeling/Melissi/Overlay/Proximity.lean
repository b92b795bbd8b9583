import Melissi.Types

/-!
# Proximity order

Reference: `crates/overlay/src/lib.rs`. The proximity of two addresses is the number of leading bits
they share, saturated at 255. Who holds a chunk and who is a neighbour are both read off it, so that
the reserve of a neighbourhood is shared by exactly its members.
-/

namespace Melissi.Overlay

/-- `u8::leading_zeros`. -/
def leadingZeros (x : UInt8) : UInt8 := ⟨x.toBitVec.clz⟩

/-- The loop of `proximity` from byte `i` on. -/
def proximityFrom : ℕ → List (UInt8 × UInt8) → UInt8
  -- identical over the address: maximally close
  | _, [] => 255
  | i, (x, y) :: rest =>
    let xor := x ^^^ y
    if xor ≠ 0 then UInt8.ofNat i * 8 + leadingZeros xor else proximityFrom (i + 1) rest

/-- The number of common leading bits of two addresses, over 32 bytes at most. -/
def proximity (a b : List UInt8) : UInt8 := proximityFrom 0 ((a.zip b).take 32)

/-- A node's overlay address and storage radius. -/
structure Neighbourhood where
  overlay : Address
  /-- A proximity depth. -/
  radius : UInt8

namespace Neighbourhood

/-- The proximity of a chunk to this node. -/
def depthOf (n : Neighbourhood) (chunk : Address) : UInt8 := proximity chunk.1 n.overlay.1

/-- The chunk is in this node's reserve. -/
def inReserve (n : Neighbourhood) (chunk : Address) : Bool := decide (n.depthOf chunk ≥ n.radius)

/-- The peer is close enough to share this node's reserve. -/
def isNeighbour (n : Neighbourhood) (peer : Address) : Bool :=
  decide (proximity peer.1 n.overlay.1 ≥ n.radius)

end Neighbourhood

/-! ## Bits -/

/-- Bit `j` of a string of bytes, the most significant first. -/
def bit (a : List UInt8) (j : ℕ) : Bool := (a.getD (j / 8) 0).toBitVec.getLsbD (7 - j % 8)

/-- The first `r` bits are the same. -/
def Agree (r : ℕ) (a b : List UInt8) : Prop := ∀ j < r, bit a j = bit b j

theorem Agree.symm {r : ℕ} {a b : List UInt8} (h : Agree r a b) : Agree r b a :=
  fun j hj => (h j hj).symm

theorem Agree.trans {r : ℕ} {a b c : List UInt8} (h : Agree r a b) (h' : Agree r b c) :
    Agree r a c :=
  fun j hj => (h j hj).trans (h' j hj)

theorem bit_cons_lt (x : UInt8) (a : List UInt8) {j : ℕ} (hj : j < 8) :
    bit (x :: a) j = x.toBitVec.getLsbD (7 - j) := by
  rw [bit, Nat.div_eq_of_lt hj, Nat.mod_eq_of_lt hj]
  rfl

theorem bit_cons_add (x : UInt8) (a : List UInt8) (j : ℕ) : bit (x :: a) (8 + j) = bit a j := by
  rw [bit, bit, show (8 + j) / 8 = j / 8 + 1 by omega, show (8 + j) % 8 = j % 8 by omega]
  rfl

/-- Behind equal bytes the bits agree as far as they do further on. -/
theorem agree_cons_self (x : UInt8) (r : ℕ) (a b : List UInt8) :
    Agree r (x :: a) (x :: b) ↔ Agree (r - 8) a b := by
  constructor
  · intro h j hj
    have hbit := h (8 + j) (by omega)
    rwa [bit_cons_add, bit_cons_add] at hbit
  · intro h j hj
    rcases Nat.lt_or_ge j 8 with hlt | hge
    · rw [bit_cons_lt x a hlt, bit_cons_lt x b hlt]
    · obtain ⟨j, rfl⟩ := Nat.exists_eq_add_of_le hge
      rw [bit_cons_add, bit_cons_add]
      exact h j (by omega)

theorem leadingZeros_lt {z : UInt8} (hz : z ≠ 0) : (leadingZeros z).toNat < 8 := by
  have hne : z.toBitVec ≠ 0#8 := fun h => hz (UInt8.toBitVec_inj.mp h)
  have hlt := BitVec.clz_lt_iff_ne_zero.mpr hne
  simpa [leadingZeros, BitVec.lt_def] using hlt

/-- Bytes that differ first differ where their difference has its leading bit. -/
theorem agree_cons_of_ne {x y : UInt8} (hxy : x ^^^ y ≠ 0) (a b : List UInt8) (r : ℕ) :
    Agree r (x :: a) (y :: b) ↔ r ≤ (leadingZeros (x ^^^ y)).toNat := by
  have hlt := leadingZeros_lt hxy
  have hne : (x ^^^ y).toBitVec ≠ 0#8 := fun h => hxy (UInt8.toBitVec_inj.mp h)
  have hbit : ∀ j < 8, bit (x :: a) j = bit (y :: b) j ↔
      (x ^^^ y).toBitVec.getLsbD (7 - j) = false := fun j hj => by
    rw [bit_cons_lt x a hj, bit_cons_lt y b hj]
    simp
  constructor
  · intro h
    by_contra hr
    have hsame := (hbit _ hlt).mp (h _ (by omega))
    have htrue := BitVec.getLsbD_true_clz_of_ne_zero (by decide) hne
    exact Bool.false_ne_true (hsame.symm.trans htrue)
  · intro hr j hj
    rw [hbit j (by omega)]
    have hzero := BitVec.getLsbD_false_of_clzAuxRec (x := (x ^^^ y).toBitVec) (n := 7)
      (fun i hi => BitVec.getLsbD_of_ge _ i (by omega))
      (7 - j - (8 - (leadingZeros (x ^^^ y)).toNat))
    rwa [show 8 - ((x ^^^ y).toBitVec.clzAuxRec 7).toNat
      + (7 - j - (8 - (leadingZeros (x ^^^ y)).toNat)) = 7 - j by
        change 8 - (leadingZeros (x ^^^ y)).toNat + _ = _
        omega] at hzero

/-- From byte `i` on, the loop returns the position of the first bit that differs, and 255 where
none does. -/
theorem le_proximityFrom (a b : List UInt8) (i r : ℕ) (hlen : a.length = b.length)
    (hi : i + a.length = 32) (hr : r ≤ 255) :
    r ≤ (proximityFrom i (a.zip b)).toNat ↔ Agree (r - 8 * i) a b := by
  induction a generalizing b i with
  | nil =>
    rw [List.zip_nil_left, proximityFrom]
    refine iff_of_true hr fun j hj => ?_
    rw [List.length_nil] at hi
    omega
  | cons x a ih =>
    obtain ⟨y, b, rfl⟩ := List.exists_of_length_succ b hlen.symm
    rw [List.length_cons] at hi
    rw [List.zip_cons_cons, proximityFrom]
    by_cases hxy : x ^^^ y = 0
    · obtain rfl : x = y := by simpa using hxy
      rw [if_neg (by simp), agree_cons_self, Nat.sub_sub, ← Nat.mul_succ]
      exact ih b (i + 1) (Nat.succ.inj hlen) (by omega)
    · rw [if_pos hxy, agree_cons_of_ne hxy]
      have hlt := leadingZeros_lt hxy
      have h8 : (8 : UInt8).toNat = 8 := rfl
      have hval : (UInt8.ofNat i * 8 + leadingZeros (x ^^^ y)).toNat
          = 8 * i + (leadingZeros (x ^^^ y)).toNat := by
        rw [UInt8.toNat_add, UInt8.toNat_mul, UInt8.toNat_ofNat', h8]
        omega
      rw [hval]
      omega

/-! ## Locality -/

/-- Two addresses are within proximity `r` exactly if they agree on their first `r` bits. -/
theorem le_proximity (a b : Address) {r : ℕ} (hr : r ≤ 255) :
    r ≤ (proximity a.1 b.1).toNat ↔ Agree r a.1 b.1 := by
  have hlen : (a.1.zip b.1).length ≤ 32 := by
    rw [List.length_zip, a.2, b.2, Nat.min_self]
  rw [proximity, List.take_of_length_le hlen]
  exact le_proximityFrom a.1 b.1 0 r (a.2.trans b.2.symm) (by rw [a.2]) hr

theorem le_proximity_of_le {a b : Address} {p : UInt8}
    (h : ∀ r ≤ 255, r ≤ p.toNat → Agree r a.1 b.1) : p ≤ proximity a.1 b.1 := by
  have hp : p.toNat ≤ 255 := by
    have := p.toNat_lt
    omega
  exact (le_proximity a b hp).mpr (h _ hp (le_refl _))

theorem agree_of_le_proximity {a b : Address} {r : ℕ} (hr : r ≤ (proximity a.1 b.1).toNat) :
    Agree r a.1 b.1 := by
  have hlt := (proximity a.1 b.1).toNat_lt
  exact (le_proximity a b (by omega)).mp hr

theorem proximity_comm (a b : Address) : proximity a.1 b.1 = proximity b.1 a.1 :=
  le_antisymm (le_proximity_of_le fun _ _ h => (agree_of_le_proximity h).symm)
    (le_proximity_of_le fun _ _ h => (agree_of_le_proximity h).symm)

/-- What is near to one that is near is near. -/
theorem min_proximity_le (a b d : Address) :
    min (proximity a.1 b.1) (proximity b.1 d.1) ≤ proximity a.1 d.1 := by
  refine le_proximity_of_le fun r _ hr => ?_
  have hab : r ≤ (proximity a.1 b.1).toNat := hr.trans (min_le_left (α := UInt8) _ _)
  have hbd : r ≤ (proximity b.1 d.1).toNat := hr.trans (min_le_right (α := UInt8) _ _)
  exact (agree_of_le_proximity hab).trans (agree_of_le_proximity hbd)

/-- Proximity is the length of the common prefix, saturated, hence symmetric and ultrametric; and to
those who hold a chunk of a node's reserve at the node's radius belong exactly its neighbours. -/
theorem locality :
    (∀ (a b : Address) (r : ℕ), r ≤ 255 → (r ≤ (proximity a.1 b.1).toNat ↔ Agree r a.1 b.1))
      ∧ (∀ a b : Address, proximity a.1 b.1 = proximity b.1 a.1)
      ∧ (∀ a b d : Address,
          min (proximity a.1 b.1) (proximity b.1 d.1) ≤ proximity a.1 d.1)
      ∧ ∀ (o p c : Address) (r : UInt8), (⟨o, r⟩ : Neighbourhood).inReserve c →
          ((⟨o, r⟩ : Neighbourhood).isNeighbour p ↔ (⟨p, r⟩ : Neighbourhood).inReserve c) := by
  refine ⟨fun a b r => le_proximity a b, proximity_comm, min_proximity_le, fun o p c r hc => ?_⟩
  simp only [Neighbourhood.inReserve, Neighbourhood.depthOf, Neighbourhood.isNeighbour,
    decide_eq_true_eq, ge_iff_le] at hc ⊢
  constructor
  · intro hp
    rw [proximity_comm] at hp
    exact (le_min hc hp).trans (min_proximity_le c o p)
  · intro hp
    rw [proximity_comm] at hp
    exact (le_min hp hc).trans (min_proximity_le p c o)

end Melissi.Overlay
