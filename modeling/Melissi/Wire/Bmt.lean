import Melissi.Wire.Codec

/-!
# The chunk address binds its payload

Reference: `crates/wire/src/bmt.rs`. The root over a power of two sections of 64 bytes can be
computed from the sections up, level by level. Two payloads of one address lead, from the address
down to where they differ, to two byte strings of one length that hash alike: the padding and the
span add no other way.
-/

namespace Melissi.Wire

open Melissi.Protobuf Melissi.Wire.Pb

variable (P : Primitives)

/-- The hash of two hashes. -/
def hashPair (left right : Bytes32) : Bytes32 := P.keccak256 (left.1 ++ right.1)

/-- The root as the source recurses on it, down to a section of 64 bytes. Where halving never leads
to one, the recursion does not end. -/
def bmtRootWithin : ℕ → Bytes → Option Bytes32
  | 0, _ => none
  | fuel + 1, data =>
    if data.length = 64 then some (P.keccak256 data)
    else
      let half := data.length / 2
      match bmtRootWithin fuel (data.take half), bmtRootWithin fuel (data.drop half) with
      | some left, some right => some (hashPair P left right)
      | _, _ => none

/-! ## Level by level -/

/-- The sections of 64 bytes, as many as are said. -/
def sections : ℕ → Bytes → List Bytes
  | 0, _ => []
  | n + 1, data => data.take 64 :: sections n (data.drop 64)

/-- Hash adjacent pairs. -/
def pairUp : List Bytes32 → List Bytes32
  | left :: right :: l => hashPair P left right :: pairUp l
  | l => l

/-- Hash adjacent pairs until one hash is left. -/
def reduce : ℕ → List Bytes32 → Option Bytes32
  | 0, _ => none
  | _ + 1, [root] => some root
  | fuel + 1, l => reduce fuel (pairUp P l)

/-- The root from the sections up. -/
def levelRoot (fuel : ℕ) (data : Bytes) : Option Bytes32 :=
  reduce P fuel ((sections (data.length / 64) data).map P.keccak256)

/-! ## What is hashed -/

/-- The byte strings that are hashed for a root. -/
def rootHashed : ℕ → Bytes → List Bytes
  | 0, data => [data]
  | depth + 1, data =>
    let half := data.length / 2
    ((bmtRoot P depth (data.take half)).1 ++ (bmtRoot P depth (data.drop half)).1)
      :: (rootHashed depth (data.take half) ++ rootHashed depth (data.drop half))

/-- A payload with zeros to the size of a chunk. -/
def padded (payload : Bytes) : Bytes := payload ++ List.replicate (chunkSize - payload.length) 0

/-- The byte strings that are hashed for the address of a payload. -/
def addressHashed (payload : Bytes) : List Bytes :=
  (Primitives.toLeBytes payload.length ++ (bmtRoot P 6 (padded payload)).1)
    :: rootHashed P 6 (padded payload)

variable {P}

section Root

variable {depth : ℕ} {data data' : Bytes}

theorem length_hash (b : Bytes32) : b.1.length = 32 := b.2

/-- The halves of a tree's sections are those of its subtrees. -/
theorem length_halves (h : data.length = 64 * 2 ^ (depth + 1)) :
    (data.take (data.length / 2)).length = 64 * 2 ^ depth
      ∧ (data.drop (data.length / 2)).length = 64 * 2 ^ depth := by
  rw [List.length_take, List.length_drop]
  rw [pow_succ] at h
  omega

/-- The source's recursion ends where the sections are a power of two. -/
theorem bmtRootWithin_eq (h : data.length = 64 * 2 ^ depth) {fuel : ℕ} (hfuel : depth < fuel) :
    bmtRootWithin P fuel data = some (bmtRoot P depth data) := by
  induction depth generalizing data fuel with
  | zero =>
    obtain ⟨fuel, rfl⟩ := Nat.exists_eq_succ_of_ne_zero (show fuel ≠ 0 by omega)
    rw [bmtRootWithin, if_pos (by omega), bmtRoot]
  | succ depth ih =>
    obtain ⟨fuel, rfl⟩ := Nat.exists_eq_succ_of_ne_zero (show fuel ≠ 0 by omega)
    obtain ⟨hleft, hright⟩ := length_halves h
    have hpos := Nat.one_le_two_pow (n := depth)
    rw [bmtRootWithin, if_neg (by rw [h, pow_succ]; omega)]
    have hfuel' : depth < fuel := by omega
    simp only [ih hleft hfuel', ih hright hfuel']
    rfl

/-! ## The levels -/

theorem sections_append {n m : ℕ} {data data' : Bytes} (h : data.length = 64 * n) :
    sections (n + m) (data ++ data') = sections n data ++ sections m data' := by
  induction n generalizing data with
  | zero =>
    obtain rfl : data = [] := List.eq_nil_of_length_eq_zero (by omega)
    rw [Nat.zero_add]
    rfl
  | succ n ih =>
    have htake : (data ++ data').take 64 = data.take 64 :=
      List.take_append_of_le_length (by omega)
    have hdrop : (data ++ data').drop 64 = data.drop 64 ++ data' :=
      List.drop_append_of_le_length (by omega)
    rw [show n + 1 + m = n + m + 1 by omega, sections, htake, hdrop,
      ih (by rw [List.length_drop]; omega)]
    rfl

theorem length_sections (n : ℕ) (data : Bytes) : (sections n data).length = n := by
  induction n generalizing data with
  | zero => rfl
  | succ n ih => rw [sections, List.length_cons, ih]

/-- Two subtrees that are even are paired up apart. -/
theorem pairUp_append {n : ℕ} {l l' : List Bytes32} (h : l.length = 2 * n) :
    pairUp P (l ++ l') = pairUp P l ++ pairUp P l' := by
  induction n generalizing l with
  | zero =>
    obtain rfl : l = [] := List.eq_nil_of_length_eq_zero (by omega)
    rfl
  | succ n ih =>
    match l with
    | left :: right :: l =>
      simp only [List.length_cons] at h
      simp only [List.cons_append, pairUp, ih (show l.length = 2 * n by omega)]

theorem length_pairUp {n : ℕ} {l : List Bytes32} (h : l.length = 2 * n) :
    (pairUp P l).length = n := by
  induction n generalizing l with
  | zero =>
    obtain rfl : l = [] := List.eq_nil_of_length_eq_zero (by omega)
    rfl
  | succ n ih =>
    match l with
    | left :: right :: l =>
      simp only [List.length_cons] at h
      simp only [pairUp, List.length_cons, ih (show l.length = 2 * n by omega)]

theorem pairUp_iterate_append {k n : ℕ} {l l' : List Bytes32} (h : l.length = 2 ^ k * n) :
    (pairUp P)^[k] (l ++ l') = (pairUp P)^[k] l ++ (pairUp P)^[k] l' := by
  induction k generalizing l l' with
  | zero => rfl
  | succ k ih =>
    -- the first list is even at every level, so that no pair spans both
    have heven : l.length = 2 * (2 ^ k * n) := by rw [h, pow_succ]; ring
    rw [Function.iterate_succ_apply, pairUp_append heven, ih (length_pairUp heven)]
    rfl

/-- So many levels up, the hashes of the sections are one, the root. -/
theorem pairUp_iterate_sections (h : data.length = 64 * 2 ^ depth) :
    (pairUp P)^[depth] ((sections (2 ^ depth) data).map P.keccak256) = [bmtRoot P depth data] := by
  induction depth generalizing data with
  | zero =>
    have htake : data.take 64 = data := List.take_of_length_le (by omega)
    simp only [pow_zero, sections, htake]
    rfl
  | succ depth ih =>
    obtain ⟨hleft, hright⟩ := length_halves h
    have hsplit : sections (2 ^ (depth + 1)) data = sections (2 ^ depth) (data.take (data.length / 2))
        ++ sections (2 ^ depth) (data.drop (data.length / 2)) := by
      rw [← sections_append hleft, List.take_append_drop, pow_succ, Nat.mul_two]
    have hlen : ((sections (2 ^ depth) (data.take (data.length / 2))).map P.keccak256).length
        = 2 ^ depth * 1 := by
      rw [List.length_map, length_sections, Nat.mul_one]
    -- the levels of the halves go up apart, and their two roots are the last pair
    rw [hsplit, List.map_append, Function.iterate_succ_apply', pairUp_iterate_append hlen, ih hleft,
      ih hright]
    rfl

/-- A power of two hashes are reduced to the one that is left. -/
theorem reduce_eq {l : List Bytes32} {root : Bytes32} (hlen : l.length = 2 ^ depth)
    (h : (pairUp P)^[depth] l = [root]) {fuel : ℕ} (hfuel : depth < fuel) :
    reduce P fuel l = some root := by
  induction depth generalizing l fuel with
  | zero =>
    obtain ⟨fuel, rfl⟩ := Nat.exists_eq_succ_of_ne_zero (show fuel ≠ 0 by omega)
    obtain rfl : l = [root] := h
    rfl
  | succ depth ih =>
    obtain ⟨fuel, rfl⟩ := Nat.exists_eq_succ_of_ne_zero (show fuel ≠ 0 by omega)
    have hpos := Nat.one_le_two_pow (n := depth)
    rw [pow_succ, Nat.mul_comm] at hlen
    match l, hlen with
    | [], hlen =>
      rw [List.length_nil] at hlen
      omega
    | [_], hlen =>
      rw [List.length_singleton] at hlen
      omega
    | left :: right :: l, hlen =>
      rw [reduce, ih (length_pairUp hlen) h (by omega)]
      simp

/-- From the sections up the root is that of the recursion. -/
theorem levelRoot_eq (h : data.length = 64 * 2 ^ depth) {fuel : ℕ} (hfuel : depth < fuel) :
    levelRoot P fuel data = some (bmtRoot P depth data) := by
  rw [levelRoot, show data.length / 64 = 2 ^ depth by omega]
  refine reduce_eq ?_ (pairUp_iterate_sections h) hfuel
  rw [List.length_map, length_sections]

/-! ## Two payloads of one address -/

/-- Down two trees of one root over different bytes, to where they differ. -/
theorem exists_collides_of_bmtRoot_eq (h : data.length = 64 * 2 ^ depth)
    (h' : data'.length = 64 * 2 ^ depth) (hne : data ≠ data')
    (hroot : bmtRoot P depth data = bmtRoot P depth data') :
    ∃ x ∈ rootHashed P depth data, ∃ y ∈ rootHashed P depth data',
      x.length = y.length ∧ P.Collides x y := by
  induction depth generalizing data data' with
  | zero => exact ⟨data, by simp [rootHashed], data', by simp [rootHashed], by omega, hne, hroot⟩
  | succ depth ih =>
    obtain ⟨hleft, hright⟩ := length_halves h
    obtain ⟨hleft', hright'⟩ := length_halves h'
    simp only [rootHashed, List.mem_cons, List.mem_append]
    by_cases hpair : (bmtRoot P depth (data.take (data.length / 2))).1
        ++ (bmtRoot P depth (data.drop (data.length / 2))).1
      = (bmtRoot P depth (data'.take (data'.length / 2))).1
        ++ (bmtRoot P depth (data'.drop (data'.length / 2))).1
    · -- both subtrees have the same roots, and one of them differs below
      obtain ⟨hl, hr⟩ := List.append_inj hpair (by rw [length_hash, length_hash])
      by_cases hsame : data.take (data.length / 2) = data'.take (data'.length / 2)
      · have hdiff : data.drop (data.length / 2) ≠ data'.drop (data'.length / 2) := by
          intro hdrop
          refine hne ?_
          rw [← List.take_append_drop (data.length / 2) data, hsame, hdrop, List.take_append_drop]
        obtain ⟨x, hx, y, hy, hxy⟩ := ih hright hright' hdiff (Subtype.ext hr)
        exact ⟨x, .inr (.inr hx), y, .inr (.inr hy), hxy⟩
      · obtain ⟨x, hx, y, hy, hxy⟩ := ih hleft hleft' hsame (Subtype.ext hl)
        exact ⟨x, .inr (.inl hx), y, .inr (.inl hy), hxy⟩
    · -- the roots below differ already, and their pairs are hashed to one root
      refine ⟨_, .inl rfl, _, .inl rfl, ?_, hpair, hroot⟩
      simp only [List.length_append, length_hash]

end Root

section Address

variable {payload payload' : Bytes}

theorem length_padded (h : payload.length ≤ chunkSize) : (padded payload).length = 64 * 2 ^ 6 := by
  rw [padded, List.length_append, List.length_replicate]
  rw [chunkSize] at *
  omega

/-- The address of a payload that is not too long. -/
theorem chunkAddress_eq (h : payload.length ≤ chunkSize) : chunkAddress P payload
    = .ok (P.keccak256 (Primitives.toLeBytes payload.length ++ (bmtRoot P 6 (padded payload)).1)) :=
  if_pos h

/-- Two payloads of one address lead to two byte strings that hash alike: lengths that differ differ
in the span, and at one length the padding is the same. -/
theorem exists_collides_of_chunkAddress_eq (h : payload.length ≤ chunkSize)
    (h' : payload'.length ≤ chunkSize) (hne : payload ≠ payload')
    (haddress : chunkAddress P payload = chunkAddress P payload') :
    ∃ x ∈ addressHashed P payload, ∃ y ∈ addressHashed P payload',
      x.length = y.length ∧ P.Collides x y := by
  rw [chunkAddress_eq h, chunkAddress_eq h', Except.ok.injEq] at haddress
  by_cases htop : Primitives.toLeBytes payload.length ++ (bmtRoot P 6 (padded payload)).1
      = Primitives.toLeBytes payload'.length ++ (bmtRoot P 6 (padded payload')).1
  · -- one span, so one length, and the padding is the same
    obtain ⟨hspan, hroot⟩ := List.append_inj htop (by simp)
    have hlen : payload.length = payload'.length := by
      rw [chunkSize] at h h'
      exact Primitives.toLeBytes_injective (by omega) (by omega) hspan
    have hpad : padded payload ≠ padded payload' := fun hpad => hne (List.append_inj hpad hlen).1
    obtain ⟨x, hx, y, hy, hxy⟩ := exists_collides_of_bmtRoot_eq (length_padded h)
      (length_padded h') hpad (Subtype.ext hroot)
    exact ⟨x, List.mem_cons_of_mem _ hx, y, List.mem_cons_of_mem _ hy, hxy⟩
  · exact ⟨_, List.mem_cons_self, _, List.mem_cons_self, by simp [length_hash], htop, haddress⟩

end Address

/-- The recursion and the levels compute one root over every power of two sections; and two payloads
of one address show two byte strings of one length, hashed for the one and for the other, that hash
alike. -/
theorem address_binds_payload (P : Primitives) :
    (∀ (depth : ℕ) (data : Bytes), data.length = 64 * 2 ^ depth → ∀ fuel, depth < fuel →
      bmtRootWithin P fuel data = some (bmtRoot P depth data)
        ∧ levelRoot P fuel data = some (bmtRoot P depth data))
    ∧ ∀ payload payload' : Bytes, payload.length ≤ chunkSize → payload'.length ≤ chunkSize →
      payload ≠ payload' → chunkAddress P payload = chunkAddress P payload' →
      ∃ x ∈ addressHashed P payload, ∃ y ∈ addressHashed P payload',
        x.length = y.length ∧ P.Collides x y :=
  ⟨fun _ _ h _ hfuel => ⟨bmtRootWithin_eq h hfuel, levelRoot_eq h hfuel⟩,
    fun _ _ h h' hne haddress => exists_collides_of_chunkAddress_eq h h' hne haddress⟩

/-- The hash that cuts off confuses two payloads that differ late in their first section. -/
theorem address_binds_payload_plain :
    bmtRootWithin .plain 2 (List.replicate 128 1) = some (bmtRoot .plain 1 (List.replicate 128 1))
    ∧ ∃ x ∈ addressHashed .plain (List.replicate 40 0),
      ∃ y ∈ addressHashed .plain (List.replicate 39 0 ++ [1]),
        x.length = y.length ∧ Primitives.plain.Collides x y :=
  ⟨((address_binds_payload .plain).1 1 _ (by decide +kernel) 2 (by decide)).1,
    (address_binds_payload .plain).2 _ _ (by decide) (by decide) (by decide) (by decide +kernel)⟩

end Melissi.Wire
