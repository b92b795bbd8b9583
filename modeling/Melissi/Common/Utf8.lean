import Mathlib.Data.List.Basic
import Mathlib.Tactic.NormNum
import Mathlib.Tactic.SplitIfs

/-!
# UTF-8, read leniently

The bytes of a string, and the string that bytes are read as. Where no character begins, the bytes
that could have been the beginning of one, and at least the first, are read as one replacement
character.
-/

namespace Melissi.Utf8

/-- The bytes of a string. -/
def asBytes (s : String) : List UInt8 := s.toList.flatMap String.utf8EncodeChar

/-- What the first byte of a character says: how many bytes follow, the least and the greatest that
the next may be, and the digits in the byte itself. -/
def lead (byte : ℕ) : Option (ℕ × ℕ × ℕ × ℕ) :=
  if byte < 0x80 then some (0, 0x80, 0xBF, byte)
  else if byte < 0xC2 then none
  else if byte < 0xE0 then some (1, 0x80, 0xBF, byte % 0x20)
  else if byte < 0xF0 then
    some (2, if byte = 0xE0 then 0xA0 else 0x80, if byte = 0xED then 0x9F else 0xBF, byte % 0x10)
  else if byte < 0xF5 then
    some (3, if byte = 0xF0 then 0x90 else 0x80, if byte = 0xF4 then 0x8F else 0xBF, byte % 8)
  else none

/-- Read the bytes that still follow, and return the character and its width, or the width of what
was well formed. -/
def tail : ℕ → ℕ → ℕ → ℕ → ℕ → List UInt8 → Option Char × ℕ
  | 0, _, _, digits, width, _ => (some (Char.ofNat digits), width)
  | _ + 1, _, _, _, width, [] => (none, width)
  | n + 1, low, high, digits, width, byte :: b =>
    if low ≤ byte.toNat ∧ byte.toNat ≤ high then
      tail n 0x80 0xBF (digits * 0x40 + byte.toNat % 0x40) (width + 1) b
    else (none, width)

/-- The first character and its width, or the width of what is read as a replacement. -/
def firstChar : List UInt8 → Option Char × ℕ
  | [] => (none, 0)
  | byte :: b =>
    match lead byte.toNat with
    | none => (none, 1)
    | some (n, low, high, digits) => tail n low high digits 1 b

/-- The characters. Each takes at least a byte. -/
def lossy : ℕ → List UInt8 → List Char
  | 0, _ => []
  | fuel + 1, b =>
    if b = [] then []
    else (firstChar b).1.getD (Char.ofNat 0xFFFD) :: lossy fuel (b.drop (firstChar b).2)

def fromUtf8Lossy (b : List UInt8) : String := String.ofList (lossy b.length b)

/-- A byte that follows adds its digits. -/
theorem tail_cons {n low high digits width v : ℕ} {b : List UInt8} (hlow : low ≤ v) (hhigh : v ≤ high)
    (hv : v < 0x100) : tail (n + 1) low high digits width (UInt8.ofNat v :: b)
      = tail n 0x80 0xBF (digits * 0x40 + v % 0x40) (width + 1) b := by
  have hbyte : (UInt8.ofNat v).toNat = v := by
    rw [UInt8.toNat_ofNat']
    omega
  rw [tail, hbyte, if_pos ⟨hlow, hhigh⟩]

/-- The range of the second byte is that of the characters that are not spelled shorter. -/
theorem firstChar_encode (c : Char) (rest : List UInt8) :
    firstChar (String.utf8EncodeChar c ++ rest) = (some c, (String.utf8EncodeChar c).length) := by
  have hvalid : c.toNat < 0xD800 ∨ 0xDFFF < c.toNat ∧ c.toNat < 0x110000 := c.valid
  have hchar : ∀ n, n = c.toNat → Char.ofNat n = c := by
    rintro n rfl
    exact Char.ofNat_toNat c
  have hbyte : ∀ v, v < 0x100 → (UInt8.ofNat v).toNat = v := by
    intro v hv
    rw [UInt8.toNat_ofNat']
    omega
  unfold String.utf8EncodeChar
  rw [show c.val.toNat = c.toNat from rfl]
  generalize c.toNat = v at *
  dsimp only
  split_ifs with h1 h2 h3
  · rw [List.singleton_append, firstChar, hbyte v (by omega), lead, if_pos (by omega)]
    simp only [tail, hchar v rfl, List.length_singleton]
  · rw [List.cons_append, firstChar, hbyte _ (by omega), lead, if_neg (by omega), if_neg (by omega),
      if_pos (by omega)]
    simp only [List.cons_append, List.nil_append]
    rw [tail_cons (by omega) (by omega) (by omega), tail, hchar _ (by omega)]
    rfl
  · rw [List.cons_append, firstChar, hbyte _ (by omega), lead, if_neg (by omega), if_neg (by omega),
      if_neg (by omega), if_pos (by omega)]
    simp only [List.cons_append, List.nil_append]
    rw [tail_cons (by split_ifs <;> omega) (by split_ifs <;> omega) (by omega),
      tail_cons (by omega) (by omega) (by omega), tail, hchar _ (by omega)]
    rfl
  · rw [List.cons_append, firstChar, hbyte _ (by omega), lead, if_neg (by omega), if_neg (by omega),
      if_neg (by omega), if_neg (by omega), if_pos (by omega)]
    simp only [List.cons_append, List.nil_append]
    rw [tail_cons (by split_ifs <;> omega) (by split_ifs <;> omega) (by omega),
      tail_cons (by omega) (by omega) (by omega), tail_cons (by omega) (by omega) (by omega), tail,
      hchar _ (by omega)]
    rfl

/-- The bytes of characters are read as these. -/
theorem lossy_flatMap {l : List Char} {fuel : ℕ}
    (hfuel : (l.flatMap String.utf8EncodeChar).length ≤ fuel) :
    lossy fuel (l.flatMap String.utf8EncodeChar) = l := by
  induction l generalizing fuel with
  | nil => cases fuel <;> rfl
  | cons c l ih =>
    have hpos : 0 < (String.utf8EncodeChar c).length := by
      unfold String.utf8EncodeChar
      dsimp only
      split_ifs <;> exact Nat.zero_lt_succ _
    rw [List.flatMap_cons, List.length_append] at hfuel
    obtain ⟨fuel, rfl⟩ := Nat.exists_eq_succ_of_ne_zero (show fuel ≠ 0 by omega)
    have hne : String.utf8EncodeChar c ++ l.flatMap String.utf8EncodeChar ≠ [] :=
      List.append_ne_nil_of_left_ne_nil (List.length_pos_iff.mp hpos) _
    rw [List.flatMap_cons, lossy, if_neg hne, firstChar_encode, List.drop_left, ih (by omega)]
    rfl

/-- A string is read back. -/
theorem fromUtf8Lossy_asBytes (s : String) : fromUtf8Lossy (asBytes s) = s := by
  rw [fromUtf8Lossy, asBytes, lossy_flatMap le_rfl, String.ofList_toList]

theorem asBytes_eq_nil {s : String} : asBytes s = [] ↔ s = "" := by
  constructor
  · intro h
    rw [← fromUtf8Lossy_asBytes s, h]
    rfl
  · rintro rfl
    rfl

/-- A byte that begins no character, the beginning of a character that breaks off, and a surrogate,
of which each byte is replaced. -/
example : (lossy 9 [0x61, 0xFF, 0xE2, 0x82, 0x62, 0xED, 0xA0, 0x80]).map Char.toNat
    = [0x61, 0xFFFD, 0xFFFD, 0x62, 0xFFFD, 0xFFFD, 0xFFFD] := by
  decide +kernel

end Melissi.Utf8
