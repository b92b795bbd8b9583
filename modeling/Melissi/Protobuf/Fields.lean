import Melissi.Protobuf.Varint

/-!
# Fields of a message

Reference: `crates/protobuf/src/lib.rs`. A message is a list of fields, each a number, a wire type
and a payload. The source hands the fields to a callback as it reads them; here they are listed,
together with whether the message was well formed to its end.
-/

namespace Melissi.Protobuf

/-- A field as it is handed to a callback. -/
structure Field where
  number : ℕ
  wireType : ℕ
  payload : List UInt8

/-! ## Writing -/

/-- A varint field (wire type 0): omitted when zero. -/
def putVarintField (field v : ℕ) : List UInt8 :=
  if v ≠ 0 then putUvarint (field * 8) ++ putUvarint v else []

/-- A length-delimited field (wire type 2): omitted only when empty. -/
def putBytesField (field : ℕ) (b : List UInt8) : List UInt8 :=
  if b ≠ [] then putUvarint (field * 8 + 2) ++ (putUvarint b.length ++ b) else []

theorem putBytesField_eq_nil {field : ℕ} {b : List UInt8} : putBytesField field b = [] ↔ b = [] := by
  rw [putBytesField]
  split
  · next h => exact iff_of_false (List.append_ne_nil_of_left_ne_nil (putGroups_ne_nil 9 _) _) h
  · next h => exact iff_of_true rfl (not_not.mp h)

/-! ## Reading -/

/-- The first `len` bytes as a payload, and the bytes after them. -/
def takePayload (number wireType len : ℕ) (b : List UInt8) : Option (Field × List UInt8) :=
  if b.length < len then none else some (⟨number, wireType, b.take len⟩, b.drop len)

/-- The first field, and the bytes after it. The sum of a length and the size of its own varint is
not checked, and aborts where it overflows: with overflow checks by itself, without them in the
slice that follows. -/
def nextField (b : List UInt8) : Except String (Option (Field × List UInt8)) :=
  match getUvarint b with
  | none => .ok none
  | some (tag, n) =>
    let b := b.drop n
    let number := tag / 8 % 2 ^ 32
    match tag % 8 with
    | 0 =>
      match getUvarint b with
      | none => .ok none
      | some (_, n) => .ok (takePayload number 0 n b)
    | 2 =>
      match getUvarint b with
      | none => .ok none
      | some (len, n) =>
        if 2 ^ 64 ≤ n + len then .error "attempt to add with overflow"
        else .ok (takePayload number 2 len (b.drop n))
    | 5 => .ok (takePayload number 5 4 b)
    | 1 => .ok (takePayload number 1 8 b)
    | _ => .ok none

/-- The fields to the end, or to where the message goes wrong. Each takes at least a byte. -/
def fieldsWithin : ℕ → List UInt8 → Except String (List Field × Bool)
  | 0, _ => .ok ([], true)
  | fuel + 1, b =>
    if b = [] then .ok ([], true)
    else
      match nextField b with
      | .error e => .error e
      | .ok none => .ok ([], false)
      | .ok (some (f, rest)) => (fieldsWithin fuel rest).map fun r => (f :: r.1, r.2)

def fields (b : List UInt8) : Except String (List Field × Bool) := fieldsWithin b.length b

/-- Hand the fields to a callback, and return what it made of them if the message is well formed. -/
def decodeWith {σ : Type} (f : σ → Field → Except String σ) (s : σ) (b : List UInt8) :
    Except String (Option σ) :=
  match fields b with
  | .error e => .error e
  | .ok (fs, whole) => (fs.foldlM f s).map fun s => if whole then some s else none

/-- The number in a payload. -/
def varintOf (payload : List UInt8) : ℕ := ((getUvarint payload).map (·.1)).getD 0

/-! ## Reading what was written -/

theorem nextField_shorter {b rest : List UInt8} {f : Field}
    (h : nextField b = .ok (some (f, rest))) : rest.length < b.length := by
  have hpayload : ∀ {number wireType len : ℕ} {b' : List UInt8},
      takePayload number wireType len b' = some (f, rest) → rest.length ≤ b'.length := by
    intro number wireType len b' h
    rw [takePayload] at h
    split at h
    · cases h
    · obtain ⟨-, rfl⟩ := Prod.mk.inj (Option.some.inj h)
      rw [List.length_drop]
      omega
  rw [nextField] at h
  cases hget : getUvarint b with
  | none => simp [hget] at h
  | some r =>
    obtain ⟨tag, n⟩ := r
    obtain ⟨hn, hnl, -⟩ := getUvarint_spec hget
    have hdrop : (b.drop n).length < b.length := by
      rw [List.length_drop]
      omega
    simp only [hget] at h
    split at h
    · split at h
      · cases h
      · exact lt_of_le_of_lt (hpayload (Except.ok.inj h)) hdrop
    · split at h
      · cases h
      · split at h
        · cases h
        · refine lt_of_le_of_lt ((hpayload (Except.ok.inj h)).trans ?_) hdrop
          rw [List.length_drop]
          omega
    · exact lt_of_le_of_lt (hpayload (Except.ok.inj h)) hdrop
    · exact lt_of_le_of_lt (hpayload (Except.ok.inj h)) hdrop
    · cases h

/-- Fuel beyond the length of the message changes nothing. -/
theorem fieldsWithin_eq {fuel : ℕ} {b : List UInt8} (h : b.length ≤ fuel) :
    fieldsWithin fuel b = fields b := by
  have hmono : ∀ {n m : ℕ} {b : List UInt8}, b.length ≤ n → b.length ≤ m →
      fieldsWithin n b = fieldsWithin m b := by
    intro n
    induction n with
    | zero =>
      intro m b hn _
      obtain rfl : b = [] := List.eq_nil_of_length_eq_zero (by omega)
      cases m <;> simp [fieldsWithin]
    | succ n ih =>
      intro m b hn hm
      cases m with
      | zero =>
        obtain rfl : b = [] := List.eq_nil_of_length_eq_zero (by omega)
        simp [fieldsWithin]
      | succ m =>
        simp only [fieldsWithin]
        split
        · rfl
        · cases hnext : nextField b with
          | error e => rfl
          | ok r =>
            cases r with
            | none => rfl
            | some r =>
              have := nextField_shorter hnext
              simp only
              rw [@ih m r.2 (by omega) (by omega)]
  exact hmono h le_rfl

theorem fields_nil : fields [] = .ok ([], true) := rfl

/-- The fields after the first. -/
theorem fields_next {b rest : List UInt8} {f : Field} (h : nextField b = .ok (some (f, rest))) :
    fields b = (fields rest).map fun r => (f :: r.1, r.2) := by
  have hshort := nextField_shorter h
  have hne : b ≠ [] := by
    rintro rfl
    simp at hshort
  obtain ⟨n, hn⟩ := Nat.exists_eq_succ_of_ne_zero (Nat.ne_zero_of_lt hshort)
  rw [fields, hn, fieldsWithin, if_neg hne, h]
  simp only
  rw [fieldsWithin_eq (by omega)]

/-- Reading a varint field that was written, whatever follows. -/
theorem fields_putVarintField {field v : ℕ} (hf : field < 2 ^ 29) (hv : v < 2 ^ 64)
    (rest : List UInt8) : fields (putVarintField field v ++ rest)
      = (fields rest).map fun r => ((if v ≠ 0 then [⟨field, 0, putUvarint v⟩] else []) ++ r.1, r.2) := by
  rw [putVarintField]
  by_cases h : v = 0
  · simp only [h, ne_eq, not_true_eq_false, if_false, List.nil_append]
    cases fields rest <;> rfl
  · simp only [ne_eq, h, not_false_eq_true, if_true]
    refine fields_next ?_
    rw [nextField, List.append_assoc, getUvarint_put (by omega)]
    simp only [List.drop_left, getUvarint_put hv]
    rw [show field * 8 % 8 = 0 by omega, show field * 8 / 8 % 2 ^ 32 = field by omega]
    simp only [takePayload, List.length_append]
    rw [if_neg (by omega), List.take_left, List.drop_left]

/-- Reading a length-delimited field that was written, whatever follows. -/
theorem fields_putBytesField {field : ℕ} {b : List UInt8} (hf : field < 2 ^ 29)
    (hb : b.length + 10 < 2 ^ 64) (rest : List UInt8) : fields (putBytesField field b ++ rest)
      = (fields rest).map fun r => ((if b ≠ [] then [⟨field, 2, b⟩] else []) ++ r.1, r.2) := by
  rw [putBytesField]
  by_cases h : b = []
  · simp only [h, ne_eq, not_true_eq_false, if_false, List.nil_append]
    cases fields rest <;> rfl
  · simp only [ne_eq, h, not_false_eq_true, if_true]
    refine fields_next ?_
    have hlen := (length_putUvarint b.length).2
    rw [nextField, List.append_assoc, getUvarint_put (by omega), List.append_assoc]
    simp only [List.drop_left, getUvarint_put (show b.length < 2 ^ 64 by omega)]
    rw [show (field * 8 + 2) % 8 = 2 by omega, show (field * 8 + 2) / 8 % 2 ^ 32 = field by omega]
    simp only
    rw [if_neg (by omega)]
    simp only [takePayload, List.length_append]
    rw [if_neg (by omega), List.take_left, List.drop_left]

section Decode

variable {σ : Type} {f : σ → Field → Except String σ} {s t : σ}

theorem decodeWith_nil (f : σ → Field → Except String σ) (s : σ) :
    decodeWith f s [] = .ok (some s) := rfl

/-- Decoding hands a first field to the callback and goes on. -/
theorem decodeWith_next {fs : List Field} {b rest : List UInt8}
    (hb : fields b = (fields rest).map fun r => (fs ++ r.1, r.2)) (hs : fs.foldlM f s = .ok t) :
    decodeWith f s b = decodeWith f t rest := by
  rw [decodeWith, decodeWith, hb]
  cases fields rest with
  | error e => rfl
  | ok r =>
    simp only [Except.map, List.foldlM_append, hs]
    rfl

/-- Decoding a varint field that was written: a zero is the default. -/
theorem decodeWith_putVarintField {field v : ℕ} (hf : field < 2 ^ 29) (hv : v < 2 ^ 64)
    (hzero : v = 0 → t = s) (hs : v ≠ 0 → f s ⟨field, 0, putUvarint v⟩ = .ok t)
    (rest : List UInt8) :
    decodeWith f s (putVarintField field v ++ rest) = decodeWith f t rest := by
  refine decodeWith_next (fields_putVarintField hf hv rest) ?_
  by_cases h : v = 0
  · rw [if_neg (not_not.mpr h), hzero h]
    rfl
  · rw [if_pos h, List.foldlM_cons, hs h]
    rfl

/-- Decoding a length-delimited field that was written: nothing is the default. -/
theorem decodeWith_putBytesField {field : ℕ} {b : List UInt8} (hf : field < 2 ^ 29)
    (hb : b.length < 2 ^ 63) (hnil : b = [] → t = s) (hs : b ≠ [] → f s ⟨field, 2, b⟩ = .ok t)
    (rest : List UInt8) :
    decodeWith f s (putBytesField field b ++ rest) = decodeWith f t rest := by
  refine decodeWith_next (fields_putBytesField hf (by omega) rest) ?_
  by_cases h : b = []
  · rw [if_neg (not_not.mpr h), hnil h]
    rfl
  · rw [if_pos h, List.foldlM_cons, hs h]
    rfl

/-- What a field is written in holds it. -/
theorem le_length_putBytesField (field : ℕ) (b : List UInt8) :
    b.length ≤ (putBytesField field b).length := by
  rw [putBytesField]
  split
  · simp only [List.length_append]
    omega
  · next h => simp [not_not.mp h]

/-- A field of bytes is written with at most twenty more: two varints. -/
theorem length_putBytesField_le (field : ℕ) (b : List UInt8) :
    (putBytesField field b).length ≤ b.length + 20 := by
  have hkey := (length_putUvarint (field * 8 + 2)).2
  have hlen := (length_putUvarint b.length).2
  rw [putBytesField]
  split
  · simp only [List.length_append]
    omega
  · exact Nat.zero_le _

/-- A number is written with at most two varints. -/
theorem length_putVarintField_le (field v : ℕ) : (putVarintField field v).length ≤ 20 := by
  have hkey := (length_putUvarint (field * 8)).2
  have hval := (length_putUvarint v).2
  rw [putVarintField]
  split
  · simp only [List.length_append]
    omega
  · exact Nat.zero_le _

end Decode

theorem varintOf_put {v : ℕ} (hv : v < 2 ^ 64) : varintOf (putUvarint v) = v := by
  have := getUvarint_put hv []
  rw [List.append_nil] at this
  rw [varintOf, this]
  rfl

end Melissi.Protobuf
