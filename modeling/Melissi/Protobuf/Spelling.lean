import Melissi.Protobuf.Fields
import Melissi.Protobuf.Grammar

/-!
# Messages as lists of fields

Reference: `crates/protobuf/src/lib.rs`. A message is written field after field: a key, the length
where the payload is bytes, and the payload. What a list of written fields reads back as is said
here once. Fields a schema does not know may then stand anywhere between those that it does.
-/

namespace Melissi.Protobuf

/-! ## A field as it is written -/

/-- The bytes are this field: its key, for bytes their length, and the payload, which is as its wire
type has it. The numbers may be written in more groups than they need. -/
def Field.Written (f : Field) (bytes : List UInt8) : Prop :=
  f.number < 2 ^ 29 ∧ ∃ key size, Spells key (f.number * 8 + f.wireType)
    ∧ bytes = key ++ (size ++ f.payload)
    ∧ match f.wireType with
      | 0 => size = [] ∧ ∃ v, Spells f.payload v
      | 1 => size = [] ∧ f.payload.length = 8
      | 2 => Spells size f.payload.length
      | 5 => size = [] ∧ f.payload.length = 4
      | _ => False

/-- A field and the bytes it is written in. -/
structure Spelling where
  field : Field
  bytes : List UInt8
  written : field.Written bytes

namespace Spelling

/-- A message: the fields one after the other. -/
def message (l : List Spelling) : List UInt8 := l.flatMap bytes

@[simp] theorem message_nil : message [] = [] := rfl

@[simp] theorem message_cons (s : Spelling) (l : List Spelling) :
    message (s :: l) = s.bytes ++ message l := rfl

@[simp] theorem message_append (l l' : List Spelling) :
    message (l ++ l') = message l ++ message l' := List.flatMap_append

theorem payload_le (s : Spelling) : s.field.payload.length ≤ s.bytes.length := by
  obtain ⟨-, key, size, -, hbytes, -⟩ := s.written
  rw [hbytes]
  simp only [List.length_append]
  omega

/-- A written field is read back, whatever follows. -/
theorem nextField (s : Spelling) (h : s.field.payload.length < 2 ^ 63) (rest : List UInt8) :
    nextField (s.bytes ++ rest) = .ok (some (s.field, rest)) := by
  obtain ⟨⟨number, wireType, payload⟩, bytes, hwritten⟩ := s
  obtain ⟨hnumber, key, size, hkey, rfl, hpayload⟩ := hwritten
  simp only at h hnumber hkey hpayload ⊢
  have hlt : wireType < 8 := by
    by_contra hge
    split at hpayload <;> omega
  -- the key holds both: the wire type is its three low bits
  have htype : (number * 8 + wireType) % 8 = wireType := by omega
  have hnum : (number * 8 + wireType) / 8 % 2 ^ 32 = number := by omega
  have hcut : ∀ len, payload.length = len →
      takePayload number wireType len (payload ++ rest) = some (⟨number, wireType, payload⟩, rest) := by
    rintro len rfl
    rw [takePayload, if_neg (by rw [List.length_append]; omega), List.take_left, List.drop_left]
  rw [Protobuf.nextField, List.append_assoc, getUvarint_spells hkey]
  simp only [List.drop_left, htype, hnum, List.append_assoc]
  -- by the wire type: a varint, eight bytes, a length and so many bytes, four bytes
  split at hpayload
  · obtain ⟨rfl, v, hv⟩ := hpayload
    rw [List.nil_append, getUvarint_spells hv]
    exact congrArg Except.ok (hcut _ rfl)
  · obtain ⟨rfl, hlen⟩ := hpayload
    exact congrArg Except.ok (hcut 8 hlen)
  · have hsize := hpayload.length_le
    simp only [getUvarint_spells hpayload, List.drop_left]
    rw [if_neg (by omega), hcut _ rfl]
  · obtain ⟨rfl, hlen⟩ := hpayload
    exact congrArg Except.ok (hcut 4 hlen)
  · cases hpayload

/-- The fields of a message are the ones it was written from, and those of what follows. -/
theorem fields_message {l : List Spelling} (h : (message l).length < 2 ^ 63) (rest : List UInt8) :
    fields (message l ++ rest) = (fields rest).map fun r => (l.map field ++ r.1, r.2) := by
  induction l with
  | nil => cases hrest : fields rest <;> simp [hrest, Except.map]
  | cons s l ih =>
    rw [message_cons, List.length_append] at h
    have hpayload := s.payload_le
    rw [message_cons, List.append_assoc, fields_next (s.nextField (by omega) _), ih (by omega)]
    cases fields rest <;> rfl

/-- A message is decoded by folding the callback over its fields. -/
theorem decodeWith_message {σ : Type} (step : σ → Field → Except String σ) (s : σ)
    {l : List Spelling} (h : (message l).length < 2 ^ 63) :
    decodeWith step s (message l) = ((l.map field).foldlM step s).map some := by
  have hfields := fields_message h []
  rw [List.append_nil, fields_nil] at hfields
  rw [decodeWith, hfields]
  simp [Except.map]

/-! ## What the writers write -/

/-- A varint field, also of a zero, which the writer omits. -/
def ofVarint (number v : ℕ) (hn : number < 2 ^ 29) (hv : v < 2 ^ 64) : Spelling where
  field := ⟨number, 0, putUvarint v⟩
  bytes := putUvarint (number * 8) ++ putUvarint v
  written := ⟨hn, putUvarint (number * 8), [], spells_putUvarint (by omega), rfl, rfl, v,
    spells_putUvarint hv⟩

/-- A field of bytes, also of none, which the writer omits. -/
def ofBytes (number : ℕ) (b : List UInt8) (hn : number < 2 ^ 29) (hb : b.length < 2 ^ 64) :
    Spelling where
  field := ⟨number, 2, b⟩
  bytes := putUvarint (number * 8 + 2) ++ (putUvarint b.length ++ b)
  written := ⟨hn, putUvarint (number * 8 + 2), putUvarint b.length, spells_putUvarint (by omega),
    rfl, spells_putUvarint hb⟩

theorem message_putVarintField {number v : ℕ} (hn : number < 2 ^ 29) (hv : v < 2 ^ 64) :
    ∃ l, message l = putVarintField number v ∧ l.map field
      = if v ≠ 0 then [⟨number, 0, putUvarint v⟩] else [] := by
  rw [putVarintField]
  split
  · exact ⟨[ofVarint number v hn hv], by simp [ofVarint], rfl⟩
  · exact ⟨[], rfl, rfl⟩

theorem message_putBytesField {number : ℕ} {b : List UInt8} (hn : number < 2 ^ 29)
    (hb : b.length < 2 ^ 64) : ∃ l, message l = putBytesField number b
      ∧ l.map field = if b ≠ [] then [⟨number, 2, b⟩] else [] := by
  rw [putBytesField]
  split
  · exact ⟨[ofBytes number b hn hb], by simp [ofBytes], rfl⟩
  · exact ⟨[], rfl, rfl⟩

/-! ## Foreign fields -/

/-- The second message is the first with more fields, whose numbers are foreign, at any of its field
boundaries; and the payload of a field may be exchanged where `Within` relates the two. -/
inductive Inserted (Known : ℕ → Prop) (Within : Field → Field → Prop) :
    List Spelling → List Spelling → Prop
  | nil : Inserted Known Within [] []
  | keep (s : Spelling) {l l' : List Spelling} (h : Inserted Known Within l l') :
    Inserted Known Within (s :: l) (s :: l')
  | within {s s' : Spelling} (hs : Within s.field s'.field) {l l' : List Spelling}
    (h : Inserted Known Within l l') : Inserted Known Within (s :: l) (s' :: l')
  | insert {s : Spelling} (hs : ¬ Known s.field.number) {l l' : List Spelling}
    (h : Inserted Known Within l l') : Inserted Known Within l (s :: l')

/-- A callback that passes over foreign fields, and takes related ones alike, makes the same of both
messages. -/
theorem Inserted.foldlM_eq {Known : ℕ → Prop} {Within : Field → Field → Prop} {σ : Type}
    {step : σ → Field → Except String σ} {l l' : List Spelling} (h : Inserted Known Within l l')
    (hforeign : ∀ s f, ¬ Known f.number → step s f = .ok s)
    (hwithin : ∀ s, ∀ a ∈ l', ∀ f, Within f a.field → step s a.field = step s f) (s : σ) :
    (l'.map field).foldlM step s = (l.map field).foldlM step s := by
  induction h generalizing s with
  | nil => rfl
  | keep a h ih =>
    simp only [List.map_cons, List.foldlM_cons]
    -- the step may go wrong, alike on both sides; what it returns goes on
    exact congrArg _ (funext fun t => ih (fun s b hb => hwithin s b (List.mem_cons_of_mem _ hb)) t)
  | @within a a' ha l l' h ih =>
    simp only [List.map_cons, List.foldlM_cons]
    rw [hwithin s a' List.mem_cons_self a.field ha]
    exact congrArg _ (funext fun t => ih (fun s b hb => hwithin s b (List.mem_cons_of_mem _ hb)) t)
  | @insert a ha l l' h ih =>
    simp only [List.map_cons, List.foldlM_cons, hforeign s a.field ha]
    exact ih (fun s b hb => hwithin s b (List.mem_cons_of_mem _ hb)) s

/-- A decoder whose callback passes over foreign fields decodes both messages alike. -/
theorem Inserted.decodeWith_eq {Known : ℕ → Prop} {Within : Field → Field → Prop} {σ : Type}
    {step : σ → Field → Except String σ} {l l' : List Spelling} (h : Inserted Known Within l l')
    (hforeign : ∀ s f, ¬ Known f.number → step s f = .ok s)
    (hwithin : ∀ s f f', Within f f' → f'.payload.length < 2 ^ 63 → step s f' = step s f)
    (hl : (message l).length < 2 ^ 63) (hl' : (message l').length < 2 ^ 63) (s : σ) :
    decodeWith step s (message l') = decodeWith step s (message l) := by
  have hle : ∀ a ∈ l', a.field.payload.length < 2 ^ 63 := by
    intro a ha
    have hmem : a.bytes.length ≤ (message l').length :=
      (List.sublist_flatten_of_mem (List.mem_map_of_mem ha)).length_le
    exact (a.payload_le.trans hmem).trans_lt hl'
  rw [decodeWith_message step s hl, decodeWith_message step s hl', h.foldlM_eq hforeign]
  exact fun s a ha f hf => hwithin s f a.field hf (hle a ha)

end Spelling

end Melissi.Protobuf
