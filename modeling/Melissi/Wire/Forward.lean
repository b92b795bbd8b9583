import Melissi.Protobuf.Spelling
import Melissi.Wire.Pb

/-!
# Forward compatibility

Reference: `crates/wire/src/pb.rs`. A decoder passes over the fields it does not know, whatever they
carry and wherever they stand, also inside the chunks of an offer. And the cursors of an `Ack` may
be packed or not, in any mixture, with the epoch anywhere among them.
-/

namespace Melissi.Wire.Pb

open Melissi.Protobuf Melissi.Protobuf.Spelling

/-! ## What the decoders know -/

/-- No payload is exchanged for another. -/
def NoneWithin (_ _ : Field) : Prop := False

def Chunk.Known (number : ℕ) : Prop := number = 1 ∨ number = 2 ∨ number = 3

/-- The payload is that of a chunk, and becomes that of the chunk with foreign fields in it. -/
def Chunk.Within (f f' : Field) : Prop :=
  f.number = 2 ∧ f.wireType = 2 ∧ f'.number = 2 ∧ f'.wireType = 2
    ∧ ∃ l l', message l = f.payload ∧ message l' = f'.payload
      ∧ Inserted Chunk.Known NoneWithin l l' ∧ f.payload.length < 2 ^ 63

namespace Message

/-- The field numbers in the schema of a message. -/
def Known : Message → ℕ → Prop
  | .get _, n => n = 1 ∨ n = 2
  | .offer _, n => n = 1 ∨ n = 2
  | .want _, n => n = 1
  | .delivery _, n => n = 1 ∨ n = 2 ∨ n = 3
  | .ack _, n => n = 1 ∨ n = 2

/-- Foreign fields may also stand in the messages of a message. -/
def Within : Message → Field → Field → Prop
  | .offer _ => Chunk.Within
  | _ => NoneWithin

/-- The decoder of messages of this kind. -/
def decode : Message → Bytes → Except String (Option Message)
  | .get _, b => (Get.decode b).map (·.map .get)
  | .offer _, b => (Offer.decode b).map (·.map .offer)
  | .want _, b => (Want.decode b).map (·.map .want)
  | .delivery _, b => (Delivery.decode b).map (·.map .delivery)
  | .ack _, b => (Ack.decode b).map (·.map .ack)

end Message

/-! ## Foreign fields are passed over -/

section Inserted

variable {l l' : List Spelling} (hl : (message l).length < 2 ^ 63)
  (hl' : (message l').length < 2 ^ 63)

include hl hl'

theorem Get.decode_inserted {m : Get} (h : Inserted (Message.get m).Known NoneWithin l l') :
    Get.decode (message l') = Get.decode (message l) := by
  refine h.decodeWith_eq (fun s f hf => ?_) (fun _ _ _ hw => hw.elim) hl hl' _
  simp only [Message.Known, not_or] at hf
  simp [hf.1, hf.2]

theorem Chunk.decode_inserted (h : Inserted Chunk.Known NoneWithin l l') :
    Chunk.decode (message l') = Chunk.decode (message l) := by
  refine h.decodeWith_eq (fun s f hf => ?_) (fun _ _ _ hw => hw.elim) hl hl' _
  simp only [Chunk.Known, not_or] at hf
  simp [hf.1, hf.2.1, hf.2.2]

theorem Offer.decode_inserted {m : Offer} (h : Inserted (Message.offer m).Known Chunk.Within l l') :
    Offer.decode (message l') = Offer.decode (message l) := by
  rw [Offer.decode, Offer.decode]
  refine congrArg _ (h.decodeWith_eq (fun s f hf => ?_) (fun s f f' hw hlen => ?_) hl hl' _)
  · simp only [Message.Known, not_or] at hf
    simp [Offer.take, hf.1, hf.2]
  · obtain ⟨hn, -, hn', -, lc, lc', hc, hc', hins, hshort⟩ := hw
    rw [Offer.take, Offer.take]
    simp only [hn, hn']
    rw [← hc] at hshort ⊢
    rw [← hc'] at hlen ⊢
    -- a chunk with foreign fields in it is the same chunk
    rw [Chunk.decode_inserted hshort hlen hins]

theorem Want.decode_inserted {m : Want} (h : Inserted (Message.want m).Known NoneWithin l l') :
    Want.decode (message l') = Want.decode (message l) := by
  refine h.decodeWith_eq (fun s f hf => ?_) (fun _ _ _ hw => hw.elim) hl hl' _
  simp only [Message.Known] at hf
  simp [hf]

theorem Delivery.decode_inserted {m : Delivery}
    (h : Inserted (Message.delivery m).Known NoneWithin l l') :
    Delivery.decode (message l') = Delivery.decode (message l) := by
  refine h.decodeWith_eq (fun s f hf => ?_) (fun _ _ _ hw => hw.elim) hl hl' _
  simp only [Message.Known, not_or] at hf
  simp [hf.1, hf.2.1, hf.2.2]

theorem Ack.decode_inserted {m : Ack} (h : Inserted (Message.ack m).Known NoneWithin l l') :
    Ack.decode (message l') = Ack.decode (message l) := by
  refine h.decodeWith_eq (fun s f hf => ?_) (fun _ _ _ hw => hw.elim) hl hl' _
  simp only [Message.Known, not_or] at hf
  simp [hf.1, hf.2]

end Inserted

/-! ## What is encoded is a message -/

theorem exists_message_append {b b' : Bytes} (h : ∃ l, message l = b) (h' : ∃ l, message l = b') :
    ∃ l, message l = b ++ b' := by
  obtain ⟨l, rfl⟩ := h
  obtain ⟨l', rfl⟩ := h'
  exact ⟨l ++ l', message_append l l'⟩

theorem exists_message_putVarintField {number v : ℕ} (hn : number < 2 ^ 29) (hv : v < 2 ^ 64) :
    ∃ l, message l = putVarintField number v := by
  obtain ⟨l, hl, -⟩ := message_putVarintField hn hv
  exact ⟨l, hl⟩

theorem exists_message_putBytesField {number : ℕ} {b : Bytes} (hn : number < 2 ^ 29)
    (h : (putBytesField number b).length < 2 ^ 63) : ∃ l, message l = putBytesField number b := by
  have hb := le_length_putBytesField number b
  obtain ⟨l, hl, -⟩ := message_putBytesField (b := b) hn (by omega)
  exact ⟨l, hl⟩

theorem exists_message_chunks {chunks : List Chunk}
    (h : (chunks.flatMap fun c => putBytesField 2 c.encode).length < 2 ^ 63) :
    ∃ l, message l = chunks.flatMap fun c => putBytesField 2 c.encode := by
  induction chunks with
  | nil => exact ⟨[], rfl⟩
  | cons c chunks ih =>
    rw [List.flatMap_cons, List.length_append] at h
    rw [List.flatMap_cons]
    exact exists_message_append (exists_message_putBytesField (by decide) (by omega))
      (ih (by omega))

/-- What a message is encoded in has field boundaries. -/
theorem Message.exists_message {m : Message} (h : m.InRange) : ∃ l, message l = m.encode := by
  obtain ⟨hlen, hrange⟩ := h
  cases m with
  | get m =>
    have hbin : m.bin < 2 ^ 64 := hrange.1.trans (by decide)
    exact exists_message_append (exists_message_putVarintField (by decide) hbin)
      (exists_message_putVarintField (by decide) hrange.2)
  | offer m =>
    simp only [Message.encode, Offer.encode, List.length_append] at hlen ⊢
    refine exists_message_append (exists_message_putVarintField (by decide) hrange) ?_
    exact exists_message_chunks (by omega)
  | want m => exact exists_message_putBytesField (by decide) hlen
  | delivery m =>
    simp only [Message.encode, Delivery.encode, List.length_append] at hlen ⊢
    exact exists_message_append (exists_message_putBytesField (by decide) (by omega))
      (exists_message_append (exists_message_putBytesField (by decide) (by omega))
        (exists_message_putBytesField (by decide) (by omega)))
  | ack m =>
    simp only [Message.encode, Ack.encode, List.length_append] at hlen ⊢
    refine exists_message_append ?_ (exists_message_putVarintField (by decide) hrange.2)
    split
    · next h =>
      rw [if_pos h] at hlen
      exact exists_message_putBytesField (by decide) (by omega)
    · exact ⟨[], rfl⟩

/-! ## The two ways to write cursors -/

/-- The cursors in runs, each in a packed field or one in a field of its own. -/
inductive Runs : List ℕ → List Spelling → Prop
  | nil : Runs [] []
  | joined {s : Spelling} (hs : s.field.number = 1 ∧ s.field.wireType = 2) {ws : List Bytes}
    {vs : List ℕ} (hws : List.Forall₂ Spells ws vs) (hpayload : s.field.payload = ws.flatten)
    {cs : List ℕ} {l : List Spelling} (h : Runs cs l) : Runs (vs ++ cs) (s :: l)
  | single {s : Spelling} (hs : s.field.number = 1 ∧ s.field.wireType = 0) {v : ℕ}
    (hv : Spells s.field.payload v) {cs : List ℕ} {l : List Spelling} (h : Runs cs l) :
    Runs (v :: cs) (s :: l)

/-- The epoch in a field of its own; a zero may be left out. -/
inductive Epoch : ℕ → List Spelling → Prop
  | omitted : Epoch 0 []
  | written {s : Spelling} (hs : s.field.number = 2 ∧ s.field.wireType = 0) {v : ℕ}
    (hv : Spells s.field.payload v) : Epoch v [s]

/-- Packed numbers are read back, in however many groups each is written. -/
theorem packed_flatten {ws : List Bytes} {vs : List ℕ} (h : List.Forall₂ Spells ws vs) {fuel : ℕ}
    (hfuel : ws.flatten.length ≤ fuel) : packed fuel ws.flatten = vs := by
  induction h generalizing fuel with
  | nil => cases fuel <;> rfl
  | @cons w v ws vs hw _ ih =>
    have hpos : 0 < w.length := by
      obtain ⟨init, last, rfl, -⟩ := hw.terminated
      simp
    rw [List.flatten_cons, List.length_append] at hfuel
    -- each group takes at least a byte, so the fuel lasts
    obtain ⟨fuel, rfl⟩ := Nat.exists_eq_succ_of_ne_zero (show fuel ≠ 0 by omega)
    rw [List.flatten_cons, packed, getUvarint_spells hw]
    simp only [List.drop_left]
    rw [ih (by omega)]

theorem varintOf_spells {w : Bytes} {v : ℕ} (h : Spells w v) : varintOf w = v := by
  have hget := getUvarint_spells h []
  rw [List.append_nil] at hget
  rw [varintOf, hget]
  rfl

/-- What the decoder does with each of the fields of an `Ack`. -/
theorem Ack.exists_step : ∃ step : Ack → Field → Except String Ack,
    (∀ b, Ack.decode b = decodeWith step ⟨[], 0⟩ b)
      ∧ (∀ m p, step m ⟨1, 2, p⟩ = .ok { m with cursors := m.cursors ++ packed p.length p })
      ∧ (∀ m p, step m ⟨1, 0, p⟩ = .ok { m with cursors := m.cursors ++ [varintOf p] })
      ∧ ∀ m p, step m ⟨2, 0, p⟩ = .ok { m with epoch := varintOf p } :=
  ⟨_, fun _ => rfl, fun _ _ => rfl, fun _ _ => rfl, fun _ _ => rfl⟩

section Step

variable {step : Ack → Field → Except String Ack}

/-- The cursors of the runs go after those read before. -/
theorem Runs.foldlM_eq
    (hpacked : ∀ m p, step m ⟨1, 2, p⟩ = .ok { m with cursors := m.cursors ++ packed p.length p })
    (hsingle : ∀ m p, step m ⟨1, 0, p⟩ = .ok { m with cursors := m.cursors ++ [varintOf p] })
    {cs : List ℕ} {l : List Spelling} (h : Runs cs l) (m : Ack) :
    (l.map field).foldlM step m = .ok { m with cursors := m.cursors ++ cs } := by
  induction h generalizing m with
  | nil =>
    rw [List.append_nil]
    rfl
  | @joined s hs ws vs hws hpayload cs l _ ih =>
    obtain ⟨⟨number, wireType, payload⟩, bytes, hwritten⟩ := s
    obtain ⟨rfl, rfl⟩ := hs
    subst hpayload
    simp only [List.map_cons, List.foldlM_cons, hpacked, packed_flatten hws le_rfl]
    rw [← List.append_assoc]
    exact ih _
  | @single s hs v hv cs l _ ih =>
    obtain ⟨⟨number, wireType, payload⟩, bytes, hwritten⟩ := s
    obtain ⟨rfl, rfl⟩ := hs
    simp only [List.map_cons, List.foldlM_cons, hsingle, varintOf_spells hv]
    rw [List.append_cons m.cursors v cs]
    exact ih _

/-- The epoch is set, from zero. -/
theorem Epoch.foldlM_eq (hepoch : ∀ m p, step m ⟨2, 0, p⟩ = .ok { m with epoch := varintOf p })
    {epoch : ℕ} {l : List Spelling} (h : Epoch epoch l) (cs : List ℕ) :
    (l.map field).foldlM step ⟨cs, 0⟩ = .ok ⟨cs, epoch⟩ := by
  cases h with
  | omitted => rfl
  | @written s hs _ hv =>
    obtain ⟨⟨number, wireType, payload⟩, bytes, hwritten⟩ := s
    obtain ⟨rfl, rfl⟩ := hs
    simp only [List.map_cons, List.foldlM_cons, hepoch, varintOf_spells hv]
    rfl

end Step

/-- The cursors are read in order, whichever way each run is written and wherever the epoch is. -/
theorem Ack.decode_runs {cs cs' : List ℕ} {epoch : ℕ} {l l' e : List Spelling} (hl : Runs cs l)
    (hl' : Runs cs' l') (he : Epoch epoch e) (hlen : (message (l ++ (e ++ l'))).length < 2 ^ 63) :
    Ack.decode (message (l ++ (e ++ l'))) = .ok (some ⟨cs ++ cs', epoch⟩) := by
  obtain ⟨step, hdecode, hpacked, hsingle, hepoch⟩ := Ack.exists_step
  rw [hdecode, decodeWith_message step _ hlen, List.map_append, List.map_append, List.foldlM_append,
    hl.foldlM_eq hpacked hsingle]
  -- the cursors before the epoch, the epoch, and the cursors after it
  simp only [List.nil_append, List.foldlM_append]
  show Except.map some ((e.map field).foldlM step ⟨cs, 0⟩
    >>= fun m => (l'.map field).foldlM step m) = _
  rw [he.foldlM_eq hepoch cs]
  exact congrArg (Except.map some) (hl'.foldlM_eq hpacked hsingle ⟨cs, epoch⟩)

/-! ## Forward compatibility -/

/-- Fields outside its schema, at any field boundaries of what a message is encoded in, change
nothing of what is decoded; and an `Ack` is read whichever way its cursors are written, among such
fields as well. -/
theorem forward_compatible :
    (∀ m : Message, m.InRange → (∃ l, message l = m.encode)
      ∧ ∀ l l', message l = m.encode → Inserted m.Known m.Within l l' →
        (message l').length < 2 ^ 63 → m.decode (message l') = m.decode m.encode)
    ∧ (∀ b, Syn.decode b = Syn.decode Syn.encode)
    ∧ ∀ cs cs' epoch l l' e, Runs cs l → Runs cs' l' → Epoch epoch e →
      (message (l ++ (e ++ l'))).length < 2 ^ 63 →
      ∀ k, Inserted (Message.ack ⟨cs ++ cs', epoch⟩).Known NoneWithin (l ++ (e ++ l')) k →
        (message k).length < 2 ^ 63 → Ack.decode (message k) = .ok (some ⟨cs ++ cs', epoch⟩) := by
  refine ⟨fun m hm => ⟨Message.exists_message hm, fun l l' hl hins hlen => ?_⟩, fun _ => rfl, ?_⟩
  · have hl63 : (message l).length < 2 ^ 63 := hl ▸ hm.1
    rw [← hl]
    cases m with
    | get m =>
      exact congrArg (Except.map (Option.map Message.get)) (Get.decode_inserted hl63 hlen hins)
    | offer m =>
      exact congrArg (Except.map (Option.map Message.offer)) (Offer.decode_inserted hl63 hlen hins)
    | want m =>
      exact congrArg (Except.map (Option.map Message.want)) (Want.decode_inserted hl63 hlen hins)
    | delivery m =>
      exact congrArg (Except.map (Option.map Message.delivery)) (Delivery.decode_inserted hl63 hlen hins)
    | ack m =>
      exact congrArg (Except.map (Option.map Message.ack)) (Ack.decode_inserted hl63 hlen hins)
  · intro cs cs' epoch l l' e hl hl' he hlen k hins hk
    rw [Ack.decode_inserted hlen hk hins, Ack.decode_runs hl hl' he hlen]

/-- Bytes under a number that no message has. -/
def foreignBytes : Spelling := ofBytes 9 [0x0a, 0x03] (by decide) (by decide)

/-- Two cursors packed, the epoch, and a cursor by itself. -/
def mixedRuns : List Spelling :=
  [ofBytes 1 (putUvarint 1 ++ putUvarint 300) (by decide) (by decide),
    ofVarint 2 4 (by decide) (by decide), ofVarint 1 2 (by decide) (by decide)]

theorem forward_compatible_mixed :
    (Message.get ⟨5, 7⟩).decode (message [ofVarint 1 5 (by decide) (by decide), foreignBytes,
      ofVarint 2 7 (by decide) (by decide)])
        = (Message.get ⟨5, 7⟩).decode (Message.get ⟨5, 7⟩).encode
    ∧ Ack.decode (message (foreignBytes :: mixedRuns)) = .ok (some ⟨[1, 300] ++ [2], 4⟩) := by
  have hforeign : ¬ (foreignBytes.field.number = 1 ∨ foreignBytes.field.number = 2) := by decide
  have hspells : ∀ v, v < 2 ^ 64 → Spells (putUvarint v) v := fun _ h => spells_putUvarint h
  constructor
  · have hm : (Message.get ⟨5, 7⟩).InRange := ⟨by decide +kernel, by decide, by decide⟩
    exact (forward_compatible.1 (.get ⟨5, 7⟩) hm).2
      [ofVarint 1 5 (by decide) (by decide), ofVarint 2 7 (by decide) (by decide)]
      [ofVarint 1 5 (by decide) (by decide), foreignBytes, ofVarint 2 7 (by decide) (by decide)]
      (by decide +kernel) (.keep _ (.insert hforeign (.keep _ .nil))) (by decide +kernel)
  · have htwo : List.Forall₂ Spells [putUvarint 1, putUvarint 300] [1, 300] :=
      .cons (hspells 1 (by decide)) (.cons (hspells 300 (by decide)) .nil)
    exact forward_compatible.2.2 [1, 300] [2] 4
      [ofBytes 1 (putUvarint 1 ++ putUvarint 300) (by decide) (by decide)]
      [ofVarint 1 2 (by decide) (by decide)] [ofVarint 2 4 (by decide) (by decide)]
      (.joined ⟨rfl, rfl⟩ htwo rfl .nil) (.single ⟨rfl, rfl⟩ (hspells 2 (by decide)) .nil)
      (.written ⟨rfl, rfl⟩ (hspells 4 (by decide))) (by decide +kernel) _
      (.insert hforeign (.keep _ (.keep _ (.keep _ .nil)))) (by decide +kernel)

end Melissi.Wire.Pb
