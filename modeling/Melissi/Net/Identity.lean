import Melissi.Net.Handshake
import Melissi.Protobuf.Spelling

/-!
# Identities on the wire

Reference: `crates/net/src/lib.rs` and `crates/net/src/pb.rs`. An identity is written with each of
its fixed-width fields, also where these are all zero, and is read back alone, in an `Ack` and in
the `Ack` of a `SynAck`. One fixed-width field of the wrong length spoils an identity, and no field
that comes after it repairs that.
-/

namespace Melissi.Net

open Melissi.Protobuf Melissi.Protobuf.Spelling

/-- A fixed-width field of the wrong length. -/
def Misfit (f : Field) : Prop :=
  (f.number = 2 ∧ f.payload.length ≠ 65) ∨ (f.number = 3 ∧ f.payload.length ≠ 32)
    ∨ (f.number = 4 ∧ f.payload.length ≠ 32) ∨ (f.number = 6 ∧ f.payload.length ≠ 20)

namespace BzzAddress

/-- A misfit spoils the identity. -/
theorem take_misfit {f : Field} (h : Misfit f) (s : BzzAddress × Bool) : (take s f).2 = true := by
  obtain ⟨number, wireType, payload⟩ := f
  obtain ⟨rfl, hlen⟩ | ⟨rfl, hlen⟩ | ⟨rfl, hlen⟩ | ⟨rfl, hlen⟩ := h
  all_goals simp only [take, dif_neg hlen]

/-- A spoilt identity stays so. -/
theorem take_spoilt {s : BzzAddress × Bool} (h : s.2 = true) (f : Field) : (take s f).2 = true := by
  unfold take
  split
  case h_2 | h_3 | h_4 | h_6 => split <;> first | exact h | rfl
  all_goals exact h

theorem foldl_take_spoilt {s : BzzAddress × Bool} (h : s.2 = true) (fs : List Field) :
    (fs.foldl take s).2 = true := by
  induction fs generalizing s with
  | nil => exact h
  | cons f fs ih => exact ih (take_spoilt h f)

/-- Among any fields, a misfit is not repaired. -/
theorem foldl_take_misfit {fs : List Field} (h : ∃ f ∈ fs, Misfit f) (s : BzzAddress × Bool) :
    (fs.foldl take s).2 = true := by
  obtain ⟨f, hmem, hf⟩ := h
  obtain ⟨before, after, rfl⟩ := List.append_of_mem hmem
  rw [List.foldl_append, List.foldl_cons]
  exact foldl_take_spoilt (take_misfit hf _) after

/-- Fields with a misfit among them are no identity, whatever bytes follow, unless the walk over
these aborts. -/
theorem decode_misfit {l : List Spelling} (h : ∃ s ∈ l, Misfit s.field)
    (hlen : (message l).length < 2 ^ 63) (rest : Bytes) :
    decode (message l ++ rest) = (fields rest).map fun _ => none := by
  have hfold : ∀ (fs : List Field) (s : BzzAddress × Bool),
      fs.foldlM (fun s f => (.ok (take s f) : Except String _)) s = .ok (fs.foldl take s) :=
    fun fs s => List.foldlM_pure
  have hmisfit : ∀ fs, ∃ f ∈ l.map field ++ fs, Misfit f := by
    intro fs
    obtain ⟨s, hs, hf⟩ := h
    exact ⟨s.field, List.mem_append_left _ (List.mem_map_of_mem hs), hf⟩
  rw [decode, decodeWith, fields_message hlen]
  -- the walk over what follows may abort; if it does not, the misfit is among the fields
  cases fields rest with
  | error e => rfl
  | ok r =>
    simp only [Except.map, hfold]
    split
    · rw [Option.bind_some, if_pos (foldl_take_misfit (hmisfit r.1) _)]
    · rfl

end BzzAddress

/-- Identities, and the messages of a handshake that carry them, read back as they were written; and
one fixed-width field of the wrong length among any fields makes an identity unreadable. -/
theorem identities_read_back :
    (∀ a : BzzAddress, a.timestamp < 2 ^ 64 → a.encode.length < 2 ^ 63 →
      BzzAddress.decode a.encode = .ok (some a))
    ∧ (∀ m : Ack, m.networkId < 2 ^ 64 → m.address.timestamp < 2 ^ 64 → m.encode.length < 2 ^ 63 →
      Ack.decode m.encode = .ok (some m))
    ∧ (∀ m : SynAck, m.syn.observedUnderlay ≠ [] → m.ack.networkId < 2 ^ 64 →
      m.ack.address.timestamp < 2 ^ 64 → m.encode.length < 2 ^ 63 →
      SynAck.decode m.encode = .ok (some m))
    ∧ ∀ l, (∃ s ∈ l, Misfit s.field) → (message l).length < 2 ^ 63 →
      BzzAddress.decode (message l) = .ok none
        ∧ ∀ rest a, BzzAddress.decode (message l ++ rest) ≠ .ok (some a) := by
  refine ⟨fun a htime hlen => ?_, fun m hnet htime hlen => Ack.decode_encode hnet htime hlen,
    fun m hsyn hnet htime hlen => SynAck.decode_encode hsyn hnet htime hlen,
    fun l hmisfit hlen => ⟨?_, fun rest a h => ?_⟩⟩
  · exact BzzAddress.decode_encode htime (a.length_encode.2.trans_lt hlen)
  · rw [← List.append_nil (message l), BzzAddress.decode_misfit hmisfit hlen]
    rfl
  · rw [BzzAddress.decode_misfit hmisfit hlen] at h
    cases hrest : fields rest <;> simp [hrest, Except.map] at h

/-- A message in three scripts, and an identity of one short signature and one that fits. -/
theorem identities_read_back_plain :
    SynAck.decode (SynAck.encode ⟨⟨[8]⟩, ⟨BzzAddress.plain 7 1, 1, true, "swarm ρ 蜂"⟩⟩)
      = .ok (some ⟨⟨[8]⟩, ⟨BzzAddress.plain 7 1, 1, true, "swarm ρ 蜂"⟩⟩)
    ∧ BzzAddress.decode (message [ofBytes 2 [1] (by decide) (by decide),
        ofBytes 2 (List.replicate 65 1) (by decide) (by decide)]) = .ok none :=
  ⟨identities_read_back.2.2.1 _ (by simp) (by decide) (by decide +kernel) (by decide +kernel),
    (identities_read_back.2.2.2 _ ⟨_, List.mem_cons_self, .inl ⟨rfl, by decide⟩⟩
      (by decide +kernel)).1⟩

end Melissi.Net
