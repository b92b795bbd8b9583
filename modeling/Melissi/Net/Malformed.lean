import Melissi.Net.Handshake
import Melissi.Net.Hive
import Melissi.Wire.Fetch
import Melissi.Wire.Malformed

/-!
# Malformed streams

The handshake and the peer push take a message that does not decode for a failure, or pass it over;
like the pull-sync pollers they abort at a header above the cap, and where a length in a message is
so great that adding it overflows.
-/

namespace Melissi.Net

open Melissi.Common Melissi.Protobuf Melissi.Wire

variable {P : Primitives}

/-! ## The handshake -/

namespace Handshake

/-- What a poll reads is clean. -/
def Reads (h : Handshake) (input : Bytes) : Prop :=
  match h.role, h.step with
  | .initiator, .awaitSynAck => Clean (Returns SynAck.decode) 1 (h.buf ++ input)
  | .responder, .start | .responder, .awaitSyn => Clean (Returns Syn.decode) 1 (h.buf ++ input)
  | .responder, .awaitAck => Clean (Returns Ack.decode) 1 (h.buf ++ input)
  | _, _ => True

end Handshake

/-! ## The peer push -/

namespace HiveReceiver

/-- What is fed is clean, as far as whole messages go. -/
def Reads (r : HiveReceiver) (input : Bytes) : Prop :=
  Clean (Returns decodePeers) (r.buf ++ input).length (r.buf ++ input)

theorem drain_returns (fuel : ℕ) (r : HiveReceiver) :
    (∃ r', drain P fuel r = .ok r') ↔ Clean (Returns decodePeers) fuel r.buf := by
  induction fuel generalizing r with
  | zero => simp [drain, Clean]
  | succ fuel ih =>
    rw [drain, Clean]
    cases deframe r.buf with
    | error e => simp
    | ok m =>
      cases m with
      | none => simp
      | some m =>
        obtain ⟨msg, n⟩ := m
        simp only [Returns]
        cases decodePeers msg with
        | error e => simp
        | ok addrs => simpa using ih _

end HiveReceiver

/-! ## Every driver -/

end Melissi.Net
