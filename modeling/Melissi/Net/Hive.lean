import Melissi.Net.BzzAddress

/-!
# The peer push

Reference: `crates/net/src/hive.rs`. A peer pushes signed addresses in framed batches; the receiver
verifies each and keeps those that do.
-/

namespace Melissi.Net

open Melissi.Protobuf

/-- The addresses of a `Peers` message, unverified: what does not decode is passed over, and a
message that goes wrong gives those before it does. -/
def decodePeers (b : Bytes) : Except String (List BzzAddress) :=
  match fields b with
  | .error e => .error e
  | .ok (fs, _) => fs.foldlM (fun out f =>
      if f.number = 1 then (BzzAddress.decode f.payload).map fun a => out ++ a.toList
      else .ok out) []

/-- A peer whose signed binding verifies. -/
structure DiscoveredPeer where
  overlay : Address
  underlay : Bytes
  eth : ByteArr 20
deriving DecidableEq

structure HiveReceiver where
  networkId : ℕ
  buf : Bytes
  peers : List DiscoveredPeer

namespace HiveReceiver

def new (networkId : ℕ) : HiveReceiver := ⟨networkId, [], []⟩

/-- The peers of a message that verify. -/
def verified (P : Primitives) (networkId : ℕ) (addrs : List BzzAddress) : List DiscoveredPeer :=
  addrs.filterMap fun a => (a.verify P networkId).map fun eth => ⟨a.overlay, a.underlay, eth⟩

/-- Decode every complete message in the buffer. Each takes at least a byte. -/
def drain (P : Primitives) : ℕ → HiveReceiver → Except String HiveReceiver
  | 0, r => .ok r
  | fuel + 1, r =>
    match deframe r.buf with
    | .error e => .error e
    | .ok none => .ok r
    | .ok (some (msg, n)) =>
      match decodePeers msg with
      | .error e => .error e
      | .ok addrs => drain P fuel
          { r with buf := r.buf.drop n, peers := r.peers ++ verified P r.networkId addrs }

/-- Feed what arrived. -/
def feed (P : Primitives) (r : HiveReceiver) (input : Bytes) : Except String HiveReceiver :=
  let r := { r with buf := r.buf ++ input }
  drain P r.buf.length r

end HiveReceiver

end Melissi.Net
