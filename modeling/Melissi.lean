import Melissi.Machine.Cycle
import Melissi.Machine.Forget
import Melissi.Machine.Ablations
import Melissi.Machine.Priority
import Melissi.Machine.Specified
import Melissi.Node.Departure
import Melissi.Node.Preload
import Melissi.Node.Provenance
import Melissi.Node.Stated
import Melissi.Puller.Converge
import Melissi.Wire.Drive
import Melissi.Wire.Range
import Melissi.Wire.Honest
import Melissi.Wire.Convergence
import Melissi.Wire.Validation
import Melissi.Net.Agreement
import Melissi.Net.Authentic
import Melissi.Net.Malformed
import Melissi.Net.Dnsaddr
import Melissi.Net.Assembly
import Melissi.Net.Grind
import Melissi.Net.Identity
import Melissi.Net.Push
import Melissi.Net.PreImage
import Melissi.Puller.Settles
import Melissi.Sim.SelfPlay
import Melissi.Protobuf.Grammar
import Melissi.Wire.Bmt
import Melissi.Protobuf.Reassembly
import Melissi.Wire.Forward
import Melissi.Settlement.History
import Melissi.Overlay.Proximity
import Melissi.Neighbourhood.Specified
import Melissi.Net.Decoders
import Melissi.Node.WorkingSet
import Melissi.Node.Schedule
import Melissi.Node.Balance
import Melissi.Node.Failover
import Melissi.Node.Diff
