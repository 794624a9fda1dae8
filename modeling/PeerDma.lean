import PeerDma.Bench.PinShelf
import PeerDma.Bench.Session
import PeerDma.Signal
import PeerDma.Proofs.Coverage
import PeerDma.Proofs.Evictions
import PeerDma.Proofs.Failures
import PeerDma.Proofs.InFlight
import PeerDma.Proofs.Launches
import PeerDma.Proofs.Conservation
import PeerDma.Proofs.Outstanding
import PeerDma.Proofs.References
import PeerDma.Proofs.Pins
import PeerDma.Proofs.Draining
import PeerDma.Proofs.Tokens
import PeerDma.Proofs.AnyOrder
import PeerDma.Proofs.Timing
import PeerDma.Proofs.Idle
import PeerDma.Proofs.Commands
import PeerDma.Proofs.Sharding
import PeerDma.Proofs.Fewest
import PeerDma.Proofs.Maps
import PeerDma.Proofs.Acceptance
import PeerDma.Proofs.Cuts
import PeerDma.Proofs.Lookups
import PeerDma.Proofs.Sinks
import PeerDma.Proofs.Verdicts
import PeerDma.Proofs.Names
import PeerDma.Proofs.Walks
import PeerDma.Proofs.WaitRooms
import PeerDma.Proofs.Extents
