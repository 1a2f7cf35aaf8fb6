import Catena.Host.Console
import Catena.Main
import Catena.World.Inspect
import Catena.Proofs.Direct.Simulation
import Catena.Proofs.Machine.Abandoning
import Catena.Proofs.Machine.Capturing
import Catena.Proofs.Machine.Counters
import Catena.Proofs.Machine.Dataflow
import Catena.Proofs.Machine.Harvest
import Catena.Proofs.Machine.Isolation
import Catena.Proofs.Machine.Iteration
import Catena.Proofs.Machine.Lifecycle
import Catena.Proofs.Machine.Order
import Catena.Proofs.Machine.Receivers
import Catena.Proofs.Machine.Refusals
import Catena.Proofs.Machine.Resolution
import Catena.Proofs.Machine.Scopes
import Catena.Proofs.Machine.Unwinding
import Catena.Proofs.Machine.Snapshots
import Catena.Proofs.Machine.Suspension
import Catena.Proofs.Program.Brackets
import Catena.Proofs.Program.Composition
import Catena.Proofs.Program.RoundTrip
import Catena.Proofs.Store.Environments
