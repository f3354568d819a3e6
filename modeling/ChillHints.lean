import ChillHints.Code.Parser
import ChillHints.Code.Printer
import ChillHints.Code.Sample
import ChillHints.Hint.Container
import ChillHints.Hint.Emit
import ChillHints.Machine.Run
import ChillHints.Publish.Publisher
import ChillHints.Proofs.Loop
import ChillHints.Proofs.Reach
import ChillHints.Proofs.Position
import ChillHints.Proofs.Structure
import ChillHints.Proofs.Flow
import ChillHints.Proofs.UsePath
import ChillHints.Proofs.NextUse
import ChillHints.Proofs.Defs
import ChillHints.Proofs.Validity
import ChillHints.Proofs.Container
import ChillHints.Proofs.Exec
import ChillHints.Proofs.Control
import ChillHints.Proofs.Spilling
import ChillHints.Proofs.Direct
import ChillHints.Proofs.Hinted
import ChillHints.Proofs.Noise
import ChillHints.Proofs.Point
import ChillHints.Proofs.Unread
import ChillHints.Proofs.Chillable
import ChillHints.Proofs.Watch
import ChillHints.Proofs.Simulation
import ChillHints.Proofs.Crew
import ChillHints.Proofs.Publishing
import ChillHints.Proofs.Text
import ChillHints.Proofs.RoundTrip
import ChillHints.Proofs.Holding
import ChillHints.Proofs.Emission
import ChillHints.Proofs.Account
import ChillHints.Proofs.Statistics
import ChillHints.Proofs.Framing
import ChillHints.Proofs.Pool
import ChillHints.Proofs.Sample
import ChillHints.Proofs.Termination
import ChillHints.Proofs.Arena
import ChillHints.Proofs.Footprint
import ChillHints.Proofs.Route
import ChillHints.Proofs.Halting
import ChillHints.Proofs.Recency
