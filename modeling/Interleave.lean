import Interleave.FaultInjection
import Interleave.Main
import Interleave.Program.Effect
import Interleave.Proofs.Agreement
import Interleave.Proofs.Checkpoints
import Interleave.Proofs.CleanStops
import Interleave.Proofs.ConfigChecks
import Interleave.Proofs.DepthCut
import Interleave.Proofs.Drawing
import Interleave.Proofs.Duplicates
import Interleave.Proofs.Exhaustion
import Interleave.Proofs.Following
import Interleave.Proofs.Independence
import Interleave.Proofs.IndependentActors
import Interleave.Proofs.Lockstep
import Interleave.Proofs.ModelSnapshots
import Interleave.Proofs.Moves
import Interleave.Proofs.NewickReading
import Interleave.Proofs.Outcomes
import Interleave.Proofs.Pruning
import Interleave.Proofs.RaceAnalysis
import Interleave.Proofs.Recency
import Interleave.Proofs.RecordedGraph
import Interleave.Proofs.Replaying
import Interleave.Proofs.SideTables
import Interleave.Proofs.SnapshotKeys
import Interleave.Proofs.Starvation
import Interleave.Proofs.StatusReports
import Interleave.Proofs.StoredRuns
import Interleave.Proofs.TraceGrammar
import Interleave.Proofs.Transport
import Interleave.Proofs.ViolationCauses
import Interleave.Proofs.VisitedBlocks
import Interleave.Proofs.VisitedSet
import Interleave.RunStore.Archive
import Interleave.RunStore.Migration
import Interleave.TransitionTable
