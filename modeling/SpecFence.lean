import SpecFence.Pass.Run
import SpecFence.Proofs.Built
import SpecFence.Proofs.TaintFlow
import SpecFence.Proofs.Independence
import SpecFence.Proofs.Restoration
import SpecFence.Proofs.RunOutcome
import SpecFence.Proofs.Determined
import SpecFence.Proofs.Precision
import SpecFence.Proofs.PlacedLeaks
import SpecFence.Proofs.ClosestCut
import SpecFence.Proofs.SingleGroup
import SpecFence.Proofs.Anytime
import SpecFence.Proofs.MemoryFlow
import SpecFence.Proofs.ObjectRegions
import SpecFence.Proofs.Narrowing
import SpecFence.Proofs.SplitBlock
import SpecFence.Proofs.SettledPlacement
import SpecFence.Proofs.BranchWaypoints
import SpecFence.Proofs.ControlEdges
import SpecFence.Proofs.Statistics
import SpecFence.Proofs.Frequency
import SpecFence.Proofs.DefUse
import SpecFence.Proofs.Ownership
import SpecFence.Proofs.Listing
import SpecFence.Proofs.ShortestWalk
import SpecFence.Proofs.Reachability
import SpecFence.Proofs.LeastLabels
import SpecFence.Proofs.PassHistory
import SpecFence.Proofs.Circles
