import StackLift.BitSet
import StackLift.Build.Unit
import StackLift.Code.Assembler
import StackLift.Code.Cursor
import StackLift.Config
import StackLift.Flow.Liveness
import StackLift.Graph.Dot
import StackLift.Plugin.Recipe
import StackLift.Plugin.Summary
import StackLift.Profile
import StackLift.Program.Hierarchy
import StackLift.Proofs.Assembly
import StackLift.Proofs.Built
import StackLift.Proofs.Chains
import StackLift.Proofs.Depths
import StackLift.Proofs.Odds
import StackLift.Proofs.Discipline
import StackLift.Proofs.Duo.Builds
import StackLift.Proofs.Gather
import StackLift.Proofs.LivePaths
import StackLift.Proofs.Paths
import StackLift.Proofs.Ledger.Builds
import StackLift.Proofs.Rerun.Builds
import StackLift.Proofs.RemovalOrder
import StackLift.Proofs.Shortcuts
import StackLift.Proofs.Subtypes
import StackLift.Proofs.Dominators
import StackLift.Proofs.Nesting
import StackLift.Proofs.Quotient
import StackLift.Proofs.Escape
import StackLift.Proofs.Members
