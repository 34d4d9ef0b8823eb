import BehaviorTree.Agent
import BehaviorTree.Behaviors
import BehaviorTree.Blackboard
import BehaviorTree.Blackboard.Json
import BehaviorTree.CommandLine
import BehaviorTree.CommandLine.Arguments
import BehaviorTree.CommandLine.Demo
import BehaviorTree.CommandLine.Help
import BehaviorTree.CommandLine.Walker
import BehaviorTree.Config
import BehaviorTree.Config.Json
import BehaviorTree.Config.Yaml
import BehaviorTree.Decimal
import BehaviorTree.Directory
import BehaviorTree.Draw
import BehaviorTree.Edit
import BehaviorTree.Forest
import BehaviorTree.Forest.Edit
import BehaviorTree.Globals
import BehaviorTree.Handler
import BehaviorTree.Handler.Json
import BehaviorTree.HashMinter
import BehaviorTree.Json
import BehaviorTree.Json.Printer
import BehaviorTree.Json.Reader
import BehaviorTree.Json.Record
import BehaviorTree.Main
import BehaviorTree.NodeHash
import BehaviorTree.NodeKind
import BehaviorTree.NodeKind.Json
import BehaviorTree.NodeState
import BehaviorTree.NodeState.Json
import BehaviorTree.Pass
import BehaviorTree.Pass.Tick
import BehaviorTree.Proofs.Tree.WellFormed
import BehaviorTree.Random
import BehaviorTree.Reference
import BehaviorTree.Reference.Json
import BehaviorTree.Status
import BehaviorTree.Status.Json
import BehaviorTree.Subtree
import BehaviorTree.Subtree.Json
import BehaviorTree.Subtree.Yaml
import BehaviorTree.TopologyError
import BehaviorTree.TopologyError.Json
import BehaviorTree.Trace
import BehaviorTree.Trace.Json
import BehaviorTree.Tree
import BehaviorTree.Tree.Edit
import BehaviorTree.Tree.Json
import BehaviorTree.Yaml
import BehaviorTree.Yaml.Cursor
import BehaviorTree.Yaml.Number
import BehaviorTree.Yaml.Reader
import BehaviorTree.Yaml.Resolve
import BehaviorTree.Yaml.Scalar
import BehaviorTree.Yaml.Token
import BehaviorTree.Yaml.Typed
import BehaviorTree.Proofs.Tree.Detaching
import BehaviorTree.Proofs.Edit
import BehaviorTree.Proofs.Tree.Rearranging
import BehaviorTree.Proofs.Tree.Planting
import BehaviorTree.Proofs.Tree.Editing
import BehaviorTree.Proofs.Tree.Walking
import BehaviorTree.Proofs.Grove
import BehaviorTree.Proofs.Forest.Edit
import BehaviorTree.Proofs.Pass.Steps
import BehaviorTree.Proofs.Pass.Lifecycle
import BehaviorTree.Proofs.Pass.Flow
import BehaviorTree.Proofs.Pass.Ticking
import BehaviorTree.Proofs.Pass.Running
import BehaviorTree.Proofs.Handler.Setup
import BehaviorTree.Proofs.Handler.Run
import BehaviorTree.Proofs.Pass.Nesting
import BehaviorTree.Proofs.Pass.Drawing
import BehaviorTree.Proofs.Pass.Bounds
import BehaviorTree.Proofs.Pass.Halting
import BehaviorTree.Proofs.Handler.Drawing
import BehaviorTree.Proofs.Pass.Acting
import BehaviorTree.Proofs.Pass.Script
import BehaviorTree.Proofs.Pass.Failing
import BehaviorTree.Proofs.Handler.Ticking
import BehaviorTree.Proofs.Handler.Failing
import BehaviorTree.Proofs.Pass.Budget
import BehaviorTree.Proofs.Handler.Budget
import BehaviorTree.Proofs.Forest.Walking
import BehaviorTree.Proofs.Handler.Binding
import BehaviorTree.Proofs.Pass.Ranging
import BehaviorTree.Proofs.Handler.Soundness
import BehaviorTree.Proofs.NodeHash
import BehaviorTree.Proofs.Tree.Scoping
import BehaviorTree.Proofs.Forest.History
import BehaviorTree.Proofs.Forest.Numbering
import BehaviorTree.Proofs.Handler.History
import BehaviorTree.Proofs.Pass.Resuming
import BehaviorTree.Proofs.Handler.Resuming
import BehaviorTree.Proofs.Pass.Checking
import BehaviorTree.Proofs.Pass.Limiting
import BehaviorTree.Proofs.Handler.Limiting
import BehaviorTree.Proofs.Pass.Confining
import BehaviorTree.Proofs.Handler.Confining
import BehaviorTree.Proofs.Pass.Relating
import BehaviorTree.Proofs.Pass.Viewing
import BehaviorTree.Proofs.Handler.Viewing
import BehaviorTree.Proofs.Handler.Pruning
import BehaviorTree.Proofs.Handler.Tracing
import BehaviorTree.Proofs.Pass.Wary
import BehaviorTree.Proofs.Pass.Fitting
import BehaviorTree.Proofs.Handler.Fitting
import BehaviorTree.Proofs.Json
import BehaviorTree.Proofs.Subtree.RoundTrip
import BehaviorTree.Proofs.Tree.Standing
import BehaviorTree.Proofs.Tree.Allotting
import BehaviorTree.Proofs.Tree.Adding
import BehaviorTree.Proofs.Tree.Carrying
import BehaviorTree.Proofs.Tree.Reordering
import BehaviorTree.Proofs.Tree.Interposing
import BehaviorTree.Proofs.Tree.Swapping
import BehaviorTree.Proofs.Tree.Crossing
import BehaviorTree.Proofs.Tree.Designating
import BehaviorTree.Proofs.Tree.Following
import BehaviorTree.Proofs.Forest.Leading
import BehaviorTree.Proofs.Pass.Keeping
import BehaviorTree.Proofs.Pass.Recording
import BehaviorTree.Proofs.Handler.Recording
import BehaviorTree.Proofs.Pass.Recalling
import BehaviorTree.Proofs.Pass.Succeeding
import BehaviorTree.Proofs.Handler.Succeeding
import BehaviorTree.Proofs.Tree.Admitting
import BehaviorTree.Proofs.Tree.Overshooting
import BehaviorTree.Proofs.Tree.Rehashing
import BehaviorTree.Proofs.Tree.Restoring
import BehaviorTree.Proofs.Forest.Touring
import BehaviorTree.Proofs.Pass.Observing
import BehaviorTree.Proofs.Handler.Observing
import BehaviorTree.Proofs.Pass.Counting
import BehaviorTree.Proofs.Handler.Counting
import BehaviorTree.Proofs.Pass.Waiting
import BehaviorTree.Proofs.Pass.Scanning
import BehaviorTree.Proofs.Handler.Waiting
import BehaviorTree.Proofs.Handler.Scanning
import BehaviorTree.Proofs.Pass.Permuting
import BehaviorTree.Proofs.Handler.Permuting
import BehaviorTree.Proofs.Pass.Gathering
import BehaviorTree.Proofs.Handler.Gathering
import BehaviorTree.Proofs.Tree.Listing
import BehaviorTree.Proofs.Tree.Ascending
import BehaviorTree.Proofs.Random
import BehaviorTree.Proofs.Draw
import BehaviorTree.Proofs.Handler.Batching
import BehaviorTree.Proofs.Tree.Consistency
