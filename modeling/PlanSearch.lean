import PlanSearch.Acceptance
import PlanSearch.Arena
import PlanSearch.Checked
import PlanSearch.Codec.Command
import PlanSearch.Codec.Declaration
import PlanSearch.Codec.Dialogue
import PlanSearch.Codec.Editable
import PlanSearch.Codec.Expression
import PlanSearch.Codec.Instance
import PlanSearch.Codec.Lifecycle
import PlanSearch.Codec.Names
import PlanSearch.Codec.Refusal
import PlanSearch.Codec.Run
import PlanSearch.Codec.Score
import PlanSearch.Codec.Search
import PlanSearch.Config.Amend
import PlanSearch.Config.Basic
import PlanSearch.Config.Build
import PlanSearch.Config.Decode
import PlanSearch.Config.Encode
import PlanSearch.Config.Read
import PlanSearch.Document.Basic
import PlanSearch.Document.Decode
import PlanSearch.Document.Encode
import PlanSearch.Document.Toml
import PlanSearch.Document.Yaml
import PlanSearch.Error
import PlanSearch.Evaluation
import PlanSearch.Forager
import PlanSearch.Lifecycle
import PlanSearch.Mode
import PlanSearch.Move
import PlanSearch.Neighbourhood.Candidates
import PlanSearch.Neighbourhood.Composites
import PlanSearch.Neighbourhood.Leaves
import PlanSearch.Neighbourhood.Tree
import PlanSearch.Network.Basic
import PlanSearch.Network.Builder
import PlanSearch.Network.Collector
import PlanSearch.Network.Memory
import PlanSearch.Network.Session
import PlanSearch.Network.Tuple
import PlanSearch.Phase.Basic
import PlanSearch.Phase.Construction
import PlanSearch.Phase.LocalSearch
import PlanSearch.Phase.Placer
import PlanSearch.Phase.Scripted
import PlanSearch.Problem
import PlanSearch.Problem.Queens
import PlanSearch.Problem.Tasks
import PlanSearch.Random.KeyStream
import PlanSearch.Random.Source
import PlanSearch.Run
import PlanSearch.Score.Basic
import PlanSearch.Score.Text
import PlanSearch.Sheet.Basic
import PlanSearch.Sheet.Expression
import PlanSearch.Solver
import PlanSearch.Stats
import PlanSearch.Termination
import PlanSearch.Text.Blank
import PlanSearch.Text.Decimal
import PlanSearch.Text.Hidden
import PlanSearch.Text.Number
import PlanSearch.Text.Outline
import PlanSearch.Text.Quoted
import PlanSearch.Variable
import PlanSearch.Workspace.Basic
import PlanSearch.Workspace.Incremental
import PlanSearch.Workspace.Recomputing
import PlanSearch.Proofs.Checked
import PlanSearch.Proofs.Data.HashMap
import PlanSearch.Proofs.Network.Collector
import PlanSearch.Proofs.Network.Feed
import PlanSearch.Proofs.Network.View
import PlanSearch.Proofs.Network.Group
import PlanSearch.Proofs.Network.History
import PlanSearch.Proofs.Move.Slot
import PlanSearch.Proofs.Move.Undo
import PlanSearch.Proofs.Neighbourhood.Draws
import PlanSearch.Proofs.Phase.Scope
import PlanSearch.Proofs.Search.Evaluation
import PlanSearch.Proofs.Search.Forager
import PlanSearch.Proofs.Search.Gather
import PlanSearch.Proofs.Search.LocalSearch
import PlanSearch.Proofs.Workspace.Incremental
import PlanSearch.Proofs.Neighbourhood.Enumeration
import PlanSearch.Proofs.Solver.Best
import PlanSearch.Proofs.Mirror.Construction
import PlanSearch.Proofs.Mirror.Solver
import PlanSearch.Proofs.Workspace.Twin
import PlanSearch.Proofs.Neighbourhood.Respect
import PlanSearch.Proofs.Mirror.Threads
import PlanSearch.Proofs.Mirror.Modes
import PlanSearch.Proofs.Neighbourhood.Stock
import PlanSearch.Proofs.Neighbourhood.Ending
import PlanSearch.Proofs.Lifecycle.Solve
import PlanSearch.Proofs.Solver.Ranges
import PlanSearch.Proofs.Network.Sharing
import PlanSearch.Proofs.Solver.Limits
import PlanSearch.Proofs.Network.Requests
import PlanSearch.Proofs.Network.Pruning
import PlanSearch.Proofs.Search.Climbing
import PlanSearch.Proofs.Neighbourhood.Upright
import PlanSearch.Proofs.Search.Exhaustion
import PlanSearch.Proofs.Search.Optimum
import PlanSearch.Proofs.Config.Elaboration
import PlanSearch.Proofs.Config.Building
import PlanSearch.Proofs.Solver.Errors
import PlanSearch.Proofs.Phase.Filling
import PlanSearch.Proofs.Network.Discipline
import PlanSearch.Proofs.Network.Messages
import PlanSearch.Proofs.Network.Overruns
import PlanSearch.Proofs.Network.Views
import PlanSearch.Proofs.Network.Balance
import PlanSearch.Proofs.Search.Account
import PlanSearch.Proofs.Search.Winner
import PlanSearch.Proofs.Search.Bounds
import PlanSearch.Proofs.Search.LateAcceptance
import PlanSearch.Proofs.Phase.Placing
import PlanSearch.Proofs.Phase.Picking
import PlanSearch.Proofs.Neighbourhood.Interleaving
import PlanSearch.Proofs.Search.Restoring
import PlanSearch.Proofs.Config.Limits
import PlanSearch.Proofs.Neighbourhood.Chances
import PlanSearch.Proofs.Network.Outcome
import PlanSearch.Proofs.Text.Reading
import PlanSearch.Proofs.Score.Text
import PlanSearch.Proofs.Search.Effect
import PlanSearch.Proofs.Solver.Seeds
import PlanSearch.Proofs.Problem.Assignments
import PlanSearch.Proofs.Search.Indices
import PlanSearch.Proofs.Network.Arity
import PlanSearch.Proofs.Lifecycle.Grammar
import PlanSearch.Proofs.Network.Filings
