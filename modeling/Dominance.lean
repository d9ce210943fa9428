import Dominance.Address
import Dominance.Build.Config
import Dominance.Build.Error
import Dominance.Build.Host
import Dominance.Build.Index
import Dominance.Build.Pass
import Dominance.Build.Run
import Dominance.Command.Arguments
import Dominance.Command.Directory
import Dominance.Command.Error
import Dominance.Command.Run
import Dominance.Dot.Escape
import Dominance.Dot.Picture
import Dominance.EdgeList.Reader
import Dominance.EdgeList.Statement
import Dominance.Graph.Basic
import Dominance.Graph.Numbering
import Dominance.Graph.Picture
import Dominance.Log
import Dominance.Main
import Dominance.Node
import Dominance.Proofs.Acceptance
import Dominance.Proofs.AddressSpelling
import Dominance.Proofs.AddressText
import Dominance.Proofs.Answers
import Dominance.Proofs.Arena
import Dominance.Proofs.Assembly
import Dominance.Proofs.Calls
import Dominance.Proofs.CanonicalAddress
import Dominance.Proofs.Chain
import Dominance.Proofs.ChainWalks
import Dominance.Proofs.Configuration
import Dominance.Proofs.Convergence
import Dominance.Proofs.Descent
import Dominance.Proofs.Description
import Dominance.Proofs.Enumeration
import Dominance.Proofs.Exploration
import Dominance.Proofs.Freshness
import Dominance.Proofs.Grammar
import Dominance.Proofs.GraphBuild
import Dominance.Proofs.HostPath
import Dominance.Proofs.JsonText
import Dominance.Proofs.LabelText
import Dominance.Proofs.LastPass
import Dominance.Proofs.Layout
import Dominance.Proofs.Lookup
import Dominance.Proofs.Meeting
import Dominance.Proofs.MonotoneChains
import Dominance.Proofs.Numbering
import Dominance.Proofs.Order
import Dominance.Proofs.Outcome
import Dominance.Proofs.Outline
import Dominance.Proofs.Path
import Dominance.Proofs.PictureText
import Dominance.Proofs.Pictures
import Dominance.Proofs.Positional
import Dominance.Proofs.Postorder
import Dominance.Proofs.PostorderText
import Dominance.Proofs.Queries
import Dominance.Proofs.ReachabilityReport
import Dominance.Proofs.Recurrence
import Dominance.Proofs.Reducible
import Dominance.Proofs.Relayout
import Dominance.Proofs.Relinking
import Dominance.Proofs.Rooted
import Dominance.Proofs.RoundTrip
import Dominance.Proofs.SeedOrder
import Dominance.Proofs.Settling
import Dominance.Proofs.SettlingHost
import Dominance.Proofs.Stabilization
import Dominance.Proofs.StackWalk
import Dominance.Proofs.Stage
import Dominance.Proofs.Topological
import Dominance.Proofs.Verification
import Dominance.Proofs.Visit
import Dominance.Proofs.Walk
import Dominance.Proofs.WalkOrder
import Dominance.Report.Json
import Dominance.Report.Postorder
import Dominance.Report.Table
import Dominance.Report.Tree
import Dominance.Text.Blank
import Dominance.Text.Line
import Dominance.Text.Numeral
import Dominance.Tree.Basic
import Dominance.Tree.Picture
import Dominance.Tree.Query
import Dominance.Tree.Verify
import Dominance.Walk
