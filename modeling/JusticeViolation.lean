import JusticeViolation.Ascending
import JusticeViolation.AssumptionGraph
import JusticeViolation.CommandLine.Arguments
import JusticeViolation.CommandLine.Files
import JusticeViolation.CommandLine.Run
import JusticeViolation.Construction
import JusticeViolation.Decomposition
import JusticeViolation.Domain
import JusticeViolation.Event
import JusticeViolation.Fact
import JusticeViolation.Fault
import JusticeViolation.Formula
import JusticeViolation.Formula.Encoding
import JusticeViolation.Game
import JusticeViolation.Game.Moves
import JusticeViolation.Graph.Basic
import JusticeViolation.Graph.Merge
import JusticeViolation.Graph.Steps
import JusticeViolation.Json.Decode
import JusticeViolation.Json.Printer
import JusticeViolation.Json.Reader
import JusticeViolation.Json.Token
import JusticeViolation.Json.Value
import JusticeViolation.Main
import JusticeViolation.Mask
import JusticeViolation.Memo.Document
import JusticeViolation.Memo.Encoding
import JusticeViolation.NodeKind
import JusticeViolation.Options
import JusticeViolation.Path
import JusticeViolation.Progress
import JusticeViolation.Ranking
import JusticeViolation.Registry
import JusticeViolation.Report
import JusticeViolation.Space
import JusticeViolation.Split
import JusticeViolation.StateSet
import JusticeViolation.Summary
import JusticeViolation.Variable
import JusticeViolation.Violation
import JusticeViolation.Proofs.Space.Digits
import JusticeViolation.Proofs.StateSet.Membership
import JusticeViolation.Proofs.StateSet.Dependence
import JusticeViolation.Proofs.Fact
import JusticeViolation.Proofs.Game.Shape
import JusticeViolation.Proofs.Game.Commitment
import JusticeViolation.Proofs.Game.LeastChoice
import JusticeViolation.Proofs.StateSet.Closure
import JusticeViolation.Proofs.Game.Solution
import JusticeViolation.Proofs.Game.Acceptance
import JusticeViolation.Proofs.Ranking.Levels
import JusticeViolation.Proofs.Ranking.Partition
import JusticeViolation.Proofs.Ranking.Reachability
import JusticeViolation.Proofs.Ranking
import JusticeViolation.Proofs.Progress
import JusticeViolation.Proofs.Attractor
import JusticeViolation.Proofs.Forcing
import JusticeViolation.Proofs.Path.Run
import JusticeViolation.Proofs.Path.Step
import JusticeViolation.Proofs.Path.Commitment
import JusticeViolation.Proofs.Path.Coverage
import JusticeViolation.Proofs.Path.Circuit
import JusticeViolation.Proofs.Path.Walk
import JusticeViolation.Proofs.Path.Trace
import JusticeViolation.Proofs.Split
import JusticeViolation.Proofs.Graph.Basic
import JusticeViolation.Proofs.Graph.Quotient
import JusticeViolation.Proofs.Graph.Merging
import JusticeViolation.Proofs.Graph.Fold
import JusticeViolation.Proofs.Decomposition.Queue
import JusticeViolation.Proofs.Decomposition.Process
import JusticeViolation.Proofs.Decomposition.Run
import JusticeViolation.Proofs.Construction.Outcome
import JusticeViolation.Proofs.Construction.Strategy
import JusticeViolation.Proofs.Construction.Successors
import JusticeViolation.Proofs.Construction.Verdict
import JusticeViolation.Proofs.Construction.Deadlock
import JusticeViolation.Proofs.Construction.Assumptions
import JusticeViolation.Proofs.Construction.Justice
import JusticeViolation.Proofs.Path.Live
import JusticeViolation.Proofs.Path.Closing
import JusticeViolation.Proofs.Construction.Existence
import JusticeViolation.Proofs.Graph.Plain
import JusticeViolation.Proofs.Path.Rows
import JusticeViolation.Proofs.AssumptionGraph
import JusticeViolation.Proofs.AssumptionGraph.Partition
import JusticeViolation.Proofs.Decomposition.Plain
import JusticeViolation.Proofs.Decomposition.Entry
import JusticeViolation.Proofs.Construction.Descent
import JusticeViolation.Proofs.Construction.Approach
import JusticeViolation.Proofs.Construction.Enrichment
import JusticeViolation.Proofs.Construction.Reach
import JusticeViolation.Proofs.Graph.Termination
import JusticeViolation.Proofs.Decomposition.Order
import JusticeViolation.Proofs.Construction.Order
import JusticeViolation.Proofs.Construction.Disjointness
import JusticeViolation.Proofs.Graph.Routes
import JusticeViolation.Proofs.Graph.PathCount
import JusticeViolation.Proofs.Graph.Contraction
import JusticeViolation.Proofs.Graph.RouteNumber
import JusticeViolation.Proofs.Graph.Pairing
import JusticeViolation.Proofs.Graph.Chains
import JusticeViolation.Proofs.Decomposition.Numbering
import JusticeViolation.Proofs.Decomposition.Emission
import JusticeViolation.Proofs.Construction.Acyclicity
import JusticeViolation.Proofs.Decomposition.Opening
import JusticeViolation.Proofs.Construction.Steps
import JusticeViolation.Proofs.Fact
import JusticeViolation.Proofs.Graph.Annotation
import JusticeViolation.Proofs.Construction.Annotation
import JusticeViolation.Proofs.Path.Lap
import JusticeViolation.Proofs.Checked.Basic
import JusticeViolation.Proofs.Checked.Step
import JusticeViolation.Proofs.Checked.Walk
import JusticeViolation.Proofs.Checked.Trace
import JusticeViolation.Proofs.Checked.Split
import JusticeViolation.Proofs.Checked.Ranking
import JusticeViolation.Proofs.Checked.Starts
import JusticeViolation.Proofs.Checked.Run
import JusticeViolation.Proofs.Checked.Merging
import JusticeViolation.Proofs.Checked.Construction
import JusticeViolation.Proofs.Game.Adjunction
import JusticeViolation.Proofs.Fact.Listing
import JusticeViolation.Proofs.Registry
import JusticeViolation.Proofs.StateSet.Counting
import JusticeViolation.Proofs.StateSet.Enumeration
import JusticeViolation.Proofs.Formula
import JusticeViolation.Proofs.Construction.Apportionment
import JusticeViolation.Proofs.Report
import JusticeViolation.Proofs.Space.Valuation
import JusticeViolation.Proofs.StateSet.Symmetry
import JusticeViolation.Proofs.StateSet.Image
import JusticeViolation.Proofs.Checked.Words
import JusticeViolation.Proofs.Checked.Index
import JusticeViolation.Proofs.Json.Scanning
import JusticeViolation.Proofs.Json.Reading
import JusticeViolation.Proofs.Json.Decoding
import JusticeViolation.Proofs.Formula.Encoding
import JusticeViolation.Proofs.Memo.RoundTrip
import JusticeViolation.Proofs.StateSet.Projection
import JusticeViolation.Proofs.Registry.Requests
import JusticeViolation.Proofs.Registry.Roster
import JusticeViolation.Proofs.Progress.Offers
import JusticeViolation.Proofs.Progress.Cells
import JusticeViolation.Proofs.StateSet.Support
