import StateSpace.Action
import StateSpace.Arguments
import StateSpace.Checker
import StateSpace.Collection
import StateSpace.Decimal
import StateSpace.Digest
import StateSpace.Error
import StateSpace.Example.MutualExclusion
import StateSpace.Example.RiverCrossing
import StateSpace.Expr
import StateSpace.Fault
import StateSpace.Forest
import StateSpace.Graph
import StateSpace.Lineage
import StateSpace.Logging
import StateSpace.Main
import StateSpace.Model
import StateSpace.Piece
import StateSpace.Piece.Term
import StateSpace.Proofs.ActionNames
import StateSpace.Proofs.Agreement
import StateSpace.Proofs.Ancestry
import StateSpace.Proofs.Assignments
import StateSpace.Proofs.Attributes
import StateSpace.Proofs.Budget
import StateSpace.Proofs.Calls
import StateSpace.Proofs.CanonicalOrder
import StateSpace.Proofs.Changes
import StateSpace.Proofs.Check
import StateSpace.Proofs.Comparison
import StateSpace.Proofs.Contract
import StateSpace.Proofs.Course
import StateSpace.Proofs.Coverage
import StateSpace.Proofs.Deadlock
import StateSpace.Proofs.DeclarationOrder
import StateSpace.Proofs.Discovery
import StateSpace.Proofs.Equality
import StateSpace.Proofs.Expansion
import StateSpace.Proofs.Faults
import StateSpace.Proofs.FirstDiscovery
import StateSpace.Proofs.FirstInstances
import StateSpace.Proofs.Flattening
import StateSpace.Proofs.KeyedSearch
import StateSpace.Proofs.Ledger
import StateSpace.Proofs.Levels
import StateSpace.Proofs.Move
import StateSpace.Proofs.NameOrder
import StateSpace.Proofs.Rendering
import StateSpace.Proofs.Replay
import StateSpace.Proofs.Reporting
import StateSpace.Proofs.Scan
import StateSpace.Proofs.Session
import StateSpace.Proofs.Shortest
import StateSpace.Proofs.Stability
import StateSpace.Proofs.Store
import StateSpace.Proofs.Termination
import StateSpace.Proofs.Traces
import StateSpace.Proofs.Truncation
import StateSpace.Proofs.Verdicts
import StateSpace.Proofs.Views
import StateSpace.Proofs.WrittenPieces
import StateSpace.Relation
import StateSpace.Report
import StateSpace.Run
import StateSpace.Settings
import StateSpace.Sorting
import StateSpace.State
import StateSpace.Store
import StateSpace.Text.Quoted
import StateSpace.Value.Basic
import StateSpace.Value.Canon
import StateSpace.Value.Identity
import StateSpace.Value.Marking
import StateSpace.Value.Text
import StateSpace.Verify
