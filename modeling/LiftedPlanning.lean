import LiftedPlanning.Catalog
import LiftedPlanning.Cnf.Answer
import LiftedPlanning.Cnf.Assignment
import LiftedPlanning.Cnf.LeastModel
import LiftedPlanning.Cnf.Literal
import LiftedPlanning.Cnf.Solver.Basic
import LiftedPlanning.Cnf.Solver.Forgetting
import LiftedPlanning.Cnf.Solver.Lesson
import LiftedPlanning.Cnf.Solver.Propagation
import LiftedPlanning.Cnf.Solver.Search
import LiftedPlanning.Cnf.Store
import LiftedPlanning.Cnf.Word
import LiftedPlanning.Combination
import LiftedPlanning.CommandLine.Command
import LiftedPlanning.CommandLine.Host
import LiftedPlanning.CommandLine.Log
import LiftedPlanning.CommandLine.Memory
import LiftedPlanning.CommandLine.Options
import LiftedPlanning.CommandLine.Run
import LiftedPlanning.Condition
import LiftedPlanning.Declaration.Lexeme
import LiftedPlanning.Declaration.Reader
import LiftedPlanning.Eligibility
import LiftedPlanning.Encoding.Basic
import LiftedPlanning.Encoding.Formula
import LiftedPlanning.Encoding.Frame
import LiftedPlanning.Encoding.Interference
import LiftedPlanning.Encoding.Rule
import LiftedPlanning.Encoding.Selection
import LiftedPlanning.Explanation
import LiftedPlanning.Formula
import LiftedPlanning.Grounding.Basic
import LiftedPlanning.Grounding.Relaxed
import LiftedPlanning.Handle
import LiftedPlanning.Layout
import LiftedPlanning.Main
import LiftedPlanning.Mapping
import LiftedPlanning.Plan.Basic
import LiftedPlanning.Plan.Check
import LiftedPlanning.Plan.Decoding
import LiftedPlanning.Problem.Basic
import LiftedPlanning.Problem.Construction
import LiftedPlanning.Problem.Validation
import LiftedPlanning.Proofs.Cnf.Satisfaction
import LiftedPlanning.Proofs.Cnf.Verdict
import LiftedPlanning.Proofs.Combination
import LiftedPlanning.Proofs.Eligibility
import LiftedPlanning.Proofs.Encoding.Blocks
import LiftedPlanning.Proofs.Encoding.Completeness
import LiftedPlanning.Proofs.Encoding.Frame
import LiftedPlanning.Proofs.Encoding.Occurrence
import LiftedPlanning.Proofs.Encoding.Plans
import LiftedPlanning.Proofs.Encoding.Reachability
import LiftedPlanning.Proofs.Encoding.RoundTrip
import LiftedPlanning.Proofs.Encoding.Rule
import LiftedPlanning.Proofs.Encoding.Selection
import LiftedPlanning.Proofs.Encoding.Serialization
import LiftedPlanning.Proofs.Encoding.Soundness
import LiftedPlanning.Proofs.Encoding.Step
import LiftedPlanning.Proofs.Encoding.Successor
import LiftedPlanning.Proofs.Encoding.Unrolling
import LiftedPlanning.Proofs.Fallible
import LiftedPlanning.Proofs.Grounding.Relaxed
import LiftedPlanning.Proofs.Grounding.Coverage
import LiftedPlanning.Proofs.Grounding.Table
import LiftedPlanning.Proofs.Layout
import LiftedPlanning.Proofs.Mapping
import LiftedPlanning.Proofs.Plan.Decoding
import LiftedPlanning.Proofs.Plan.Entries
import LiftedPlanning.Proofs.Plan.Execution
import LiftedPlanning.Proofs.Plan.Serialization
import LiftedPlanning.Proofs.Search.Outcome
import LiftedPlanning.Proofs.Valuation
import LiftedPlanning.Roster
import LiftedPlanning.Search.Basic
import LiftedPlanning.Search.Limits
import LiftedPlanning.Strategy
import LiftedPlanning.Support
import LiftedPlanning.Text.Binary64
import LiftedPlanning.Text.Blank
import LiftedPlanning.Text.Digit
import LiftedPlanning.Text.Line
import LiftedPlanning.Text.Number
import LiftedPlanning.Trie
import LiftedPlanning.TypeHierarchy
import LiftedPlanning.Word
import LiftedPlanning.Proofs.Search.Completeness
import LiftedPlanning.Proofs.Grounding.Derivation
import LiftedPlanning.Proofs.Encoding.Simulation
import LiftedPlanning.Proofs.Catalog
import LiftedPlanning.Proofs.Formula
import LiftedPlanning.Proofs.TypeHierarchy
import LiftedPlanning.Proofs.Problem.WellFormed
import LiftedPlanning.Proofs.Problem.Construction
import LiftedPlanning.Proofs.Declaration.Reader
import LiftedPlanning.Proofs.Handles
import LiftedPlanning.Proofs.Declaration.Acceptance
import LiftedPlanning.Proofs.Problem.History
import LiftedPlanning.Proofs.Problem.InPlace
import LiftedPlanning.Proofs.Encoding.Range
import LiftedPlanning.Proofs.Encoding.Lookup
import LiftedPlanning.Proofs.Encoding.Encodable
import LiftedPlanning.Proofs.Encoding.Horizons
import LiftedPlanning.Proofs.Declaration.Typing
import LiftedPlanning.Proofs.Cnf.Literal
import LiftedPlanning.Proofs.Encoding.Numbering
import LiftedPlanning.Proofs.Encoding.Support
import LiftedPlanning.Proofs.Cnf.Answer
import LiftedPlanning.Proofs.Text.Line
import LiftedPlanning.Proofs.Text.Number
import LiftedPlanning.Proofs.Cnf.Dimacs
import LiftedPlanning.Proofs.Cnf.Transcript
import LiftedPlanning.Proofs.CommandLine.Instance
import LiftedPlanning.Proofs.Cnf.Buffer
import LiftedPlanning.Proofs.Plan.Variation
import LiftedPlanning.Proofs.Plan.Selected
import LiftedPlanning.Proofs.Text.Stored
import LiftedPlanning.Proofs.Cnf.Output
import LiftedPlanning.Proofs.Declaration.Lexeme
import LiftedPlanning.Proofs.Declaration.Edits
import LiftedPlanning.Proofs.Declaration.ReadBack
import LiftedPlanning.Proofs.Encoding.Counting
import LiftedPlanning.Proofs.Encoding.Interference
import LiftedPlanning.Proofs.TypeHierarchy.Search
import LiftedPlanning.Proofs.Formula.Splitting
import LiftedPlanning.Proofs.Problem.Demands
import LiftedPlanning.Proofs.Mapping.Agreement
import LiftedPlanning.Proofs.Encoding.Distribution
import LiftedPlanning.Proofs.Encoding.Ledger
import LiftedPlanning.Proofs.Encoding.Statistics
import LiftedPlanning.Proofs.Plan.Text
import LiftedPlanning.Proofs.Combination.Traversal
import LiftedPlanning.Proofs.Eligibility.Sources
import LiftedPlanning.Proofs.Grounding.InPlace
import LiftedPlanning.Proofs.Grounding.Saturation
