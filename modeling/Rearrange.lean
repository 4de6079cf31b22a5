import Rearrange.Symbol
import Rearrange.Term
import Rearrange.Substitution
import Rearrange.Grammar
import Rearrange.Assertion
import Rearrange.Library
import Rearrange.Worksheet
import Rearrange.Worksheet.Verification
import Rearrange.Law.Table
import Rearrange.Law.Template
import Rearrange.Law.Constants
import Rearrange.Law.Schema
import Rearrange.Law.RuleTable
import Rearrange.Law.Shape
import Rearrange.Text.Unprintable
import Rearrange.Text.Reader
import Rearrange.Text.Expression
import Rearrange.Text.Command
import Rearrange.Text.Loading
import Rearrange.Law.Equality
import Rearrange.Law.Implication
import Rearrange.Law.Deduction
import Rearrange.Law.Conjunction
import Rearrange.Law.Closure
import Rearrange.Law.Congruence
import Rearrange.Law.Associativity
import Rearrange.Law.Commutativity
import Rearrange.Derivation.Session
import Rearrange.Derivation.Implication
import Rearrange.Derivation.Equality
import Rearrange.Derivation.Conjunction
import Rearrange.Derivation.Closure
import Rearrange.Derivation.Form
import Rearrange.Derivation.Canonical
import Rearrange.Derivation.OperatorLaw
import Rearrange.Derivation.Rotation
import Rearrange.Derivation.Reordering
import Rearrange.Derivation.Transformation
import Rearrange.Derivation.Search
import Rearrange.FileTree
import Rearrange.CommandLine
import Rearrange.Main
import Rearrange.Proofs.Basic
import Rearrange.Proofs.Term
import Rearrange.Proofs.Instance
import Rearrange.Proofs.Matching
import Rearrange.Proofs.Sorts
import Rearrange.Proofs.Formed
import Rearrange.Proofs.Loaded
import Rearrange.Proofs.Display
import Rearrange.Proofs.Growth
import Rearrange.Proofs.Runs
import Rearrange.Proofs.Leads
import Rearrange.Proofs.Law.Tables
import Rearrange.Proofs.Law.Equality
import Rearrange.Proofs.Law.Implication
import Rearrange.Proofs.Law.Deduction
import Rearrange.Proofs.Law.Template
import Rearrange.Proofs.Law.Conjunction
import Rearrange.Proofs.Law.Schema
import Rearrange.Proofs.Law.Closure
import Rearrange.Proofs.Law.Congruence
import Rearrange.Proofs.Law.Operator
import Rearrange.Proofs.Lawful
import Rearrange.Proofs.Law.Stock
import Rearrange.Proofs.Generality
import Rearrange.Proofs.Writing
import Rearrange.Proofs.Derivation.Equality
import Rearrange.Proofs.Derivation.Closure
import Rearrange.Proofs.Derivation.Turns
import Rearrange.Proofs.Derivation.Equational
import Rearrange.Proofs.Derivation.Rotation
import Rearrange.Proofs.Derivation.Reordering
import Rearrange.Proofs.Derivation.Transformation
import Rearrange.Proofs.Derivation.Search
import Rearrange.Proofs.Closing
import Rearrange.Proofs.Derivation.Frame
import Rearrange.Proofs.Derivation.Statements
import Rearrange.Proofs.Derivation.Rearrangement
import Rearrange.Proofs.Derivation.Endpoints
import Rearrange.Proofs.Order
import Rearrange.Proofs.Canonical
import Rearrange.Proofs.Outcome
import Rearrange.Proofs.Completion
import Rearrange.Proofs.Dependency
import Rearrange.Proofs.Faults
import Rearrange.Proofs.Verification
import Rearrange.Proofs.Citation
import Rearrange.Proofs.Soundness
import Rearrange.Proofs.Derivability
import Rearrange.Proofs.Insertion
import Rearrange.Proofs.WellFormed
import Rearrange.Proofs.Uniform
import Rearrange.Proofs.Interchange
import Rearrange.Proofs.Settles
import Rearrange.Proofs.Returns
import Rearrange.Proofs.Sorting
import Rearrange.Proofs.Derivation.Chains
import Rearrange.Proofs.Transformable
import Rearrange.Proofs.Declarations
import Rearrange.Proofs.Calls
import Rearrange.Proofs.Text.Reader
import Rearrange.Proofs.Text.Expression
import Rearrange.Proofs.Text.Command
import Rearrange.Proofs.Building
import Rearrange.Proofs.RoundTrip
import Rearrange.Proofs.Stability
import Rearrange.Proofs.Report
import Rearrange.Proofs.Replacement
import Rearrange.Proofs.Derivation.Support
import Rearrange.Proofs.Entailment
import Rearrange.Proofs.Commuting
import Rearrange.Proofs.Derivation.Linking
import Rearrange.Proofs.Rotating
import Rearrange.Proofs.Assignment
import Rearrange.Proofs.Extension
import Rearrange.Proofs.Decision
import Rearrange.Proofs.Law.Hole
import Rearrange.Proofs.Law.Registration
import Rearrange.Proofs.Reassembly
import Rearrange.Proofs.Gathering
