import ProductLine.Main
import ProductLine.Build.Run
import ProductLine.Assignment.Stored
import ProductLine.Enumeration.Calls
import ProductLine.FeatureModel.Indexed
import ProductLine.Satisfiability.Certificate
import ProductLine.Satisfiability.Scripted
import ProductLine.Proofs.Clause.Merge
import ProductLine.Proofs.Formula.ClauseForm
import ProductLine.Proofs.Formula.NormalClauses
import ProductLine.Proofs.Formula.Connectives
import ProductLine.Proofs.Formula.Names
import ProductLine.Proofs.Formula.Failures
import ProductLine.Proofs.Propagation
import ProductLine.Proofs.Propagation.Closure
import ProductLine.Proofs.Satisfiability.Trust
import ProductLine.Proofs.Clause
import ProductLine.Proofs.Assignment
import ProductLine.Proofs.Assignment.Stored
import ProductLine.Proofs.Satisfiability.Selectors
import ProductLine.Proofs.Dimacs
import ProductLine.Proofs.NamedCnf
import ProductLine.Proofs.Text.Blank
import ProductLine.Proofs.NamedCnf.Names
import ProductLine.Proofs.NamedCnf.Literals
import ProductLine.Proofs.Ends
import ProductLine.Proofs.Along
import ProductLine.Proofs.RingBuffer
import ProductLine.Proofs.BaseFormula
import ProductLine.Proofs.Solver.Stack
import ProductLine.Proofs.Solver.History
import ProductLine.Proofs.Solver.Implied
import ProductLine.Proofs.Solver.Interruption
import ProductLine.Proofs.Solver.UnsatSubset
import ProductLine.Proofs.Solver.Counting
import ProductLine.Proofs.Solver.Chunks
import ProductLine.Proofs.FeatureModel.Tree
import ProductLine.Proofs.FeatureModel.Indexed
import ProductLine.Proofs.FeatureModel.Rules
import ProductLine.Proofs.FeatureModel.Selections
import ProductLine.Proofs.FeatureModel.Failures
import ProductLine.Proofs.FeatureModel.TreeSelections
import ProductLine.Proofs.Enumeration.Branches
import ProductLine.Proofs.Enumeration.Handover
import ProductLine.Proofs.Enumeration.Exactness
import ProductLine.Proofs.Enumeration.Numbers
import ProductLine.Proofs.Enumeration.Visits
import ProductLine.Proofs.Enumeration.Steps
import ProductLine.Proofs.Enumeration.Prefixes
import ProductLine.Proofs.Enumeration.Refusals
import ProductLine.Proofs.Enumeration.Observation
import ProductLine.Proofs.Enumeration.Validity
import ProductLine.Proofs.Enumeration.Fillings
import ProductLine.Proofs.Enumeration.TreeOnly
import ProductLine.Proofs.Enumeration.Nesting
import ProductLine.Proofs.Enumeration.Subsets
import ProductLine.Proofs.Configuration
import ProductLine.Proofs.Build.Queue
import ProductLine.Proofs.Build.History
import ProductLine.Proofs.Build.Interactions
import ProductLine.Proofs.Build.Policies
import ProductLine.Proofs.Build.Buffer
import ProductLine.Proofs.Build.Pipeline
import ProductLine.Proofs.Build.Run
import ProductLine.Proofs.Build.Interleavings
import ProductLine.Proofs.Analysis.FalseOptional
import ProductLine.Proofs.Analysis.Agreement
import ProductLine.Proofs.Analysis.Explanation
import ProductLine.Proofs.Calls.Replies
import ProductLine.Proofs.Calls.Queries
import ProductLine.Proofs.Calls.Walks
import ProductLine.Proofs.Calls.Conclusions
import ProductLine.Proofs.Analysis.Failures
import ProductLine.Proofs.Solver.Scopes
import ProductLine.Proofs.Solver.Contradictions
import ProductLine.Proofs.Solver.UnknownVariables
import ProductLine.Proofs.Options
import ProductLine.Proofs.Sample
import ProductLine.Proofs.Variables
