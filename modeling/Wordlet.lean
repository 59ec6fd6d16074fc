import Wordlet.Eval.Machine
import Wordlet.Eval.Observer
import Wordlet.Inspection
import Wordlet.Main
import Wordlet.Proofs.Spelling
import Wordlet.Syntax.Same
import Wordlet.Proofs.Layout
import Wordlet.Proofs.RoundTrip
import Wordlet.Proofs.Evaluation
import Wordlet.Proofs.Values
import Wordlet.Proofs.StaticFaults
import Wordlet.Proofs.Stack
import Wordlet.Proofs.DepthLimit
import Wordlet.Proofs.StackBudget
import Wordlet.Proofs.Calls
import Wordlet.Proofs.Brackets
import Wordlet.Proofs.Transparency
import Wordlet.Proofs.Erasure
import Wordlet.Proofs.Relocation
import Wordlet.Proofs.Reachability
import Wordlet.Proofs.CallChains
import Wordlet.Proofs.Termination
import Wordlet.Proofs.Acyclic
import Wordlet.Proofs.Sessions
import Wordlet.Proofs.Substitution
import Wordlet.Proofs.WellFormed
import Wordlet.Proofs.Pieces
import Wordlet.Proofs.Positions
import Wordlet.Proofs.Descent
import Wordlet.Proofs.Prediction
import Wordlet.Proofs.SyntaxErrors
import Wordlet.Proofs.Anchors
import Wordlet.Proofs.Continuation
import Wordlet.Proofs.Concatenation
import Wordlet.Proofs.Utf8
import Wordlet.Proofs.Overwriting
import Wordlet.Proofs.CommandLine
import Wordlet.Proofs.Formatting
import Wordlet.Proofs.Inspection
import Wordlet.Proofs.Reports
import Wordlet.Proofs.Observers
import Wordlet.Proofs.Failures
import Wordlet.Proofs.Digraph
import Wordlet.Proofs.CallOrder
import Wordlet.Proofs.CarriageReturns
import Wordlet.Proofs.Lines
import Wordlet.Proofs.BraceDepth
import Wordlet.Proofs.Indentation
import Wordlet.Proofs.Resumption
import Wordlet.Proofs.Decoding
import Wordlet.Proofs.Integers
import Wordlet.Proofs.DepthSetting
import Wordlet.Proofs.BitVectors
import Wordlet.Proofs.FileEffects
import Wordlet.Proofs.Locality
