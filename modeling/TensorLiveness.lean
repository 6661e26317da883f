import TensorLiveness.Analysis.Form
import TensorLiveness.Analysis.Interference
import TensorLiveness.Analysis.LivePoints
import TensorLiveness.Analysis.Outcome
import TensorLiveness.Analysis.Pass
import TensorLiveness.Analysis.Propagation
import TensorLiveness.Check
import TensorLiveness.CommandLine.Directory
import TensorLiveness.CommandLine.FileError
import TensorLiveness.CommandLine.Invocation
import TensorLiveness.CommandLine.Path
import TensorLiveness.CommandLine.Response
import TensorLiveness.Diagnostic
import TensorLiveness.Identity.Fault
import TensorLiveness.Identity.Store
import TensorLiveness.Main
import TensorLiveness.Number.Binary64
import TensorLiveness.Number.Decimal
import TensorLiveness.Number.Shortest
import TensorLiveness.Program.Binder
import TensorLiveness.Program.Expr
import TensorLiveness.Program.FreeVars
import TensorLiveness.Program.Printer
import TensorLiveness.Program.Resolution
import TensorLiveness.Program.Ty
import TensorLiveness.Report.Document
import TensorLiveness.Report.Json
import TensorLiveness.Report.Points
import TensorLiveness.Report.Provenance
import TensorLiveness.Report.Text
import TensorLiveness.Sharing.Forest
import TensorLiveness.Syntax.Cursor
import TensorLiveness.Syntax.Parser
import TensorLiveness.Syntax.Scanner
import TensorLiveness.Syntax.Token
import TensorLiveness.Syntax.Tree
import TensorLiveness.Text.DefaultIgnorable
import TensorLiveness.Text.GraphemeExtend
import TensorLiveness.Text.Quoted
import TensorLiveness.Text.Sha256
import TensorLiveness.Text.Span
import TensorLiveness.Text.Unprintable
import TensorLiveness.Proofs.Program.Flat
import TensorLiveness.Proofs.Sharing.Roots
import TensorLiveness.Proofs.Analysis.Form
import TensorLiveness.Proofs.Analysis.Propagation
import TensorLiveness.Proofs.Program.Resolution
import TensorLiveness.Proofs.Analysis.LivePoints
import TensorLiveness.Proofs.Analysis.Run
import TensorLiveness.Proofs.Analysis.ControlPath
import TensorLiveness.Proofs.Analysis.Interference
import TensorLiveness.Proofs.Analysis.Capture
import TensorLiveness.Proofs.Analysis.Demands
import TensorLiveness.Proofs.Analysis.Faults.LivePoints
import TensorLiveness.Proofs.Analysis.Faults.Run
import TensorLiveness.Proofs.Identity.ValueTree
import TensorLiveness.Proofs.Program.Typing
import TensorLiveness.Proofs.Analysis.Evaluation
import TensorLiveness.Proofs.Analysis.Shape
import TensorLiveness.Proofs.Analysis.Birth
import TensorLiveness.Proofs.Sharing.Classes
import TensorLiveness.Proofs.Sharing.Partition
import TensorLiveness.Proofs.Identity.Numbering
import TensorLiveness.Proofs.Identity.Session
import TensorLiveness.Proofs.Analysis.Reference
import TensorLiveness.Proofs.Analysis.Refusal
import TensorLiveness.Proofs.Program.Renumbering
import TensorLiveness.Proofs.Program.Alike
import TensorLiveness.Proofs.Identity.Renumbering
import TensorLiveness.Proofs.Analysis.Renumbering
import TensorLiveness.Proofs.Analysis.BindingStructure
import TensorLiveness.Proofs.Program.Spelling
import TensorLiveness.Proofs.Program.WellFormed
import TensorLiveness.Proofs.Number.Reading
import TensorLiveness.Proofs.Syntax.Scanning
import TensorLiveness.Proofs.Syntax.Grammar
import TensorLiveness.Proofs.Syntax.Parsing
import TensorLiveness.Proofs.Syntax.DerivationTree
import TensorLiveness.Proofs.Program.Legible
import TensorLiveness.Proofs.Program.Writing
import TensorLiveness.Proofs.Program.Rereading
import TensorLiveness.Proofs.Program.Insertion
import TensorLiveness.Proofs.Analysis.WalkSteps
import TensorLiveness.Proofs.Analysis.Leaves
import TensorLiveness.Proofs.Analysis.EarlyStop
import TensorLiveness.Proofs.Analysis.RenumberedClasses
import TensorLiveness.Proofs.Analysis.Insertion
import TensorLiveness.Proofs.Analysis.InsertedLiveness
import TensorLiveness.Proofs.Analysis.Bufferless
import TensorLiveness.Proofs.Program.Findings
import TensorLiveness.Proofs.Program.FreeVarQueries
import TensorLiveness.Proofs.Analysis.DemandOrder
import TensorLiveness.Proofs.Analysis.Equations
import TensorLiveness.Proofs.CommandLine.ExitCodes
import TensorLiveness.Proofs.Sharing.Ranks
import TensorLiveness.Proofs.Syntax.Spans
import TensorLiveness.Proofs.Report.Coverage
import TensorLiveness.Proofs.Program.BinderNames
import TensorLiveness.Proofs.Identity.Labels
import TensorLiveness.Proofs.Analysis.Naming
import TensorLiveness.Proofs.Analysis.Matching
import TensorLiveness.Proofs.Analysis.Choices
