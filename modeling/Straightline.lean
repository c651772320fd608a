import Straightline.Text.Blank
import Straightline.Text.Cut
import Straightline.Text.Decimal
import Straightline.Token.Basic
import Straightline.Token.Lexer
import Straightline.Token.Cursor
import Straightline.Source.Basic
import Straightline.Source.Printer
import Straightline.Source.Error
import Straightline.Source.Evaluation
import Straightline.Source.Parser
import Straightline.Names
import Straightline.IR.Table
import Straightline.IR.Basic
import Straightline.IR.Printer
import Straightline.IR.Reader
import Straightline.IR.Builder
import Straightline.IR.Verification
import Straightline.IR.Promotion
import Straightline.IR.Folding
import Straightline.IR.Linking
import Straightline.IR.Execution
import Straightline.IR.Executor
import Straightline.Lowering.Script
import Straightline.Lowering.Generator
import Straightline.Lowering.Module
import Straightline.Lowering.Recorder
import Straightline.Command.Path
import Straightline.Command.Disk
import Straightline.Command.Arguments
import Straightline.Command.Action
import Straightline.Command.Compile
import Straightline.Main
import Straightline.Proofs.Basic
import Straightline.Proofs.Verification
import Straightline.Proofs.Rules
import Straightline.Proofs.Execution
import Straightline.Proofs.Promotion
import Straightline.Proofs.Folding
import Straightline.Proofs.FoldedForm
import Straightline.Proofs.PromotedForm
import Straightline.Proofs.Safety
import Straightline.Proofs.Linking
import Straightline.Proofs.LinkOutcome
import Straightline.Proofs.LinkLaws
import Straightline.Proofs.Executor
import Straightline.Proofs.Text
import Straightline.Proofs.Renumbering
import Straightline.Proofs.LineReading
import Straightline.Proofs.RoundTrip
import Straightline.Proofs.ReadModules
import Straightline.Proofs.ReadFaults
import Straightline.Proofs.Rereading
import Straightline.Proofs.Building
import Straightline.Proofs.Reading
import Straightline.Proofs.Accounting
import Straightline.Proofs.Lexing
import Straightline.Proofs.Layout
import Straightline.Proofs.Lookahead
import Straightline.Proofs.Respacing
import Straightline.Proofs.WellFormed
import Straightline.Proofs.Canonical
import Straightline.Proofs.Acceptance
import Straightline.Proofs.Rendering
import Straightline.Proofs.Protocol
import Straightline.Proofs.Refusals
import Straightline.Proofs.Isolation
import Straightline.Proofs.Code
import Straightline.Proofs.Simulation
import Straightline.Proofs.Emission
import Straightline.Proofs.Lowering
import Straightline.Proofs.Compilation
import Straightline.Proofs.Spelling
import Straightline.Proofs.Unambiguous
import Straightline.Proofs.SeparateCompilation
import Straightline.Proofs.Paths
import Straightline.Proofs.Files
import Straightline.Proofs.Effects
import Straightline.Proofs.Conventions
import Straightline.Proofs.FreshNames
