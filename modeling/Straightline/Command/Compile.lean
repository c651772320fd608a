/-
# The command

The stages of a compilation in order: name the files, read the source, cut it into tokens, read the
program, lower it and link a module, write the module as it is if asked to, verify it and replace its
slots by values, fold constants if asked to, write the result, and execute it if asked to.  A
compilation may be told to stop after the tokens, the program or the verified module.

A stage that fails ends the command with a report on the standard error output: what failed, and the
chain of causes.

Source: `main` of the `hestia` driver, with `run_driver`, `compile` and `execute`, and `output` and
`output_raw` of its emission.
-/

import Straightline.Command.Action
import Straightline.Command.Arguments
import Straightline.Command.Path
import Straightline.IR.Execution
import Straightline.IR.Folding
import Straightline.IR.Printer
import Straightline.IR.Promotion
import Straightline.Lowering.Module
import Straightline.Source.Parser

namespace Straightline
namespace Command

open IR (Module)

/-- What failed, and what caused it, the nearest cause first. -/
structure Failure where
  message : String
  causes : List String
deriving Repr, DecidableEq

/-- A text with its lines, after the first, moved to the right. -/
def indented (margin text : String) : String :=
  ("\n" ++ margin).intercalate ((Text.split '\n' text.toList).map String.ofList)

/-- The lines of causes with their numbers, from a number on. -/
def numberedCauses : Nat → List String → String
  | _, [] => ""
  | i, c :: cs =>
    "    " ++ Text.ofNat i ++ ": " ++ indented "       " c ++ "\n" ++ numberedCauses (i + 1) cs

/-- The report of a failure.  Several causes are numbered. -/
def Failure.report (f : Failure) : String :=
  "Error: " ++ f.message ++ "\n" ++
    match f.causes with
    | [] => ""
    | [c] => "\nCaused by:\n    " ++ indented "    " c ++ "\n"
    | cs => "\nCaused by:\n" ++ numberedCauses 0 cs

/-- An action that may fail. -/
abbrev Task (α : Type) : Type := ExceptT Failure Action α

/-- A result, or the failure that an error becomes. -/
def orFail {ε α : Type} (r : Except ε α) (failure : ε → Failure) : Task α :=
  ExceptT.mk (pure (r.mapError failure))

/-- Reads the source text. -/
def readSource (path : String) : Task String := do
  let r ← Action.read path
  orFail r fun reason => ⟨"Unable to read source file: " ++ path, [reason]⟩

/-- Writes the text of a module. -/
def writeModule (path : String) (m : Module) : Task Unit := do
  let r ← Action.write path m.text
  orFail r fun reason => ⟨"Unable to write " ++ path, [reason]⟩

/-- The line for a token. -/
def tokenLine (t : Token) : String :=
  Text.ofNat t.pos.line ++ ":" ++ Text.ofNat t.pos.col ++ "\t" ++ t.text ++ "\n"

/-- The warning for a token, if it is an unknown character. -/
def warning (file : String) (t : Token) : String :=
  match t.value with
  | .unexpected =>
    "warning: " ++ Token.Value.unexpectedText ++ " at " ++ file ++ ":" ++ Text.ofNat t.pos.line ++
      ":" ++ Text.ofNat t.pos.col ++ ": '" ++ t.literal ++ "'\n"
  | _ => ""

/-- Prints tokens, and then a warning for each unknown character. -/
def printTokens (file : String) (ts : List Token) : Task Unit := do
  Action.out (String.join (ts.map tokenLine))
  Action.err (String.join (ts.map (warning file)))

/-- Lowers a program, after reading the module to link. -/
def lower (paths : Paths) (p : Source.Program) : Task Module := do
  let text ← match paths.link with
    | none => pure (.ok "")
    | some path => (Action.read path : Action (Except String String))
  orFail (Lowering.toModule (fun _ => text) p paths.moduleName paths.link) fun e =>
    ⟨"IR generation failed for " ++ paths.moduleName, e.message :: e.causes⟩

/-- The failure of a module that is not in order. -/
def verifyFailure (e : IR.Verification.Error) : Failure :=
  ⟨"Generated IR failed verification", [e.message]⟩

/-- Executes the main function and prints what it writes and returns. -/
def execute (m : Module) : Task Unit := do
  let (result, output) := m.run .accepting "main" []
  Action.out output
  let n ← orFail result fun e => ⟨"Execution of 'main' failed", e.message :: e.causes⟩
  Action.out ("main returned " ++ Text.ofInt32 n ++ "\n")

/-- The stages after lowering. -/
def emit (o : Options) (paths : Paths) (m : Module) : Task Unit := do
  if o.debug then writeModule paths.raw m
  if o.stage = some .codegen then orFail m.verify verifyFailure
  else
    let promoted ← orFail m.prepare verifyFailure
    let final := if o.optimize then promoted.fold else promoted
    writeModule paths.output final
    if o.run then execute final

/-- The stages after reading the source. -/
def compile (o : Options) (paths : Paths) (source : String) : Task Unit := do
  let tokens := Token.lex source
  if o.stage = some .lex then printTokens paths.moduleName tokens.toList
  else
    let p ← orFail (Source.parseTokens tokens) fun f =>
      ⟨"Failed to compile " ++ paths.moduleName, [f.error.message]⟩
    if o.stage = some .parse then Action.out p.text
    else
      let m ← lower paths p
      emit o paths m

/-- A whole compilation. -/
def task (o : Options) : Task Unit := do
  let paths ← orFail (Paths.resolve o.path o.output o.link) fun e => ⟨e.message, []⟩
  let source ← readSource paths.input
  compile o paths source

/-- A whole compilation with the report of its failure: the effects and the exit code. -/
def runOptions (o : Options) : Action UInt32 := do
  match ← (task o).run with
  | .ok () => return 0
  | .error f =>
    Action.err f.report
    return 1

/-- The name and version of the command. -/
def versionText : String := "hestia_driver 0.1.0\n"

/-- How the command is used. -/
def usageText : String :=
  "usage: [-o OUTPUT] [-l MODULE] [-d] [-O] [--run] [--lex | --parse | --codegen] PATH\n"

/-- The command: its effects and its exit code. -/
def run (args : List String) : Action UInt32 :=
  match Options.ofArguments args with
  | .error .usage => do
    Action.err usageText
    return 2
  | .error .version => do
    Action.out versionText
    return 0
  | .error .help => do
    Action.out usageText
    return 0
  | .ok o => runOptions o

end Command
end Straightline
