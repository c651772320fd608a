/-
# Why a text is no program

An error names a line and a cause.  Either a token stands where another was expected, or a rule on
names, arities and constants is broken.

Source: `ParseError` and `SemanticError` of the `hestia` parser.
-/

import Straightline.Token.Basic

namespace Straightline
namespace Source

/-- What the text was expected to go on with. -/
inductive Expected
  | kind (k : Token.Kind)
  | item
  | signatureEnd
  | listEnd
  | expression
deriving Repr, DecidableEq

/-- How a message names what was expected. -/
def Expected.text : Expected → String
  | kind k => k.text
  | item => "a function declaration or definition"
  | signatureEnd => r"';' or '{'"
  | listEnd => "',' or ')'"
  | expression => "an expression"

/-- What is wrong.  The text of an offending expression or token is kept, not its position. -/
inductive Cause
  | unexpected (expected : Expected) (found : String)
  | prototypeRedeclared (name : String)
  | arityMismatch (name : String) (expected found : Nat)
  | functionRedefined (name : String)
  | undefinedFunction (name : String)
  | callArityMismatch (name : String) (expected found : Nat)
  | duplicateParameter (function param : String)
  | duplicateVariable (name : String)
  | missingReturn (function : String)
  | undeclaredVariable (name : String)
  | invalidAssignmentTarget (target : String)
  | invalidCallee (callee : String)
  | integerOutOfRange (literal : String)
deriving Repr, DecidableEq

/-- The wording of a cause. -/
def Cause.message : Cause → String
  | unexpected expected found => "expected " ++ expected.text ++ ", but found " ++ found
  | prototypeRedeclared name => "function '" ++ name ++ "' is already declared"
  | arityMismatch name expected found =>
    "function '" ++ name ++ "' was declared with " ++ Text.ofNat expected ++
      " parameter(s), but is given " ++ Text.ofNat found
  | functionRedefined name => "function '" ++ name ++ "' is already defined"
  | undefinedFunction name => "call to undefined function '" ++ name ++ "'"
  | callArityMismatch name expected found =>
    "function '" ++ name ++ "' expects " ++ Text.ofNat expected ++ " argument(s), but " ++
      Text.ofNat found ++ " were passed"
  | duplicateParameter function param =>
    "duplicate parameter '" ++ param ++ "' in function '" ++ function ++ "'"
  | duplicateVariable name => "conflicting declarations for variable '" ++ name ++ "'"
  | missingReturn function =>
    "function '" ++ function ++ "' does not end with a return statement"
  | undeclaredVariable name => "use of undeclared variable '" ++ name ++ "'"
  | invalidAssignmentTarget target =>
    "left side of an assignment must be a variable, found '" ++ target ++ "'"
  | invalidCallee callee => "only functions can be called, found '" ++ callee ++ "'"
  | integerOutOfRange literal => "integer constant '" ++ literal ++ "' does not fit in an int"

/-- A cause at a line. -/
structure Error where
  line : Nat
  cause : Cause
deriving Repr, DecidableEq

/-- The wording of an error. -/
def Error.message (e : Error) : String :=
  "line " ++ Text.ofNat e.line ++ ": " ++ e.cause.message

end Source
end Straightline
