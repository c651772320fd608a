/-
# A target that writes down requests

The recorder builds no code.  It keeps a list of functions and counters for slots and values, so that
its handles are numbers, and writes a line for each request with its reply.  It can be told to refuse
one of the fallible requests, counted from zero.
-/

import Straightline.Lowering.Script

namespace Straightline
namespace Lowering

open IR (Arith)

/-- The state of a recorder: the functions with their arities, how many slots and values were given
out, how many fallible requests came, and the lines written so far. -/
structure Recorder where
  functions : List (String × Nat)
  slots : Nat
  values : Nat
  calls : Nat
  log : List String
deriving Repr, DecidableEq

namespace Recorder

/-- A recorder that knows some functions. -/
def ofFunctions (functions : List (String × Nat)) : Recorder :=
  ⟨functions, 0, 0, 0, []⟩

/-- How a function, a slot and a value are written. -/
def functionText (index : Nat) : String := "f" ++ Text.ofNat index

@[inherit_doc functionText]
def slotText (index : Nat) : String := "s" ++ Text.ofNat index

@[inherit_doc functionText]
def valueText (index : Nat) : String := "v" ++ Text.ofNat index

/-- How a parameter is written. -/
def paramText (function index : Nat) : String :=
  functionText function ++ "." ++ Text.ofNat index

/-- How an arithmetic instruction is written. -/
def arithText : Arith → String
  | .add => "Add"
  | .sub => "Sub"
  | .mul => "Mul"
  | .sdiv => "SDiv"

/-- How a request is written, without its reply. -/
def requestText : Request Nat String Nat → String
  | .getFunction name => "get_function " ++ name
  | .declareFunction name params =>
    "declare_function " ++ name ++ "(" ++ ", ".intercalate params ++ ")"
  | .appendEntryBlock f => "append_entry_block " ++ functionText f
  | .param f index => "param " ++ functionText f ++ " " ++ Text.ofNat index
  | .constInt n => "const_int " ++ Text.ofInt32 n
  | .alloca name => "alloca " ++ name
  | .load s name => "load " ++ slotText s ++ " " ++ name
  | .store v s => "store " ++ v ++ " " ++ slotText s
  | .binary op l r => "binary " ++ arithText op ++ " " ++ l ++ " " ++ r
  | .call f args => "call " ++ functionText f ++ "(" ++ ", ".intercalate args ++ ")"
  | .ret v => "ret " ++ v
  | .linkFile path => "link_file " ++ path

/-- The function of a name, with its place and arity. -/
def lookup (rec : Recorder) (name : String) : Option (Nat × Nat) := do
  let index ← rec.functions.findIdx? (·.1 == name)
  let f ← rec.functions[index]?
  return (index, f.2)

/-- The reply to a request, how it is written, and the state after it; the log is not touched. -/
def reply (rec : Recorder) : (r : Request Nat String Nat) → r.Reply × String × Recorder
  | .getFunction name =>
    let found := rec.lookup name
    (found, match found with
      | some (f, arity) => " -> " ++ functionText f ++ "/" ++ Text.ofNat arity
      | none => " -> none", rec)
  | .declareFunction name params =>
    let f := rec.functions.length
    (f, " -> " ++ functionText f,
      { rec with functions := rec.functions ++ [(name, params.length)] })
  | .param f index => (paramText f index, " -> " ++ paramText f index, rec)
  | .constInt n => (Text.ofInt32 n, "", rec)
  | .alloca _ => (rec.slots, " -> " ++ slotText rec.slots, { rec with slots := rec.slots + 1 })
  | .load .. | .binary .. | .call .. =>
    (valueText rec.values, " -> " ++ valueText rec.values, { rec with values := rec.values + 1 })
  | .appendEntryBlock _ | .store .. | .ret _ | .linkFile _ => ((), "", rec)

/-- Writes a line. -/
def write (rec : Recorder) (line : String) : Recorder :=
  { rec with log := rec.log ++ [line] }

/-- Counts a request if it is fallible. -/
def count (rec : Recorder) (r : Request Nat String Nat) : Recorder :=
  if r.fallible then { rec with calls := rec.calls + 1 } else rec

/-- The text of a refusal. -/
def refusalText (call : Nat) : String := "refused call " ++ Text.ofNat call

/-- The answer to a request; the fallible request of number `failAt` is refused. -/
def handle (failAt : Option Nat) (r : Request Nat String Nat) (rec : Recorder) :
    r.Answer String × Recorder :=
  let (a, suffix, rec') := rec.reply r
  if r.fallible ∧ failAt = some rec.calls then
    (.refused (refusalText rec.calls) (.granted a), (rec.count r).write (requestText r ++ " refused"))
  else
    (.granted a, (rec'.count r).write (requestText r ++ suffix))

end Recorder

/-- The recorder as a target. -/
def recorderTarget (failAt : Option Nat) : Target Nat String Nat Recorder String where
  handle := Recorder.handle failAt

end Lowering
end Straightline
