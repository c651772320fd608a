/-
# Executing a module

A call runs the instructions of a definition on a frame: the values defined so far and what the slots
hold.  An undefined operand and a slot that nothing was stored to read as zero.  Calls nest at most
`maxCallDepth` deep; the number of calls that may still be nested is what the recursion runs on.
The print routine is built in where the module does not define it: it writes its argument as a line
and returns it.

An execution ends with an integer or an error, and with what it has written so far.  Code that breaks
the rules of `Module.verify` may read what is not there; that is an error of its own (`outOfRange`,
`uninitialized`), and a body that ends without `ret` gives `none` (`instrs`), which a call turns into
zero.

Source: `execute`, `binary` and `check_arity` of the `hestia` executor, and its `Frame`.
-/

import Straightline.IR.Basic
import Straightline.IR.Table

namespace Straightline
namespace IR

/-- Why an execution stops. -/
inductive Execution.Error
  | divisionByZero (function : String)
  | divisionOverflow (function : String)
  | unresolvedSymbol (name : String)
  | arityMismatch (name : String) (expected found : Nat)
  | callDepthExceeded (function : String)
  | uninitialized (function value : String)
  | outOfRange (function : String)
  | output (reason : String)
deriving Repr, DecidableEq

/-- The wording of an error. -/
def Execution.Error.message : Execution.Error → String
  | divisionByZero f => "division by zero in '" ++ f ++ "'"
  | divisionOverflow f => "signed division overflow (i32::MIN / -1) in '" ++ f ++ "'"
  | unresolvedSymbol name => "unresolved symbol '" ++ name ++ "'"
  | arityMismatch name expected found =>
    "'" ++ name ++ "' called with " ++ Text.ofNat found ++ " argument(s), expected " ++
      Text.ofNat expected
  | callDepthExceeded f => "call depth limit exceeded while calling '" ++ f ++ "'"
  | uninitialized f v => "'" ++ f ++ "' reads '%" ++ v ++ "' before it is written"
  | outOfRange f => "'" ++ f ++ "' reads or writes what it does not have"
  | output _ => "failed to write program output"

/-- What caused an error, if something did. -/
def Execution.Error.causes : Execution.Error → List String
  | output reason => [reason]
  | _ => []

/-- Where the output of a program goes: it is taken, or each attempt to write fails for a reason. -/
inductive Sink
  | accepting
  | refusing (reason : String)
deriving Repr, DecidableEq

/-- An execution: from the output so far to an outcome and the output then. -/
abbrev Execution (α : Type) : Type := ExceptT Execution.Error (StateM String) α

namespace Execution

/-- An outcome that writes nothing. -/
def ofExcept {α : Type} (r : Except Error α) : Execution α :=
  ExceptT.mk (pure r)

/-- Deepest nesting of calls. -/
def maxCallDepth : Nat := 256

/-- The name of the print routine. -/
def printnum : String := "printnum"

/-- Writes a number as a line and returns it. -/
def print (sink : Sink) (n : Int32) : Execution Int32 :=
  match sink with
  | .accepting => do
    modifyThe String (· ++ (Text.ofInt32 n ++ "\n"))
    return n
  | .refusing reason => throw (.output reason)

/-- The values defined so far, and what each slot holds. -/
structure Frame where
  values : Table Int32
  memory : Nat → Int32

/-- The frame at the start of a body. -/
def Frame.empty : Frame := ⟨.empty, fun _ => 0⟩

/-- Reads an operand of an instruction of `f`, which was called with `args`. -/
def Frame.read (fr : Frame) (f : Function) (args : List Int32) :
    Operand → Except Error Int32
  | .const n => .ok n
  | .undef => .ok 0
  | .param index =>
    match args[index]? with
    | some n => .ok n
    | none => .error (.outOfRange f.name)
  | .value id =>
    match fr.values.get id with
    | some n => .ok n
    | none => .error (.uninitialized f.name (f.valueName id))

/-- Reads operands in order. -/
def Frame.readAll (fr : Frame) (f : Function) (args : List Int32) :
    List Operand → Except Error (List Int32)
  | [] => .ok []
  | o :: os => do
    let n ← fr.read f args o
    let ns ← fr.readAll f args os
    return n :: ns

/-- Defines a value of `f`. -/
def Frame.define (fr : Frame) (f : Function) (dest : Nat) (n : Int32) : Except Error Frame :=
  if dest < f.names.length then .ok { fr with values := fr.values.set dest n }
  else .error (.outOfRange f.name)

/-- Stores into a slot. -/
def Frame.store (fr : Frame) (slot : Nat) (n : Int32) : Frame :=
  { fr with memory := fun s => if s = slot then n else fr.memory s }

/-- The result of an arithmetic instruction in a function. -/
def arith (function : String) (op : Arith) (lhs rhs : Int32) : Except Error Int32 :=
  match op.eval? lhs rhs with
  | some n => .ok n
  | none => .error (if rhs = 0 then .divisionByZero function else .divisionOverflow function)

/-- Runs one instruction other than `ret`; `invoke` runs the calls. -/
def instr (invoke : String → List Int32 → Execution Int32) (f : Function) (args : List Int32)
    (fr : Frame) : Instr → Execution Frame
  | .alloca d => return fr.store d 0
  | .load d s => ofExcept (fr.define f d (fr.memory s))
  | .store v s => do
    let n ← ofExcept (fr.read f args v)
    return fr.store s n
  | .binary op l r d => do
    let lhs ← ofExcept (fr.read f args l)
    let rhs ← ofExcept (fr.read f args r)
    let n ← ofExcept (arith f.name op lhs rhs)
    ofExcept (fr.define f d n)
  | .call callee os d => do
    let ns ← ofExcept (fr.readAll f args os)
    let n ← invoke callee ns
    ofExcept (fr.define f d n)
  | .ret _ => return fr

/-- Runs instructions up to the first `ret`. -/
def instrs (invoke : String → List Int32 → Execution Int32) (f : Function) (args : List Int32) :
    Frame → List Instr → Execution (Option Int32)
  | _, [] => return none
  | fr, .ret v :: _ => do
    let n ← ofExcept (fr.read f args v)
    return some n
  | fr, i :: is => do
    let fr ← instr invoke f args fr i
    instrs invoke f args fr is

end Execution

/-- The definition of a name. -/
def Module.definition? (m : Module) (name : String) : Option Function :=
  (m.function? name).filter fun f => !f.isDeclaration

namespace Execution

/-- Calls a name: the definition of the module through `enter`, or the built-in print routine. -/
def invoke (m : Module) (sink : Sink) (enter : Function → List Int32 → Execution Int32)
    (name : String) (args : List Int32) : Execution Int32 :=
  match m.definition? name with
  | some f =>
    if f.arity = args.length then enter f args
    else throw (.arityMismatch name f.arity args.length)
  | none =>
    if name = printnum then
      match args with
      | [n] => print sink n
      | _ => throw (.arityMismatch name 1 args.length)
    else throw (.unresolvedSymbol name)

/-- Runs the body of a definition, if a call may still be nested. -/
def enter (m : Module) (sink : Sink) : Nat → Function → List Int32 → Execution Int32
  | 0, f, _ => throw (.callDepthExceeded f.name)
  | budget + 1, f, args => do
    let n ← instrs (invoke m sink (enter m sink budget)) f args .empty f.instrs
    return n.getD 0

end Execution

/-- Calls a name inside `depth` nested calls. -/
def Module.runAt (m : Module) (sink : Sink) (depth : Nat) (name : String) (args : List Int32) :
    Execution Int32 :=
  Execution.invoke m sink (Execution.enter m sink (Execution.maxCallDepth - depth)) name args

/-- Calls a name: the outcome, and what was written. -/
def Module.run (m : Module) (sink : Sink) (name : String) (args : List Int32) :
    Except Execution.Error Int32 × String :=
  m.runAt sink 0 name args ""

end IR
end Straightline
