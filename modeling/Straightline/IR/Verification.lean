/-
# Which modules are in order

`Module.verify` checks a module and reports the first rule that is broken.  The rules: function names
differ; a definition has one block, which ends with its only `ret`; an instruction reads integers
that were defined above it, slots that were allocated above it, and parameters that exist; it calls
functions of the module with as many arguments as they have parameters; and it defines a value that
has a name and was not defined before.

Source: `verify` of the `hestia` back end, with `verify_function`, `check_integer` and `VerifyError`.
-/

import Straightline.IR.Basic
import Straightline.IR.Table

namespace Straightline
namespace IR

/-- Which rule is broken, and by whom. -/
inductive Verification.Error
  | duplicateFunction (name : String)
  | blockCount (function : String) (count : Nat)
  | missingTerminator (function : String)
  | earlyTerminator (function : String)
  | undefinedValue (function value : String)
  | valueRedefined (function value : String)
  | notAnInteger (function value : String)
  | notASlot (function value : String)
  | paramOutOfRange (function : String) (index : Nat)
  | unknownCallee (function callee : String)
  | callArity (function callee : String) (expected found : Nat)
deriving Repr, DecidableEq

/-- The wording of an error. -/
def Verification.Error.message : Verification.Error → String
  | duplicateFunction name => "function '" ++ name ++ "' is defined more than once"
  | blockCount f count =>
    "function '" ++ f ++ "' must have exactly one block, found " ++ Text.ofNat count
  | missingTerminator f => "block of '" ++ f ++ "' does not end with 'ret'"
  | earlyTerminator f => "'ret' in '" ++ f ++ "' is followed by more instructions"
  | undefinedValue f v => "'" ++ f ++ "' uses '%" ++ v ++ "' before it is defined"
  | valueRedefined f v => "'" ++ f ++ "' defines '%" ++ v ++ "' twice"
  | notAnInteger f v => "'" ++ f ++ "' uses slot '%" ++ v ++ "' as an integer"
  | notASlot f v => "'" ++ f ++ "' uses '%" ++ v ++ "' as a slot, but it was not allocated"
  | paramOutOfRange f index =>
    "'" ++ f ++ "' reads parameter " ++ Text.ofNat index ++ ", which does not exist"
  | unknownCallee f callee => "'" ++ f ++ "' calls '" ++ callee ++ "', which is not in the module"
  | callArity f callee expected found =>
    "'" ++ f ++ "' calls '" ++ callee ++ "' with " ++ Text.ofNat found ++
      " argument(s), expected " ++ Text.ofNat expected

/-- What a value is. -/
inductive ValueKind
  | integer | slot
deriving Repr, DecidableEq

/-- What the result of an instruction is. -/
def Instr.kind : Instr → ValueKind
  | .alloca _ => .slot
  | _ => .integer

namespace Verification

/-- An operand is a constant, an existing parameter, or an integer defined above. -/
def operand (f : Function) (defined : Table ValueKind) : Operand → Except Error Unit
  | .const _ | .undef => .ok ()
  | .param index => if index < f.arity then .ok () else .error (.paramOutOfRange f.name index)
  | .value id =>
    match defined.get id with
    | some .integer => .ok ()
    | some .slot => .error (.notAnInteger f.name (f.valueName id))
    | none => .error (.undefinedValue f.name (f.valueName id))

/-- All operands, in order. -/
def operands (f : Function) (defined : Table ValueKind) : List Operand → Except Error Unit
  | [] => .ok ()
  | o :: os => do
    operand f defined o
    operands f defined os

/-- The slot of a load or store was allocated above. -/
def slot (f : Function) (defined : Table ValueKind) : Option Nat → Except Error Unit
  | none => .ok ()
  | some s =>
    if defined.get s = some .slot then .ok () else .error (.notASlot f.name (f.valueName s))

/-- A call names a function of the module and passes as many arguments as it takes. -/
def callee (m : Module) (f : Function) : Instr → Except Error Unit
  | .call callee args _ =>
    match m.function? callee with
    | none => .error (.unknownCallee f.name callee)
    | some g =>
      if g.arity = args.length then .ok ()
      else .error (.callArity f.name callee g.arity args.length)
  | _ => .ok ()

/-- A result has a name and is new; it is then defined. -/
def result (f : Function) (defined : Table ValueKind) (i : Instr) :
    Except Error (Table ValueKind) :=
  match i.dest? with
  | none => .ok defined
  | some d =>
    if d < f.names.length ∧ defined.get d = none then .ok (defined.set d i.kind)
    else .error (.valueRedefined f.name (f.valueName d))

/-- One instruction after those that defined the given values. -/
def instr (m : Module) (f : Function) (defined : Table ValueKind) (i : Instr) :
    Except Error (Table ValueKind) := do
  operands f defined i.operands
  slot f defined i.slot?
  callee m f i
  result f defined i

/-- Instructions in order. -/
def instrs (m : Module) (f : Function) (defined : Table ValueKind) :
    List Instr → Except Error Unit
  | [] => .ok ()
  | i :: is => do
    let defined ← instr m f defined i
    instrs m f defined is

/-- The first `ret` of a body is its last instruction. -/
def terminator (f : Function) : List Instr → Except Error Unit
  | [] => .error (.missingTerminator f.name)
  | i :: is =>
    if i.isTerminator then
      if is.isEmpty then .ok () else .error (.earlyTerminator f.name)
    else terminator f is

/-- A definition. -/
def body (m : Module) (f : Function) : Except Error Unit :=
  match f.blocks with
  | [b] => do
    terminator f b.instrs
    instrs m f .empty b.instrs
  | bs => .error (.blockCount f.name bs.length)

/-- Functions in order; declarations need no check. -/
def functions (m : Module) : List Function → Except Error Unit
  | [] => .ok ()
  | f :: fs => do
    if !f.isDeclaration then body m f
    functions m fs

end Verification

/-- Checks a module. -/
def Module.verify (m : Module) : Except Verification.Error Unit :=
  match Names.firstRepeated (m.functions.map Function.name) with
  | some name => .error (.duplicateFunction name)
  | none => Verification.functions m m.functions

end IR
end Straightline
