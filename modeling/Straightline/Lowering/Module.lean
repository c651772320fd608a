/-
# Lowering to a module

The builder of modules as a target: functions are numbers, values operands, slots value numbers.
Parameters and results get names that tell what they are.

Source: the `Backend` that `hestia` has for its `Builder`, `link_file` of the back end and
`generate_module` of the code generator.
-/

import Straightline.IR.Builder
import Straightline.IR.Linking
import Straightline.Lowering.Generator

namespace Straightline
namespace Lowering

open IR (Arith Operand Builder Module)

/-- Why the builder refuses a request. -/
inductive Refusal
  | build (error : Builder.Error)
  | link (error : IR.Linking.Error)
deriving Repr, DecidableEq

/-- A refusal and what caused it, the refusal first. -/
def Refusal.chain : Refusal → List String
  | build error => [error.message]
  | link error => error.message :: error.causes

/-- What caused an error of lowering to a module. -/
def Error.causes (e : Error Refusal) : List String :=
  e.refusal?.elim [] Refusal.chain

namespace ModuleTarget

/-- The name of the result of an arithmetic instruction. -/
def resultName : Arith → String
  | .add => "add_tmp"
  | .sub => "sub_tmp"
  | .mul => "mul_tmp"
  | .sdiv => "div_tmp"

/-- The name of the result of a call. -/
def callName : String := "call_tmp"

/-- The label of the only block of a function. -/
def entryLabel : String := "entry"

/-- The name of a parameter in the module; the plain name is left to its slot. -/
def paramName (name : String) : String := name ++ "Arg"

/-- A step of the builder as an answer: after an error the builder is as before. -/
def ofStep {α : Type} (b : Builder) : Except Builder.Error (α × Builder) → Except Refusal α × Builder
  | .ok (a, b') => (.ok a, b')
  | .error e => (.error (.build e), b)

/-- A step without a result as an answer. -/
def ofUnitStep (b : Builder) : Except Builder.Error Builder → Except Refusal Unit × Builder
  | .ok b' => (.ok (), b')
  | .error e => (.error (.build e), b)

/-- A new value as an operand. -/
def asValue {α : Type} : Except α (Nat × Builder) → Except α (Operand × Builder) :=
  Except.map fun (id, b) => (.value id, b)

/-- The function of a name with its arity. -/
def lookup (b : Builder) (name : String) : Option (Nat × Nat) := do
  let index ← b.index? name
  let f ← b.module.functions[index]?
  return (index, f.arity)

/-- Links the text of a file, which `read` gives, into the module. -/
def linkFile (read : String → Except String String) (b : Builder) (path : String) :
    Except Refusal Unit × Builder :=
  let (status, m) := b.module.linkText path (read path)
  (status.mapError .link, { b with module := m })

/-- The builder's answer to a request. -/
def handle (read : String → Except String String) :
    (r : Request Nat Operand Nat) → Builder → r.Answer Refusal × Builder
  | .getFunction name, b => (lookup b name, b)
  | .declareFunction name params, b => ofStep b (b.addFunction name (params.map paramName))
  | .appendEntryBlock f, b => ((), (b.appendBlock f entryLabel).toOption.getD b)
  | .param f index, b => ((b.param f index).mapError .build, b)
  | .constInt n, b => (.const n, b)
  | .alloca name, b => ofStep b (b.alloca name)
  | .load slot name, b => ofStep b (asValue (b.load slot name))
  | .store value slot, b => ofUnitStep b (b.store value slot)
  | .binary op lhs rhs, b => ofStep b (asValue (b.binary op lhs rhs (resultName op)))
  | .call f args, b => ofStep b (asValue (b.call f args callName))
  | .ret value, b => ofUnitStep b (b.ret value)
  | .linkFile path, b => linkFile read b path

end ModuleTarget

/-- The builder of modules as a target; `read` gives the texts of files to link. -/
def moduleTarget (read : String → Except String String) :
    Target Nat Operand Nat Builder Refusal where
  handle := ModuleTarget.handle read

/-- Lowers a program to a module of the given name, and links a file into it. -/
def toModule (read : String → Except String String) (p : Source.Program) (name : String)
    (link : Option String) : Except (Error Refusal) Module :=
  match generate (moduleTarget read) .empty p link (Builder.empty name) with
  | (.ok (), b) => .ok b.module
  | (.error e, _) => .error e

end Lowering
end Straightline
