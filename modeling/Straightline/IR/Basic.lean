/-
# Modules of load/store code

A module is a list of functions.  A function without blocks is a declaration.  The instructions of a
definition name their results by numbers; the function's table `names` gives the text of each.  A
value is a 32-bit integer, except the result of `alloca`: that is a slot, which only `load` and
`store` may use.

Source: `Module`, `Function`, `Block`, `Instruction` and `Operand` of the `hestia` intermediate
representation, with `fresh_value`.
-/

import Straightline.Names

namespace Straightline
namespace IR

/-- The arithmetic instructions. -/
inductive Arith
  | add | sub | mul | sdiv
deriving Repr, DecidableEq

/-- A division has a result unless the divisor is zero or the quotient does not fit: the least
integer divided by minus one. -/
def divides (lhs rhs : Int32) : Bool :=
  rhs != 0 && !(lhs == Int32.minValue && rhs == -1)

/-- The result of an arithmetic instruction.  Sum, difference and product wrap around at 32 bits,
the quotient is rounded toward zero. -/
def Arith.eval? : Arith → Int32 → Int32 → Option Int32
  | add, l, r => some (l + r)
  | sub, l, r => some (l - r)
  | mul, l, r => some (l * r)
  | sdiv, l, r => if divides l r then some (l / r) else none

/-- What an instruction reads: a constant, a parameter by its place, a value by its number, or
nothing in particular. -/
inductive Operand
  | const (n : Int32)
  | param (index : Nat)
  | value (id : Nat)
  | undef
deriving Repr, DecidableEq

/-- The number of the value that an operand reads. -/
def Operand.value? : Operand → Option Nat
  | value id => some id
  | _ => none

/-- An instruction. -/
inductive Instr
  | alloca (dest : Nat)
  | load (dest slot : Nat)
  | store (value : Operand) (slot : Nat)
  | binary (op : Arith) (lhs rhs : Operand) (dest : Nat)
  | call (callee : String) (args : List Operand) (dest : Nat)
  | ret (value : Operand)
deriving Repr, DecidableEq

namespace Instr

/-- The number of the value that an instruction defines. -/
def dest? : Instr → Option Nat
  | alloca d | load d _ | binary _ _ _ d | call _ _ d => some d
  | store .. | ret _ => none

/-- The integers that an instruction reads; slots are not among them. -/
def operands : Instr → List Operand
  | alloca _ | load .. => []
  | store v _ => [v]
  | binary _ l r _ => [l, r]
  | call _ args _ => args
  | ret v => [v]

/-- Changes the integers that an instruction reads. -/
def mapOperands (f : Operand → Operand) : Instr → Instr
  | alloca d => alloca d
  | load d s => load d s
  | store v s => store (f v) s
  | binary op l r d => binary op (f l) (f r) d
  | call callee args d => call callee (args.map f) d
  | ret v => ret (f v)

/-- The slot that an instruction reads or writes. -/
def slot? : Instr → Option Nat
  | load _ s | store _ s => some s
  | _ => none

/-- Whether an instruction ends its block. -/
def isTerminator : Instr → Bool
  | ret _ => true
  | _ => false

/-- The numbers of the values and slots that an instruction reads. -/
def reads (i : Instr) : List Nat :=
  i.operands.filterMap Operand.value? ++ i.slot?.toList

/-- Exactly the operands are rewritten. -/
@[simp] theorem operands_mapOperands (f : Operand → Operand) (i : Instr) :
    (i.mapOperands f).operands = i.operands.map f := by
  cases i <;> rfl

/-- The value that is defined stays. -/
@[simp] theorem dest?_mapOperands (f : Operand → Operand) (i : Instr) :
    (i.mapOperands f).dest? = i.dest? := by
  cases i <;> rfl

/-- The slot that is accessed stays. -/
@[simp] theorem slot?_mapOperands (f : Operand → Operand) (i : Instr) :
    (i.mapOperands f).slot? = i.slot? := by
  cases i <;> rfl

/-- What ends a block still ends it. -/
@[simp] theorem isTerminator_mapOperands (f : Operand → Operand) (i : Instr) :
    (i.mapOperands f).isTerminator = i.isTerminator := by
  cases i <;> rfl

end Instr

/-- A labelled list of instructions. -/
structure Block where
  label : String
  instrs : List Instr
deriving Repr, DecidableEq

/-- A function: `names` holds the text of each value, by its number. -/
structure Function where
  name : String
  params : List String
  names : List String
  blocks : List Block
deriving Repr, DecidableEq

namespace Function

/-- A function without a body. -/
def declare (name : String) (params : List String) : Function :=
  ⟨name, params, [], []⟩

/-- The number of parameters. -/
def arity (f : Function) : Nat :=
  f.params.length

/-- Whether a function has no body. -/
def isDeclaration (f : Function) : Bool :=
  f.blocks.isEmpty

/-- The instructions of all blocks in order. -/
def instrs (f : Function) : List Instr :=
  f.blocks.flatMap Block.instrs

/-- The text of a value; a number without a name shows itself. -/
def valueName (f : Function) (id : Nat) : String :=
  f.names[id]?.getD ("#" ++ Text.ofNat id)

/-- The text of a parameter; a place without a parameter shows itself. -/
def paramName (f : Function) (index : Nat) : String :=
  f.params[index]?.getD ("#" ++ Text.ofNat index)

/-- The names that a new value cannot have. -/
def takenNames (f : Function) : List String :=
  f.params ++ f.names

/-- Adds a value named after a base. -/
def addValue (f : Function) (base : String) : Function :=
  { f with names := f.names ++ [Names.fresh f.takenNames base] }

/-- The number of a new value, and the function with it. -/
def newValue (f : Function) (base : String) : Nat × Function :=
  (f.names.length, f.addValue base)

/-- Changes the list of instructions of each block. -/
def mapBlocks (g : List Instr → List Instr) (f : Function) : Function :=
  { f with blocks := f.blocks.map fun b => { b with instrs := g b.instrs } }

end Function

/-- A module: a name and functions. -/
structure Module where
  name : String
  functions : List Function
deriving Repr, DecidableEq

namespace Module

/-- The module without functions. -/
def empty (name : String) : Module :=
  ⟨name, []⟩

/-- The place of the first function of a name. -/
def index? (m : Module) (name : String) : Option Nat :=
  m.functions.findIdx? (·.name == name)

/-- The first function of a name. -/
def function? (m : Module) (name : String) : Option Function :=
  m.functions.find? (·.name == name)

/-- Changes every function. -/
def mapFunctions (g : Function → Function) (m : Module) : Module :=
  { m with functions := m.functions.map g }

end Module
end IR
end Straightline
