/-
# The text of a module

A module is printed as two header lines and its functions, each after an empty line.  A declaration
shows how many parameters there are, a definition their names.  Every number of a value and every
place of a parameter that an instruction mentions is printed as its name, so a module has a text only
if all of them have one (`Module.Nameable`); `Module.text?` is the text of such a module.

Source: the text (`fmt`) of a `Module` of the `hestia` intermediate representation, with
`format_instruction`, `format_operand` and `format_binary`.
-/

import Straightline.IR.Basic

namespace Straightline
namespace IR

/-- The name of an arithmetic instruction. -/
def Arith.text : Arith → String
  | add => "add"
  | sub => "sub"
  | mul => "mul"
  | sdiv => "sdiv"

namespace Function

/-- A value or slot, by its name. -/
def valueText (f : Function) (id : Nat) : String :=
  "%" ++ f.valueName id

/-- An operand. -/
def operandText (f : Function) : Operand → String
  | .const n => Text.ofInt32 n
  | .param index => "%" ++ f.paramName index
  | .value id => f.valueText id
  | .undef => "undef"

/-- An argument of a call. -/
def argText (f : Function) (o : Operand) : String :=
  "i32 " ++ f.operandText o

/-- An instruction. -/
def instrText (f : Function) : Instr → String
  | .alloca d => f.valueText d ++ " = alloca i32, align 4"
  | .load d s => f.valueText d ++ " = load i32, ptr " ++ f.valueText s ++ ", align 4"
  | .store v s => "store i32 " ++ f.operandText v ++ ", ptr " ++ f.valueText s ++ ", align 4"
  | .binary op l r d =>
    f.valueText d ++ " = " ++ op.text ++ " i32 " ++ f.operandText l ++ ", " ++ f.operandText r
  | .call callee args d =>
    f.valueText d ++ " = call i32 @" ++ callee ++ "(" ++
      ", ".intercalate (args.map f.argText) ++ ")"
  | .ret v => "ret i32 " ++ f.operandText v

/-- A block: its label and its instructions, one a line. -/
def blockText (f : Function) (b : Block) : String :=
  b.label ++ ":\n" ++ String.join (b.instrs.map fun i => "  " ++ f.instrText i ++ "\n")

/-- A function; empty lines separate its blocks. -/
def text (f : Function) : String :=
  if f.isDeclaration then
    "declare i32 @" ++ f.name ++ "(" ++ ", ".intercalate (f.params.map fun _ => "i32") ++ ")\n"
  else
    "define i32 @" ++ f.name ++ "(" ++ ", ".intercalate (f.params.map ("i32 %" ++ ·)) ++
      r") {" ++ "\n" ++ "\n".intercalate (f.blocks.map f.blockText) ++ r"}" ++ "\n"

/-- An operand that has a name or needs none. -/
def NameableOperand (f : Function) : Operand → Prop
  | .param index => index < f.params.length
  | .value id => id < f.names.length
  | .const _ | .undef => True

instance (f : Function) (o : Operand) : Decidable (f.NameableOperand o) := by
  cases o <;> unfold NameableOperand <;> infer_instance

/-- An instruction all of whose operands, slots and results have a name. -/
def NameableInstr (f : Function) (i : Instr) : Prop :=
  (∀ o ∈ i.operands, f.NameableOperand o) ∧ (∀ s ∈ i.slot?.toList, s < f.names.length) ∧
    ∀ d ∈ i.dest?.toList, d < f.names.length

instance (f : Function) (i : Instr) : Decidable (f.NameableInstr i) :=
  inferInstanceAs (Decidable (_ ∧ _ ∧ _))

/-- A function whose instructions mention only what has a name. -/
def Nameable (f : Function) : Prop :=
  ∀ i ∈ f.instrs, f.NameableInstr i

instance (f : Function) : Decidable f.Nameable :=
  inferInstanceAs (Decidable (∀ i ∈ f.instrs, f.NameableInstr i))

/-- The text of a function that has one. -/
def text? (f : Function) : Option String :=
  if f.Nameable then some f.text else none

end Function

namespace Module

/-- The text of a module. -/
def text (m : Module) : String :=
  "; ModuleID = '" ++ m.name ++ "'\nsource_filename = \"" ++ m.name ++ "\"\n" ++
    String.join (m.functions.map fun f => "\n" ++ f.text)

/-- A module whose instructions mention only what has a name. -/
def Nameable (m : Module) : Prop :=
  ∀ f ∈ m.functions, f.Nameable

instance (m : Module) : Decidable m.Nameable :=
  inferInstanceAs (Decidable (∀ f ∈ m.functions, f.Nameable))

/-- The text of a module that has one. -/
def text? (m : Module) : Option String :=
  if m.Nameable then some m.text else none

end Module
end IR
end Straightline
