/-
# Folding constants

Arithmetic on constants is done in advance, and its results stand for the values.  A division without
a result stays, so that it fails when it is executed.  After that, instructions are left out that
only define a value which nothing after them in their block reads.

Source: `fold_constants` of the `hestia` back end, with `fold_function`, `evaluate`, `is_pure` and
`remove_dead_code`.
-/

import Straightline.IR.Basic
import Straightline.IR.Table

namespace Straightline
namespace IR

namespace Folding

/-- An operand with known values replaced by constants. -/
def operand (known : Table Int32) : Operand → Operand
  | .value id => ((known.get id).map Operand.const).getD (.value id)
  | o => o

/-- The value that an instruction defines, if its operands are constants and it has a result. -/
def result? : Instr → Option (Nat × Int32)
  | .binary op (.const l) (.const r) d => (op.eval? l r).map fun n => (d, n)
  | _ => none

/-- Replaces known values in the instructions of a block and does arithmetic on constants. -/
def instrs (known : Table Int32) : List Instr → List Instr × Table Int32
  | [] => ([], known)
  | i :: is =>
    let i := i.mapOperands (operand known)
    match result? i with
    | some (d, n) => instrs (known.set d n) is
    | none =>
      let (kept, known) := instrs known is
      (i :: kept, known)

/-- Goes through the blocks of a function; what is known in one is known in the next. -/
def blocks (known : Table Int32) : List Block → List Block
  | [] => []
  | b :: bs =>
    let (kept, known) := instrs known b.instrs
    { b with instrs := kept } :: blocks known bs

/-- An instruction that does nothing but define a value. -/
def isPure : Instr → Bool
  | .alloca _ | .load .. => true
  | .binary op .. => op != .sdiv
  | .store .. | .call .. | .ret _ => false

/-- Whether an instruction before the given ones can be left out. -/
def isDead (i : Instr) (after : List Instr) : Bool :=
  isPure i && i.dest?.all fun d => after.all fun j => !j.reads.contains d

/-- Leaves out what nothing reads, from the last instruction on. -/
def live : List Instr → List Instr
  | [] => []
  | i :: is =>
    let kept := live is
    if isDead i kept then kept else i :: kept

end Folding

/-- Folds the constants of a function. -/
def Function.fold (f : Function) : Function :=
  { f with blocks := Folding.blocks .empty f.blocks }.mapBlocks Folding.live

/-- Folds the constants of a module. -/
def Module.fold (m : Module) : Module :=
  m.mapFunctions Function.fold

end IR
end Straightline
