/-
# Replacing slots by values

Code is straight-line, so one walk over a block knows at each load what was stored last.  Loads,
stores and allocations of slots that the block allocates are left out; whoever read a loaded value
reads the stored operand in its place, or `undef` if nothing was stored.

Source: `promote_memory_to_registers` of the `hestia` back end, with `promote_function`, and
`finalize`, which verifies a module before and after it.
-/

import Straightline.IR.Verification

namespace Straightline
namespace IR

namespace Promotion

/-- What a walk knows: what each allocated slot holds, and what stands for each value loaded. -/
structure State where
  memory : Table Operand
  replaced : Table Operand

/-- The state at the start of a block. -/
def State.empty : State := ⟨.empty, .empty⟩

/-- An operand with loaded values replaced. -/
def State.operand (st : State) : Operand → Operand
  | .value id => (st.replaced.get id).getD (.value id)
  | o => o

/-- Walks over one instruction, whose operands are replaced already: the instruction to keep, if
any, and the state after it. -/
def State.step (st : State) (i : Instr) : Option Instr × State :=
  match i with
  | .alloca d => (none, { st with memory := st.memory.set d ((st.memory.get d).getD .undef) })
  | .store v s =>
    match st.memory.get s with
    | some _ => (none, { st with memory := st.memory.set s v })
    | none => (some i, st)
  | .load d s =>
    match st.memory.get s with
    | some v => (none, { st with replaced := st.replaced.set d v })
    | none => (some i, st)
  | i => (some i, st)

/-- Walks over the instructions of a block. -/
def instrs (st : State) : List Instr → List Instr
  | [] => []
  | i :: is =>
    let (kept, st') := st.step (i.mapOperands st.operand)
    kept.toList ++ instrs st' is

end Promotion

/-- Replaces slots by values in a function, block by block. -/
def Function.promote (f : Function) : Function :=
  f.mapBlocks (Promotion.instrs .empty)

/-- Replaces slots by values in a module. -/
def Module.promote (m : Module) : Module :=
  m.mapFunctions Function.promote

/-- A module in order, with its slots replaced by values. -/
def Module.prepare (m : Module) : Except Verification.Error Module := do
  m.verify
  m.promote.verify
  return m.promote

end IR
end Straightline
