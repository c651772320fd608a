/-
# One executor for many calls

An executor counts the calls that are under way and keeps what was written.  A definition is counted
when it is entered and counted no more when it is left, and it is left whether its body has ended with a
result or with an error; one more call than `maxCallDepth` is not entered.  An executor can be used again
after each call, also after one that failed.

Nothing but the counter stops a recursion, so that it comes back to where it was is part of what a call
gives (`Ended`): the calls that come later in a body end for this reason.  A call also tells how far the
counter went up on the way.  That an executor does what `Module.runAt` says at its depth is shown in
`Executor.run_does`.

Source: `Executor` of the `hestia` back end, with `run` and `call`.
-/

import Straightline.IR.Execution

namespace Straightline
namespace IR

/-- The frame after an instruction that concerns nothing else: one that is neither a call nor `ret`. -/
def Execution.Frame.step (fr : Frame) (f : Function) (args : List Int32) :
    Instr → Except Error Frame
  | .alloca d => return fr.store d 0
  | .load d s => fr.define f d (fr.memory s)
  | .store v s => do
    let n ← fr.read f args v
    return fr.store s n
  | .binary op l r d => do
    let lhs ← fr.read f args l
    let rhs ← fr.read f args r
    let n ← arith f.name op lhs rhs
    fr.define f d n
  | .call .. | .ret _ => return fr

/-- An executor: how many calls are under way, and what was written. -/
structure Executor where
  depth : Nat
  output : String
deriving Repr, DecidableEq

namespace Executor

open Execution

/-- The executor before the first call. -/
def fresh : Executor := ⟨0, ""⟩

/-- Counts one more call. -/
def enter (ex : Executor) : Executor :=
  { ex with depth := ex.depth + 1 }

/-- Counts one call less. -/
def leave (ex : Executor) : Executor :=
  { ex with depth := ex.depth - 1 }

/-- What an executor has done: the outcome, the executor then, which counts as many calls as before, and
the largest count on the way. -/
structure Ended (ex : Executor) (α : Type) where
  outcome : Except Error α
  after : Executor
  deepest : Nat
  depth_after : after.depth = ex.depth
  depth_le_deepest : ex.depth ≤ deepest

variable {α β : Type} {ex : Executor}

/-- An outcome for which nothing is done. -/
def Ended.here (ex : Executor) (outcome : Except Error α) : Ended ex α :=
  ⟨outcome, ex, ex.depth, rfl, Nat.le_refl _⟩

/-- Goes on with the result, on the executor then; an error ends it all. -/
def Ended.andThen (ended : Ended ex α)
    (next : α → (ex' : Executor) → ex'.depth = ex.depth → Ended ex' β) : Ended ex β :=
  match ended with
  | ⟨.error e, ex', deepest, h, hle⟩ => ⟨.error e, ex', deepest, h, hle⟩
  | ⟨.ok a, ex', deepest, h, hle⟩ =>
    ⟨(next a ex' h).outcome, (next a ex' h).after, max deepest (next a ex' h).deepest,
      (next a ex' h).depth_after.trans h, Nat.le_trans hle (Nat.le_max_left ..)⟩

/-- Leaves the definition that was entered, also after an error. -/
def Ended.left (ended : Ended ex.enter α) : Ended ex α :=
  ⟨ended.outcome, ended.after.leave, ended.deepest, congrArg (· - 1) ended.depth_after,
    Nat.le_trans (Nat.le_succ _) ended.depth_le_deepest⟩

/-- An execution on the output of an executor; the counter stays. -/
def perform (ex : Executor) (x : Execution α) : Ended ex α :=
  ⟨(x ex.output).1, { ex with output := (x ex.output).2 }, ex.depth, rfl, Nat.le_refl _⟩

mutual

/-- Calls a name: the definition of the module, or the built-in print routine. -/
def run (m : Module) (sink : Sink) (ex : Executor) (name : String) (args : List Int32) :
    Ended ex Int32 :=
  match m.definition? name with
  | some f =>
    if f.arity = args.length then call m sink ex f args
    else .here ex (.error (.arityMismatch name f.arity args.length))
  | none =>
    if name = printnum then
      match args with
      | [n] => ex.perform (print sink n)
      | _ => .here ex (.error (.arityMismatch name 1 args.length))
    else .here ex (.error (.unresolvedSymbol name))
termination_by (maxCallDepth - ex.depth, 1, 0)

/-- Enters a definition, runs its body and leaves it; one that is nested too deep is not entered. -/
def call (m : Module) (sink : Sink) (ex : Executor) (f : Function) (args : List Int32) :
    Ended ex Int32 :=
  if ex.depth ≥ maxCallDepth then .here ex (.error (.callDepthExceeded f.name))
  else (instrs m sink f args ex.enter .empty f.instrs).left
termination_by (maxCallDepth - ex.depth, 0, 0)
decreasing_by
  have hdepth : ex.enter.depth = ex.depth + 1 := rfl
  exact Prod.Lex.left _ _ (by omega)

/-- Runs one instruction other than `ret`. -/
def instr (m : Module) (sink : Sink) (f : Function) (args : List Int32) (ex : Executor) (fr : Frame)
    (i : Instr) : Ended ex Frame :=
  match i with
  | .call callee os d =>
    match fr.readAll f args os with
    | .error e => .here ex (.error e)
    | .ok ns => (run m sink ex callee ns).andThen fun n ex' _ => .here ex' (fr.define f d n)
  | i => .here ex (fr.step f args i)
termination_by (maxCallDepth - ex.depth, 2, 0)

/-- Runs instructions up to the first `ret`; without one, the result is zero. -/
def instrs (m : Module) (sink : Sink) (f : Function) (args : List Int32) (ex : Executor) (fr : Frame)
    (is : List Instr) : Ended ex Int32 :=
  match is with
  | [] => .here ex (.ok 0)
  | .ret v :: _ => .here ex (fr.read f args v)
  | i :: is =>
    (instr m sink f args ex fr i).andThen fun fr ex' _ => instrs m sink f args ex' fr is
termination_by (maxCallDepth - ex.depth, 3, is.length)
decreasing_by
  · exact Prod.Lex.right _ (Prod.Lex.left _ _ (by decide))
  · rename_i hdepth
    rw [hdepth]
    exact Prod.Lex.right _ (Prod.Lex.right _ (Nat.lt_succ_self _))

end

/-- The executor after calls, one after the other, whatever came of them. -/
def runAll (m : Module) (sink : Sink) (ex : Executor) : List (String × List Int32) → Executor
  | [] => ex
  | (name, args) :: calls => runAll m sink (run m sink ex name args).after calls

end Executor
end IR
end Straightline
