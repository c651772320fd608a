/-
# What a program means

A program is evaluated on its tree.  A call of a defined function binds the parameters to the
arguments, starts the other variables at zero, and runs the statements in order up to the first
`return`.  Operands and arguments are evaluated from left to right; an assignment changes a variable
and has the assigned value.  The print routine is built in where the program does not define it.
Calls nest as deep as in the execution of modules, and the ways to end are the same: an integer or an
error, and the output so far.

The compiler has no such evaluator: this is what its output is measured by.
-/

import Straightline.IR.Execution
import Straightline.Source.Basic

namespace Straightline
namespace Source

/-- The values of the variables of a function. -/
def Env : Type := String → Int32

namespace Env

/-- Every variable is zero. -/
def zero : Env := fun _ => 0

/-- The value of a variable. -/
def get (env : Env) (x : String) : Int32 := env x

/-- Changes a variable. -/
def set (env : Env) (x : String) (n : Int32) : Env :=
  fun y => if y = x then n else env y

/-- Parameters bound to arguments, all else zero. -/
def ofArgs : List String → List Int32 → Env
  | x :: xs, n :: ns => (ofArgs xs ns).set x n
  | _, _ => zero

@[simp] theorem get_zero (x : String) : zero.get x = 0 := rfl

/-- A variable that was assigned has the value it was assigned. -/
@[simp] theorem get_set_self (env : Env) (x : String) (n : Int32) : (env.set x n).get x = n := by
  simp [get, set]

/-- The other variables are left alone. -/
@[simp] theorem get_set_of_ne (env : Env) {x y : String} (n : Int32) (h : y ≠ x) :
    (env.set x n).get y = env.get y := by
  simp [get, set, h]

end Env

/-- An evaluation inside a function: it reads and changes variables, and may write output. -/
abbrev Evaluation (α : Type) : Type := StateT Env IR.Execution α

namespace Evaluation

open IR (Execution)

/-- The value of an operator.  An assignment has the value on its right; a quotient is rounded toward
zero, and a quotient that does not exist is an error of the function. -/
def operator (function : String) : BinaryOp → Int32 → Int32 → Except Execution.Error Int32
  | .assign, _, r => .ok r
  | .add, l, r => .ok (l + r)
  | .subtract, l, r => .ok (l - r)
  | .multiply, l, r => .ok (l * r)
  | .divide, l, r =>
    if r = 0 then .error (.divisionByZero function)
    else if l = Int32.minValue ∧ r = -1 then .error (.divisionOverflow function)
    else .ok (l / r)

variable (call : String → List Int32 → Execution Int32) (function : String)

mutual

/-- Evaluates an expression of a function; `call` evaluates the calls. -/
def expr : Expr → Evaluation Int32
  | .const n => return n
  | .var x => return (← get).get x
  | .binary .assign (.var x) right => do
    let n ← expr right
    modify fun env => env.set x n
    return n
  | .binary op left right => do
    let l ← expr left
    let r ← expr right
    StateT.lift (Execution.ofExcept (operator function op l r))
  | .call f args => do
    let ns ← exprs args
    StateT.lift (call f ns)

/-- Evaluates arguments in order. -/
def exprs : List Expr → Evaluation (List Int32)
  | [] => return []
  | e :: es => do
    let n ← expr e
    let ns ← exprs es
    return n :: ns

end

/-- Runs statements up to the first `return`; without one the result is zero. -/
def stmts : List Stmt → Evaluation Int32
  | [] => return 0
  | .ret e :: _ => expr call function e
  | .expr e :: rest => do
    let _ ← expr call function e
    stmts rest

end Evaluation

namespace Program

open IR (Execution Sink)

/-- Calls a name: the definition of the program through `enter`, or the built-in print routine. -/
def call (p : Program) (sink : Sink) (enter : Function → List Int32 → Execution Int32)
    (name : String) (args : List Int32) : Execution Int32 :=
  match p.function? name, args with
  | some f, args =>
    if f.arity = args.length then enter f args
    else throw (.arityMismatch name f.arity args.length)
  | none, [n] =>
    if name = printnum.name then Execution.print sink n else throw (.unresolvedSymbol name)
  | none, args =>
    if name = printnum.name then throw (.arityMismatch name printnum.arity args.length)
    else throw (.unresolvedSymbol name)

/-- Evaluates the body of a definition, if a call may still be nested. -/
def enter (p : Program) (sink : Sink) : Nat → Function → List Int32 → Execution Int32
  | 0, f, _ => throw (.callDepthExceeded f.name)
  | budget + 1, f, args =>
    (Evaluation.stmts (p.call sink (p.enter sink budget)) f.name f.stmts).run'
      (Env.ofArgs f.prototype.params args)

/-- Calls a name of a program: the outcome, and what was written. -/
def run (p : Program) (sink : Sink) (name : String) (args : List Int32) :
    Except Execution.Error Int32 × String :=
  p.call sink (p.enter sink Execution.maxCallDepth) name args ""

end Program
end Source
end Straightline
