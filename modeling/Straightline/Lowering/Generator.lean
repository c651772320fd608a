/-
# Lowering a program

Every variable gets a slot; reading it is a load, assigning to it a store.  Prototypes come first,
then the definitions, then a file to link.  A function that the target already has is used if its
arity is right, and declared otherwise.  The statements after the first `return` are not lowered.

Lowering keeps a scope: the function that is being lowered and the slots of its variables.  Each
definition starts with a scope of its own, so what an earlier run has left in it does not matter.

Where a request may be refused, lowering looks at the answer right away, and a refusal becomes an
error (`Gen.backend`, `Gen.linked`).

Source: `Generator` of the `hestia` code generator, with `generate`, `gen_prototype`, `gen_function`,
`gen_decls`, `gen_expr` and `gen_call`.
-/

import Straightline.Lowering.Script
import Straightline.Source.Basic

namespace Straightline
namespace Lowering

open IR (Arith)
open Source (Expr Stmt Decl Prototype Program)

/-- The function that is being lowered, and the slots of its variables, the latest first. -/
structure Scope (F S : Type) where
  current : Option F
  slots : List (String × S)
deriving Repr, DecidableEq

/-- The scope outside of functions. -/
def Scope.empty {F S : Type} : Scope F S := ⟨none, []⟩

/-- A script that keeps a scope. -/
abbrev Gen (F V S ε α : Type) : Type := StateT (Scope F S) (Script F V S ε) α

namespace Gen

variable {F V S ε : Type}

/-- Makes a request. -/
def ask (r : Request F V S) : Gen F V S ε (r.Answer ε) :=
  StateT.lift (Script.request r)

/-- Ends with an error. -/
def fail {α : Type} (error : Error ε) : Gen F V S ε α :=
  StateT.lift (Script.fail error)

/-- Goes on with the reply to a request, and ends if it was refused. -/
def backend {α : Type} : Except ε α → Gen F V S ε α
  | .ok reply => return reply
  | .error refusal => fail (.backend refusal)

/-- Goes on if a file was linked, and else ends with an error that names it. -/
def linked (path : String) : Except ε Unit → Gen F V S ε Unit
  | .ok () => return
  | .error refusal => fail (.link path refusal)

/-- The function of a signature: the target's own, or a new one. -/
def prototype (p : Prototype) : Gen F V S ε F := do
  match ← ask (.getFunction p.name) with
  | some (f, arity) =>
    if arity = p.arity then return f else fail (.fault (.prototypeMismatch p.name arity p.arity))
  | none => ask (.declareFunction p.name p.params) >>= backend

/-- The slot of a variable. -/
def slot (name : String) : Gen F V S ε S := do
  match (← get).slots.lookup name with
  | some s => return s
  | none => fail (.fault (.unknownVariable name))

/-- The variable on the left of an assignment. -/
def target : Expr → Gen F V S ε String
  | .var name => return name
  | _ => fail (.fault .invalidAssignment)

/-- The name of the value that a call reads an assigned variable into. -/
def argumentName : String := "arg_val"

/-- The value of an argument: an assigned variable is read again, after the assignment. -/
def argument (arg : Expr) (v : V) : Gen F V S ε V :=
  match arg with
  | .binary .assign left _ => do
    let s ← slot (← target left)
    ask (.load s argumentName) >>= backend
  | _ => return v

/-- The instruction for an operator other than the assignment. -/
def arith? : Source.BinaryOp → Option Arith
  | .assign => none
  | .add => some .add
  | .subtract => some .sub
  | .multiply => some .mul
  | .divide => some .sdiv

mutual

/-- Lowers an expression; the result is its value. -/
def expr : Expr → Gen F V S ε V
  | .const n => ask (.constInt n)
  | .var name => do
    let s ← slot name
    ask (.load s name) >>= backend
  | .binary op left right =>
    match arith? op with
    | none => do
      let v ← expr right
      let s ← slot (← target left)
      ask (.store v s) >>= backend
      return v
    | some op => do
      let lhs ← expr left
      let rhs ← expr right
      ask (.binary op lhs rhs) >>= backend
  | .call name args => do
    match ← ask (.getFunction name) with
    | none => fail (.fault (.missingFunction name))
    | some (f, _) =>
      let values ← exprs args
      ask (.call f values) >>= backend

/-- Lowers the arguments of a call in order. -/
def exprs : List Expr → Gen F V S ε (List V)
  | [] => return []
  | arg :: args => do
    let v ← expr arg
    let v ← argument arg v
    let vs ← exprs args
    return v :: vs

end

/-- The function that is being lowered. -/
def current : Gen F V S ε F := do
  match (← get).current with
  | some f => return f
  | none => fail (.fault .noCurrentFunction)

/-- Gives a variable of the function `f` a slot; a parameter is stored into it. -/
def decl (f : F) (params : List String) (d : Decl) : Gen F V S ε Unit := do
  let s ← ask (.alloca d.name) >>= backend
  modify fun scope => { scope with slots := (d.name, s) :: scope.slots }
  match d.kind with
  | .local => return
  | .parameter =>
    match params.idxOf? d.name with
    | none => fail (.fault (.unknownVariable d.name))
    | some index =>
      let v ← ask (.param f index) >>= backend
      ask (.store v s) >>= backend

/-- Gives variables slots in order. -/
def decls (f : F) (params : List String) : List Decl → Gen F V S ε Unit
  | [] => return
  | d :: ds => do
    decl f params d
    decls f params ds

/-- Lowers statements up to the first `return`. -/
def stmts : List Stmt → Gen F V S ε Unit
  | [] => return
  | .ret e :: _ => do
    let v ← expr e
    ask (.ret v) >>= backend
  | .expr e :: rest => do
    let _ ← expr e
    stmts rest

/-- Lowers a definition. -/
def function (f : Source.Function) : Gen F V S ε Unit := do
  let handle ← prototype f.prototype
  set (⟨some handle, []⟩ : Scope F S)
  ask (.appendEntryBlock handle)
  decls (← current) f.prototype.params f.decls
  stmts f.stmts
  modify fun scope => { scope with current := none }

/-- Lowers prototypes in order. -/
def prototypes : List Prototype → Gen F V S ε Unit
  | [] => return
  | p :: ps => do
    let _ ← prototype p
    prototypes ps

/-- Lowers definitions in order. -/
def functions : List Source.Function → Gen F V S ε Unit
  | [] => return
  | f :: fs => do
    function f
    functions fs

/-- Lowers a program, and then links a file. -/
def program (p : Program) (link : Option String) : Gen F V S ε Unit := do
  prototypes p.prototypes
  functions p.functions
  match link with
  | none => return
  | some path => ask (.linkFile path) >>= linked path

end Gen

/-- Lowers a program on a target, starting in a given scope: the outcome, and the target then. -/
def generate {F V S σ ε : Type} (T : Target F V S σ ε) (scope : Scope F S) (p : Program)
    (link : Option String) (s : σ) : Except (Error ε) Unit × σ :=
  (Prod.fst <$> (Gen.program p link : Gen F V S ε Unit) scope).run T s

end Lowering
end Straightline
