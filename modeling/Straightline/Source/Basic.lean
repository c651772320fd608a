/-
# Programs of the straight-line language

A program is a list of prototypes and a list of function definitions.  A definition has a signature,
declarations and statements; there is no control flow, so a body runs from its first statement to
its first `return`.  All values are 32-bit integers.

Source: `TranslationUnit` of the `hestia` syntax trees and what it is made of, and `builtin_prototypes`
of the parser.
-/

namespace Straightline
namespace Source

/-- The operators between two expressions. -/
inductive BinaryOp
  | assign | add | subtract | multiply | divide
deriving Repr, DecidableEq

/-- How tightly an operator binds: assignment, sum and difference alike, product and quotient
tighter. -/
def BinaryOp.tier : BinaryOp → Nat
  | assign | add | subtract => 1
  | multiply | divide => 2

/-- An expression. -/
inductive Expr
  | const (n : Int32)
  | var (name : String)
  | binary (op : BinaryOp) (left right : Expr)
  | call (function : String) (args : List Expr)
deriving Repr, BEq

/-- Whether the outermost operator is the assignment. -/
def Expr.isAssignment : Expr → Bool
  | binary .assign _ _ => true
  | _ => false

/-- A statement: an expression that is evaluated, or one whose value the function returns. -/
inductive Stmt
  | ret (value : Expr)
  | expr (value : Expr)
deriving Repr, BEq

/-- The expression of a statement. -/
def Stmt.value : Stmt → Expr
  | ret e | expr e => e

/-- Whether a statement returns. -/
def Stmt.isReturn : Stmt → Bool
  | ret _ => true
  | expr _ => false

/-- Where a variable comes from. -/
inductive DeclKind
  | parameter | local
deriving Repr, DecidableEq

/-- A variable of a function. -/
structure Decl where
  kind : DeclKind
  name : String
deriving Repr, DecidableEq

/-- The signature of a function. -/
structure Prototype where
  name : String
  params : List String
deriving Repr, DecidableEq

/-- The number of parameters. -/
def Prototype.arity (p : Prototype) : Nat :=
  p.params.length

/-- A function with its body. -/
structure Function where
  prototype : Prototype
  decls : List Decl
  stmts : List Stmt
deriving Repr, BEq

/-- The name of a function. -/
def Function.name (f : Function) : String :=
  f.prototype.name

/-- The number of parameters. -/
def Function.arity (f : Function) : Nat :=
  f.prototype.arity

/-- A program: what it declares and what it defines, each in the order of the text. -/
structure Program where
  prototypes : List Prototype
  functions : List Function
deriving Repr, BEq

namespace Program

/-- The prototype of a name. -/
def prototype? (p : Program) (name : String) : Option Prototype :=
  p.prototypes.find? (·.name == name)

/-- The definition of a name. -/
def function? (p : Program) (name : String) : Option Function :=
  p.functions.find? (·.name == name)

/-- The number of parameters of a callable name, by its prototype if it has one. -/
def arity? (p : Program) (name : String) : Option Nat :=
  ((p.prototype? name).map Prototype.arity).or ((p.function? name).map Function.arity)

/-- The print routine that every program may call without declaring it. -/
def printnum : Prototype := ⟨"printnum", ["i"]⟩

/-- The program that a text starts from: it declares the print routine only. -/
def builtin : Program := ⟨[printnum], []⟩

end Program
end Source
end Straightline
