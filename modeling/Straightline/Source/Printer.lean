/-
# The text of a program

Programs are printed with every operator in parentheses, so that the text shows how operators were
grouped.  Parameters appear in the signature only; the other declarations follow it, one a line.

Source: the texts (`fmt`) of the `hestia` syntax trees.
-/

import Straightline.Source.Basic
import Straightline.Text.Decimal

namespace Straightline
namespace Source

/-- The sign of an operator. -/
def BinaryOp.text : BinaryOp → String
  | assign => "="
  | add => "+"
  | subtract => "-"
  | multiply => "*"
  | divide => "/"

mutual

/-- An expression, with parentheses around each operator and its operands. -/
def Expr.text : Expr → String
  | .const n => Text.ofInt32 n
  | .var name => name
  | .binary op left right => "(" ++ left.text ++ " " ++ op.text ++ " " ++ right.text ++ ")"
  | .call function args => function ++ "(" ++ ", ".intercalate (Expr.texts args) ++ ")"

/-- The texts of the arguments of a call. -/
def Expr.texts : List Expr → List String
  | [] => []
  | e :: es => e.text :: Expr.texts es

end

/-- The texts of arguments are their texts as expressions. -/
@[simp] theorem Expr.texts_eq_map (es : List Expr) : Expr.texts es = es.map Expr.text := by
  induction es with
  | nil => rfl
  | cons e es ih => rw [Expr.texts, ih, List.map_cons]

/-- A statement, closed by a semicolon. -/
def Stmt.text : Stmt → String
  | ret e => "return " ++ e.text ++ ";"
  | expr e => e.text ++ ";"

/-- A signature. -/
def Prototype.text (p : Prototype) : String :=
  "int " ++ p.name ++ "(" ++ ", ".intercalate (p.params.map ("int " ++ ·)) ++ ")"

/-- A declaration in a body: parameters have none. -/
def Decl.text (d : Decl) : String :=
  match d.kind with
  | .parameter => ""
  | .local => "    int " ++ d.name ++ ";\n"

/-- A definition: signature, local variables, statements. -/
def Function.text (f : Function) : String :=
  f.prototype.text ++ r" {" ++ "\n" ++ String.join (f.decls.map Decl.text) ++
    String.join (f.stmts.map ("    " ++ ·.text ++ "\n")) ++ r"}" ++ "\n"

/-- A program: its prototypes, then its definitions. -/
def Program.text (p : Program) : String :=
  String.join (p.prototypes.map (·.text ++ ";\n")) ++ String.join (p.functions.map Function.text)

end Source
end Straightline
