/-
# Reading a program from its tokens

The grammar, with the kinds of tokens as terminals:

    program    = { signature ( ";" | body ) } eof
    signature  = "int" name "(" [ "int" name { "," "int" name } ] ")"
    body       = "{" { "int" name ";" } { [ "return" ] expression ";" } "}"
    expression = product { ( "=" | "+" | "-" ) product }
    product    = operand { ( "*" | "/" ) operand }
    operand    = constant | name [ "(" [ expression { "," expression } ] ")" ]

Names, arities and constants are checked on the way, against what the text before has declared and
defined; the program read so far is the table of names.  The first mistake ends the reading.  A
failure tells, beside the error, which tokens were still unread (`Failure.rest`): the reader has not
looked further than one token into them.

Every reader returns the tokens it leaves together with the fact that they are fewer than it was
given (`Shorter`), which is why the recursion ends.

Source: `parse` of the `hestia` parser, with `parse_prototype`, `parse_function`, `parse_stmt`,
`parse_expr`, `parse_primary`, `parse_call` and `make_binary`, and its `SymbolTables`.
-/

import Straightline.Names
import Straightline.Source.Error
import Straightline.Source.Printer
import Straightline.Token.Lexer

namespace Straightline
namespace Source
namespace Parser

open Token (Kind)

/-- Fewer tokens than given. -/
abbrev Shorter (ts : List Token) : Type :=
  { rest : List Token // rest.length < ts.length }

/-- At most the tokens given. -/
abbrev NoLonger (ts : List Token) : Type :=
  { rest : List Token // rest.length ≤ ts.length }

/-- An error and the tokens that were unread when it was found. -/
structure Failure where
  error : Error
  rest : List Token
deriving Repr, DecidableEq

/-- What a reader knows: the end mark of the text, the program so far, and the variables of the
function that is being read. -/
structure Scope where
  eof : Token
  program : Program
  vars : List String

/-- The kind of the next token. -/
def peek (ts : List Token) : Kind :=
  ts.head?.elim .eof Token.kind

/-- The next token; after the last one it is the end mark. -/
def current (eof : Token) (ts : List Token) : Token :=
  ts.headD eof

/-- Fails with a cause at a line. -/
def fail {α : Type} (line : Nat) (cause : Cause) (rest : List Token) : Except Failure α :=
  .error ⟨⟨line, cause⟩, rest⟩

/-- Fails because the next token is not what was expected. -/
def unexpected {α : Type} (eof : Token) (expected : Expected) (ts : List Token) :
    Except Failure α :=
  fail (current eof ts).pos.line (.unexpected expected (current eof ts).text) ts

/-- Moves past a token of the given kind. -/
def expect (eof : Token) (k : Kind) : (ts : List Token) → Except Failure (Shorter ts)
  | [] => unexpected eof (.kind k) []
  | t :: rest =>
    if t.kind = k then .ok ⟨rest, by simp⟩ else unexpected eof (.kind k) (t :: rest)

/-- Reads an identifier. -/
def name (eof : Token) : (ts : List Token) → Except Failure (String × Shorter ts)
  | [] => unexpected eof (.kind .identifier) []
  | t :: rest =>
    if t.kind = .identifier then .ok (t.literal, ⟨rest, by simp⟩)
    else unexpected eof (.kind .identifier) (t :: rest)

/-- The operator that a token stands for. -/
def operator? : Kind → Option BinaryOp
  | .equal => some .assign
  | .plus => some .add
  | .minus => some .subtract
  | .star => some .multiply
  | .slash => some .divide
  | _ => none

/-- Reads a constant or a name.  A name that is not called has to be a variable. -/
def primary (sc : Scope) : (ts : List Token) → Except Failure (Expr × Shorter ts)
  | [] => unexpected sc.eof .expression []
  | t :: rest =>
    match t.kind with
    | .constant =>
      match Text.readInt32 t.literal.toList with
      | some n => .ok (.const n, ⟨rest, by simp⟩)
      | none => fail t.pos.line (.integerOutOfRange t.literal) (t :: rest)
    | .identifier =>
      if peek rest = .openParen ∨ t.literal ∈ sc.vars then
        .ok (.var t.literal, ⟨rest, by simp⟩)
      else fail t.pos.line (.undeclaredVariable t.literal) (t :: rest)
    | _ => unexpected sc.eof .expression (t :: rest)

/-- Joins two expressions; only a variable can be assigned to. -/
def join (line : Nat) (op : BinaryOp) (left right : Expr) (rest : List Token) :
    Except Failure Expr :=
  match op, left with
  | .assign, .var x => .ok (.binary .assign (.var x) right)
  | .assign, e => fail line (.invalidAssignmentTarget e.text) rest
  | op, e => .ok (.binary op e right)

/-- The name that a call calls. -/
def callee (line : Nat) (e : Expr) (rest : List Token) : Except Failure String :=
  match e with
  | .var f => .ok f
  | e => fail line (.invalidCallee e.text) rest

/-- A call of a known function with as many arguments as it has parameters. -/
def checkCall (sc : Scope) (line : Nat) (f : String) (args : List Expr) (rest : List Token) :
    Except Failure Expr :=
  match sc.program.arity? f with
  | none => fail line (.undefinedFunction f) rest
  | some arity =>
    if arity = args.length then .ok (.call f args)
    else fail line (.callArityMismatch f arity args.length) rest

mutual

/-- Reads an expression as far as its operators bind tighter than `floor`. -/
def expression (sc : Scope) (floor : Nat) (ts : List Token) :
    Except Failure (Expr × Shorter ts) := do
  let (left, ⟨rest, h⟩) ← primary sc ts
  let (e, ⟨rest', h'⟩) ← operators sc floor left rest
  return (e, ⟨rest', Nat.lt_of_le_of_lt h' h⟩)
termination_by (ts.length, 0)

/-- Reads the operators and calls that follow an expression. -/
def operators (sc : Scope) (floor : Nat) (left : Expr) (ts : List Token) :
    Except Failure (Expr × NoLonger ts) :=
  match ts with
  | [] => .ok (left, ⟨[], Nat.le_refl _⟩)
  | t :: rest =>
    if t.kind = .openParen then do
      let f ← callee t.pos.line left (t :: rest)
      let (args, ⟨rest₁, h₁⟩) ← arguments sc rest
      let call ← checkCall sc t.pos.line f args rest₁
      let (e, ⟨rest₂, h₂⟩) ← operators sc floor call rest₁
      return (e, ⟨rest₂, by simp only [List.length_cons]; omega⟩)
    else
      match operator? t.kind with
      | none => .ok (left, ⟨t :: rest, Nat.le_refl _⟩)
      | some op =>
        if floor < op.tier then do
          let (right, ⟨rest₁, h₁⟩) ← expression sc op.tier rest
          let node ← join t.pos.line op left right rest₁
          let (e, ⟨rest₂, h₂⟩) ← operators sc floor node rest₁
          return (e, ⟨rest₂, by simp only [List.length_cons]; omega⟩)
        else .ok (left, ⟨t :: rest, Nat.le_refl _⟩)
termination_by (ts.length, 2)

/-- Reads the arguments of a call and the parenthesis that closes them. -/
def arguments (sc : Scope) (ts : List Token) : Except Failure (List Expr × NoLonger ts) :=
  if peek ts = .closeParen then .ok ([], ⟨ts.tail, by simp⟩)
  else do
    let (args, ⟨rest, h⟩) ← argumentList sc ts
    return (args, ⟨rest, Nat.le_of_lt h⟩)
termination_by (ts.length, 2)

/-- Reads one or more arguments and the parenthesis that closes them. -/
def argumentList (sc : Scope) (ts : List Token) : Except Failure (List Expr × Shorter ts) := do
  let (arg, ⟨rest, h⟩) ← expression sc 0 ts
  match peek rest with
  | .comma =>
    let (args, ⟨rest', h'⟩) ← argumentList sc rest.tail
    return (arg :: args, ⟨rest', by rw [List.length_tail] at h'; omega⟩)
  | .closeParen =>
    return ([arg], ⟨rest.tail, by rw [List.length_tail]; omega⟩)
  | _ => unexpected sc.eof .listEnd rest
termination_by (ts.length, 1)

end

/-- Reads one or more parameters and the parenthesis that closes them. -/
def parameterList (eof : Token) (ts : List Token) :
    Except Failure (List String × Shorter ts) := do
  let ⟨rest₁, h₁⟩ ← expect eof .int ts
  let (param, ⟨rest₂, h₂⟩) ← name eof rest₁
  match peek rest₂ with
  | .comma =>
    let (params, ⟨rest₃, h₃⟩) ← parameterList eof rest₂.tail
    return (param :: params, ⟨rest₃, by rw [List.length_tail] at h₃; omega⟩)
  | .closeParen =>
    return ([param], ⟨rest₂.tail, by rw [List.length_tail]; omega⟩)
  | _ => unexpected eof .listEnd rest₂
termination_by ts.length

/-- Reads the parameters of a signature and the parenthesis that closes them. -/
def parameters (eof : Token) (ts : List Token) : Except Failure (List String × NoLonger ts) :=
  if peek ts = .closeParen then .ok ([], ⟨ts.tail, by simp⟩)
  else do
    let (params, ⟨rest, h⟩) ← parameterList eof ts
    return (params, ⟨rest, Nat.le_of_lt h⟩)

/-- Reads a signature.  Its parameters have to differ from each other. -/
def signature (eof : Token) (ts : List Token) : Except Failure (Prototype × Shorter ts) := do
  let ⟨rest₁, h₁⟩ ← expect eof .int ts
  let (f, ⟨rest₂, h₂⟩) ← name eof rest₁
  let ⟨rest₃, h₃⟩ ← expect eof .openParen rest₂
  let (params, ⟨rest₄, h₄⟩) ← parameters eof rest₃
  match Names.firstRepeated params with
  | some param => fail (current eof ts).pos.line (.duplicateParameter f param) rest₄
  | none => return (⟨f, params⟩, ⟨rest₄, by omega⟩)

/-- Reads the local variables at the start of a body.  They have to differ from each other and from
the variables declared before. -/
def locals (eof : Token) (vars : List String) (ts : List Token) :
    Except Failure (List String × NoLonger ts) :=
  if peek ts = .int then do
    let ⟨rest₁, h₁⟩ ← expect eof .int ts
    let (x, ⟨rest₂, h₂⟩) ← name eof rest₁
    if x ∈ vars then fail (current eof ts).pos.line (.duplicateVariable x) rest₂
    else
      let ⟨rest₃, h₃⟩ ← expect eof .semicolon rest₂
      let (xs, ⟨rest₄, h₄⟩) ← locals eof (vars ++ [x]) rest₃
      return (x :: xs, ⟨rest₄, by omega⟩)
  else .ok ([], ⟨ts, Nat.le_refl _⟩)
termination_by ts.length

/-- Reads a statement with its semicolon. -/
def statement (sc : Scope) (ts : List Token) : Except Failure (Stmt × Shorter ts) :=
  if peek ts = .ret then do
    let ⟨rest₁, h₁⟩ ← expect sc.eof .ret ts
    let (e, ⟨rest₂, h₂⟩) ← expression sc 0 rest₁
    let ⟨rest₃, h₃⟩ ← expect sc.eof .semicolon rest₂
    return (.ret e, ⟨rest₃, by omega⟩)
  else do
    let (e, ⟨rest₁, h₁⟩) ← expression sc 0 ts
    let ⟨rest₂, h₂⟩ ← expect sc.eof .semicolon rest₁
    return (.expr e, ⟨rest₂, by omega⟩)

/-- Reads statements up to the brace that closes the body. -/
def statements (sc : Scope) (ts : List Token) : Except Failure (List Stmt × NoLonger ts) :=
  match peek ts with
  | .closeBrace => .ok ([], ⟨ts, Nat.le_refl _⟩)
  | .eof => unexpected sc.eof (.kind .closeBrace) ts
  | _ => do
    let (s, ⟨rest₁, h₁⟩) ← statement sc ts
    let (ss, ⟨rest₂, h₂⟩) ← statements sc rest₁
    return (s :: ss, ⟨rest₂, by omega⟩)
termination_by ts.length

/-- The declarations of a function: its parameters, then its local variables. -/
def declarations (params vars : List String) : List Decl :=
  params.map (⟨.parameter, ·⟩) ++ vars.map (⟨.local, ·⟩)

/-- Reads the body of a function.  Its last statement has to be a `return`. -/
def body (eof : Token) (program : Program) (proto : Prototype) (ts : List Token) :
    Except Failure (Function × Shorter ts) := do
  let ⟨rest₁, h₁⟩ ← expect eof .openBrace ts
  let (vars, ⟨rest₂, h₂⟩) ← locals eof proto.params rest₁
  let (stmts, ⟨rest₃, h₃⟩) ← statements ⟨eof, program, proto.params ++ vars⟩ rest₂
  if stmts.getLast?.any Stmt.isReturn then
    let ⟨rest₄, h₄⟩ ← expect eof .closeBrace rest₃
    return (⟨proto, declarations proto.params vars, stmts⟩, ⟨rest₄, by omega⟩)
  else fail (current eof rest₃).pos.line (.missingReturn proto.name) rest₃

/-- A name can be declared once, and after its definition only with the same arity. -/
def checkDeclaration (program : Program) (proto : Prototype) : Option Cause :=
  match program.prototype? proto.name, program.function? proto.name with
  | some _, _ => some (.prototypeRedeclared proto.name)
  | none, some f =>
    if f.arity = proto.arity then none
    else some (.arityMismatch proto.name f.arity proto.arity)
  | none, none => none

/-- A definition has the arity of its declaration, and a name can be defined once. -/
def checkDefinition (program : Program) (proto : Prototype) : Option Cause :=
  match (program.prototype? proto.name).filter (·.arity ≠ proto.arity) with
  | some declared => some (.arityMismatch proto.name declared.arity proto.arity)
  | none => (program.function? proto.name).map fun _ => .functionRedefined proto.name

/-- Fails if there is a cause. -/
def check (line : Nat) (rest : List Token) : Option Cause → Except Failure Unit
  | some cause => fail line cause rest
  | none => .ok ()

/-- Reads the declarations and definitions that follow the program so far. -/
def items (eof : Token) (program : Program) (ts : List Token) : Except Failure Program :=
  match peek ts with
  | .int => do
    let line := (current eof ts).pos.line
    let (proto, ⟨rest, _h⟩) ← signature eof ts
    match peek rest with
    | .semicolon =>
      check line rest (checkDeclaration program proto)
      items eof ⟨program.prototypes ++ [proto], program.functions⟩ rest.tail
    | .openBrace =>
      check line rest (checkDefinition program proto)
      let (f, ⟨rest', _h'⟩) ← body eof program proto rest
      items eof ⟨program.prototypes, program.functions ++ [f]⟩ rest'
    | _ => unexpected eof .signatureEnd rest
  | .eof => .ok program
  | _ => unexpected eof .item ts
termination_by ts.length
decreasing_by
  · exact Nat.lt_of_le_of_lt (by simp) _h
  · exact Nat.lt_trans _h' _h

end Parser

/-- Reads a program from tokens, or tells where and why that fails. -/
def parseTokens (s : Token.Stream) : Except Parser.Failure Program :=
  Parser.items s.eof Program.builtin s.tokens

/-- Reads a program from a source text. -/
def parse (source : String) : Except Error Program :=
  (parseTokens (Token.lex source)).mapError Parser.Failure.error

end Source
end Straightline
