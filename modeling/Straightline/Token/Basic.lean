/-
# Tokens

A token is a lexeme with its kind and the position of its first character.  Positions count lines
and columns from one, columns in characters, and move over a text one character at a time
(`Pos.after`).  What a token says about itself, its number or its text in a message, is computed
from kind and lexeme.

Source: `Token`, `TokenType` and `TokenValue` of the `hestia` lexer, with their texts.
-/

import Straightline.Text.Decimal

namespace Straightline

/-- A place in a text: line and column, both counted from one. -/
structure Pos where
  line : Nat
  col : Nat
deriving Repr, DecidableEq

namespace Pos

/-- The place of the first character. -/
def start : Pos := ⟨1, 1⟩

/-- The place after one more character: a newline starts the next line. -/
def next (p : Pos) (c : Char) : Pos :=
  if c = '\n' then ⟨p.line + 1, 1⟩ else ⟨p.line, p.col + 1⟩

/-- The place after a stretch of text. -/
def after (p : Pos) (cs : List Char) : Pos :=
  cs.foldl next p

@[simp] theorem after_nil (p : Pos) : p.after [] = p := rfl

@[simp] theorem after_cons (p : Pos) (c : Char) (cs : List Char) :
    p.after (c :: cs) = (p.next c).after cs := rfl

/-- Positions advance piece by piece. -/
@[simp] theorem after_append (p : Pos) (cs ds : List Char) :
    p.after (cs ++ ds) = (p.after cs).after ds := by
  simp [after]

/-- **The line counts the newlines passed.** -/
theorem after_line (p : Pos) (cs : List Char) : (p.after cs).line = p.line + cs.count '\n' := by
  induction cs generalizing p with
  | nil => rfl
  | cons c cs ih =>
    rw [after_cons, ih, next]
    by_cases h : c = '\n'
    · simp only [h, if_true, List.count_cons_self]; omega
    · simp [h]

end Pos

namespace Token

/-- The kinds of tokens.  `whitespace` has a name but never appears among the tokens of a text. -/
inductive Kind
  | openParen | closeParen | openBrace | closeBrace | openBracket | closeBracket
  | semicolon | colon | comma | equal | plus | minus | star | slash
  | identifier | constant | int | ret | whitespace | eof | unknown
deriving Repr, DecidableEq

/-- How a message names a kind of token that it expects. -/
def Kind.text : Kind → String
  | openParen => "'('"
  | closeParen => "')'"
  | openBrace => r"'{'"
  | closeBrace => r"'}'"
  | openBracket => "'['"
  | closeBracket => "']'"
  | semicolon => "';'"
  | colon => "':'"
  | comma => "','"
  | equal => "'='"
  | plus => "'+'"
  | minus => "'-'"
  | star => "'*'"
  | slash => "'/'"
  | identifier => "an identifier"
  | constant => "an integer constant"
  | int => "'int'"
  | ret => "'return'"
  | whitespace => "whitespace"
  | eof => "end of file"
  | unknown => "an unknown character"

end Token

/-- A lexeme with its kind and the position of its first character. -/
structure Token where
  kind : Token.Kind
  literal : String
  pos : Pos
deriving Repr, DecidableEq

namespace Token

/-- What a token carries beside its lexeme: a constant its number, an unknown character the remark
that it was not expected. -/
inductive Value
  | none
  | integer (n : Int32)
  | unexpected
deriving Repr, DecidableEq

/-- The remark on an unknown character. -/
def Value.unexpectedText : String := "unexpected character"

/-- The number of a constant that does not fit into 32 bits. -/
def Value.overflow : Int32 := Int32.maxValue

/-- The value of a token; a constant that does not fit counts as `Value.overflow`. -/
def value (t : Token) : Value :=
  match t.kind with
  | .constant => .integer ((Text.readInt32 t.literal.toList).getD Value.overflow)
  | .unknown => .unexpected
  | _ => .none

/-- How a message names a token that it found. -/
def text (t : Token) : String :=
  match t.kind with
  | .eof => "end of file"
  | .identifier => "Identifier '" ++ t.literal ++ "'"
  | .constant => "Constant '" ++ t.literal ++ "'"
  | .unknown => "Unknown '" ++ t.literal ++ "'"
  | _ => "'" ++ t.literal ++ "'"

end Token
end Straightline
