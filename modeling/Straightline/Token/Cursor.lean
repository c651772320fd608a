/-
# A cursor on the tokens of a text

The cursor always stands on a token: the end mark is one, so there is always at least that.  A move
that would leave the tokens is refused and moves nothing.

Source: `TokenStream` of the `hestia` lexer, from `current` to `jump`.
-/

import Straightline.Token.Lexer

namespace Straightline
namespace Token

/-- A place among the tokens of a text, the end mark included. -/
structure Cursor where
  stream : Stream
  index : Nat
  inRange : index < stream.toList.length

namespace Cursor

/-- The cursor on the first token. -/
def ofStream (s : Stream) : Cursor :=
  ⟨s, 0, by simp [Stream.toList]⟩

/-- How many tokens there are. -/
def size (c : Cursor) : Nat :=
  c.stream.toList.length

/-- The token under the cursor. -/
def current (c : Cursor) : Token :=
  c.stream.toList.get ⟨c.index, c.inRange⟩

/-- The kind of the token after the cursor; past the end it counts as the end mark. -/
def peekKind (c : Cursor) : Kind :=
  (c.stream.toList[c.index + 1]?).elim .eof Token.kind

/-- The tokens from the cursor to the end. -/
def rest (c : Cursor) : List Token :=
  c.stream.toList.drop c.index

/-- Moves to a place counted from the start, if there is one. -/
def jump? (c : Cursor) (i : Nat) : Option Cursor :=
  if h : i < c.stream.toList.length then some ⟨c.stream, i, h⟩ else none

/-- Moves one token forward; refused on the last token. -/
def advance? (c : Cursor) : Option Cursor :=
  c.jump? (c.index + 1)

/-- Moves some tokens back; refused if that passes the start. -/
def retreat? (c : Cursor) (n : Nat) : Option Cursor :=
  if n ≤ c.index then c.jump? (c.index - n) else none

end Cursor
end Token
end Straightline
