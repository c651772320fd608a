/-
# The tokens of a text

A text is a sequence of lexemes and gaps.  A gap is a space, tab, carriage return or newline.  A
lexeme is one other character together with the longest run after it that joins it: letters and
underscores join each other, digits join each other, and nothing else joins (`joins`).  So words
hold no digits, and a character outside the alphabet is a token of its own.

`scan` cuts a text into its tokens, `lex` adds the mark that ends it.

Source: `tokenize` of the `hestia` lexer, with `scan_token`, `number` and `identifier`.
-/

import Straightline.Token.Basic

namespace Straightline
namespace Token

/-- The characters that separate tokens and are no part of one. -/
def isGap (c : Char) : Bool :=
  c == ' ' || c == '\t' || c == '\r' || c == '\n'

/-- The characters of words: ASCII letters and the underscore. -/
def isLetter (c : Char) : Bool :=
  c.isAlpha || c == '_'

/-- A character extends a lexeme that starts with `c` if both are letters or both are digits. -/
def joins (c d : Char) : Bool :=
  (isLetter c && isLetter d) || (c.isDigit && d.isDigit)

/-- The kind of a lexeme that is one character, neither a letter nor a digit. -/
def Kind.ofChar : Char → Kind
  | '(' => openParen
  | ')' => closeParen
  | '{' => openBrace
  | '}' => closeBrace
  | '[' => openBracket
  | ']' => closeBracket
  | ';' => semicolon
  | ':' => colon
  | ',' => comma
  | '=' => equal
  | '+' => plus
  | '-' => minus
  | '*' => star
  | '/' => slash
  | _ => unknown

/-- The kind of a word: a keyword or an identifier. -/
def Kind.ofWord (w : List Char) : Kind :=
  if w = ['i', 'n', 't'] then int
  else if w = ['r', 'e', 't', 'u', 'r', 'n'] then ret
  else identifier

/-- The kind of the lexeme that consists of a first character and those that join it. -/
def Kind.ofLexeme (c : Char) (run : List Char) : Kind :=
  if isLetter c then Kind.ofWord (c :: run)
  else if c.isDigit then constant
  else Kind.ofChar c

/-- The tokens of a text that starts at a given position. -/
def scan (p : Pos) : List Char → List Token
  | [] => []
  | c :: cs =>
    if isGap c then scan (p.next c) cs
    else
      let run := cs.takeWhile (joins c)
      ⟨Kind.ofLexeme c run, String.ofList (c :: run), p⟩ ::
        scan (p.after (c :: run)) (cs.dropWhile (joins c))
termination_by cs => cs.length
decreasing_by
  · simp
  · exact Nat.lt_succ_of_le (List.dropWhile_suffix _).length_le

/-- The tokens of a whole text and the position where it ends. -/
structure Stream where
  tokens : List Token
  finish : Pos
deriving Repr, DecidableEq

/-- The mark at the end of a text: a token with an empty lexeme. -/
def Stream.eof (s : Stream) : Token :=
  ⟨.eof, "", s.finish⟩

/-- All tokens, the end mark last. -/
def Stream.toList (s : Stream) : List Token :=
  s.tokens ++ [s.eof]

/-- Cuts a source text into tokens. -/
def lex (source : String) : Stream :=
  ⟨scan Pos.start source.toList, Pos.start.after source.toList⟩

end Token
end Straightline
