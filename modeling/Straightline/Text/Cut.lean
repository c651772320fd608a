/-
# Cutting a text

Ways to take a text apart: into lines, into the items of a comma list, at the first occurrence of a
separator, and by removing a word from the front as often as it stands there.  `lines` and `split`
undo joining (`lines_flatMap`, `split_append_sep`).
-/

import Straightline.Text.Blank

namespace Straightline
namespace Text

/-- Puts a character in front of the first piece. -/
def consHead (c : Char) : List (List Char) → List (List Char)
  | [] => [[c]]
  | w :: ws => (c :: w) :: ws

/-- The lines of a text.  Each newline ends a line; characters after the last newline are a line
of their own, and the empty text has no line. -/
def lines : List Char → List (List Char)
  | [] => []
  | c :: cs => if c = '\n' then [] :: lines cs else consHead c (lines cs)

/-- The pieces between the separators: always one more than there are separators. -/
def split (sep : Char) : List Char → List (List Char)
  | [] => [[]]
  | c :: cs => if c = sep then [] :: split sep cs else consHead c (split sep cs)

/-- The items of a comma list, without the blanks around them; empty items are left out. -/
def items (s : List Char) : List (List Char) :=
  ((split ',' s).map trim).filter (· ≠ [])

/-- The rest of a text that starts with a word. -/
def stripFront? (word : String) (s : List Char) : Option (List Char) :=
  word.toList.isPrefixOf? s

/-- The rest of a text that ends with a word. -/
def stripBack? (word : String) (s : List Char) : Option (List Char) :=
  word.toList.isSuffixOf? s

/-- The texts before and after the first occurrence of a separator, which is not empty. -/
def cutAt? (sep : String) : List Char → Option (List Char × List Char)
  | [] => none
  | c :: cs =>
    match stripFront? sep (c :: cs) with
    | some rest => some ([], rest)
    | none => (cutAt? sep cs).map fun p => (c :: p.1, p.2)

/-- Removes a word from the front as often as it stands there. -/
def stripAll (word : String) (s : List Char) : List Char :=
  match stripFront? word s with
  | some rest => if rest.length < s.length then stripAll word rest else s
  | none => s
termination_by s.length

/-- The second of the words that blanks separate. -/
def secondWord? (s : List Char) : Option (List Char) :=
  let word := (trimStart ((trimStart s).dropWhile (!isBlank ·))).takeWhile (!isBlank ·)
  if word = [] then none else some word

@[simp] theorem lines_nil : lines [] = [] := rfl

/-- A line end closes the line before it, here an empty one. -/
@[simp] theorem lines_newline (cs : List Char) : lines ('\n' :: cs) = [] :: lines cs := rfl

/-- **A line ends at its newline:** a text without one, followed by a newline, is the first line. -/
theorem lines_append_newline {l : List Char} (h : '\n' ∉ l) (cs : List Char) :
    lines (l ++ '\n' :: cs) = l :: lines cs := by
  induction l with
  | nil => rfl
  | cons c l ih =>
    simp only [List.mem_cons, not_or] at h
    simp only [List.cons_append, lines, if_neg (Ne.symm h.1), ih h.2, consHead]

/-- **Lines that were written one after the other are read back.** -/
theorem lines_flatMap {ls : List (List Char)} (h : ∀ l ∈ ls, '\n' ∉ l) :
    lines (ls.flatMap (· ++ ['\n'])) = ls := by
  induction ls with
  | nil => rfl
  | cons l ls ih =>
    simp only [List.flatMap_cons, List.append_assoc, List.singleton_append]
    rw [lines_append_newline (h l (by simp)), ih fun l' hl => h l' (List.mem_cons_of_mem _ hl)]

/-- A text without a separator is one piece. -/
theorem split_of_not_mem {sep : Char} {w : List Char} (h : sep ∉ w) : split sep w = [w] := by
  induction w with
  | nil => rfl
  | cons c w ih =>
    simp only [List.mem_cons, not_or] at h
    simp only [split, if_neg (Ne.symm h.1), ih h.2, consHead]

/-- The first piece ends at the first separator. -/
theorem split_append_sep {sep : Char} {w : List Char} (h : sep ∉ w) (cs : List Char) :
    split sep (w ++ sep :: cs) = w :: split sep cs := by
  induction w with
  | nil => simp [split]
  | cons c w ih =>
    simp only [List.mem_cons, not_or] at h
    simp only [List.cons_append, split, if_neg (Ne.symm h.1), ih h.2, consHead]

end Text
end Straightline
