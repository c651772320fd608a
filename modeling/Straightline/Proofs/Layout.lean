/-
# A text is its tokens and the gaps between them

Cutting a text into tokens loses nothing.  The text is the lexemes in their order, with gaps before,
between and after them that hold blanks only (`Layout`), and the mark of the end comes after all of them.
Every token stands where its position says, and what it is can be told from the text around it
(`Token.Form`): a word or a constant is a whole run of letters or of digits, which neither the character
before it nor the one after it would continue, and any other token is a single character.

A token is found from the left, so that the right end of a run is where the scan stopped, but its left
end is a fact on what was passed before.  `scan_layout` therefore goes along the scan with all that was
passed: the position is the one after it, and its last character does not join the next one.  Both hold
at the start of the text, after a blank, and after a lexeme, whose last character joins the same
characters as its first (`joins_eq_of_joins`).
-/

import Mathlib.Data.List.DropRight
import Mathlib.Data.List.Induction
import Mathlib.Data.Nat.Digits.Defs
import Straightline.Proofs.Lexing

namespace Straightline

/-! ### Positions -/

/-- The place that comes after a text: one line more than it has newlines, and one column more than
there are characters after the last of them. -/
structure Pos.IsAfter (p : Pos) (before : List Char) : Prop where
  line : p.line = 1 + before.count '\n'
  col : p.col = 1 + (before.rtakeWhile (· ≠ '\n')).length

/-- **The column counts the characters since the last newline.** -/
theorem Pos.after_col (cs : List Char) :
    (Pos.start.after cs).col = 1 + (cs.rtakeWhile (· ≠ '\n')).length := by
  induction cs using List.reverseRecOn with
  | nil => rfl
  | append_singleton cs c ih =>
    rw [after_append, after_cons, after_nil, next, List.rtakeWhile_concat]
    by_cases hc : c = '\n'
    · simp [hc]
    · simp only [hc, if_false, ih, ne_eq, not_false_eq_true, decide_true, if_true, List.length_append,
        List.length_singleton]
      omega

/-- The position after a text is the one that its lines say. -/
theorem Pos.isAfter_after (before : List Char) : (Pos.start.after before).IsAfter before :=
  ⟨Pos.after_line Pos.start before, Pos.after_col before⟩

/-! ### Numbers -/

/-- The number that digits spell by their places, the last one counting ones. -/
def Text.placeValue (ds : List Char) : Nat :=
  Nat.ofDigits 10 (ds.reverse.map fun c => c.toNat - '0'.toNat)

/-- **A run of digits is read as the number that they spell by their places.** -/
theorem Text.ofDigits_eq_placeValue (ds : List Char) : Text.ofDigits ds = Text.placeValue ds := by
  induction ds using List.reverseRecOn with
  | nil => rfl
  | append_singleton ds c ih =>
    rw [placeValue, List.reverse_concat, List.map_cons, Nat.ofDigits_cons, ← placeValue, ← ih, ofDigits,
      Nat.ofDigitChars_append, Nat.ofDigitChars_cons, Nat.ofDigitChars_nil, Nat.add_comm]
    rfl

namespace Token

variable {c d e : Char} {run before after cs : List Char} {t : Token} {ts : List Token} {p : Pos}

/-! ### Classes of characters -/

/-- The letters of words. -/
def IsLetter (c : Char) : Prop :=
  'a' ≤ c ∧ c ≤ 'z' ∨ 'A' ≤ c ∧ c ≤ 'Z' ∨ c = '_'

/-- The digits of constants. -/
def IsDigit (c : Char) : Prop :=
  '0' ≤ c ∧ c ≤ '9'

/-- The blanks between tokens. -/
def IsBlank (c : Char) : Prop :=
  c = ' ' ∨ c = '\t' ∨ c = '\r' ∨ c = '\n'

/-- The test for letters is right. -/
theorem isLetter_iff : isLetter c = true ↔ IsLetter c := by
  have hupper : c.isUpper = true ↔ 'A' ≤ c ∧ c ≤ 'Z' := decide_eq_true_iff
  have hlower : c.isLower = true ↔ 'a' ≤ c ∧ c ≤ 'z' := by
    refine (Bool.and_eq_true _ _).to_iff.trans (and_congr ?_ ?_) <;> exact decide_eq_true_iff
  have halpha : c.isAlpha = true ↔ c.isUpper = true ∨ c.isLower = true := (Bool.or_eq_true _ _).to_iff
  rw [isLetter, Bool.or_eq_true, beq_iff_eq, halpha, hupper, hlower, IsLetter]
  exact or_assoc.trans or_left_comm

/-- The test for digits is right. -/
theorem isDigit_iff : c.isDigit = true ↔ IsDigit c :=
  Char.isDigit_iff_toNat

/-- The test for blanks is right. -/
theorem isGap_iff : isGap c = true ↔ IsBlank c := by
  simp [isGap, IsBlank, or_assoc]

/-! ### Tokens in a text -/

/-- A stretch of a text, between what stands before it and what comes after it, that is a whole run of
characters of one class: neither of its neighbours belongs to it. -/
structure MaximalRun (P : Char → Prop) (before run after : List Char) : Prop where
  ne_nil : run ≠ []
  all : ∀ c ∈ run, P c
  left : ∀ c ∈ before.getLast?, ¬ P c
  right : ∀ c ∈ after.head?, ¬ P c

/-- What a token is, between what stands before it and what comes after it: a word, which may be a
keyword; a constant, with the number that its digits spell or the largest one that there is; or a single
other character, of the kind that is spelled so if there is one. -/
inductive Form (before after : List Char) (t : Token) : Prop
  | word (hrun : MaximalRun IsLetter before t.literal.toList after)
    (hkind : t.kind = if t.literal = "int" then .int else if t.literal = "return" then .ret
      else .identifier)
  | constant (hrun : MaximalRun IsDigit before t.literal.toList after) (hkind : t.kind = .constant)
    (hvalue : ∃ n, t.value = .integer n ∧ n.toInt = min (Text.placeValue t.literal.toList) 2147483647)
  | single (c : Char) (hc : t.literal.toList = [c])
    (hclass : ¬ IsLetter c ∧ ¬ IsDigit c ∧ ¬ IsBlank c)
    (hkind : t.kind.spelling = t.literal ∨ t.kind = .unknown ∧ ∀ k : Kind, k.spelling ≠ t.literal)

/-- The rest of a text that comes after `before` consists of tokens, in order, and of gaps around them
that hold blanks only; every token is what it is there, and has the position that it has there. -/
inductive Layout : List Char → List Token → List Char → Prop
  | done {before gap : List Char} (hgap : ∀ c ∈ gap, IsBlank c) : Layout before [] gap
  | token {before gap after : List Char} {t : Token} {ts : List Token} (hgap : ∀ c ∈ gap, IsBlank c)
    (hpos : t.pos.IsAfter (before ++ gap)) (hform : t.Form (before ++ gap) after)
    (h : Layout (before ++ gap ++ t.literal.toList) ts after) :
    Layout before (t :: ts) (gap ++ t.literal.toList ++ after)

/-- A blank may come first. -/
theorem Layout.blank (hc : IsBlank c) (h : Layout (before ++ [c]) ts cs) : Layout before ts (c :: cs) := by
  cases h with
  | done hgap => exact .done (List.forall_mem_cons.2 ⟨hc, hgap⟩)
  | token hgap hpos hform h =>
    rw [List.append_assoc before, List.singleton_append] at hpos hform h
    exact .token (List.forall_mem_cons.2 ⟨hc, hgap⟩) hpos hform h

/-- A token may come first. -/
theorem Layout.cons (hpos : t.pos.IsAfter before) (hform : t.Form before after)
    (h : Layout (before ++ t.literal.toList) ts after) :
    Layout before (t :: ts) (t.literal.toList ++ after) := by
  refine @Layout.token before [] after t ts (by simp) ?_ ?_ ?_ <;> rwa [List.append_nil]

/-! ### Forms of lexemes -/

/-- That two characters can stand in one lexeme does not depend on their order. -/
theorem joins_comm (c d : Char) : joins c d = joins d c := by
  rw [joins, joins, Bool.and_comm (isLetter c), Bool.and_comm c.isDigit]

/-- **All characters of a lexeme join the same ones.** -/
theorem joins_eq_of_joins (h : joins c e = true) : joins e d = joins c d := by
  cases hc : isLetter c with
  | true =>
    rw [joins_of_isLetter hc] at h
    rw [joins_of_isLetter hc, joins_of_isLetter h]
  | false =>
    have hdigits : c.isDigit = true ∧ e.isDigit = true := by simpa [joins, hc] using h
    rw [joins_of_isDigit hdigits.1, joins_of_isDigit hdigits.2]

/-- A lexeme is a whole run of its class, if the character before it and the one after it do not join
it. -/
theorem maximalRun_lexeme {P : Char → Prop} (hc : P c) (hP : ∀ d, joins c d = true ↔ P d)
    (hrun : ∀ d ∈ run, joins c d = true) (hleft : ∀ b ∈ before.getLast?, joins b c = false)
    (hright : ∀ d ∈ after.head?, joins c d = false) : MaximalRun P before (c :: run) after where
  ne_nil := List.cons_ne_nil c run
  all := List.forall_mem_cons.2 ⟨hc, fun d hd => (hP d).1 (hrun d hd)⟩
  left b hb hPb := by
    have hjoins := (hP b).2 hPb
    rw [joins_comm, hleft b hb] at hjoins
    cases hjoins
  right d hd hPd := by
    have hjoins := (hP d).2 hPd
    rw [hright d hd] at hjoins
    cases hjoins

/-- A mark of one character is read from its spelling. -/
theorem Kind.ofChar_of_spelling {k : Kind} (h : k.spelling.toList = [c]) : Kind.ofChar c = k := by
  cases k with
  | identifier | constant | whitespace | eof | unknown | int | ret => cases h
  | _ => cases h; rfl

/-- Whatever is read from one character is spelled by it. -/
theorem Kind.spelling_ofChar (h : Kind.ofChar c ≠ .unknown) : (Kind.ofChar c).spelling.toList = [c] := by
  unfold Kind.ofChar at h ⊢
  split at h
  case h_15 => exact absurd rfl h
  all_goals rfl

/-- A character has the kind that is spelled by it alone; if there is none, it is unknown. -/
theorem Kind.ofChar_cases {s : String} (hs : s.toList = [c]) :
    (Kind.ofChar c).spelling = s ∨ Kind.ofChar c = .unknown ∧ ∀ k : Kind, k.spelling ≠ s := by
  by_cases hunknown : Kind.ofChar c = .unknown
  · refine .inr ⟨hunknown, ?_⟩
    rintro k rfl
    obtain rfl : k = .unknown := (Kind.ofChar_of_spelling hs).symm.trans hunknown
    cases hs
  · exact .inl (String.toList_inj.1 ((Kind.spelling_ofChar hunknown).trans hs.symm))

/-- **The value of a constant is its number or the largest 32-bit integer,** whichever is less. -/
theorem value_of_constant (h : t.kind = .constant) (hne : t.literal.toList ≠ [])
    (hdigits : t.literal.toList.all Char.isDigit = true) :
    ∃ n, t.value = .integer n ∧ n.toInt = min (Text.placeValue t.literal.toList) 2147483647 := by
  refine ⟨(Text.readInt32 t.literal.toList).getD Value.overflow, by rw [value, h], ?_⟩
  rw [Text.readInt32_digits hne hdigits, ← Text.ofDigits_eq_placeValue]
  -- a numeral is read exactly if it is below the bound, so the fallback is the minimum
  by_cases hlt : Text.ofDigits t.literal.toList < 2147483648
  · rw [if_pos hlt, Option.getD_some, Int32.toInt_ofNat_of_lt hlt]
    omega
  · have hmax : Value.overflow.toInt = 2147483647 := rfl
    rw [if_neg hlt, Option.getD_none, hmax]
    omega

/-- **What a lexeme is,** in a text where the characters before it and after it do not join it. -/
theorem form_lexeme (hc : isGap c = false) (hrun : ∀ d ∈ run, joins c d = true)
    (hleft : ∀ b ∈ before.getLast?, joins b c = false) (hright : ∀ d ∈ after.head?, joins c d = false) :
    Form before after ⟨Kind.ofLexeme c run, String.ofList (c :: run), p⟩ := by
  have hliteral : (String.ofList (c :: run)).toList = c :: run := String.toList_ofList
  cases hletter : isLetter c with
  | true =>
    refine .word ?_ ?_
    · rw [hliteral]
      exact maximalRun_lexeme (isLetter_iff.1 hletter)
        (fun d => by rw [joins_of_isLetter hletter, isLetter_iff]) hrun hleft hright
    · rw [← Kind.ofWord_toList, hliteral, Kind.ofLexeme, if_pos hletter]
  | false =>
    cases hdigit : c.isDigit with
    | true =>
      have hkind : Kind.ofLexeme c run = .constant := by
        rw [Kind.ofLexeme, if_neg (by simp [hletter]), if_pos hdigit]
      have hdigits : (c :: run).all Char.isDigit = true := by
        rw [List.all_cons, hdigit, Bool.true_and, List.all_eq_true]
        exact fun d hd => by rw [← joins_of_isDigit hdigit, hrun d hd]
      refine .constant ?_ hkind (value_of_constant hkind ?_ ?_) <;> rw [hliteral]
      · exact maximalRun_lexeme (isDigit_iff.1 hdigit)
          (fun d => by rw [joins_of_isDigit hdigit, isDigit_iff]) hrun hleft hright
      · exact List.cons_ne_nil c run
      · exact hdigits
    | false =>
      -- nothing joins such a character
      obtain rfl : run = [] := by
        refine List.eq_nil_iff_forall_not_mem.2 fun d hd => ?_
        simpa [joins, hletter, hdigit] using hrun d hd
      have hkind : Kind.ofLexeme c [] = Kind.ofChar c := by
        rw [Kind.ofLexeme, if_neg (by simp [hletter]), if_neg (by simp [hdigit])]
      refine .single c hliteral ⟨?_, ?_, ?_⟩ ?_
      · simp [← isLetter_iff, hletter]
      · simp [← isDigit_iff, hdigit]
      · simp [← isGap_iff, hc]
      · rw [hkind]
        exact Kind.ofChar_cases hliteral

/-! ### The whole text -/

/-- A text in two parts, cut where no lexeme is torn apart. -/
def Apart (before after : List Char) : Prop :=
  ∀ c ∈ before.getLast?, ∀ d ∈ after.head?, joins c d = false

/-- A lexeme ends before the first character that cannot go on with it. -/
theorem joins_of_head_dropWhile (hd : d ∈ (cs.dropWhile (joins c)).head?) : joins c d = false := by
  have hstop := List.head?_dropWhile_not (joins c) cs
  rw [Option.mem_def.1 hd] at hstop
  exact hstop

/-- After a blank no lexeme is torn apart. -/
theorem apart_blank (hc : isGap c = true) (before cs : List Char) : Apart (before ++ [c]) cs := by
  intro b hb d _
  obtain rfl : c = b := by simpa using hb
  rw [joins_comm, joins_of_isGap hc]

/-- After a lexeme none is torn apart. -/
theorem apart_lexeme (c : Char) (before cs : List Char) :
    Apart (before ++ c :: cs.takeWhile (joins c)) (cs.dropWhile (joins c)) := by
  intro e he d hd
  have hmem : e ∈ c :: cs.takeWhile (joins c) := by
    rw [List.getLast?_append_cons] at he
    exact List.mem_of_getLast? he
  rcases List.mem_cons.1 hmem with rfl | hrun
  · exact joins_of_head_dropWhile hd
  · rw [joins_eq_of_joins (List.mem_takeWhile_imp hrun)]
    exact joins_of_head_dropWhile hd

/-- **One lexeme is laid out:** if what comes after it is, all is. -/
theorem Layout.lexeme (hc : isGap c = false) (hapart : Apart before (c :: cs))
    (h : Layout (before ++ c :: cs.takeWhile (joins c)) ts (cs.dropWhile (joins c))) :
    Layout before (⟨Kind.ofLexeme c (cs.takeWhile (joins c)),
      String.ofList (c :: cs.takeWhile (joins c)), Pos.start.after before⟩ :: ts) (c :: cs) := by
  have hcs : c :: cs = (String.ofList (c :: cs.takeWhile (joins c))).toList ++ cs.dropWhile (joins c) := by
    rw [String.toList_ofList, List.cons_append, List.takeWhile_append_dropWhile]
  rw [hcs]
  refine .cons (Pos.isAfter_after before) ?_ (by rwa [String.toList_ofList])
  exact form_lexeme hc (fun d hd => List.mem_takeWhile_imp hd) (fun b hb => hapart b hb c rfl)
    fun d hd => joins_of_head_dropWhile hd

/-- **The tokens of the rest of a text lay it out,** if it starts where no lexeme is torn apart. -/
theorem scan_layout (p : Pos) (cs : List Char) :
    ∀ before, p = Pos.start.after before → Apart before cs → Layout before (scan p cs) cs := by
  induction p, cs using scan.induct with
  | case1 p =>
    intro before _ _
    rw [scan]
    exact .done (by simp)
  | case2 p c cs hgap ih =>
    rintro before rfl -
    rw [scan, if_pos hgap]
    refine .blank (isGap_iff.1 hgap) (ih _ ?_ (apart_blank hgap before cs))
    rw [Pos.after_append]
    rfl
  | case3 p c cs hgap run ih =>
    rintro before rfl hapart
    rw [scan, if_neg hgap]
    refine .lexeme (by simpa using hgap) hapart (ih _ ?_ (apart_lexeme c before cs))
    rw [Pos.after_append]

/-- **Nothing of a text is lost in its tokens.**  They are laid out in it, each with its position and with
what it is there, and only the last one is the mark of the end, which has the position where the text
ends. -/
theorem lex_layout (source : String) :
    ∃ ts eof, (lex source).toList = ts ++ [eof] ∧ (∀ t ∈ ts, t.kind ≠ .eof) ∧
      Layout [] ts source.toList ∧
      eof.kind = .eof ∧ eof.literal = "" ∧ eof.pos.IsAfter source.toList := by
  refine ⟨(lex source).tokens, (lex source).eof, rfl, ?_, ?_, rfl, rfl, ?_⟩
  · exact fun t ht => kind_ne_eof_of_mem_scan ht
  · exact scan_layout _ _ [] rfl fun c hc => absurd hc (by simp)
  · exact Pos.isAfter_after source.toList

/-- Columns count characters, of whatever alphabet, and a word ends where digits start. -/
example : (lex "\u00e9\x00 int1").tokens =
    [⟨.unknown, "\u00e9", ⟨1, 1⟩⟩, ⟨.unknown, "\x00", ⟨1, 2⟩⟩, ⟨.int, "int", ⟨1, 4⟩⟩,
      ⟨.constant, "1", ⟨1, 7⟩⟩] := by
  decide +kernel

end Token
end Straightline
