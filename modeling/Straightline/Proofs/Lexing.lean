/-
# Texts made of lexemes

A text can be laid out in many ways: lexemes in order, with gaps before, between and after them, such
that none is followed by a character that would continue it (`Spaced`).  However it is laid out, the
tokens that are cut from it are those lexemes (`scan_of_spaced`).  Lexemes that are all followed by a
blank are laid out so (`spaced_blanks`).

A word, what a token says, can be spelled by a lexeme: a name by itself, a number by digits, all
else by the characters of its kind (`Spells`).  The words of the tokens of a text are those that its
lexemes spell (`words_of_spaced`).  None of them ends the text, so a program that is read from it has
them all (`Source.words_of_parse`).
-/

import Mathlib.Data.List.Forall2
import Straightline.Proofs.Accounting

namespace Straightline
namespace Token

variable {c d : Char} {run l cs : List Char} {ls : List (List Char)} {p : Pos}

/-! ### Lexemes and gaps -/

/-- A lexeme: a character that is no gap, and characters that join it. -/
def IsLexeme (l : List Char) : Prop :=
  ∃ c run, l = c :: run ∧ isGap c = false ∧ ∀ d ∈ run, joins c d = true

/-- The kind of a lexeme. -/
def Kind.ofText : List Char → Kind
  | [] => .eof
  | c :: run => Kind.ofLexeme c run

/-- A text that consists of lexemes in order, with gaps around them; after a lexeme stands no
character that would continue it. -/
inductive Spaced : List (List Char) → List Char → Prop
  | nil : Spaced [] []
  | gap {ls : List (List Char)} {c : Char} {cs : List Char} (hc : isGap c = true)
    (h : Spaced ls cs) : Spaced ls (c :: cs)
  | lexeme {ls : List (List Char)} {l cs : List Char}
    (hapart : ∀ c ∈ l.head?, ∀ d ∈ cs.head?, joins c d = false) (h : Spaced ls cs) :
    Spaced (l :: ls) (l ++ cs)

/-- A lexeme that is followed by nothing that could go on with it is one token. -/
theorem scan_lexeme (hc : isGap c = false) (hrun : ∀ d ∈ run, joins c d = true)
    (hapart : ∀ d ∈ cs.head?, joins c d = false) :
    scan p (c :: (run ++ cs)) =
      ⟨Kind.ofLexeme c run, String.ofList (c :: run), p⟩ :: scan (p.after (c :: run)) cs := by
  have hnone : cs.takeWhile (joins c) = [] ∧ cs.dropWhile (joins c) = cs := by
    cases cs with
    | nil => exact ⟨rfl, rfl⟩
    | cons d ds =>
      have hd : joins c d = false := hapart d rfl
      simp [hd]
  have htake : (run ++ cs).takeWhile (joins c) = run := by
    rw [List.takeWhile_append_of_pos hrun, hnone.1, List.append_nil]
  have hdrop : (run ++ cs).dropWhile (joins c) = cs := by
    rw [List.dropWhile_append_of_pos hrun, hnone.2]
  rw [scan, if_neg (by simp [hc]), htake, hdrop]

/-- **The tokens of a text are its lexemes,** whatever the gaps are. -/
theorem scan_of_spaced (h : Spaced ls cs) (hls : ∀ l ∈ ls, IsLexeme l) (p : Pos) :
    (scan p cs).map (fun t => (t.kind, t.literal)) =
      ls.map fun l => (Kind.ofText l, String.ofList l) := by
  induction h generalizing p with
  | nil => rw [scan, List.map_nil, List.map_nil]
  | gap hc _ ih => rw [scan, if_pos hc, ih hls]
  | lexeme hapart _ ih =>
    rw [List.forall_mem_cons] at hls
    obtain ⟨⟨c, run, rfl, hc, hrun⟩, hls⟩ := hls
    rw [List.cons_append, scan_lexeme hc hrun (hapart c rfl), List.map_cons, ih hls, List.map_cons]
    rfl

/-- **Every token is a lexeme of the text, with its kind.** -/
theorem exists_of_mem_scan {t : Token} (ht : t ∈ scan p cs) :
    ∃ c run, t.kind = Kind.ofLexeme c run ∧ t.literal = String.ofList (c :: run) ∧
      isGap c = false ∧ ∀ d ∈ run, joins c d = true := by
  induction p, cs using scan.induct with
  | case1 p =>
    rw [scan] at ht
    cases ht
  | case2 p c cs hgap ih =>
    rw [scan, if_pos hgap] at ht
    exact ih ht
  | case3 p c cs hgap run ih =>
    rw [scan, if_neg hgap] at ht
    rcases List.mem_cons.1 ht with rfl | hrest
    · exact ⟨c, run, rfl, rfl, by simpa using hgap, List.all_eq_true.1 List.all_takeWhile⟩
    · exact ih hrest

/-- No lexeme is the end of the text. -/
theorem Kind.ofLexeme_ne_eof (c : Char) (run : List Char) : Kind.ofLexeme c run ≠ .eof := by
  unfold Kind.ofLexeme Kind.ofWord Kind.ofChar
  split
  · split
    · decide
    · split <;> decide
  · split
    · decide
    · split <;> decide

/-- The mark that ends a text does not stand inside of it. -/
theorem kind_ne_eof_of_mem_scan {t : Token} (ht : t ∈ scan p cs) : t.kind ≠ .eof := by
  obtain ⟨c, run, hkind, -⟩ := exists_of_mem_scan ht
  rw [hkind]
  exact Kind.ofLexeme_ne_eof c run

/-- Four characters are blanks. -/
theorem eq_of_isGap (h : isGap c = true) : c = ' ' ∨ c = '\t' ∨ c = '\r' ∨ c = '\n' := by
  simpa [isGap, or_assoc] using h

/-- No blank is a letter. -/
theorem isLetter_of_isGap (h : isGap c = true) : isLetter c = false := by
  rcases eq_of_isGap h with rfl | rfl | rfl | rfl <;> decide

/-- No blank is a digit. -/
theorem isDigit_of_isGap (h : isGap c = true) : c.isDigit = false := by
  rcases eq_of_isGap h with rfl | rfl | rfl | rfl <;> decide

/-- No blank goes on with a lexeme. -/
theorem joins_of_isGap (h : isGap d = true) : joins c d = false := by
  simp [joins, isLetter_of_isGap h, isDigit_of_isGap h]

/-- Lexemes with a blank after each are laid out well. -/
theorem spaced_blanks (ls : List (List Char)) : Spaced ls (ls.flatMap (· ++ [' '])) := by
  induction ls with
  | nil => exact .nil
  | cons l ls ih =>
    rw [List.flatMap_cons, List.append_assoc, List.singleton_append]
    refine .lexeme (fun c _ d hd => ?_) (.gap rfl ih)
    obtain rfl := Option.some.inj hd
    exact joins_of_isGap rfl

/-! ### Words and how they are spelled -/

/-- A name that can stand in a text: letters and underscores, at least one, and no keyword. -/
def IsName (x : String) : Prop :=
  x ≠ "" ∧ x.toList.all isLetter = true ∧ x ≠ "int" ∧ x ≠ "return"

instance (x : String) : Decidable (IsName x) :=
  inferInstanceAs (Decidable (_ ∧ _))

/-- Two words are keywords, and all others identifiers. -/
theorem Kind.ofWord_toList (w : String) :
    Kind.ofWord w.toList = if w = "int" then .int else if w = "return" then .ret else .identifier := by
  have hint : w.toList = ['i', 'n', 't'] ↔ w = "int" := @String.toList_inj w "int"
  have hret : w.toList = ['r', 'e', 't', 'u', 'r', 'n'] ↔ w = "return" :=
    @String.toList_inj w "return"
  simp only [Kind.ofWord, hint, hret]

/-- An identifier does not start with a character of another kind. -/
theorem Kind.ofChar_ne_identifier (c : Char) : Kind.ofChar c ≠ .identifier := by
  unfold Kind.ofChar
  split <;> decide

/-- An identifier starts with a letter. -/
theorem isLetter_of_ofLexeme {c : Char} {run : List Char}
    (h : Kind.ofLexeme c run = .identifier) : isLetter c = true := by
  unfold Kind.ofLexeme at h
  split at h
  · assumption
  · split at h
    · cases h
    · exact absurd h (Kind.ofChar_ne_identifier c)

/-- A constant starts with a digit. -/
theorem isDigit_of_ofLexeme (h : Kind.ofLexeme c run = .constant) : c.isDigit = true := by
  unfold Kind.ofLexeme at h
  split at h
  · unfold Kind.ofWord at h
    split at h
    · cases h
    · split at h <;> cases h
  · split at h
    · assumption
    · unfold Kind.ofChar at h
      split at h <;> cases h

/-- The characters of the tokens that all say the same. -/
def Kind.spelling : Kind → String
  | openParen => "("
  | closeParen => ")"
  | openBrace => r"{"
  | closeBrace => r"}"
  | openBracket => "["
  | closeBracket => "]"
  | semicolon => ";"
  | colon => ":"
  | comma => ","
  | equal => "="
  | plus => "+"
  | minus => "-"
  | star => "*"
  | slash => "/"
  | int => "int"
  | ret => "return"
  | identifier | constant | whitespace | eof | unknown => ""

/-- A word that can be spelled. -/
def Word.Writable : Word → Prop
  | .name x => IsName x
  | .number n => 0 ≤ n
  | .mark k => k.spelling ≠ ""

/-- A lexeme spells a word: a name as it is, a number in decimal digits, of which there may be more
than are needed, and a mark by its characters. -/
def Spells : Word → List Char → Prop
  | .name x, l => l = x.toList
  | .number n, l => l ≠ [] ∧ l.all Char.isDigit = true ∧ Text.ofDigits l = n
  | .mark k, l => l = k.spelling.toList

variable {w : Word} {ws : List Word}

/-- No digit is a letter. -/
theorem isLetter_of_isDigit (h : c.isDigit = true) : isLetter c = false := by
  have hrange : 48 ≤ c.toNat ∧ c.toNat ≤ 57 := Char.isDigit_iff_toNat.1 h
  cases hletter : isLetter c with
  | false => rfl
  | true =>
    rcases Bool.or_eq_true _ _ ▸ hletter with halpha | hunder
    · have hclass : (c.isUpper || c.isLower) = true := halpha
      rw [Bool.or_eq_true] at hclass
      rcases hclass with hupper | hlower
      · have hbounds : 65 ≤ c.toNat ∧ c.toNat ≤ 90 := of_decide_eq_true hupper
        omega
      · have hbounds : (decide (97 ≤ c.toNat) && decide (c.toNat ≤ 122)) = true := hlower
        rw [Bool.and_eq_true, decide_eq_true_eq, decide_eq_true_eq] at hbounds
        omega
    · rw [eq_of_beq hunder] at h
      cases h

/-- A word goes on with letters. -/
theorem joins_of_isLetter (hc : isLetter c = true) : joins c d = isLetter d := by
  have hdigit : c.isDigit = false := by
    cases hdigit : c.isDigit with
    | false => rfl
    | true => rw [isLetter_of_isDigit hdigit] at hc; cases hc
  simp [joins, hc, hdigit]

/-- A constant goes on with digits. -/
theorem joins_of_isDigit (hc : c.isDigit = true) : joins c d = d.isDigit := by
  simp [joins, hc, isLetter_of_isDigit hc]

/-- A name is a letter and the letters after it. -/
theorem IsName.exists_cons {x : String} (h : IsName x) :
    ∃ c run, x.toList = c :: run ∧ isLetter c = true ∧ ∀ d ∈ run, isLetter d = true := by
  cases hx : x.toList with
  | nil => exact absurd (String.toList_eq_nil_iff.1 hx) h.1
  | cons c run =>
    have hall := h.2.1
    rw [hx, List.all_cons, Bool.and_eq_true] at hall
    exact ⟨c, run, rfl, hall.1, List.all_eq_true.1 hall.2⟩

/-- Digits are a first one and the digits after it. -/
theorem exists_cons_of_isDigit {l : List Char} (hne : l ≠ []) (hl : l.all Char.isDigit = true) :
    ∃ c run, l = c :: run ∧ c.isDigit = true ∧ ∀ d ∈ run, d.isDigit = true := by
  cases l with
  | nil => exact absurd rfl hne
  | cons c run =>
    rw [List.all_cons, Bool.and_eq_true] at hl
    exact ⟨c, run, rfl, hl.1, List.all_eq_true.1 hl.2⟩

/-- **What spells a word is a lexeme.** -/
theorem Spells.isLexeme (h : Spells w l) (hw : w.Writable) : IsLexeme l := by
  cases w with
  | name x =>
    obtain ⟨c, run, hx, hc, hrun⟩ := IsName.exists_cons hw
    refine ⟨c, run, h.trans hx, ?_, fun d hd => by simp [joins, hc, hrun d hd]⟩
    cases hgap : isGap c with
    | false => rfl
    | true => simp [isLetter_of_isGap hgap] at hc
  | number n =>
    obtain ⟨hne, hall, -⟩ := h
    obtain ⟨c, run, rfl, hc, hrun⟩ := exists_cons_of_isDigit hne hall
    refine ⟨c, run, rfl, ?_, fun d hd => by simp [joins, hc, hrun d hd]⟩
    cases hgap : isGap c with
    | false => rfl
    | true => simp [isDigit_of_isGap hgap] at hc
  | mark k =>
    obtain rfl : l = k.spelling.toList := h
    cases k with
    | identifier | constant | whitespace | eof | unknown => exact absurd rfl hw
    | int => exact ⟨'i', ['n', 't'], rfl, rfl, List.all_eq_true.1 (by decide)⟩
    | ret => exact ⟨'r', ['e', 't', 'u', 'r', 'n'], rfl, rfl, List.all_eq_true.1 (by decide)⟩
    | _ => exact ⟨_, [], rfl, rfl, by simp⟩

/-- **A token whose lexeme spells a word says that word.** -/
theorem Spells.word_eq (h : Spells w l) (hw : w.Writable) (p : Pos) :
    word ⟨Kind.ofText l, String.ofList l, p⟩ = w := by
  cases w with
  | name x =>
    obtain ⟨c, run, hx, hc, -⟩ := IsName.exists_cons hw
    obtain rfl : l = x.toList := h
    have hkind : Kind.ofText x.toList = .identifier := by
      rw [hx, Kind.ofText, Kind.ofLexeme, if_pos hc, ← hx, Kind.ofWord, if_neg, if_neg]
      · exact fun heq => hw.2.2.2 (String.toList_inj.1 heq)
      · exact fun heq => hw.2.2.1 (String.toList_inj.1 heq)
    rw [word_of_identifier hkind, String.ofList_toList]
  | number n =>
    obtain ⟨hne, hall, rfl⟩ := h
    obtain ⟨c, run, rfl, hc, -⟩ := exists_cons_of_isDigit hne hall
    have hkind : Kind.ofText (c :: run) = .constant := by
      rw [Kind.ofText, Kind.ofLexeme, if_neg (by simp [isLetter_of_isDigit hc]), if_pos hc]
    rw [word_of_constant hkind, number_of_digits] <;> rw [String.toList_ofList]
    · exact hne
    · exact hall
  | mark k =>
    obtain rfl : l = k.spelling.toList := h
    cases k with
    | identifier | constant | whitespace | eof | unknown => exact absurd rfl hw
    | _ => rfl

/-- Texts that spell words are lexemes. -/
theorem isLexeme_of_spells (h : List.Forall₂ Spells ws ls) (hws : ∀ w ∈ ws, w.Writable) :
    ∀ l ∈ ls, IsLexeme l := by
  induction h with
  | nil => exact fun l hl => absurd hl List.not_mem_nil
  | cons hl _ ih =>
    rw [List.forall_mem_cons] at hws ⊢
    exact ⟨hl.isLexeme hws.1, ih hws.2⟩

/-- **The words of a text are those that its lexemes spell.** -/
theorem words_of_spaced (hspells : List.Forall₂ Spells ws ls) (hws : ∀ w ∈ ws, w.Writable)
    (h : Spaced ls cs) (p : Pos) : (scan p cs).map word = ws := by
  -- a word depends on kind and lexeme alone, so any place will do
  have hwords : (scan p cs).map word =
      ls.map fun l => word ⟨Kind.ofText l, String.ofList l, Pos.start⟩ := by
    have hscan := congrArg (List.map fun x : Kind × String => word ⟨x.1, x.2, Pos.start⟩)
      (scan_of_spaced h (isLexeme_of_spells hspells hws) p)
    rwa [List.map_map, List.map_map] at hscan
  rw [hwords]
  clear hwords h
  induction hspells with
  | nil => rfl
  | cons hl _ ih =>
    rw [List.forall_mem_cons] at hws
    rw [List.map_cons, hl.word_eq hws.1, ih hws.2]

/-- A lexeme that spells a word: for a number, as few digits as possible. -/
def Word.lexeme : Word → List Char
  | .name x => x.toList
  | .number n => Nat.toDigits 10 n.toNat
  | .mark k => k.spelling.toList

/-- Every word that can be written is spelled by its lexeme. -/
theorem spells_lexeme (hw : w.Writable) : Spells w w.lexeme := by
  cases w with
  | name x => rfl
  | number n =>
    refine ⟨Nat.toDigits_ne_nil, List.all_eq_true.2 fun c hc => ?_, ?_⟩
    · exact Nat.isDigit_of_mem_toDigits (by omega) (by omega) hc
    · rw [Word.lexeme, Text.ofDigits_toDigits, Int.toNat_of_nonneg hw]
  | mark k => rfl

/-- **Words can be written down.** -/
theorem exists_spaced (hws : ∀ w ∈ ws, w.Writable) :
    ∃ ls cs, List.Forall₂ Spells ws ls ∧ Spaced ls cs :=
  ⟨ws.map Word.lexeme, _, by simpa using fun w hw => spells_lexeme (hws w hw), spaced_blanks _⟩

/-! ### The words of a text -/

/-- **The names in a text are no keywords.** -/
theorem isName_of_mem_scan {p : Pos} {cs : List Char} {t : Token} (ht : t ∈ scan p cs)
    (hkind : t.kind = .identifier) : IsName t.literal := by
  obtain ⟨c, run, hlexeme, hliteral, -, hrun⟩ := exists_of_mem_scan ht
  have hident : Kind.ofLexeme c run = .identifier := hlexeme.symm.trans hkind
  have hc : isLetter c = true := isLetter_of_ofLexeme hident
  have hchars : t.literal.toList = c :: run := by rw [hliteral, String.toList_ofList]
  rw [Kind.ofLexeme, if_pos hc, ← hchars, Kind.ofWord_toList] at hident
  refine ⟨?_, ?_, ?_, ?_⟩
  · intro hempty
    rw [hempty] at hchars
    cases hchars
  · rw [hchars, List.all_eq_true, List.forall_mem_cons]
    exact ⟨hc, fun d hd => joins_of_isLetter hc ▸ hrun d hd⟩
  · intro hint
    rw [if_pos hint] at hident
    cases hident
  · intro hret
    rw [hret] at hident
    cases hident

/-- **The constants of a text consist of digits.** -/
theorem digits_of_mem_scan {t : Token} (ht : t ∈ scan p cs) (hkind : t.kind = .constant) :
    t.literal.toList ≠ [] ∧ t.literal.toList.all Char.isDigit = true := by
  obtain ⟨c, run, hlexeme, hliteral, -, hrun⟩ := exists_of_mem_scan ht
  have hc : c.isDigit = true := isDigit_of_ofLexeme (hlexeme.symm.trans hkind)
  rw [hliteral, String.toList_ofList]
  refine ⟨List.cons_ne_nil c run, ?_⟩
  rw [List.all_eq_true, List.forall_mem_cons]
  exact ⟨hc, fun d hd => joins_of_isDigit hc ▸ hrun d hd⟩

/-- A word as it comes from a text: a name is no keyword, and a number has no sign. -/
def Word.Proper : Word → Prop
  | .name x => IsName x
  | .number n => 0 ≤ n
  | .mark _ => True

/-- **The words of a text are proper.** -/
theorem proper_of_mem_scan {t : Token} (ht : t ∈ scan p cs) : t.word.Proper := by
  cases hword : t.word with
  | name x =>
    obtain ⟨hkind, rfl⟩ := of_word_name hword
    exact isName_of_mem_scan ht hkind
  | number n =>
    obtain ⟨hkind, rfl⟩ := of_word_number hword
    obtain ⟨hne, hdigits⟩ := digits_of_mem_scan ht hkind
    rw [Word.Proper, number_of_digits hne hdigits]
    exact Int.natCast_nonneg _
  | mark k => trivial

end Token

/-- **A program that is read from a text is made of items, and their words are the words of the
text.** -/
theorem Source.words_of_parse {source : String} {p : Program} (h : parse source = .ok p) :
    ∃ items : List Item, p.MadeOf items ∧
      (Token.lex source).tokens.map Token.word = items.flatMap Item.words :=
  words_of_parseTokens (parse_eq_ok_iff.1 h) fun _ => Token.kind_ne_eof_of_mem_scan

/-- The words of a program that is read from a text are proper. -/
theorem Source.proper_of_parse {source : String} {p : Program} (h : parse source = .ok p) :
    ∃ items : List Item, p.MadeOf items ∧ ∀ item ∈ items, ∀ w ∈ item.words, w.Proper := by
  obtain ⟨items, hitems, hwords⟩ := words_of_parse h
  refine ⟨items, hitems, fun item hitem w hw => ?_⟩
  have hmem : w ∈ (Token.lex source).tokens.map Token.word :=
    hwords ▸ List.mem_flatMap.2 ⟨item, hitem, hw⟩
  obtain ⟨t, ht, rfl⟩ := List.mem_map.1 hmem
  exact Token.proper_of_mem_scan ht

end Straightline
