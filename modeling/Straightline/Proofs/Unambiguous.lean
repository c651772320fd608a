/-
# Different programs have different texts

The text of a part of a program is told apart from the texts of all other parts of its kind, unless what comes
after it could continue it (`Text.ToldApart`).  Names and numbers end where their class of characters does, and
all else ends with a character of its own.  For expressions this is an induction (`Expr.Printable.toldApart`).
It is carried on to lists in parentheses (`Text.eq_of_list`) and to parts that are written one after the other
until something else starts (`Text.eq_of_block`).

Some parts start alike, and it is the next characters that decide.  A call is a name that goes on with a
parenthesis; a statement is no declaration and no `return`, since keywords are no names; after a signature stands
a semicolon or a brace.  Parameters are not declared in the body, but the signature names them.

In a program that was read all names are names (`isName_of_parse`) and no constant has a sign, so its text says
which program it is (`eq_of_text`).
-/

import Straightline.Proofs.Layout
import Straightline.Proofs.Rendering
import Straightline.Proofs.Spelling

namespace Straightline

/-! ### Texts that are told apart -/

namespace Text

open Token (isLetter)

variable {α : Type} {text : α → List Char} {P : α → Prop} {Follow Stop : List Char → Prop}
  {as bs : List α} {rest rest' : List Char}

/-- A text is told apart from the others of its kind: where it stands, and after it something that can follow,
there stands no other one, and it ends there. -/
def ToldApart (text : α → List Char) (P : α → Prop) (Follow : List Char → Prop) (a : α) : Prop :=
  ∀ b rest rest', P b → Follow rest → Follow rest' → text a ++ rest = text b ++ rest' →
    a = b ∧ rest = rest'

/-- A run of characters of one class ends where the class does. -/
theorem run_inj {p : Char → Bool} {run run' : List Char} (hrun : ∀ c ∈ run, p c = true)
    (hrun' : ∀ c ∈ run', p c = true) (hrest : ∀ c ∈ rest.head?, p c = false)
    (hrest' : ∀ c ∈ rest'.head?, p c = false) (h : run ++ rest = run' ++ rest') :
    run = run' ∧ rest = rest' := by
  have htake : ∀ run rest : List Char, (∀ c ∈ run, p c = true) → (∀ c ∈ rest.head?, p c = false) →
      (run ++ rest).takeWhile p = run := by
    intro run rest hrun hrest
    rw [List.takeWhile_append_of_pos hrun]
    cases rest with
    | nil => exact List.append_nil run
    | cons c cs => rw [List.takeWhile_cons_of_neg (by simp [hrest c rfl]), List.append_nil]
  have hruns : run = run' := by rw [← htake run rest hrun hrest, h, htake run' rest' hrun' hrest']
  rw [hruns] at h
  exact ⟨hruns, List.append_cancel_left h⟩

/-- What cannot continue an expression: it starts with no letter, no digit and no parenthesis that opens. -/
def Ends (rest : List Char) : Prop :=
  ∀ c ∈ rest.head?, isLetter c = false ∧ c.isDigit = false ∧ c ≠ '('

/-- A text ends an expression by its first character. -/
theorem ends_cons {c : Char} (rest : List Char) (h : isLetter c = false ∧ c.isDigit = false ∧ c ≠ '(') :
    Ends (c :: rest) := by
  intro d hd
  obtain rfl := Option.some.inj hd
  exact h

theorem Ends.not_letter (h : Ends rest) : ∀ c ∈ rest.head?, isLetter c = false :=
  fun c hc => (h c hc).1

theorem Ends.not_digit (h : Ends rest) : ∀ c ∈ rest.head?, c.isDigit = false :=
  fun c hc => (h c hc).2.1

/-- A parenthesis that opens ends no expression: it could call. -/
theorem not_ends_paren : ¬Ends ('(' :: rest) :=
  fun h => (h '(' rfl).2.2 rfl

/-- What comes after an item of a list: the other items, each after a comma, and the parenthesis. -/
def listEnd (rest : List Char) : List (List Char) → List Char
  | [] => ')' :: rest
  | l :: ls => ',' :: ' ' :: (l ++ listEnd rest ls)

/-- Items with commas between them are the first one and what comes after it. -/
theorem intercalate_append (l : List Char) (ls : List (List Char)) (rest : List Char) :
    [',', ' '].intercalate (l :: ls) ++ ')' :: rest = l ++ listEnd rest ls := by
  induction ls generalizing l with
  | nil =>
    rw [List.intercalate_singleton]
    rfl
  | cons l' ls ih =>
    rw [List.intercalate_cons_cons, List.append_assoc, ih, List.append_assoc]
    rfl

/-- What comes after an item ends it. -/
theorem ends_listEnd (rest : List Char) (ls : List (List Char)) : Ends (listEnd rest ls) := by
  cases ls with
  | nil => exact ends_cons _ (by decide)
  | cons l ls => exact ends_cons _ (by decide)

/-- Lists are told apart if their items are. -/
theorem eq_of_listEnd (has : ∀ a ∈ as, ToldApart text P Ends a) (hbs : ∀ b ∈ bs, P b)
    (h : listEnd rest (as.map text) = listEnd rest' (bs.map text)) : as = bs ∧ rest = rest' := by
  induction as generalizing bs with
  | nil =>
    cases bs with
    | nil => exact ⟨rfl, (List.cons.inj h).2⟩
    | cons b bs => cases (List.cons.inj h).1
  | cons a as ih =>
    cases bs with
    | nil => cases (List.cons.inj h).1
    | cons b bs =>
      rw [List.forall_mem_cons] at has hbs
      have hitem := (List.cons.inj (List.cons.inj h).2).2
      obtain ⟨rfl, htail⟩ := has.1 b _ _ hbs.1 (ends_listEnd _ _) (ends_listEnd _ _) hitem
      obtain ⟨rfl, hrest⟩ := ih has.2 hbs.2 htail
      exact ⟨rfl, hrest⟩

/-- **Lists in parentheses are equal if their texts are,** and so is what comes after them. -/
theorem eq_of_list (has : ∀ a ∈ as, P a ∧ ToldApart text P Ends a) (hbs : ∀ b ∈ bs, P b)
    (hstart : ∀ a, P a → ∀ rest rest', text a ++ rest ≠ ')' :: rest')
    (h : [',', ' '].intercalate (as.map text) ++ ')' :: rest =
      [',', ' '].intercalate (bs.map text) ++ ')' :: rest') : as = bs ∧ rest = rest' := by
  cases as with
  | nil =>
    cases bs with
    | nil => exact ⟨rfl, (List.cons.inj h).2⟩
    | cons b bs =>
      rw [List.map_cons, intercalate_append] at h
      exact absurd h.symm (hstart b (hbs b (by simp)) _ _)
  | cons a as =>
    rw [List.map_cons, intercalate_append] at h
    cases bs with
    | nil => exact absurd h (hstart a (has a (by simp)).1 _ _)
    | cons b bs =>
      rw [List.map_cons, intercalate_append] at h
      rw [List.forall_mem_cons] at has hbs
      obtain ⟨rfl, htail⟩ := has.1.2 b _ _ hbs.1 (ends_listEnd _ _) (ends_listEnd _ _) h
      obtain ⟨rfl, hrest⟩ := eq_of_listEnd (fun a ha => (has.2 a ha).2) hbs.2 htail
      exact ⟨rfl, hrest⟩

/-- **Parts that are written one after the other are equal if their texts are,** where something comes after them
that is no such part. -/
theorem eq_of_block (htold : ∀ a, P a → ToldApart text P (fun _ => True) a)
    (hstop : ∀ a, P a → ∀ rest rest', Stop rest' → text a ++ rest ≠ rest') (has : ∀ a ∈ as, P a)
    (hbs : ∀ b ∈ bs, P b) (hrest : Stop rest) (hrest' : Stop rest')
    (h : as.flatMap text ++ rest = bs.flatMap text ++ rest') : as = bs ∧ rest = rest' := by
  induction as generalizing bs with
  | nil =>
    cases bs with
    | nil => exact ⟨rfl, h⟩
    | cons b bs =>
      rw [List.flatMap_cons, List.append_assoc] at h
      exact absurd h.symm (hstop b (hbs b (by simp)) _ _ hrest)
  | cons a as ih =>
    rw [List.flatMap_cons, List.append_assoc] at h
    cases bs with
    | nil => exact absurd h (hstop a (has a (by simp)) _ _ hrest')
    | cons b bs =>
      rw [List.flatMap_cons, List.append_assoc] at h
      rw [List.forall_mem_cons] at has hbs
      obtain ⟨rfl, hmore⟩ := htold a has.1 b _ _ hbs.1 trivial trivial h
      obtain ⟨rfl, hend⟩ := ih has.2 hbs.2 hmore
      exact ⟨rfl, hend⟩

/-- A number without a sign has digits only. -/
theorem isDigit_of_mem_ofInt32 {n : Int32} (hn : 0 ≤ n.toInt) {c : Char} (hc : c ∈ (ofInt32 n).toList) :
    c.isDigit = true := by
  rw [ofInt32, if_neg (by omega), ofNat, String.toList_ofList] at hc
  exact Nat.isDigit_of_mem_toDigits (by omega) (by omega) hc

/-- Numbers are told apart by their texts. -/
theorem ofInt32_inj {n m : Int32} (h : (ofInt32 n).toList = (ofInt32 m).toList) : n = m := by
  have hread := readInt32_ofInt32 n
  rw [h, readInt32_ofInt32] at hread
  exact (Option.some.inj hread).symm

end Text

/-! ### Names -/

namespace Token

variable {rest rest' : List Char}

/-- A letter starts an identifier. -/
theorem kind_of_isLetter {c : Char} (h : isLetter c = true) : Kind.ofLexeme c [] = .identifier := by
  rw [Kind.ofLexeme, if_pos h]
  simp [Kind.ofWord]

/-- A digit starts a constant. -/
theorem kind_of_isDigit {c : Char} (h : c.isDigit = true) : Kind.ofLexeme c [] = .constant := by
  rw [Kind.ofLexeme, if_neg (by simp [isLetter_of_isDigit h]), if_pos h]

theorem not_letter_paren : ∀ c ∈ ('(' :: rest).head?, isLetter c = false := by
  intro c hc
  obtain rfl := Option.some.inj hc
  decide

theorem IsName.isLetter_of_mem {x : String} (hx : IsName x) : ∀ c ∈ x.toList, isLetter c = true :=
  List.all_eq_true.1 hx.2.1

/-- A name ends before what is no letter. -/
theorem IsName.append_inj {x y : String} (hx : IsName x) (hy : IsName y)
    (hrest : ∀ c ∈ rest.head?, isLetter c = false) (hrest' : ∀ c ∈ rest'.head?, isLetter c = false)
    (h : x.toList ++ rest = y.toList ++ rest') : x = y ∧ rest = rest' := by
  obtain ⟨hxy, hend⟩ := Text.run_inj hx.isLetter_of_mem hy.isLetter_of_mem hrest hrest' h
  exact ⟨String.toList_inj.1 hxy, hend⟩

/-- Keywords are no names. -/
theorem IsName.ne_keyword {x k : String} (hx : IsName x) (hk : k = "int" ∨ k = "return") : k ≠ x := by
  rintro rfl
  rcases hk with hk | hk
  · exact hx.2.2.1 hk
  · exact hx.2.2.2 hk

end Token

namespace Source

open Text (ToldApart Ends ends_cons run_inj)
open Token (IsName Kind isLetter kind_of_isLetter kind_of_isDigit not_letter_paren)

variable {rest rest' : List Char}

/-! ### Expressions -/

/-- An expression with proper names, whose constants have no sign. -/
inductive Expr.Printable : Expr → Prop
  | const {n : Int32} (hn : 0 ≤ n.toInt) : Printable (.const n)
  | var {x : String} (hx : IsName x) : Printable (.var x)
  | binary (op : BinaryOp) {left right : Expr} (hleft : Printable left) (hright : Printable right) :
    Printable (.binary op left right)
  | call {f : String} {args : List Expr} (hf : IsName f) (hargs : ∀ a ∈ args, Printable a) :
    Printable (.call f args)

/-- The characters of an expression. -/
def Expr.chars (e : Expr) : List Char :=
  e.text.toList

/-- The text of an operation, in pieces. -/
theorem Expr.binary_append (op : BinaryOp) (left right : Expr) (rest : List Char) :
    (Expr.binary op left right).chars ++ rest =
      '(' :: (left.chars ++ ' ' :: (op.text.toList ++ ' ' :: (right.chars ++ ')' :: rest))) := by
  simp [Expr.chars, Expr.text]

/-- The text of a call, in pieces. -/
theorem Expr.call_append (f : String) (args : List Expr) (rest : List Char) :
    (Expr.call f args).chars ++ rest =
      f.toList ++ '(' :: ([',', ' '].intercalate (args.map Expr.chars) ++ ')' :: rest) := by
  have hargs : String.toList ∘ Expr.text = Expr.chars := rfl
  simp [Expr.chars, Expr.text, String.toList_intercalate, hargs]

/-- What the first character of an expression would be as a token. -/
def Expr.lead : Expr → Kind
  | .const _ => .constant
  | .var _ | .call _ _ => .identifier
  | .binary _ _ _ => .openParen

/-- No expression starts with a parenthesis that closes. -/
theorem Expr.lead_ne_closeParen (e : Expr) : e.lead ≠ .closeParen := by
  cases e <;> simp [Expr.lead]

variable {e e' : Expr}

/-- The first character of an expression shows which form it has. -/
theorem Expr.Printable.exists_lead (he : e.Printable) (rest : List Char) :
    ∃ c tail, e.chars ++ rest = c :: tail ∧ Kind.ofLexeme c [] = e.lead := by
  cases he with
  | @const n hn =>
    cases hchars : (Expr.const n).chars with
    | nil => exact absurd hchars (Text.isSolid_ofInt32 n).1
    | cons c tail =>
      refine ⟨c, tail ++ rest, rfl, kind_of_isDigit (Text.isDigit_of_mem_ofInt32 hn ?_)⟩
      show c ∈ (Expr.const n).chars
      rw [hchars]
      exact List.mem_cons_self
  | var hx =>
    obtain ⟨c, run, hchars, hc, -⟩ := hx.exists_cons
    exact ⟨c, run ++ rest, congrArg (· ++ rest) hchars, kind_of_isLetter hc⟩
  | binary op _ _ => exact ⟨'(', _, Expr.binary_append op _ _ rest, rfl⟩
  | call hf _ =>
    obtain ⟨c, run, hchars, hc, -⟩ := hf.exists_cons
    exact ⟨c, _, by rw [Expr.call_append, hchars, List.cons_append], kind_of_isLetter hc⟩

/-- Whatever comes first in the text of an expression shows its form. -/
theorem Expr.Printable.kind_of_cons (he : e.Printable) {c : Char} (h : e.chars ++ rest = c :: rest') :
    Kind.ofLexeme c [] = e.lead := by
  obtain ⟨d, tail, hchars, hlead⟩ := he.exists_lead rest
  rw [hchars] at h
  rw [← (List.cons.inj h).1, hlead]

/-- Expressions with the same text have the same form. -/
theorem Expr.Printable.lead_eq (he : e.Printable) (he' : e'.Printable)
    (h : e.chars ++ rest = e'.chars ++ rest') : e.lead = e'.lead := by
  obtain ⟨c, tail, hchars, hlead⟩ := he'.exists_lead rest'
  rw [← he.kind_of_cons (h.trans hchars), hlead]

/-- Operators are told apart by their texts. -/
theorem BinaryOp.text_inj {op op' : BinaryOp} (h : op.text.toList ++ rest = op'.text.toList ++ rest') :
    op = op' ∧ rest = rest' := by
  cases op <;> cases op' <;> simp_all [BinaryOp.text]

/-- **Expressions are told apart by their texts,** before what cannot continue them. -/
theorem Expr.Printable.toldApart (he : e.Printable) : ToldApart Expr.chars Expr.Printable Ends e := by
  induction he with
  | const hn =>
    intro b rest rest' hb hrest hrest' h
    -- the first character leaves only the kinds of expressions that start alike
    have hlead := Expr.Printable.lead_eq (.const hn) hb h
    cases hb with
    | const hn' =>
      obtain ⟨hdigits, hend⟩ := run_inj (fun c => Text.isDigit_of_mem_ofInt32 hn)
        (fun c => Text.isDigit_of_mem_ofInt32 hn') hrest.not_digit hrest'.not_digit h
      exact ⟨congrArg Expr.const (Text.ofInt32_inj hdigits), hend⟩
    | _ => cases hlead
  | @var x hx =>
    intro b rest rest' hb hrest hrest' h
    have hlead := Expr.Printable.lead_eq (.var hx) hb h
    cases hb with
    | var hy =>
      obtain ⟨rfl, hend⟩ := hx.append_inj hy hrest.not_letter hrest'.not_letter h
      exact ⟨rfl, hend⟩
    | call hf _ =>
      rw [Expr.call_append] at h
      obtain ⟨-, hend⟩ := hx.append_inj hf hrest.not_letter not_letter_paren h
      exact absurd (hend ▸ hrest) Text.not_ends_paren
    | _ => cases hlead
  | binary op hleft hright ihleft ihright =>
    intro b rest rest' hb hrest hrest' h
    have hlead := Expr.Printable.lead_eq (.binary op hleft hright) hb h
    cases hb with
    | binary op' hleft' hright' =>
      rw [Expr.binary_append, Expr.binary_append] at h
      obtain ⟨rfl, hop⟩ := ihleft _ _ _ hleft' (ends_cons _ (by decide)) (ends_cons _ (by decide))
        (List.cons.inj h).2
      obtain ⟨rfl, hsecond⟩ := BinaryOp.text_inj (List.cons.inj hop).2
      obtain ⟨rfl, hclose⟩ := ihright _ _ _ hright' (ends_cons _ (by decide)) (ends_cons _ (by decide))
        (List.cons.inj hsecond).2
      exact ⟨rfl, (List.cons.inj hclose).2⟩
    | _ => cases hlead
  | call hf hargs ih =>
    intro b rest rest' hb hrest hrest' h
    have hlead := Expr.Printable.lead_eq (.call hf hargs) hb h
    cases hb with
    | var hx =>
      rw [Expr.call_append] at h
      obtain ⟨-, hend⟩ := hf.append_inj hx not_letter_paren hrest'.not_letter h
      exact absurd (hend ▸ hrest') Text.not_ends_paren
    | call hf' hargs' =>
      rw [Expr.call_append, Expr.call_append] at h
      obtain ⟨rfl, hlist⟩ := hf.append_inj hf' not_letter_paren not_letter_paren h
      have hstart : ∀ a : Expr, a.Printable → ∀ rest rest', a.chars ++ rest ≠ ')' :: rest' :=
        fun a ha rest rest' hparen => a.lead_ne_closeParen (ha.kind_of_cons hparen).symm
      obtain ⟨rfl, hend⟩ := Text.eq_of_list (fun a ha => ⟨hargs a ha, ih a ha⟩) hargs' hstart
        (List.cons.inj hlist).2
      exact ⟨rfl, hend⟩
    | _ => cases hlead

/-- A keyword is not the start of an expression. -/
theorem Expr.Printable.ne_keyword (he : e.Printable) {k : String} (hk : k = "int" ∨ k = "return")
    (hrest : Ends rest) (rest' : List Char) : k.toList ++ ' ' :: rest' ≠ e.chars ++ rest := by
  intro h
  have hletters : ∀ c ∈ k.toList, isLetter c = true := by
    rcases hk with rfl | rfl <;> exact List.all_eq_true.1 (by decide)
  have hblank : ∀ c ∈ (' ' :: rest').head?, isLetter c = false := (ends_cons rest' (by decide)).not_letter
  have hlead : Kind.identifier = e.lead := by
    rcases hk with rfl | rfl <;> exact he.kind_of_cons h.symm
  cases he with
  | var hx =>
    obtain ⟨hname, -⟩ := run_inj hletters hx.isLetter_of_mem hblank hrest.not_letter h
    exact hx.ne_keyword hk (String.toList_inj.1 hname)
  | call hf _ =>
    rw [Expr.call_append] at h
    obtain ⟨hname, -⟩ := run_inj hletters hf.isLetter_of_mem hblank not_letter_paren h
    exact hf.ne_keyword hk (String.toList_inj.1 hname)
  | _ => cases hlead

/-! ### Bodies -/

/-- A statement in a line of its own. -/
def Stmt.line (s : Stmt) : List Char :=
  ("    " ++ s.text ++ "\n").toList

/-- The text of a return statement, in pieces. -/
theorem Stmt.ret_append (e : Expr) (rest : List Char) : (Stmt.ret e).line ++ rest =
    "    ".toList ++ ("return".toList ++ ' ' :: (e.chars ++ ';' :: '\n' :: rest)) := by
  simp [Stmt.line, Stmt.text, Expr.chars]

/-- The text of any other statement, in pieces. -/
theorem Stmt.expr_append (e : Expr) (rest : List Char) : (Stmt.expr e).line ++ rest =
    "    ".toList ++ (e.chars ++ ';' :: '\n' :: rest) := by
  simp [Stmt.line, Stmt.text, Expr.chars]

theorem ends_semicolon (rest : List Char) : Ends (';' :: rest) := ends_cons rest (by decide)

/-- Expressions are told apart before a semicolon. -/
theorem Expr.Printable.eq_of_semicolon (he : e.Printable) (he' : e'.Printable)
    (h : e.chars ++ ';' :: '\n' :: rest = e'.chars ++ ';' :: '\n' :: rest') : e = e' ∧ rest = rest' := by
  obtain ⟨rfl, hend⟩ := he.toldApart _ _ _ he' (ends_semicolon _) (ends_semicolon _) h
  exact ⟨rfl, (List.cons.inj (List.cons.inj hend).2).2⟩

/-- **Statements are told apart by their lines.** -/
theorem Stmt.toldApart {s : Stmt} (hs : s.value.Printable) :
    ToldApart Stmt.line (fun s => s.value.Printable) (fun _ => True) s := by
  intro b rest rest' hb _ _ h
  cases s with
  | ret e =>
    rw [Stmt.ret_append] at h
    cases b with
    | ret e' =>
      rw [Stmt.ret_append] at h
      have htail := List.append_cancel_left (List.append_cancel_left h)
      obtain ⟨rfl, hend⟩ := Expr.Printable.eq_of_semicolon hs hb (List.cons.inj htail).2
      exact ⟨rfl, hend⟩
    | expr e' =>
      rw [Stmt.expr_append] at h
      exact absurd (List.append_cancel_left h)
        (Expr.Printable.ne_keyword hb (.inr rfl) (ends_semicolon _) _)
  | expr e =>
    rw [Stmt.expr_append] at h
    cases b with
    | ret e' =>
      rw [Stmt.ret_append] at h
      exact absurd (List.append_cancel_left h).symm
        (Expr.Printable.ne_keyword hs (.inr rfl) (ends_semicolon _) _)
    | expr e' =>
      rw [Stmt.expr_append] at h
      obtain ⟨rfl, hend⟩ := Expr.Printable.eq_of_semicolon hs hb (List.append_cancel_left h)
      exact ⟨rfl, hend⟩

/-- What follows the statements of a body. -/
def Closes (rest : List Char) : Prop :=
  ∃ tail, rest = '}' :: tail

/-- A statement starts with blanks, not with a brace. -/
theorem Stmt.line_ne {s : Stmt} (rest : List Char) (h : Closes rest') : s.line ++ rest ≠ rest' := by
  obtain ⟨tail, rfl⟩ := h
  cases s with
  | ret e =>
    rw [Stmt.ret_append]
    exact fun h => by cases (List.cons.inj h).1
  | expr e =>
    rw [Stmt.expr_append]
    exact fun h => by cases (List.cons.inj h).1

/-- The line of a local variable. -/
def localLine (x : String) : List Char :=
  (Decl.text ⟨.local, x⟩).toList

/-- The line of a local variable, in pieces. -/
theorem localLine_append (x : String) (rest : List Char) : localLine x ++ rest =
    "    ".toList ++ ("int".toList ++ ' ' :: (x.toList ++ ';' :: '\n' :: rest)) := by
  simp [localLine, Decl.text]

/-- Local variables are told apart by their lines. -/
theorem toldApart_localLine {x : String} (hx : IsName x) : ToldApart localLine IsName (fun _ => True) x := by
  intro y rest rest' hy _ _ h
  rw [localLine_append, localLine_append] at h
  have htail := (List.cons.inj (List.append_cancel_left (List.append_cancel_left h))).2
  obtain ⟨rfl, hend⟩ := hx.append_inj hy (ends_semicolon _).not_letter (ends_semicolon _).not_letter htail
  exact ⟨rfl, (List.cons.inj (List.cons.inj hend).2).2⟩

/-- What follows the variables of a body. -/
def Continues (rest : List Char) : Prop :=
  ∃ (ss : List Stmt) (tail : List Char), (∀ s ∈ ss, s.value.Printable) ∧ Closes tail ∧
    rest = ss.flatMap Stmt.line ++ tail

/-- A declaration is no statement, because a keyword is no name. -/
theorem localLine_ne (x : String) (rest : List Char) (h : Continues rest') : localLine x ++ rest ≠ rest' := by
  obtain ⟨ss, tail, hss, ⟨after, rfl⟩, rfl⟩ := h
  rw [localLine_append]
  cases ss with
  | nil => exact fun h => by cases (List.cons.inj h).1
  | cons s ss =>
    rw [List.flatMap_cons, List.append_assoc]
    intro h
    cases s with
    | ret e =>
      rw [Stmt.ret_append] at h
      cases (List.cons.inj (List.append_cancel_left h)).1
    | expr e =>
      rw [Stmt.expr_append] at h
      exact absurd (List.append_cancel_left h)
        (Expr.Printable.ne_keyword (hss (.expr e) (by simp)) (.inl rfl) (ends_semicolon _) _)

/-! ### Signatures and definitions -/

/-- A signature with proper names. -/
structure Prototype.Printable (q : Prototype) : Prop where
  name : IsName q.name
  params : ∀ x ∈ q.params, IsName x

/-- The characters of a signature. -/
def Prototype.chars (q : Prototype) : List Char :=
  q.text.toList

/-- The characters of a parameter. -/
def paramChars (x : String) : List Char :=
  ("int " ++ x).toList

/-- The text of a signature, in pieces. -/
theorem Prototype.chars_append (q : Prototype) (rest : List Char) : q.chars ++ rest =
    "int ".toList ++ (q.name.toList ++
      '(' :: ([',', ' '].intercalate (q.params.map paramChars) ++ ')' :: rest)) := by
  have hparams : String.toList ∘ ("int " ++ ·) = paramChars := rfl
  simp [Prototype.chars, Prototype.text, String.toList_intercalate, hparams]

/-- The text of a parameter, in pieces. -/
theorem paramChars_append (x : String) (rest : List Char) :
    paramChars x ++ rest = "int ".toList ++ (x.toList ++ rest) := by
  simp [paramChars]

/-- Parameters are told apart by their texts. -/
theorem toldApart_paramChars {x : String} (hx : IsName x) : ToldApart paramChars IsName Ends x := by
  intro y rest rest' hy hrest hrest' h
  rw [paramChars_append, paramChars_append] at h
  exact hx.append_inj hy hrest.not_letter hrest'.not_letter (List.append_cancel_left h)

/-- **Signatures are told apart by their texts.** -/
theorem Prototype.Printable.toldApart {q : Prototype} (hq : q.Printable) :
    ToldApart Prototype.chars Prototype.Printable (fun _ => True) q := by
  intro q' rest rest' hq' _ _ h
  rw [Prototype.chars_append, Prototype.chars_append] at h
  obtain ⟨hname, hlist⟩ :=
    hq.name.append_inj hq'.name not_letter_paren not_letter_paren (List.append_cancel_left h)
  have hitems : ∀ x ∈ q.params, IsName x ∧ ToldApart paramChars IsName Ends x :=
    fun x hx => ⟨hq.params x hx, toldApart_paramChars (hq.params x hx)⟩
  have hstart : ∀ x, IsName x → ∀ rest rest', paramChars x ++ rest ≠ ')' :: rest' := by
    intro x _ rest rest' hparen
    rw [paramChars_append] at hparen
    cases (List.cons.inj hparen).1
  obtain ⟨hparams, hend⟩ := Text.eq_of_list hitems hq'.params hstart (List.cons.inj hlist).2
  cases q
  cases q'
  cases hname
  cases hparams
  exact ⟨rfl, hend⟩

/-- A definition with proper names, whose parameters and local variables are declared in this order. -/
structure Function.Printable (f : Function) : Prop where
  prototype : f.prototype.Printable
  decls : ∃ xs : List String, (∀ x ∈ xs, IsName x) ∧ f.decls =
    f.prototype.params.map (fun x => ⟨.parameter, x⟩) ++ xs.map fun x => ⟨.local, x⟩
  stmts : ∀ s ∈ f.stmts, s.value.Printable

/-- The characters of a definition. -/
def Function.chars (f : Function) : List Char :=
  f.text.toList

/-- Parameters have no line in the body. -/
theorem flatMap_decls (params xs : List String) :
    (params.map (fun x => Decl.mk .parameter x) ++ xs.map fun x => Decl.mk .local x).flatMap
      (fun d => d.text.toList) = xs.flatMap localLine := by
  have hparams : (params.map fun x => Decl.mk .parameter x).flatMap (fun d => d.text.toList) = [] := by
    rw [List.flatMap_map]
    exact List.flatMap_eq_nil_iff.2 fun x _ => rfl
  rw [List.flatMap_append, hparams, List.nil_append, List.flatMap_map]
  rfl

/-- The text of a definition, in pieces. -/
theorem Function.chars_append {f : Function} {xs : List String}
    (hdecls : f.decls = f.prototype.params.map (fun x => ⟨.parameter, x⟩) ++ xs.map fun x => ⟨.local, x⟩)
    (rest : List Char) : f.chars ++ rest =
      f.prototype.chars ++ ([' ', '{', '\n'] ++
        (xs.flatMap localLine ++ (f.stmts.flatMap Stmt.line ++ '}' :: '\n' :: rest))) := by
  have hvars : (String.join (f.decls.map Decl.text)).toList = xs.flatMap localLine := by
    rw [String.toList_join, List.flatMap_map, hdecls, flatMap_decls]
  have hstmts : (String.join (f.stmts.map ("    " ++ ·.text ++ "\n"))).toList = f.stmts.flatMap Stmt.line := by
    rw [String.toList_join, List.flatMap_map]
    rfl
  rw [Function.chars, Function.text]
  simp only [String.toList_append, hvars, hstmts, List.append_assoc]
  rfl

theorem closes_brace (rest : List Char) : Closes ('}' :: rest) := ⟨rest, rfl⟩

/-- **Definitions are told apart by their texts.** -/
theorem Function.Printable.toldApart {f : Function} (hf : f.Printable) :
    ToldApart Function.chars Function.Printable (fun _ => True) f := by
  intro g rest rest' hg _ _ h
  obtain ⟨xs, hxs, hdecls⟩ := hf.decls
  obtain ⟨ys, hys, hdecls'⟩ := hg.decls
  rw [Function.chars_append hdecls, Function.chars_append hdecls'] at h
  obtain ⟨hproto, hbody⟩ := hf.prototype.toldApart _ _ _ hg.prototype trivial trivial h
  obtain ⟨rfl, hlines⟩ := Text.eq_of_block (fun x => toldApart_localLine)
    (fun x _ rest rest' => localLine_ne x rest) hxs hys ⟨f.stmts, _, hf.stmts, closes_brace _, rfl⟩ ⟨g.stmts, _, hg.stmts, closes_brace _, rfl⟩
    (List.append_cancel_left hbody)
  obtain ⟨hstmts, hend⟩ := Text.eq_of_block (fun s => Stmt.toldApart)
    (fun s _ rest rest' => Stmt.line_ne rest) hf.stmts hg.stmts (closes_brace _) (closes_brace _) hlines
  have hsame : f.decls = g.decls := by rw [hdecls, hdecls', hproto]
  cases f
  cases g
  cases hproto
  cases hstmts
  cases hsame
  exact ⟨rfl, (List.cons.inj (List.cons.inj hend).2).2⟩

/-! ### Programs -/

/-- A program with proper names, whose constants have no sign. -/
structure Program.Printable (p : Program) : Prop where
  prototypes : ∀ q ∈ p.prototypes, q.Printable
  functions : ∀ f ∈ p.functions, f.Printable

/-- A prototype in a line of its own. -/
def Prototype.line (q : Prototype) : List Char :=
  (q.text ++ ";\n").toList

/-- The line of a declaration, in pieces. -/
theorem Prototype.line_append (q : Prototype) (rest : List Char) :
    q.line ++ rest = q.chars ++ ';' :: '\n' :: rest := by
  simp [Prototype.line, Prototype.chars]

/-- Declarations are told apart by their lines. -/
theorem Prototype.toldApart_line {q : Prototype} (hq : q.Printable) :
    ToldApart Prototype.line Prototype.Printable (fun _ => True) q := by
  intro q' rest rest' hq' _ _ h
  rw [Prototype.line_append, Prototype.line_append] at h
  obtain ⟨rfl, hend⟩ := hq.toldApart _ _ _ hq' trivial trivial h
  exact ⟨rfl, (List.cons.inj (List.cons.inj hend).2).2⟩

/-- What follows the prototypes of a program. -/
def Defines (rest : List Char) : Prop :=
  ∃ fs : List Function, (∀ f ∈ fs, f.Printable) ∧ rest = fs.flatMap Function.chars

/-- After the signature of a prototype stands a semicolon, after that of a definition a blank. -/
theorem Prototype.line_ne {q : Prototype} (hq : q.Printable) (rest : List Char) (h : Defines rest') :
    q.line ++ rest ≠ rest' := by
  obtain ⟨fs, hfs, rfl⟩ := h
  rw [Prototype.line_append]
  cases fs with
  | nil =>
    rw [Prototype.chars_append]
    exact fun h => by cases h
  | cons f fs =>
    rw [List.forall_mem_cons] at hfs
    obtain ⟨xs, -, hdecls⟩ := hfs.1.decls
    rw [List.flatMap_cons, Function.chars_append hdecls]
    intro h
    obtain ⟨-, hend⟩ := hq.toldApart _ _ _ hfs.1.prototype trivial trivial h
    cases (List.cons.inj hend).1

/-- No definition has an empty text. -/
theorem Function.Printable.chars_ne {f : Function} (hf : f.Printable) (rest : List Char) :
    f.chars ++ rest ≠ [] := by
  obtain ⟨xs, -, hdecls⟩ := hf.decls
  rw [Function.chars_append hdecls, Prototype.chars_append]
  exact fun h => by cases h

/-- The text of a program is that of its declarations, and then of its definitions. -/
theorem Program.toList_text (p : Program) :
    p.text.toList = p.prototypes.flatMap Prototype.line ++ p.functions.flatMap Function.chars := by
  rw [Program.text, String.toList_append, String.toList_join, String.toList_join, List.flatMap_map,
    List.flatMap_map]
  rfl

/-- Programs with proper names are told apart by their texts. -/
theorem Program.Printable.eq_of_text {p p' : Program} (hp : p.Printable) (hp' : p'.Printable)
    (h : p.text = p'.text) : p = p' := by
  have hchars := congrArg String.toList h
  rw [Program.toList_text, Program.toList_text] at hchars
  obtain ⟨hprotos, hrest⟩ := Text.eq_of_block (fun q => Prototype.toldApart_line)
    (fun q hq rest rest' => Prototype.line_ne hq rest) hp.prototypes hp'.prototypes
    ⟨p.functions, hp.functions, rfl⟩ ⟨p'.functions, hp'.functions, rfl⟩ hchars
  rw [← List.append_nil (p.functions.flatMap _), ← List.append_nil (p'.functions.flatMap _)] at hrest
  obtain ⟨hfuns, -⟩ := Text.eq_of_block (fun f hf => hf.toldApart)
    (fun f hf rest rest' (hnil : rest' = []) => hnil ▸ hf.chars_ne rest) hp.functions hp'.functions
    rfl rfl hrest
  cases p
  cases p'
  cases hprotos
  cases hfuns
  rfl

/-! ### Programs that were read -/

/-- An expression that can be written down, with names that are names, can be printed. -/
theorem Expr.Plain.printable {p : Program} {vars : List String} (he : e.Plain) (hs : e.Scoped p vars)
    (hvars : ∀ x ∈ vars, IsName x) (hnames : ∀ x ∈ p.names, IsName x) : e.Printable := by
  induction he with
  | const hn => exact .const hn
  | var x =>
    cases hs with
    | var hx => exact .var (hvars x hx)
  | @binary op _ _ _ _ _ _ ihleft ihright =>
    obtain ⟨hleft, hright, -⟩ := hs.of_binary
    exact .binary op (ihleft hleft) (ihright hright)
  | call _ ih =>
    cases hs with
    | call harity hargs =>
      exact .call (hnames _ (Program.mem_names_of_arity? harity)) fun a ha => ih a ha (hargs a ha)

/-- A program that can be written down, with names that are names, can be printed. -/
theorem Program.Canonical.printable {p : Program} (hp : p.Canonical) (hnames : ∀ x ∈ p.names, IsName x) :
    p.Printable := by
  refine ⟨fun q hq => ?_, fun f hf => ?_⟩
  · obtain ⟨hname, hparams⟩ := Program.mem_names_of_prototype hq
    exact ⟨hnames _ hname, fun x hx => hnames x (hparams x hx)⟩
  · obtain ⟨hname, hvars⟩ := Program.mem_names_of_function hf
    have hwell := hp.wellFormed_of_mem hf
    obtain ⟨xs, hdecls⟩ := hwell.decls
    have hproper : ∀ x ∈ f.vars, IsName x := fun x hx => hnames x (hvars x hx)
    have hsplit : f.vars = f.prototype.params ++ xs := by
      simp [Function.vars, hdecls, Function.comp_def]
    rw [hsplit, List.forall_mem_append] at hproper
    refine ⟨⟨hnames _ hname, hproper.1⟩, ⟨xs, hproper.2, hdecls⟩, fun s hs => ?_⟩
    exact (hp.plain f hf s hs).printable (hwell.stmts s hs) (fun x hx => hnames x (hvars x hx)) hnames

/-- **The text of a program that was read says which program it is.** -/
theorem text_unambiguous (source source' : String) (u v : Program) (hu : parse source = .ok u)
    (hv : parse source' = .ok v) (h : u.text = v.text) : u = v := by
  have hprintable := (canonical_of_parse hu).printable (isName_of_parse hu)
  have hprintable' := (canonical_of_parse hv).printable (isName_of_parse hv)
  exact hprintable.eq_of_text hprintable' h

/-- The text `mixed`, with its declaration first and without blanks that can be left out. -/
def mixedTight : String :=
  r"int f(int b);int f(int a){int x;x=a*2147483647-1;return 3*a/x;}" ++
    r"int g(){return f(0)-printnum(1);}"

/-- The hypotheses are satisfiable: two texts that differ in blanks and in the order of their items are
read as one program. -/
theorem text_unambiguous_mixed : ∃ u v, parse mixed = .ok u ∧ parse mixedTight = .ok v ∧ u.text = v.text ∧
    u = v := by
  have htight : parse mixedTight = .ok mixedProgram := by cbv
  exact ⟨mixedProgram, mixedProgram, parse_mixed, htight, rfl,
    text_unambiguous mixed mixedTight _ _ parse_mixed htight rfl⟩

end Source
end Straightline
