/-
# What is read is what stands there

The words of a tree are its tokens without their places, in the order in which a text writes them:
names, numbers, and for all else the kinds of tokens.  A reader that succeeds has taken the words of
the tree that it returns from the front of its tokens, and nothing else (`words_of_expression`,
`words_of_signature`, `words_of_body`).

A text is a sequence of items, declarations and definitions, and a program has the declarations in one
list and the definitions in another (`Program.MadeOf`).  The words of the items that make up a program
are all the words of the tokens that it was read from (`words_of_parseTokens`).
-/

import Straightline.Proofs.Reading

namespace Straightline

namespace Token

/-- What a token says: a name, a number, or just its kind. -/
inductive Word
  | name (text : String)
  | number (n : Int)
  | mark (kind : Kind)
deriving Repr, DecidableEq

/-- The number of a constant: what its lexeme is read as, or if that fails, the number that its digits
spell, and in any case one that does not fit into 32 bits. -/
def number (t : Token) : Int :=
  match Text.readInt32 t.literal.toList with
  | some n => n.toInt
  | none => max (Text.ofDigits t.literal.toList) 2147483648

/-- The word of a token. -/
def word (t : Token) : Word :=
  match t.kind with
  | .identifier => .name t.literal
  | .constant => .number t.number
  | k => .mark k

/-- Whether all tokens of a kind say the same, and there is one of it in a text. -/
def Kind.isMark : Kind → Bool
  | identifier | constant | eof => false
  | _ => true

variable {t : Token}

/-- An identifier counts as its name. -/
theorem word_of_identifier (h : t.kind = .identifier) : t.word = .name t.literal := by
  simp only [word, h]

/-- A constant counts as its number. -/
theorem word_of_constant (h : t.kind = .constant) : t.word = .number t.number := by
  simp only [word, h]

/-- **A constant is read as a 32-bit integer exactly if that is its number.** -/
theorem readInt32_eq_some_iff {n : Int32} :
    Text.readInt32 t.literal.toList = some n ↔ t.number = n.toInt := by
  have hlt := n.toInt_lt
  unfold number
  split
  · rename_i m hm
    rw [hm, Option.some.injEq, Int32.toInt_inj]
  · rename_i hnone
    rw [hnone]
    constructor
    · intro h
      cases h
    · intro h
      omega

/-- The number of a constant that consists of digits is the one that they spell. -/
theorem number_of_digits (hne : t.literal.toList ≠ []) (h : t.literal.toList.all Char.isDigit = true) :
    t.number = Text.ofDigits t.literal.toList := by
  unfold number
  rw [Text.readInt32_digits hne h]
  by_cases hlt : Text.ofDigits t.literal.toList < 2147483648
  · rw [if_pos hlt]
    exact Int32.toInt_ofNat_of_lt hlt
  · rw [if_neg hlt]
    show max (Text.ofDigits t.literal.toList : Int) 2147483648 = _
    omega

/-- Only an identifier counts as a name. -/
theorem of_word_name {x : String} (h : t.word = .name x) : t.kind = .identifier ∧ t.literal = x := by
  unfold word at h
  split at h
  · rename_i hkind
    exact ⟨hkind, Word.name.inj h⟩
  · cases h
  · cases h

/-- Only a constant counts as a number. -/
theorem of_word_number {n : Int} (h : t.word = .number n) : t.kind = .constant ∧ t.number = n := by
  unfold word at h
  split at h
  · cases h
  · rename_i hkind
    exact ⟨hkind, Word.number.inj h⟩
  · cases h

/-- Only a token of that kind counts as a mark. -/
theorem kind_of_word_mark {k : Kind} (h : t.word = .mark k) : t.kind = k := by
  unfold word at h
  split at h
  · cases h
  · cases h
  · exact Word.mark.inj h

/-- A token of any other kind counts as a mark. -/
theorem word_of_isMark {k : Kind} (h : t.kind = k) (hk : k.isMark = true) : t.word = .mark k := by
  unfold word
  rw [h]
  split
  · cases hk
  · cases hk
  · rfl

end Token

namespace Source

open Token (Kind Word)

/-! ### The words of a tree -/

/-- The kind of the token that stands for an operator. -/
def BinaryOp.kind : BinaryOp → Kind
  | assign => .equal
  | add => .plus
  | subtract => .minus
  | multiply => .star
  | divide => .slash

/-- Words with commas between them. -/
def commas (wss : List (List Word)) : List Word :=
  [.mark .comma].intercalate wss

/-- Nothing between the commas is lost. -/
theorem mem_commas {w : Word} {ws : List Word} {wss : List (List Word)} (hw : w ∈ ws)
    (hws : ws ∈ wss) : w ∈ commas wss := by
  unfold commas
  induction wss with
  | nil => cases hws
  | cons ws' wss ih =>
    rcases List.eq_nil_or_concat wss with rfl | ⟨_, _, hne⟩
    · rw [List.intercalate_singleton]
      rwa [← List.mem_singleton.1 hws]
    · rw [List.intercalate_cons_of_ne_nil (by simp [hne])]
      rcases List.mem_cons.1 hws with rfl | hmem
      · simp [hw]
      · simp [ih hmem]

mutual

/-- The words of an expression: operators stand between their operands, without parentheses. -/
def Expr.words : Expr → List Word
  | .const n => [.number n.toInt]
  | .var x => [.name x]
  | .binary op left right => left.words ++ .mark op.kind :: right.words
  | .call f args =>
    .name f :: .mark .openParen :: (commas (Expr.wordLists args) ++ [.mark .closeParen])

/-- The words of each argument of a call. -/
def Expr.wordLists : List Expr → List (List Word)
  | [] => []
  | e :: es => e.words :: Expr.wordLists es

end

/-- The words of arguments are their words as expressions. -/
@[simp] theorem Expr.wordLists_eq_map (es : List Expr) : Expr.wordLists es = es.map Expr.words := by
  induction es with
  | nil => rfl
  | cons e es ih => rw [Expr.wordLists, ih, List.map_cons]

/-- The words of a statement. -/
def Stmt.words : Stmt → List Word
  | ret e => .mark .ret :: (e.words ++ [.mark .semicolon])
  | expr e => e.words ++ [.mark .semicolon]

/-- The words of a signature. -/
def Prototype.words (p : Prototype) : List Word :=
  .mark .int :: .name p.name :: .mark .openParen ::
    (commas (p.params.map fun x => [.mark .int, .name x]) ++ [.mark .closeParen])

/-- The words of a declaration in a body: parameters have none. -/
def Decl.words (d : Decl) : List Word :=
  match d.kind with
  | .parameter => []
  | .local => [.mark .int, .name d.name, .mark .semicolon]

/-- The words of the body of a function. -/
def Function.bodyWords (f : Function) : List Word :=
  .mark .openBrace ::
    (f.decls.flatMap Decl.words ++ (f.stmts.flatMap Stmt.words ++ [.mark .closeBrace]))

/-- A declaration or a definition, as it stands in a text. -/
inductive Item
  | declaration (proto : Prototype)
  | definition (f : Function)

namespace Item

/-- The words of an item. -/
def words : Item → List Word
  | declaration proto => proto.words ++ [.mark .semicolon]
  | definition f => f.prototype.words ++ f.bodyWords

/-- What a declaration declares. -/
def prototype? : Item → Option Prototype
  | declaration proto => some proto
  | definition _ => none

/-- What a definition defines. -/
def function? : Item → Option Function
  | declaration _ => none
  | definition f => some f

end Item

/-- Items make up a program: the declarations among them are, in order, its prototypes after that of
the print routine, and the definitions are, in order, its functions. -/
structure Program.MadeOf (p : Program) (items : List Item) : Prop where
  prototypes : p.prototypes = Program.printnum :: items.filterMap Item.prototype?
  functions : p.functions = items.filterMap Item.function?

namespace Program.MadeOf

variable {p : Program} {items : List Item}

/-- The prototypes of a program are its declarations and the one that every program has. -/
theorem mem_prototypes_iff (h : p.MadeOf items) {q : Prototype} :
    q ∈ p.prototypes ↔ q = Program.printnum ∨ .declaration q ∈ items := by
  rw [h.prototypes, List.mem_cons, List.mem_filterMap]
  refine or_congr_right ⟨?_, fun hq => ⟨_, hq, rfl⟩⟩
  rintro ⟨item, hitem, hq⟩
  cases item with
  | declaration q' =>
    obtain rfl := Option.some.inj hq
    exact hitem
  | definition f => cases hq

/-- The functions of a program are its definitions. -/
theorem mem_functions_iff (h : p.MadeOf items) {f : Function} :
    f ∈ p.functions ↔ .definition f ∈ items := by
  rw [h.functions, List.mem_filterMap]
  refine ⟨?_, fun hf => ⟨_, hf, rfl⟩⟩
  rintro ⟨item, hitem, hf⟩
  cases item with
  | declaration q => cases hf
  | definition f' =>
    obtain rfl := Option.some.inj hf
    exact hitem

end Program.MadeOf

namespace Parser

variable {eof : Token} {sc : Scope} {floor : Nat} {ts : List Token} {e : Expr}

/-! ### Single tokens -/

/-- A mark that is seen is the first word. -/
theorem words_of_peek {k : Kind} (h : peek ts = k) (hk : k.isMark = true) :
    ts.map Token.word = .mark k :: ts.tail.map Token.word := by
  cases ts with
  | nil =>
    obtain rfl : Kind.eof = k := h
    cases hk
  | cons t rest => rw [List.map_cons, Token.word_of_isMark h hk, List.tail_cons]

/-- A mark that is expected is the first word. -/
theorem words_of_expect {k : Kind} {r : Shorter ts} (h : expect eof k ts = .ok r)
    (hk : k.isMark = true) : ts.map Token.word = .mark k :: r.1.map Token.word := by
  cases ts with
  | nil => cases h
  | cons t rest =>
    rw [expect] at h
    split at h
    · rename_i hkind
      cases h
      exact words_of_peek hkind hk
    · cases h

/-- A name that is read is the first word. -/
theorem words_of_name {x : String} {r : Shorter ts} (h : name eof ts = .ok (x, r)) :
    ts.map Token.word = .name x :: r.1.map Token.word := by
  cases ts with
  | nil => cases h
  | cons t rest =>
    rw [name] at h
    split at h
    · rename_i hkind
      cases h
      rw [List.map_cons, Token.word_of_identifier hkind]
    · cases h

/-- An operator is read from its own kind of token only. -/
theorem operator?_eq_some {k : Kind} {op : BinaryOp} (h : operator? k = some op) : k = op.kind := by
  cases k <;> simp [operator?] at h <;> rw [← h, BinaryOp.kind]

/-- Operators are marks. -/
theorem isMark_kind (op : BinaryOp) : op.kind.isMark = true := by
  cases op <;> rfl

/-! ### Expressions -/

/-- The words that an operand uses up are the operand's. -/
theorem words_of_primary {r : Shorter ts} (h : primary sc ts = .ok (e, r)) :
    ts.map Token.word = e.words ++ r.1.map Token.word := by
  rcases primary_eq_ok h with ⟨t, rest, n, rfl, hkind, hn, rfl, hr⟩ | ⟨t, rest, rfl, hkind, -, rfl, hr⟩
  · rw [hr, List.map_cons, Token.word_of_constant hkind, Expr.words,
      Token.readInt32_eq_some_iff.1 hn, List.singleton_append]
  · rw [hr, List.map_cons, Token.word_of_identifier hkind, Expr.words, List.singleton_append]

/-- **The reader of expressions takes the words of the expression.**  The reader of operators has an
expression in hand: its words and those of the tokens are together the words of the result and of the
tokens that are left. -/
theorem words_of_expression {r : Shorter ts} (h : expression sc floor ts = .ok (e, r)) :
    ts.map Token.word = e.words ++ r.1.map Token.word := by
  refine expression_induct
    (E := fun _ ts e rest => ts.map Token.word = e.words ++ rest.map Token.word)
    (O := fun _ left ts e rest =>
      left.words ++ ts.map Token.word = e.words ++ rest.map Token.word)
    (A := fun ts args rest => ts.map Token.word =
      commas (args.map Expr.words) ++ .mark .closeParen :: rest.map Token.word)
    (L := fun ts args rest => args ≠ [] ∧ ts.map Token.word =
      commas (args.map Expr.words) ++ .mark .closeParen :: rest.map Token.word)
    ?_ ?_ ?_ ?_ ?_ ?_ ?_ ?_ ?_ h
  · intro floor ts left r e rest hprim hops
    rw [words_of_primary hprim, hops]
  · exact fun floor left => rfl
  · intro floor f t ts args ts₁ e rest hparen hargs _ hops
    rw [← hops, List.map_cons, Token.word_of_isMark hparen rfl, hargs]
    simp [Expr.words]
  · intro floor left t ts op right r e rest _ hop _ _ hright _ hops
    rw [← hops, List.map_cons, Token.word_of_isMark (operator?_eq_some hop) (isMark_kind op), hright]
    simp [Expr.words]
  · exact fun floor left t ts _ _ => rfl
  · intro ts hclose
    exact words_of_peek hclose rfl
  · exact fun ts args rest hargs => hargs.2
  · rintro ts arg ts₁ args rest harg hcomma ⟨hne, hargs⟩
    have hmore : args.map Expr.words ≠ [] := by simpa using hne
    refine ⟨List.cons_ne_nil _ _, ?_⟩
    rw [harg, words_of_peek hcomma rfl, hargs, commas, commas, List.map_cons,
      List.intercalate_cons_of_ne_nil hmore]
    simp
  · intro ts arg ts₁ harg hclose
    refine ⟨List.cons_ne_nil _ _, ?_⟩
    rw [harg, words_of_peek hclose rfl, List.map_singleton, commas, List.intercalate_singleton]

/-! ### Signatures and bodies -/

/-- The words that parameters use up are their names, each with its type, and the parenthesis. -/
theorem words_of_parameterList {xs : List String} {r : Shorter ts}
    (h : parameterList eof ts = .ok (xs, r)) : xs ≠ [] ∧
      ts.map Token.word = commas (xs.map fun x => [.mark .int, .name x]) ++
        .mark .closeParen :: r.1.map Token.word := by
  induction ts using parameterList.induct generalizing xs with
  | case1 ts ih =>
    rw [parameterList] at h
    obtain ⟨r₁, hint, h⟩ := Except.bind_eq_ok_iff.1 h
    obtain ⟨⟨x, r₂⟩, hx, h⟩ := Except.bind_eq_ok_iff.1 h
    have hfirst : ts.map Token.word = .mark .int :: .name x :: r₂.1.map Token.word := by
      rw [words_of_expect hint rfl, words_of_name hx]
    dsimp only at h
    split at h
    · rename_i hcomma
      obtain ⟨⟨xs', r₃⟩, hxs, h⟩ := Except.bind_eq_ok_iff.1 h
      cases h
      obtain ⟨hne, hwords⟩ := ih r₁.1 r₁.2 r₂.1 r₂.2 hxs
      have hmore : (xs'.map fun x => [Word.mark .int, .name x]) ≠ [] := by simpa using hne
      refine ⟨List.cons_ne_nil _ _, ?_⟩
      rw [hfirst, words_of_peek hcomma rfl, hwords, commas, commas, List.map_cons,
        List.intercalate_cons_of_ne_nil hmore]
      simp
    · rename_i hclose
      cases h
      refine ⟨List.cons_ne_nil _ _, ?_⟩
      rw [hfirst, words_of_peek hclose rfl, List.map_singleton, commas, List.intercalate_singleton]
      rfl
    · cases h

/-- The same where the list may be empty. -/
theorem words_of_parameters {xs : List String} {r : NoLonger ts}
    (h : parameters eof ts = .ok (xs, r)) :
    ts.map Token.word = commas (xs.map fun x => [.mark .int, .name x]) ++
      .mark .closeParen :: r.1.map Token.word := by
  rw [parameters] at h
  split at h
  · rename_i hclose
    cases h
    exact words_of_peek hclose rfl
  · obtain ⟨⟨xs', r₁⟩, hxs, h⟩ := Except.bind_eq_ok_iff.1 h
    cases h
    exact (words_of_parameterList hxs).2

/-- **The reader of signatures takes the words of the signature.** -/
theorem words_of_signature {proto : Prototype} {r : Shorter ts}
    (h : signature eof ts = .ok (proto, r)) :
    ts.map Token.word = proto.words ++ r.1.map Token.word := by
  rw [signature] at h
  obtain ⟨r₁, hint, h⟩ := Except.bind_eq_ok_iff.1 h
  obtain ⟨⟨f, r₂⟩, hf, h⟩ := Except.bind_eq_ok_iff.1 h
  obtain ⟨r₃, hopen, h⟩ := Except.bind_eq_ok_iff.1 h
  obtain ⟨⟨params, r₄⟩, hparams, h⟩ := Except.bind_eq_ok_iff.1 h
  dsimp only at h
  split at h
  · cases h
  · cases h
    rw [words_of_expect hint rfl, words_of_name hf, words_of_expect hopen rfl,
      words_of_parameters hparams]
    simp [Prototype.words]

/-- The words that the local variables use up are those of their declarations. -/
theorem words_of_locals {vars xs : List String} {r : NoLonger ts}
    (h : locals eof vars ts = .ok (xs, r)) :
    ts.map Token.word = (xs.map (Decl.mk .local)).flatMap Decl.words ++ r.1.map Token.word := by
  induction vars, ts using locals.induct generalizing xs with
  | case2 vars ts hint =>
    rw [locals, if_neg hint] at h
    cases h
    rfl
  | case1 vars ts hint ih =>
    rw [locals, if_pos hint] at h
    obtain ⟨r₁, hint', h⟩ := Except.bind_eq_ok_iff.1 h
    obtain ⟨⟨x, r₂⟩, hx, h⟩ := Except.bind_eq_ok_iff.1 h
    dsimp only at h
    split at h
    · cases h
    · obtain ⟨r₃, hsemi, h⟩ := Except.bind_eq_ok_iff.1 h
      obtain ⟨⟨xs', r₄⟩, hxs, h⟩ := Except.bind_eq_ok_iff.1 h
      cases h
      rw [words_of_expect hint' rfl, words_of_name hx, words_of_expect hsemi rfl,
        ih r₁.1 r₁.2 x r₂.1 r₂.2 r₃.1 r₃.2 hxs]
      simp [Decl.words]

/-- The words that a statement uses up are the statement's. -/
theorem words_of_statement {s : Stmt} {r : Shorter ts} (h : statement sc ts = .ok (s, r)) :
    ts.map Token.word = s.words ++ r.1.map Token.word := by
  rw [statement] at h
  split at h
  · obtain ⟨r₁, hret, h⟩ := Except.bind_eq_ok_iff.1 h
    obtain ⟨⟨e, r₂⟩, he, h⟩ := Except.bind_eq_ok_iff.1 h
    obtain ⟨r₃, hsemi, h⟩ := Except.bind_eq_ok_iff.1 h
    cases h
    rw [words_of_expect hret rfl, words_of_expression he, words_of_expect hsemi rfl]
    simp [Stmt.words]
  · obtain ⟨⟨e, r₁⟩, he, h⟩ := Except.bind_eq_ok_iff.1 h
    obtain ⟨r₂, hsemi, h⟩ := Except.bind_eq_ok_iff.1 h
    cases h
    rw [words_of_expression he, words_of_expect hsemi rfl]
    simp [Stmt.words]

/-- The words that statements use up are theirs, one statement after the other. -/
theorem words_of_statements {ss : List Stmt} {r : NoLonger ts}
    (h : statements sc ts = .ok (ss, r)) :
    ts.map Token.word = ss.flatMap Stmt.words ++ r.1.map Token.word := by
  induction ts using statements.induct generalizing ss with
  | case1 ts hclose =>
    rw [statements] at h
    simp only [hclose] at h
    cases h
    rfl
  | case2 ts heof =>
    rw [statements] at h
    simp only [heof] at h
    cases h
  | case3 ts hclose heof ih =>
    rw [statements] at h
    split at h
    · rename_i hpeek
      exact absurd hpeek hclose
    · rename_i hpeek
      exact absurd hpeek heof
    · obtain ⟨⟨s, r₁⟩, hs, h⟩ := Except.bind_eq_ok_iff.1 h
      obtain ⟨⟨ss', r₂⟩, hss, h⟩ := Except.bind_eq_ok_iff.1 h
      cases h
      rw [words_of_statement hs, ih r₁.1 r₁.2 hss]
      simp

/-- **The reader of bodies takes the words of the body.** -/
theorem words_of_body {program : Program} {proto : Prototype} {f : Function} {r : Shorter ts}
    (h : body eof program proto ts = .ok (f, r)) :
    ts.map Token.word = f.bodyWords ++ r.1.map Token.word := by
  obtain ⟨xs, -, hdecls, -, r₁, r₂, r₃, r₄, hopen, hlocals, hstmts, hclose, hr⟩ := body_eq_ok h
  have hparams : (proto.params.map (Decl.mk .parameter)).flatMap Decl.words = [] := by
    simp [Decl.words]
  rw [words_of_expect hopen rfl, words_of_locals hlocals, words_of_statements hstmts,
    words_of_expect hclose rfl, hr, Function.bodyWords, hdecls, declarations, List.flatMap_append,
    hparams]
  simp

end Parser

/-! ### Programs -/

/-- **A program that is read is made of items, and their words are all the words there are.** -/
theorem words_of_parseTokens {s : Token.Stream} {p : Program} (h : parseTokens s = .ok p)
    (hs : ∀ t ∈ s.tokens, t.kind ≠ .eof) :
    ∃ items : List Item, p.MadeOf items ∧ s.tokens.map Token.word = items.flatMap Item.words := by
  suffices hread : ∃ rest, (∃ items : List Item, p.MadeOf items ∧
      s.tokens.map Token.word = items.flatMap Item.words ++ rest.map Token.word) ∧
        Parser.peek rest = .eof by
    obtain ⟨rest, ⟨items, hitems, hwords⟩, hpeek⟩ := hread
    cases rest with
    | nil => exact ⟨items, hitems, by simpa using hwords⟩
    | cons t rest =>
      -- the reading ends where a token says so, but none does
      have hmem : t.word ∈ s.tokens.map Token.word := by simp [hwords]
      obtain ⟨t', ht', hword⟩ := List.mem_map.1 hmem
      have hmark : t.word = .mark .eof := by
        have hkind : t.kind = .eof := hpeek
        simp only [Token.word, hkind]
      exact absurd (Token.kind_of_word_mark (hword.trans hmark)) (hs t' ht')
  refine Parser.items_induct
    (P := fun program ts => ∃ items : List Item, program.MadeOf items ∧
      s.tokens.map Token.word = items.flatMap Item.words ++ ts.map Token.word)
    ?_ ?_ ⟨[], ⟨rfl, rfl⟩, rfl⟩ h
  · rintro program ts proto r ⟨items, hitems, hwords⟩ hsig hsemi -
    refine ⟨items ++ [.declaration proto], ⟨?_, ?_⟩, ?_⟩
    · simp [hitems.prototypes, Item.prototype?]
    · simp [hitems.functions, Item.function?]
    · rw [hwords, Parser.words_of_signature hsig, Parser.words_of_peek hsemi rfl]
      simp [Item.words]
  · rintro program ts f r r' ⟨items, hitems, hwords⟩ hsig - hbody
    refine ⟨items ++ [.definition f], ⟨?_, ?_⟩, ?_⟩
    · simp [hitems.prototypes, Item.prototype?]
    · simp [hitems.functions, Item.function?]
    · rw [hwords, Parser.words_of_signature hsig, Parser.words_of_body hbody]
      simp [Item.words]

end Source
end Straightline
