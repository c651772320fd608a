/-
# Programs and their texts

A program is written as its declarations, without that of the print routine, and then its definitions
(`Program.listing`), in any layout (`Program.Writes`).  The words of its items are names of the program,
numbers without a sign, and the marks of the grammar, among which there are no brackets and no colons
(`Program.Canonical.belongs`).  If the names are such that a text can hold them, there are texts of the
program, and each of them is read as the program (`parseTokens_of_words` from the words on).

Conversely, the words of a text that is read are those of the items of the program.  Their order is the
only thing that the program does not tell: declarations may stand between definitions.
-/

import Straightline.Proofs.Acceptance
import Straightline.Proofs.Lexing
import Straightline.Proofs.Text

namespace Straightline

/-! ### The words that occur -/

namespace Token

/-- The marks that the grammar has. -/
def Kind.inGrammar : Kind → Bool
  | openParen | closeParen | openBrace | closeBrace | semicolon | comma => true
  | equal | plus | minus | star | slash | int | ret => true
  | _ => false

/-- Every kind of the grammar that is a mark has a spelling. -/
theorem Kind.spelling_ne_of_inGrammar {k : Kind} (h : k.inGrammar = true) : k.spelling ≠ "" := by
  revert h
  cases k <;> decide

/-- A word of a program with the given names. -/
def Word.Belongs (names : List String) : Word → Prop
  | .name x => x ∈ names
  | .number n => 0 ≤ n
  | .mark k => k.inGrammar = true

variable {names : List String}

/-- A word of a program can be written, if the names of the program can. -/
theorem Word.Belongs.writable {w : Word} (h : w.Belongs names) (hnames : ∀ x ∈ names, IsName x) :
    w.Writable := by
  cases w with
  | name x => exact hnames x h
  | number n => exact h
  | mark k => exact Kind.spelling_ne_of_inGrammar h

/-- A token whose word belongs to a program is a name, a constant or a mark of the grammar. -/
theorem kind_of_belongs {t : Token} (h : t.word.Belongs names) :
    t.kind = .identifier ∨ t.kind = .constant ∨ t.kind.inGrammar = true := by
  cases hword : t.word with
  | name x => exact .inl (of_word_name hword).1
  | number n => exact .inr (.inl (of_word_number hword).1)
  | mark k =>
    rw [hword] at h
    exact .inr (.inr (kind_of_word_mark hword ▸ h))

end Token

namespace Source

open Token (Kind Word IsName)

variable {p : Program} {names : List String}

/-- What can be called is a name of the program. -/
theorem Program.mem_names_of_arity? {name : String} {n : Nat} (h : p.arity? name = some n) :
    name ∈ p.names := by
  rcases Option.or_eq_some_iff.1 h with h | ⟨-, h⟩
  · obtain ⟨q, hq, -⟩ := Option.map_eq_some_iff.1 h
    obtain rfl : q.name = name := by simpa using List.find?_some hq
    exact (mem_names_of_prototype (List.mem_of_find?_eq_some hq)).1
  · obtain ⟨f, hf, -⟩ := Option.map_eq_some_iff.1 h
    obtain rfl : f.name = name := by simpa using List.find?_some hf
    exact (mem_names_of_function (List.mem_of_find?_eq_some hf)).1

/-- The words between commas belong to the program if all others do, for the commas do. -/
theorem belongs_commas {wss : List (List Word)} (h : ∀ ws ∈ wss, ∀ w ∈ ws, w.Belongs names) :
    ∀ w ∈ commas wss, w.Belongs names :=
  Text.forall_mem_intercalate (List.forall_mem_singleton.2 rfl) h

/-- The words of a prototype are its names and marks. -/
theorem Prototype.belongs {q : Prototype} (hname : q.name ∈ names)
    (hparams : ∀ x ∈ q.params, x ∈ names) : ∀ w ∈ q.words, w.Belongs names := by
  simp only [Prototype.words, List.forall_mem_append, List.forall_mem_cons]
  refine ⟨rfl, hname, rfl, belongs_commas fun ws hws => ?_, rfl, by simp⟩
  obtain ⟨x, hx, rfl⟩ := List.mem_map.1 hws
  simp only [List.forall_mem_cons]
  exact ⟨rfl, hparams x hx, by simp⟩

/-- The words of an expression are names in scope, constants and marks. -/
theorem Expr.Plain.belongs {vars : List String} {e : Expr} (he : e.Plain) (hs : e.Scoped p vars)
    (hvars : ∀ x ∈ vars, x ∈ p.names) : ∀ w ∈ e.words, w.Belongs p.names := by
  induction he with
  | const hn => exact List.forall_mem_singleton.2 hn
  | var x =>
    cases hs with
    | var hx => exact List.forall_mem_singleton.2 (hvars x hx)
  | @binary op left right _ _ _ _ ihleft ihright =>
    obtain ⟨hleft, hright, -⟩ := hs.of_binary
    simp only [Expr.words, List.forall_mem_append, List.forall_mem_cons]
    refine ⟨ihleft hleft, ?_, ihright hright⟩
    cases op <;> rfl
  | call _ ih =>
    cases hs with
    | call harity hargs =>
      simp only [Expr.words, Expr.wordLists_eq_map, List.forall_mem_append, List.forall_mem_cons]
      refine ⟨Program.mem_names_of_arity? harity, rfl, belongs_commas fun ws hws => ?_, rfl, by simp⟩
      obtain ⟨a, ha, rfl⟩ := List.mem_map.1 hws
      exact ih a ha (hargs a ha)

/-- The words of a statement are those of its expression, and marks. -/
theorem Stmt.belongs {s : Stmt} (h : ∀ w ∈ s.value.words, w.Belongs names) :
    ∀ w ∈ s.words, w.Belongs names := by
  cases s with
  | ret e =>
    simp only [Stmt.words, List.forall_mem_append, List.forall_mem_cons]
    exact ⟨rfl, h, rfl, by simp⟩
  | expr e =>
    simp only [Stmt.words, List.forall_mem_append, List.forall_mem_cons]
    exact ⟨h, rfl, by simp⟩

/-- The words of a declaration are its name and marks. -/
theorem Decl.belongs {d : Decl} (h : d.name ∈ names) : ∀ w ∈ d.words, w.Belongs names := by
  unfold Decl.words
  split
  · simp
  · simp only [List.forall_mem_cons]
    exact ⟨rfl, h, rfl, by simp⟩

/-- The words of a definition in a program that can be written down. -/
theorem Program.Canonical.belongs_definition (hp : p.Canonical) {f : Function} (hf : f ∈ p.functions) :
    ∀ w ∈ (Item.definition f).words, w.Belongs p.names := by
  have hwell := hp.wellFormed_of_mem hf
  obtain ⟨hname, hvars⟩ := Program.mem_names_of_function hf
  have hparams : ∀ x ∈ f.prototype.params, x ∈ p.names :=
    fun x hx => hvars x (hwell.mem_vars_of_mem_params hx)
  simp only [Item.words, Function.bodyWords, List.forall_mem_append, List.forall_mem_cons]
  refine ⟨Prototype.belongs hname hparams, rfl, fun w hw => ?_, fun w hw => ?_, rfl, by simp⟩
  · obtain ⟨d, hd, hw⟩ := List.mem_flatMap.1 hw
    exact Decl.belongs (hvars _ (List.mem_map_of_mem hd)) w hw
  · obtain ⟨s, hs, hw⟩ := List.mem_flatMap.1 hw
    exact Stmt.belongs ((hp.plain f hf s hs).belongs (hwell.stmts s hs) hvars) w hw

/-- **The words of the items of a program belong to it,** in whichever order they stand. -/
theorem Program.Canonical.belongs (hp : p.Canonical) {items : List Item} (h : p.MadeOf items) :
    ∀ w ∈ items.flatMap Item.words, w.Belongs p.names := by
  intro w hw
  obtain ⟨item, hitem, hw⟩ := List.mem_flatMap.1 hw
  cases item with
  | declaration q =>
    obtain ⟨hname, hparams⟩ := Program.mem_names_of_prototype (h.mem_prototypes_iff.2 (.inr hitem))
    rcases List.mem_append.1 hw with hw | hw
    · exact Prototype.belongs hname hparams w hw
    · rw [List.mem_singleton.1 hw]
      rfl
  | definition f => exact hp.belongs_definition (h.mem_functions_iff.2 hitem) w hw

/-! ### From the text to the program -/

/-- **All that a text says is in the program that is read from it.**  The words of the text, up to the
mark that ends it, are those of the items of the program: of its declarations and definitions, both in
the order of the program, where either may stand between the others.  So no token is lost, none is
made up, and none is of a kind that the grammar does not have. -/
theorem tokens_of_parse (source : String) (u : Program) (h : parse source = .ok u) :
    (∃ items : List Item, u.MadeOf items ∧
      (Token.lex source).toList.map Token.word = items.flatMap Item.words ++ [.mark .eof]) ∧
    ∀ t ∈ (Token.lex source).toList,
      t.kind ∉ [Kind.unknown, .openBracket, .closeBracket, .colon] := by
  obtain ⟨items, hitems, hwords⟩ := words_of_parse h
  refine ⟨⟨items, hitems, ?_⟩, fun t ht => ?_⟩
  · rw [Token.Stream.toList, List.map_append, hwords]
    rfl
  · rcases List.mem_append.1 ht with ht | ht
    · have hword : t.word ∈ items.flatMap Item.words := hwords ▸ List.mem_map_of_mem ht
      have hkind := Token.kind_of_belongs ((canonical_of_parse h).belongs hitems _ hword)
      revert hkind
      cases t.kind <;> decide
    · rw [List.mem_singleton.1 ht]
      change Kind.eof ∉ [Kind.unknown, .openBracket, .closeBracket, .colon]
      decide

/-- The hypothesis is satisfiable: in `mixed` the only declaration stands between two definitions. -/
theorem tokens_of_mixed : parse mixed = .ok mixedProgram ∧ ∃ items : List Item,
    mixedProgram.MadeOf items ∧
      (Token.lex mixed).toList.map Token.word = items.flatMap Item.words ++ [.mark .eof] :=
  ⟨parse_mixed, (tokens_of_parse mixed mixedProgram parse_mixed).1⟩

/-! ### From the program to the text -/

/-- The items of a program in the order in which it is written: declarations, then definitions.  The
print routine is not declared in a text. -/
def Program.listing (p : Program) : List Item :=
  p.prototypes.tail.map .declaration ++ p.functions.map .definition

/-- A text of a program: lexemes that spell its words, in any layout. -/
def Program.Writes (p : Program) (source : String) : Prop :=
  ∃ ls : List (List Char), List.Forall₂ Token.Spells (p.listing.flatMap Item.words) ls ∧
    Token.Spaced ls source.toList

/-- A program starts with the prototype that every program has. -/
theorem Program.WellFormed.prototypes_eq (hp : p.WellFormed) :
    p.prototypes = printnum :: p.prototypes.tail := by
  have hhead := hp.builtin
  cases hps : p.prototypes with
  | nil =>
    rw [hps] at hhead
    cases hhead
  | cons q qs =>
    rw [hps] at hhead
    obtain rfl := Option.some.inj hhead
    rfl

/-- A program is made of its listing. -/
theorem Program.WellFormed.madeOf_listing (hp : p.WellFormed) : p.MadeOf p.listing := by
  have hdeclared : (Item.prototype? ∘ Item.declaration) = some := rfl
  have hdefined : (Item.function? ∘ Item.definition) = some := rfl
  have hnone : (Item.prototype? ∘ Item.definition) = fun _ => none := rfl
  have hnone' : (Item.function? ∘ Item.declaration) = fun _ => none := rfl
  constructor
  · rw [listing, List.filterMap_append, List.filterMap_map, List.filterMap_map, hdeclared, hnone]
    simpa using hp.prototypes_eq
  · rw [listing, List.filterMap_append, List.filterMap_map, List.filterMap_map, hdefined, hnone']
    simp

namespace Parser

variable {eof : Token} {ts rest : List Token}

/-- Declarations of different names are read one after the other. -/
theorem items_declarations {before qs : List Prototype} {ts : List Token}
    (hnames : ((before ++ qs).map Prototype.name).Nodup) (hparams : ∀ q ∈ qs, q.params.Nodup)
    (hts : ts.map Token.word = (qs.map Item.declaration).flatMap Item.words)
    (h : items eof ⟨before ++ qs, []⟩ rest = .ok p) : items eof ⟨before, []⟩ (ts ++ rest) = .ok p := by
  induction qs generalizing before ts with
  | nil =>
    obtain rfl := List.map_eq_nil_iff.1 hts
    simpa using h
  | cons q qs ih =>
    rw [List.forall_mem_cons] at hparams
    rw [List.map_cons, List.flatMap_cons] at hts
    obtain ⟨ts₁, ts₂, rfl, hq, hqs⟩ := List.map_eq_append_iff.1 hts
    have hcheck : checkDeclaration ⟨before, []⟩ q = none := by
      rw [List.map_append, List.map_cons] at hnames
      refine checkDeclaration_eq_none_iff.2 ⟨?_, fun f hf => by cases hf⟩
      exact find?_key_eq_none_iff.2 (not_mem_of_nodup_append hnames)
    rw [List.append_assoc]
    refine items_declaration hparams.1 hcheck hq (ih ?_ hparams.2 hqs ?_)
    · simpa using hnames
    · simpa using h

/-- The definitions of a program that can be written down are read one after the other, after its
declarations. -/
theorem items_definitions (hp : p.Canonical) {before fs : List Function} {ts : List Token}
    (hfs : p.functions = before ++ fs)
    (hts : ts.map Token.word = (fs.map Item.definition).flatMap Item.words) :
    items eof ⟨p.prototypes, before⟩ ts = .ok p := by
  induction fs generalizing before ts with
  | nil =>
    obtain rfl := List.map_eq_nil_iff.1 hts
    rw [List.append_nil] at hfs
    rw [items, ← hfs]
    rfl
  | cons f fs ih =>
    rw [List.map_cons, List.flatMap_cons] at hts
    obtain ⟨ts₁, ts₂, rfl, hf, hmore⟩ := List.map_eq_append_iff.1 hts
    have hmem : f ∈ p.functions := by simp [hfs]
    have hcheck : checkDefinition ⟨p.prototypes, before⟩ f.prototype = none := by
      have hnames := hp.functions
      rw [hfs, List.map_append, List.map_cons] at hnames
      refine checkDefinition_eq_none_iff.2 ⟨?_, fun q hq => ?_⟩
      · exact find?_key_eq_none_iff.2 (not_mem_of_nodup_append hnames)
      · have hname : q.name = f.prototype.name := by simpa using List.find?_some hq
        exact hp.arity q (List.mem_of_find?_eq_some hq) f hmem hname
    exact items_definition (hp.bodies before f fs hfs) (hp.plain f hmem) hcheck hf
      (ih (by simpa using hfs) hmore)

end Parser

/-- **A program is read from its words.** -/
theorem parseTokens_of_words (hp : p.Canonical) {s : Token.Stream}
    (hs : s.tokens.map Token.word = p.listing.flatMap Item.words) : parseTokens s = .ok p := by
  rw [Program.listing, List.flatMap_append] at hs
  obtain ⟨ts₁, ts₂, htokens, hdecls, hdefs⟩ := List.map_eq_append_iff.1 hs
  have hprotos : [Program.printnum] ++ p.prototypes.tail = p.prototypes := hp.prototypes_eq.symm
  rw [parseTokens, htokens]
  refine Parser.items_declarations ?_ (fun q hq => hp.params q (List.mem_of_mem_tail hq)) hdecls ?_
  · rw [hprotos]
    exact hp.prototypes
  · rw [hprotos]
    exact Parser.items_definitions hp rfl hdefs

/-- **Every program that can be written down is read from its texts.**  It has texts, one for each way
to keep its words apart, and what is read from any of them is the program. -/
theorem parse_of_writes (u : Program) (hu : u.Canonical) (hnames : ∀ x ∈ u.names, IsName x) :
    (∃ source, u.Writes source) ∧ ∀ source, u.Writes source → parse source = .ok u := by
  have hwords : ∀ w ∈ u.listing.flatMap Item.words, w.Writable := fun w hw =>
    (hu.belongs hu.madeOf_listing w hw).writable hnames
  constructor
  · obtain ⟨ls, cs, hspells, hspaced⟩ := Token.exists_spaced hwords
    exact ⟨String.ofList cs, ls, hspells, by rwa [String.toList_ofList]⟩
  · rintro source ⟨ls, hspells, hspaced⟩
    have hread : parseTokens (Token.lex source) = .ok u :=
      parseTokens_of_words hu (Token.words_of_spaced hspells hwords hspaced Pos.start)
    rw [parse, hread]
    rfl

/-- The hypotheses are satisfiable: the program of `mixed` can be written with its declaration first. -/
theorem parse_of_writes_mixed : mixedProgram.Canonical ∧ (∀ x ∈ mixedProgram.names, IsName x) ∧
    ∃ source, mixedProgram.Writes source ∧ parse source = .ok mixedProgram := by
  have hcanonical := canonical_of_parse parse_mixed
  have hnames : ∀ x ∈ mixedProgram.names, IsName x := by decide
  obtain ⟨⟨source, hsource⟩, hparse⟩ := parse_of_writes mixedProgram hcanonical hnames
  exact ⟨hcanonical, hnames, source, hsource, hparse source hsource⟩

end Source
end Straightline
