/-
# Programs as texts write them

The grammar has no parentheses around operands and no signs, so not every tree is the tree of a text.
One that is has constants without a sign, and operands that hold together by themselves
(`Expr.Plain`): on the left of an operator stands nothing that binds less tightly, on its right only
what binds tighter.  The reader finds such trees because it reads the right operand of an operator as
far as tighter operators go, so that the next operator finds the whole as its left operand.

With the rules on names (`Program.WellFormed`) this is all that is known of a program that was read
(`Program.Canonical`, `canonical_of_parse`).
-/

import Mathlib
import Straightline.Proofs.Lexing
import Straightline.Proofs.WellFormed

namespace Straightline
namespace Source

/-- An expression that can be written down as it is: constants have no sign, and operands need no
parentheses. -/
inductive Expr.Plain : Expr → Prop
  | const {n : Int32} (hn : 0 ≤ n.toInt) : Plain (.const n)
  | var (x : String) : Plain (.var x)
  | binary {op : BinaryOp} {left right : Expr} (hleft : Plain left) (hright : Plain right)
    (hl : op.tier ≤ left.tier) (hr : op.tier < right.tier) : Plain (.binary op left right)
  | call {f : String} {args : List Expr} (hargs : ∀ a ∈ args, Plain a) : Plain (.call f args)

/-- A program in order, all of whose expressions can be written down. -/
structure Program.Canonical (p : Program) : Prop extends Program.WellFormed p where
  plain : ∀ f ∈ p.functions, ∀ s ∈ f.stmts, s.value.Plain

/-! ### What is read -/

/-- What is read as an operand of an operator binds tighter than that operator; that constants have no
sign can be told from the words. -/
theorem Parser.keeps_plain (sc : Parser.Scope) :
    Parser.Keeps sc fun floor e =>
      ((∀ w ∈ e.words, w.Proper) → e.Plain) ∧
        ∀ op left right, e = .binary op left right → floor < op.tier := by
  refine ⟨?_, ?_, ?_, ?_⟩
  · intro floor n
    refine ⟨fun hwords => .const ?_, fun op left right h => by cases h⟩
    exact hwords (.number n.toInt) (by simp [Expr.words])
  · intro floor x _
    exact ⟨fun _ => .var x, fun op left right h => by cases h⟩
  · intro floor f args _ hargs
    refine ⟨fun hwords => .call fun a ha => (hargs a ha).1 fun w hw => hwords w ?_,
      fun op left right h => by cases h⟩
    have hmem : w ∈ commas (args.map Expr.words) := mem_commas hw (List.mem_map_of_mem ha)
    simp [Expr.words, hmem]
  · rintro floor op left right hfloor hbinds ⟨hleft, -⟩ ⟨hright, htight⟩ _
    have hr : op.tier < right.tier := by
      cases right with
      | binary op' l r => exact htight op' l r rfl
      | _ => exact op.tier_lt_three
    refine ⟨fun hwords => ?_, ?_⟩
    · rw [Expr.words, List.forall_mem_append, List.forall_mem_cons] at hwords
      exact .binary (hleft hwords.1) (hright hwords.2.2) hbinds hr
    · intro op' left' right' h
      cases h
      exact hfloor

/-- Statements of a body whose words are proper have only constants that were written as digits. -/
theorem Parser.plain_of_body {eof : Token} {p : Program} {proto : Prototype} {ts : List Token}
    {f : Function} {r : Parser.Shorter ts} (h : Parser.body eof p proto ts = .ok (f, r)) :
    ∀ s ∈ f.stmts, (∀ w ∈ s.value.words, w.Proper) → s.value.Plain := by
  obtain ⟨xs, -, -, -, r₁, r₂, r₃, -, -, -, hstmts, -⟩ := Parser.body_eq_ok h
  intro s hs
  have hkept := Parser.statements_keeps (Parser.keeps_plain _) hstmts s hs
  exact hkept.1

/-- The same for the statements of a whole program. -/
theorem plain_of_parseTokens {s : Token.Stream} {p : Program} (h : parseTokens s = .ok p) :
    ∀ f ∈ p.functions, ∀ s ∈ f.stmts, (∀ w ∈ s.value.words, w.Proper) → s.value.Plain := by
  refine Parser.items_keep
    (P := fun p => ∀ f ∈ p.functions, ∀ s ∈ f.stmts, (∀ w ∈ s.value.words, w.Proper) → s.value.Plain)
    ?_ ?_ ?_ h
  · intro program proto hprogram _ _
    exact hprogram
  · intro program f ts r hprogram _ _ hbody g hg
    rcases List.mem_append.1 hg with hg | hg
    · exact hprogram g hg
    · rw [List.mem_singleton.1 hg]
      exact Parser.plain_of_body hbody
  · intro f hf
    cases hf

/-- The words of an expression are words of the definition that it stands in. -/
theorem mem_words_of_stmt {f : Function} {s : Stmt} (hs : s ∈ f.stmts) {w : Token.Word}
    (hw : w ∈ s.value.words) : w ∈ (Item.definition f).words := by
  have hstmt : w ∈ s.words := by
    cases s with
    | ret e => exact List.mem_cons_of_mem _ (List.mem_append_left _ hw)
    | expr e => exact List.mem_append_left _ hw
  have hstmts : w ∈ f.stmts.flatMap Stmt.words := List.mem_flatMap.2 ⟨s, hs, hstmt⟩
  refine List.mem_append_right _ (List.mem_cons_of_mem _ (List.mem_append_right _ ?_))
  exact List.mem_append_left _ hstmts

/-- **The expressions of a text can be written down.** -/
theorem plain_of_parse {source : String} {p : Program} (h : parse source = .ok p) :
    ∀ f ∈ p.functions, ∀ s ∈ f.stmts, s.value.Plain := by
  obtain ⟨items, hitems, hproper⟩ := proper_of_parse h
  intro f hf s hs
  refine plain_of_parseTokens (parse_eq_ok_iff.1 h) f hf s hs fun w hw => ?_
  exact hproper _ (hitems.mem_functions_iff.1 hf) w (mem_words_of_stmt hs hw)

/-- **A program that is read is in order, and can be written down.** -/
theorem canonical_of_parse {source : String} {p : Program} (h : parse source = .ok p) :
    p.Canonical :=
  ⟨wellFormed_of_parse h, plain_of_parse h⟩

/-! ### Functions one by one -/

/-- The last statement of a well-formed function returns. -/
theorem Function.WellFormed.ends_with_return {p : Program} {f : Function} (hf : f.WellFormed p) :
    ∃ before e, f.stmts = before ++ [.ret e] := by
  have hreturns := hf.returns
  rcases List.eq_nil_or_concat f.stmts with hnil | ⟨before, s, hs⟩
  · rw [hnil] at hreturns
    cases hreturns
  · rw [List.concat_eq_append] at hs
    rw [hs, List.getLast?_concat] at hreturns
    cases s with
    | ret e => exact ⟨before, e, hs⟩
    | expr e => cases hreturns

/-- Each function of a well-formed program is well formed against what was declared and defined before
it. -/
theorem Program.WellFormed.wellFormed_of_getElem? {p : Program} (hp : p.WellFormed) {i : Nat}
    {f : Function} (hf : p.functions[i]? = some f) :
    f.WellFormed ⟨p.prototypes, p.functions.take i⟩ := by
  obtain ⟨hi, rfl⟩ := List.getElem?_eq_some_iff.1 hf
  refine hp.bodies _ _ (p.functions.drop (i + 1)) ?_
  rw [← List.drop_eq_getElem_cons hi, List.take_append_drop]

/-- **Every program that is read is in order.**  It declares the print routine first; names are
declared once and defined once, with one number of parameters; and each function has distinct
variables, its parameters first, and statements of which the last one returns.  Their expressions use
variables of the function, call what is declared or was defined before with as many arguments as it
takes (`Expr.Scoped`), and are written without signs and parentheses (`Expr.Plain`). -/
theorem program_of_parse (source : String) (u : Program) (h : parse source = .ok u) :
    u.prototypes.head? = some Program.printnum ∧
    (u.prototypes.map Prototype.name).Nodup ∧ (u.functions.map Function.name).Nodup ∧
    (∀ q ∈ u.prototypes, ∀ f ∈ u.functions, q.name = f.name → q.arity = f.arity) ∧
    (∀ q ∈ u.prototypes, q.params.Nodup) ∧
    ∀ (i : Nat) (f : Function), u.functions[i]? = some f →
      f.prototype.params.Nodup ∧ f.vars.Nodup ∧
      (∃ xs : List String, f.decls =
        f.prototype.params.map (fun x => ⟨.parameter, x⟩) ++ xs.map fun x => ⟨.local, x⟩) ∧
      (∃ before e, f.stmts = before ++ [.ret e]) ∧
      ∀ s ∈ f.stmts,
        s.value.Scoped ⟨u.prototypes, u.functions.take i⟩ f.vars ∧ s.value.Plain := by
  have hu := canonical_of_parse h
  refine ⟨hu.builtin, hu.prototypes, hu.functions, hu.arity, hu.params, fun i f hf => ?_⟩
  have hwell := hu.wellFormed_of_getElem? hf
  refine ⟨hwell.nodup_params, hwell.vars, hwell.decls, hwell.ends_with_return, fun s hs => ?_⟩
  exact ⟨hwell.stmts s hs, hu.plain f (List.mem_of_getElem? hf) s hs⟩

/-- A text in which a definition comes before its prototype, a function calls the one before it, and
operators of both tiers stand beside each other. -/
def mixed : String :=
  r"int f(int a) { int x; x = a * 2147483647 - 1; return 3 * a / x; } " ++
    r"int f(int b); int g() { return f(0) - printnum(1); }"

/-- What is read from `mixed`. -/
def mixedProgram : Program :=
  ⟨[Program.printnum, ⟨"f", ["b"]⟩],
    [⟨⟨"f", ["a"]⟩, [⟨.parameter, "a"⟩, ⟨.local, "x"⟩],
      [.expr (.binary .subtract (.binary .assign (.var "x")
          (.binary .multiply (.var "a") (.const 2147483647))) (.const 1)),
        .ret (.binary .divide (.binary .multiply (.const 3) (.var "a")) (.var "x"))]⟩,
      ⟨⟨"g", []⟩, [],
        [.ret (.binary .subtract (.call "f" [.const 0]) (.call "printnum" [.const 1]))]⟩]⟩

theorem parse_mixed : parse mixed = .ok mixedProgram := by cbv

/-- The hypothesis is satisfiable: `mixed` is read, and the second function calls the first. -/
theorem program_of_mixed : parse mixed = .ok mixedProgram ∧
    ∃ f : Function, mixedProgram.functions[1]? = some f ∧ ∀ s ∈ f.stmts,
      s.value.Scoped ⟨mixedProgram.prototypes, mixedProgram.functions.take 1⟩ f.vars ∧
        s.value.Plain := by
  obtain ⟨-, -, -, -, -, hfunctions⟩ := program_of_parse mixed mixedProgram parse_mixed
  obtain ⟨-, -, -, -, hstmts⟩ := hfunctions 1 _ rfl
  exact ⟨parse_mixed, _, rfl, hstmts⟩

end Source
end Straightline
