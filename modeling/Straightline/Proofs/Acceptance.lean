/-
# What is written is read

The other direction of `Accounting`: a reader that is given the words of a tree in order, followed by
something that cannot go on with it, returns that tree.

For expressions the matter is where to stop.  The reader has a loop, in which an expression that was
read becomes the left operand of the operator that follows.  So the induction goes over the tree, and
its statement is about the loop (`Accepts`): to read the words of an expression and then more is as
good as to be in the loop with that expression in hand, if no operator that follows binds tighter than
it holds together.  Operands without parentheses are such that this is so at each operator.

Declarations and definitions are let through if the program so far and they agree
(`items_declaration`, `items_definition`).
-/

import Straightline.Proofs.Accounting
import Straightline.Proofs.Canonical

namespace Straightline
namespace Source

open Token (Kind Word)

/-- Every expression binds tighter than a whole expression has to. -/
theorem Expr.tier_pos (e : Expr) : 0 < e.tier := by
  cases e with
  | binary op left right => cases op <;> exact Nat.succ_pos _
  | _ => exact Nat.succ_pos _

/-- Both sides of a binary expression are in scope where it is, and what is assigned is a variable. -/
theorem Expr.Scoped.of_binary {p : Program} {vars : List String} {op : BinaryOp} {left right : Expr}
    (h : (Expr.binary op left right).Scoped p vars) :
    left.Scoped p vars ∧ right.Scoped p vars ∧ (op = .assign → ∃ x, left = .var x) := by
  cases h with
  | assign hx he => exact ⟨.var hx, he, fun _ => ⟨_, rfl⟩⟩
  | binary hop hleft hright => exact ⟨hleft, hright, fun h => absurd h hop⟩

namespace Parser

variable {eof : Token} {sc : Scope} {floor line : Nat} {ts ts₁ rest rest₁ : List Token} {t : Token}
  {e left right : Expr} {args : List Expr}

@[simp] theorem peek_cons : peek (t :: rest) = t.kind := rfl

/-! ### Readers that succeed -/

/-- A reader returns a result and leaves the given tokens. -/
def Yields {α : Type} {P : List Token → Prop} (x : Except Failure (α × Subtype P)) (a : α)
    (rest : List Token) : Prop :=
  ∃ h : P rest, x = .ok (a, ⟨rest, h⟩)

/-- A token of the kind that is asked for is taken. -/
theorem expect_eq {k : Kind} (h : t.kind = k) : expect eof k (t :: rest) = .ok ⟨rest, by simp⟩ := by
  rw [expect, if_pos h]

/-- What was expected was there. -/
theorem peek_of_expect {k : Kind} {r : Shorter ts} (h : expect eof k ts = .ok r) : peek ts = k := by
  cases ts with
  | nil => cases h
  | cons t rest =>
    rw [expect] at h
    split at h
    · assumption
    · cases h

/-- An identifier is taken with its literal. -/
theorem name_eq (h : t.kind = .identifier) :
    name eof (t :: rest) = .ok (t.literal, ⟨rest, by simp⟩) := by
  rw [name, if_pos h]

/-- A constant is an operand with the number its digits say. -/
theorem yields_const {n : Int32} (hkind : t.kind = .constant)
    (hn : Text.readInt32 t.literal.toList = some n) :
    Yields (primary sc (t :: rest)) (.const n) rest := by
  refine ⟨by simp, ?_⟩
  simp only [primary, hkind, hn]

/-- A name is an operand if it is a variable, or if arguments follow: then it is looked up with them. -/
theorem yields_var (hkind : t.kind = .identifier)
    (h : peek rest = .openParen ∨ t.literal ∈ sc.vars) :
    Yields (primary sc (t :: rest)) (.var t.literal) rest := by
  refine ⟨by simp, ?_⟩
  simp only [primary, hkind]
  rw [if_pos h]

/-- An expression is its first operand with the operators that follow. -/
theorem yields_expression (hprim : Yields (primary sc ts) left ts₁)
    (hops : Yields (operators sc floor left ts₁) e rest) : Yields (expression sc floor ts) e rest := by
  obtain ⟨h₁, hprim⟩ := hprim
  obtain ⟨h₂, hops⟩ := hops
  refine ⟨Nat.lt_of_le_of_lt h₂ h₁, ?_⟩
  rw [expression]
  exact Except.bind_eq_ok_iff.2 ⟨_, hprim, Except.bind_eq_ok_iff.2 ⟨_, hops, rfl⟩⟩

/-- A name before an argument list becomes a call, and the operators after it are read on. -/
theorem yields_call {f : String} (hkind : t.kind = .openParen)
    (hargs : Yields (arguments sc ts) args ts₁) (harity : sc.program.arity? f = some args.length)
    (hops : Yields (operators sc floor (.call f args) ts₁) e rest) :
    Yields (operators sc floor (.var f) (t :: ts)) e rest := by
  obtain ⟨h₁, hargs⟩ := hargs
  obtain ⟨h₂, hops⟩ := hops
  have hcheck : ∀ line rest, checkCall sc line f args rest = .ok (.call f args) := by
    intro line rest
    simp [checkCall, harity]
  refine ⟨Nat.le_trans h₂ (Nat.le_succ_of_le h₁), ?_⟩
  rw [operators, if_pos hkind]
  exact Except.bind_eq_ok_iff.2 ⟨f, rfl, Except.bind_eq_ok_iff.2 ⟨_, hargs,
    Except.bind_eq_ok_iff.2 ⟨_, hcheck _ _, Except.bind_eq_ok_iff.2 ⟨_, hops, rfl⟩⟩⟩⟩

/-- An operator above the floor takes the expression to its right, and the operators after that are read
on. -/
theorem yields_binary {op : BinaryOp} (hop : operator? t.kind = some op) (htier : floor < op.tier)
    (hright : Yields (expression sc op.tier ts) right ts₁) (htarget : op = .assign → ∃ x, left = .var x)
    (hops : Yields (operators sc floor (.binary op left right) ts₁) e rest) :
    Yields (operators sc floor left (t :: ts)) e rest := by
  obtain ⟨h₁, hright⟩ := hright
  obtain ⟨h₂, hops⟩ := hops
  have hparen : t.kind ≠ .openParen := by
    intro hkind
    rw [hkind] at hop
    cases hop
  have hjoin : ∀ line rest, join line op left right rest = .ok (.binary op left right) := by
    intro line rest
    cases op with
    | assign =>
      obtain ⟨x, rfl⟩ := htarget rfl
      rfl
    | _ => rfl
  refine ⟨Nat.le_trans h₂ (Nat.le_succ_of_le (Nat.le_of_lt h₁)), ?_⟩
  rw [operators, if_neg hparen]
  simp only [hop]
  rw [if_pos htier]
  exact Except.bind_eq_ok_iff.2 ⟨_, hright, Except.bind_eq_ok_iff.2 ⟨_, hjoin _ _,
    Except.bind_eq_ok_iff.2 ⟨_, hops, rfl⟩⟩⟩

/-- What follows does not go on with an expression: no call, and no operator that binds tighter than
`floor`. -/
def Stops (floor : Nat) (rest : List Token) : Prop :=
  peek rest ≠ .openParen ∧ ∀ op, operator? (peek rest) = some op → op.tier ≤ floor

/-- Operators that end at a floor end at every higher one. -/
theorem Stops.mono {floor' : Nat} (h : Stops floor rest) (hle : floor ≤ floor') : Stops floor' rest :=
  ⟨h.1, fun op hop => Nat.le_trans (h.2 op hop) hle⟩

/-- Any mark that is neither an operator nor an open parenthesis ends the operators at every floor. -/
theorem stops_of_mark {k : Kind} (ht : t.word = .mark k) (hop : operator? k = none)
    (hparen : k ≠ .openParen) : Stops floor (t :: rest) := by
  have hkind := Token.kind_of_word_mark ht
  subst hkind
  exact ⟨hparen, fun op hop' => absurd (hop.symm.trans hop') (by simp)⟩

/-- Where the operators end, the expression is what was read so far. -/
theorem yields_stop (h : Stops floor rest) : Yields (operators sc floor e rest) e rest := by
  refine ⟨Nat.le_refl _, ?_⟩
  cases rest with
  | nil => rw [operators]
  | cons t rest =>
    rw [operators, if_neg (show t.kind ≠ .openParen from h.1)]
    split
    · rfl
    · rename_i op hop
      rw [if_neg (Nat.not_lt.2 (h.2 op hop))]

/-- The last argument is followed by the closing parenthesis. -/
theorem yields_argumentList_last (harg : Yields (expression sc 0 ts) e (t :: rest))
    (hkind : t.kind = .closeParen) : Yields (argumentList sc ts) [e] rest := by
  obtain ⟨h, harg⟩ := harg
  refine ⟨Nat.lt_trans (Nat.lt_succ_self _) h, ?_⟩
  rw [argumentList]
  refine Except.bind_eq_ok_iff.2 ⟨_, harg, ?_⟩
  simp only [peek_cons, hkind]
  rfl

/-- An argument before a comma is followed by more of them. -/
theorem yields_argumentList_more (harg : Yields (expression sc 0 ts) e (t :: ts₁))
    (hkind : t.kind = .comma) (hargs : Yields (argumentList sc ts₁) args rest) :
    Yields (argumentList sc ts) (e :: args) rest := by
  obtain ⟨h, harg⟩ := harg
  obtain ⟨h', hargs⟩ := hargs
  refine ⟨Nat.lt_trans h' (Nat.lt_trans (Nat.lt_succ_self _) h), ?_⟩
  rw [argumentList]
  refine Except.bind_eq_ok_iff.2 ⟨_, harg, ?_⟩
  simp only [peek_cons, hkind]
  exact Except.bind_eq_ok_iff.2 ⟨_, hargs, rfl⟩

/-- A list without arguments is its closing parenthesis. -/
theorem yields_arguments_nil (hkind : t.kind = .closeParen) :
    Yields (arguments sc (t :: rest)) [] rest := by
  refine ⟨by simp, ?_⟩
  rw [arguments, peek_cons, if_pos hkind]
  rfl

/-- An expression starts with a constant or a name. -/
theorem peek_of_expression (h : Yields (expression sc floor ts) e rest) :
    peek ts = .constant ∨ peek ts = .identifier := by
  obtain ⟨_, h⟩ := h
  obtain ⟨left, r₁, r₂, hprim, -⟩ := expression_eq_ok h
  rcases primary_eq_ok hprim with ⟨t, rest, n, rfl, hkind, -⟩ | ⟨t, rest, rfl, hkind, -⟩
  · exact .inl hkind
  · exact .inr hkind

/-- A list with arguments is read as such: no argument starts with a closing parenthesis. -/
theorem yields_arguments (hargs : Yields (argumentList sc ts) args rest) :
    Yields (arguments sc ts) args rest := by
  obtain ⟨h, hargs⟩ := hargs
  have hpeek : peek ts ≠ .closeParen := by
    obtain ⟨arg, r, harg, -⟩ := argumentList_eq_ok hargs
    rcases peek_of_expression ⟨r.2, harg⟩ with hpeek | hpeek <;> simp [hpeek]
  refine ⟨Nat.le_of_lt h, ?_⟩
  rw [arguments, if_neg hpeek]
  exact Except.bind_eq_ok_iff.2 ⟨_, hargs, rfl⟩

/-! ### Expressions -/

/-- To read the words of an expression and more is as good as to go on with the expression in hand,
if what follows does not take a part of it away. -/
def Accepts (sc : Scope) (e : Expr) : Prop :=
  ∀ (floor : Nat) (ts rest : List Token) (e' : Expr) (rest' : List Token), floor < e.tier →
    ts.map Token.word = e.words → Stops e.tier rest →
      Yields (operators sc floor e rest) e' rest' → Yields (expression sc floor (ts ++ rest)) e' rest'

/-- An expression is read from its words, up to something that does not go on with it. -/
theorem Accepts.yields (h : Accepts sc e) (hfloor : floor < e.tier) (hts : ts.map Token.word = e.words)
    (hrest : Stops floor rest) : Yields (expression sc floor (ts ++ rest)) e rest :=
  h floor ts rest e rest hfloor hts (hrest.mono (Nat.le_of_lt hfloor)) (yields_stop hrest)

/-- Arguments that are each accepted are accepted in a list. -/
theorem yields_argumentList {ts : List Token} (hargs : ∀ a ∈ args, Accepts sc a) (hne : args ≠ [])
    (hts : ts.map Token.word = commas (args.map Expr.words) ++ [.mark .closeParen]) :
    Yields (argumentList sc (ts ++ rest)) args rest := by
  induction args generalizing ts with
  | nil => exact absurd rfl hne
  | cons a as ih =>
    rw [List.forall_mem_cons] at hargs
    cases as with
    | nil =>
      rw [List.map_singleton, commas, List.intercalate_singleton] at hts
      obtain ⟨ts₁, ts₂, rfl, harg, hclose⟩ := List.map_eq_append_iff.1 hts
      obtain ⟨t, ht, hclose⟩ := List.map_eq_singleton_iff.1 hclose
      rw [ht, List.append_assoc, List.singleton_append]
      exact yields_argumentList_last
        (hargs.1.yields a.tier_pos harg (stops_of_mark hclose rfl (by decide)))
        (Token.kind_of_word_mark hclose)
    | cons b bs =>
      rw [List.map_cons, commas, List.intercalate_cons_of_ne_nil (by simp), List.append_assoc,
        List.append_assoc, List.singleton_append] at hts
      obtain ⟨ts₁, ts₂, rfl, harg, hts₂⟩ := List.map_eq_append_iff.1 hts
      obtain ⟨t, ts₃, rfl, hcomma, hmore⟩ := List.map_eq_cons_iff.1 hts₂
      rw [List.append_assoc, List.cons_append]
      exact yields_argumentList_more
        (hargs.1.yields a.tier_pos harg (stops_of_mark hcomma rfl (by decide)))
        (Token.kind_of_word_mark hcomma) (ih hargs.2 (List.cons_ne_nil _ _) hmore)

/-- Every expression that can be written down and whose names are in scope is accepted, by induction on
how it can be written down. -/
theorem accepts_expr (hplain : e.Plain) (hscoped : e.Scoped sc.program sc.vars) : Accepts sc e := by
  induction hplain with
  | @const n hn =>
    intro floor ts rest e' rest' _ hts _ hops
    obtain ⟨t, rfl, ht⟩ := List.map_eq_singleton_iff.1 hts
    obtain ⟨hkind, hnumber⟩ := Token.of_word_number ht
    exact yields_expression (yields_const hkind (Token.readInt32_eq_some_iff.2 hnumber)) hops
  | var x =>
    intro floor ts rest e' rest' _ hts _ hops
    obtain ⟨t, rfl, ht⟩ := List.map_eq_singleton_iff.1 hts
    obtain ⟨hkind, rfl⟩ := Token.of_word_name ht
    cases hscoped with
    | var hx => exact yields_expression (yields_var hkind (.inr hx)) hops
  | @binary op left right _ _ hl hr ihleft ihright =>
    intro floor ts rest e' rest' hfloor hts hrest hops
    obtain ⟨hsleft, hsright, htarget⟩ := hscoped.of_binary
    rw [Expr.words] at hts
    obtain ⟨ts₁, ts₂, rfl, hleft, hts₂⟩ := List.map_eq_append_iff.1 hts
    obtain ⟨t, ts₃, rfl, ht, hright⟩ := List.map_eq_cons_iff.1 hts₂
    have hop : operator? t.kind = some op := by
      rw [Token.kind_of_word_mark ht]
      cases op <;> rfl
    rw [List.append_assoc, List.cons_append]
    have hbinary : Yields (operators sc floor left (t :: (ts₃ ++ rest))) e' rest' :=
      yields_binary hop hfloor ((ihright hsright).yields hr hright hrest) htarget hops
    refine ihleft hsleft floor ts₁ _ e' rest' (Nat.lt_of_lt_of_le hfloor hl) hleft ?_ hbinary
    refine ⟨?_, fun op' hop' => ?_⟩
    · intro hparen
      rw [peek_cons] at hparen
      rw [hparen] at hop
      cases hop
    · obtain rfl := Option.some.inj (hop.symm.trans hop')
      exact hl
  | @call f args hargs ih =>
    intro floor ts rest e' rest' _ hts _ hops
    cases hscoped with
    | call harity hscoped =>
      rw [Expr.words, Expr.wordLists_eq_map] at hts
      obtain ⟨t, ts₁, rfl, ht, hts₁⟩ := List.map_eq_cons_iff.1 hts
      obtain ⟨t', ts₂, rfl, ht', hts₂⟩ := List.map_eq_cons_iff.1 hts₁
      obtain ⟨hkind, rfl⟩ := Token.of_word_name ht
      have hparen := Token.kind_of_word_mark ht'
      refine yields_expression (yields_var hkind (.inl hparen)) (yields_call hparen ?_ harity hops)
      cases args with
      | nil =>
        obtain ⟨t'', rfl, hclose⟩ := List.map_eq_singleton_iff.1 hts₂
        exact yields_arguments_nil (Token.kind_of_word_mark hclose)
      | cons a as =>
        refine yields_arguments (yields_argumentList (fun b hb => ih b hb (hscoped b hb)) ?_ hts₂)
        exact List.cons_ne_nil _ _

/-! ### Signatures -/

variable {t' t'' : Token} {x : String} {xs vars : List String}

/-- The last parameter is followed by the closing parenthesis. -/
theorem yields_parameterList_last (hint : t.kind = .int) (hx : t'.kind = .identifier)
    (hclose : t''.kind = .closeParen) :
    Yields (parameterList eof (t :: t' :: t'' :: rest)) [t'.literal] rest := by
  refine ⟨by simp only [List.length_cons]; omega, ?_⟩
  rw [parameterList]
  refine Except.bind_eq_ok_iff.2 ⟨_, expect_eq hint, Except.bind_eq_ok_iff.2 ⟨_, name_eq hx, ?_⟩⟩
  simp only [peek_cons, hclose]
  rfl

/-- A parameter before a comma is followed by more of them. -/
theorem yields_parameterList_more (hint : t.kind = .int) (hx : t'.kind = .identifier)
    (hcomma : t''.kind = .comma) (hxs : Yields (parameterList eof ts) xs rest) :
    Yields (parameterList eof (t :: t' :: t'' :: ts)) (t'.literal :: xs) rest := by
  obtain ⟨h, hxs⟩ := hxs
  refine ⟨by simp only [List.length_cons]; omega, ?_⟩
  rw [parameterList]
  refine Except.bind_eq_ok_iff.2 ⟨_, expect_eq hint, Except.bind_eq_ok_iff.2 ⟨_, name_eq hx, ?_⟩⟩
  simp only [peek_cons, hcomma]
  exact Except.bind_eq_ok_iff.2 ⟨_, hxs, rfl⟩

/-- Names in a parameter list are read as its parameters. -/
theorem yields_parameterList {ts : List Token} (hne : xs ≠ [])
    (hts : ts.map Token.word =
      commas (xs.map fun x => [.mark .int, .name x]) ++ [.mark .closeParen]) :
    Yields (parameterList eof (ts ++ rest)) xs rest := by
  induction xs generalizing ts with
  | nil => exact absurd rfl hne
  | cons x xs ih =>
    cases xs with
    | nil =>
      rw [List.map_singleton, commas, List.intercalate_singleton] at hts
      obtain ⟨t, ts₁, rfl, hint, hts₁⟩ := List.map_eq_cons_iff.1 hts
      obtain ⟨t', ts₂, rfl, hx, hts₂⟩ := List.map_eq_cons_iff.1 hts₁
      obtain ⟨t'', rfl, hclose⟩ := List.map_eq_singleton_iff.1 hts₂
      obtain ⟨hkind, rfl⟩ := Token.of_word_name hx
      exact yields_parameterList_last (Token.kind_of_word_mark hint) hkind
        (Token.kind_of_word_mark hclose)
    | cons y ys =>
      rw [List.map_cons, commas, List.intercalate_cons_of_ne_nil (by simp), List.append_assoc,
        List.append_assoc, List.singleton_append] at hts
      obtain ⟨t, ts₁, rfl, hint, hts₁⟩ := List.map_eq_cons_iff.1 hts
      obtain ⟨t', ts₂, rfl, hx, hts₂⟩ := List.map_eq_cons_iff.1 hts₁
      obtain ⟨t'', ts₃, rfl, hcomma, hmore⟩ := List.map_eq_cons_iff.1 hts₂
      obtain ⟨hkind, rfl⟩ := Token.of_word_name hx
      exact yields_parameterList_more (Token.kind_of_word_mark hint) hkind
        (Token.kind_of_word_mark hcomma) (ih (List.cons_ne_nil _ _) hmore)

/-- A parameter list is read back, the empty one included. -/
theorem yields_parameters {ts : List Token}
    (hts : ts.map Token.word =
      commas (xs.map fun x => [.mark .int, .name x]) ++ [.mark .closeParen]) :
    Yields (parameters eof (ts ++ rest)) xs rest := by
  cases xs with
  | nil =>
    obtain ⟨t, rfl, hclose⟩ := List.map_eq_singleton_iff.1 hts
    have hpeek : peek ([t] ++ rest) = .closeParen := Token.kind_of_word_mark hclose
    refine ⟨by simp, ?_⟩
    rw [parameters, if_pos hpeek]
    rfl
  | cons x xs =>
    obtain ⟨h, hxs⟩ : Yields (parameterList eof (ts ++ rest)) (x :: xs) rest :=
      yields_parameterList (List.cons_ne_nil x xs) hts
    have hpeek : peek (ts ++ rest) ≠ .closeParen := by
      rw [parameterList] at hxs
      obtain ⟨r, hint, -⟩ := Except.bind_eq_ok_iff.1 hxs
      simp [peek_of_expect hint]
    refine ⟨Nat.le_of_lt h, ?_⟩
    rw [parameters, if_neg hpeek]
    exact Except.bind_eq_ok_iff.2 ⟨_, hxs, rfl⟩

/-- **A signature is read from its words,** if its parameters differ. -/
theorem yields_signature {proto : Prototype} {ts : List Token} (hparams : proto.params.Nodup)
    (hts : ts.map Token.word = proto.words) : Yields (signature eof (ts ++ rest)) proto rest := by
  obtain ⟨t, ts₁, rfl, hint, hts₁⟩ := List.map_eq_cons_iff.1 hts
  obtain ⟨t', ts₂, rfl, hf, hts₂⟩ := List.map_eq_cons_iff.1 hts₁
  obtain ⟨t'', ts₃, rfl, hopen, hts₃⟩ := List.map_eq_cons_iff.1 hts₂
  obtain ⟨hkind, hliteral⟩ := Token.of_word_name hf
  obtain ⟨h, hxs⟩ : Yields (parameters eof (ts₃ ++ rest)) proto.params rest := yields_parameters hts₃
  refine ⟨by simp only [List.cons_append, List.length_cons]; omega, ?_⟩
  rw [signature]
  refine Except.bind_eq_ok_iff.2 ⟨_, expect_eq (Token.kind_of_word_mark hint), ?_⟩
  refine Except.bind_eq_ok_iff.2 ⟨_, name_eq hkind, ?_⟩
  refine Except.bind_eq_ok_iff.2 ⟨_, expect_eq (Token.kind_of_word_mark hopen), ?_⟩
  refine Except.bind_eq_ok_iff.2 ⟨_, hxs, ?_⟩
  simp only [(Names.firstRepeated_eq_none_iff _).2 hparams, hliteral]
  rfl

/-! ### Bodies -/

/-- The local variables end before the first token that does not start a declaration. -/
theorem yields_locals_nil (h : peek ts ≠ .int) : Yields (locals eof vars ts) [] ts := by
  refine ⟨Nat.le_refl _, ?_⟩
  rw [locals, if_neg h]

/-- A declaration with a new name is followed by more of them. -/
theorem yields_locals_cons (hint : t.kind = .int) (hx : t'.kind = .identifier)
    (hsemi : t''.kind = .semicolon) (hnew : t'.literal ∉ vars)
    (hxs : Yields (locals eof (vars ++ [t'.literal]) ts) xs rest) :
    Yields (locals eof vars (t :: t' :: t'' :: ts)) (t'.literal :: xs) rest := by
  obtain ⟨h, hxs⟩ := hxs
  refine ⟨by simp only [List.length_cons]; omega, ?_⟩
  rw [locals, peek_cons, if_pos hint]
  refine Except.bind_eq_ok_iff.2 ⟨_, expect_eq hint, Except.bind_eq_ok_iff.2 ⟨_, name_eq hx, ?_⟩⟩
  simp only [if_neg hnew]
  refine Except.bind_eq_ok_iff.2 ⟨_, expect_eq hsemi, ?_⟩
  exact Except.bind_eq_ok_iff.2 ⟨_, hxs, rfl⟩

/-- Local variables are read from their words, if they differ from each other and from the variables
before them. -/
theorem yields_locals {ts : List Token} (hvars : (vars ++ xs).Nodup)
    (hts : ts.map Token.word = (xs.map (Decl.mk .local)).flatMap Decl.words)
    (hrest : peek rest ≠ .int) : Yields (locals eof vars (ts ++ rest)) xs rest := by
  induction xs generalizing ts vars with
  | nil =>
    obtain rfl := List.map_eq_nil_iff.1 hts
    exact yields_locals_nil hrest
  | cons x xs ih =>
    rw [List.map_cons, List.flatMap_cons] at hts
    obtain ⟨t, ts₁, rfl, hint, hts₁⟩ := List.map_eq_cons_iff.1 hts
    obtain ⟨t', ts₂, rfl, hx, hts₂⟩ := List.map_eq_cons_iff.1 hts₁
    obtain ⟨t'', ts₃, rfl, hsemi, hts₃⟩ := List.map_eq_cons_iff.1 hts₂
    obtain ⟨hkind, rfl⟩ := Token.of_word_name hx
    have hvars' : (vars ++ [t'.literal] ++ xs).Nodup := by simpa using hvars
    exact yields_locals_cons (Token.kind_of_word_mark hint) hkind (Token.kind_of_word_mark hsemi)
      (not_mem_of_nodup_append hvars) (ih hvars' hts₃)

/-- A return statement is its keyword, an expression and a semicolon. -/
theorem yields_ret (hret : t.kind = .ret) (he : Yields (expression sc 0 ts) e (t' :: rest))
    (hsemi : t'.kind = .semicolon) : Yields (statement sc (t :: ts)) (.ret e) rest := by
  obtain ⟨h, he⟩ := he
  refine ⟨by simp only [List.length_cons] at h ⊢; omega, ?_⟩
  rw [statement, peek_cons, if_pos hret]
  refine Except.bind_eq_ok_iff.2 ⟨_, expect_eq hret, Except.bind_eq_ok_iff.2 ⟨_, he, ?_⟩⟩
  exact Except.bind_eq_ok_iff.2 ⟨_, expect_eq hsemi, rfl⟩

/-- Any other statement is an expression and a semicolon. -/
theorem yields_expr (he : Yields (expression sc 0 ts) e (t' :: rest)) (hsemi : t'.kind = .semicolon) :
    Yields (statement sc ts) (.expr e) rest := by
  have hpeek : peek ts ≠ .ret := by
    rcases peek_of_expression he with hpeek | hpeek <;> simp [hpeek]
  obtain ⟨h, he⟩ := he
  refine ⟨by simp only [List.length_cons] at h; omega, ?_⟩
  rw [statement, if_neg hpeek]
  refine Except.bind_eq_ok_iff.2 ⟨_, he, ?_⟩
  exact Except.bind_eq_ok_iff.2 ⟨_, expect_eq hsemi, rfl⟩

/-- A statement is read from its words. -/
theorem yields_statement {s : Stmt} {ts : List Token} (hs : Accepts sc s.value)
    (hts : ts.map Token.word = s.words) : Yields (statement sc (ts ++ rest)) s rest := by
  cases s with
  | ret e =>
    obtain ⟨t, ts₁, rfl, hret, hts₁⟩ := List.map_eq_cons_iff.1 hts
    obtain ⟨ts₂, ts₃, rfl, he, hts₃⟩ := List.map_eq_append_iff.1 hts₁
    obtain ⟨t', rfl, hsemi⟩ := List.map_eq_singleton_iff.1 hts₃
    rw [List.cons_append, List.append_assoc, List.singleton_append]
    exact yields_ret (Token.kind_of_word_mark hret)
      (hs.yields e.tier_pos he (stops_of_mark hsemi rfl (by decide))) (Token.kind_of_word_mark hsemi)
  | expr e =>
    obtain ⟨ts₁, ts₂, rfl, he, hts₂⟩ := List.map_eq_append_iff.1 hts
    obtain ⟨t', rfl, hsemi⟩ := List.map_eq_singleton_iff.1 hts₂
    rw [List.append_assoc, List.singleton_append]
    exact yields_expr (hs.yields e.tier_pos he (stops_of_mark hsemi rfl (by decide)))
      (Token.kind_of_word_mark hsemi)

/-- A statement starts with a `return`, a constant or a name. -/
theorem peek_of_statement {s : Stmt} (h : Yields (statement sc ts) s rest) :
    peek ts = .ret ∨ peek ts = .constant ∨ peek ts = .identifier := by
  by_cases hret : peek ts = .ret
  · exact .inl hret
  · obtain ⟨_, h⟩ := h
    rw [statement, if_neg hret] at h
    obtain ⟨⟨e, r⟩, he, -⟩ := Except.bind_eq_ok_iff.1 h
    exact .inr (peek_of_expression ⟨r.2, he⟩)

/-- The statements end at the closing brace. -/
theorem yields_statements_nil (h : peek ts = .closeBrace) : Yields (statements sc ts) [] ts := by
  refine ⟨Nat.le_refl _, ?_⟩
  rw [statements]
  simp only [h]

/-- A statement is followed by more of them. -/
theorem yields_statements_cons {s : Stmt} {ss : List Stmt} (hs : Yields (statement sc ts) s ts₁)
    (hss : Yields (statements sc ts₁) ss rest) : Yields (statements sc ts) (s :: ss) rest := by
  have hpeek := peek_of_statement hs
  obtain ⟨h, hs⟩ := hs
  obtain ⟨h', hss⟩ := hss
  refine ⟨Nat.le_trans h' (Nat.le_of_lt h), ?_⟩
  rw [statements]
  rcases hpeek with hpeek | hpeek | hpeek
  all_goals
    simp only [hpeek]
    exact Except.bind_eq_ok_iff.2 ⟨_, hs, Except.bind_eq_ok_iff.2 ⟨_, hss, rfl⟩⟩

/-- Statements are read from their words, up to the brace that closes the body. -/
theorem yields_statements {ss : List Stmt} {ts : List Token} (hss : ∀ s ∈ ss, Accepts sc s.value)
    (hts : ts.map Token.word = ss.flatMap Stmt.words) (hrest : peek rest = .closeBrace) :
    Yields (statements sc (ts ++ rest)) ss rest := by
  induction ss generalizing ts with
  | nil =>
    obtain rfl := List.map_eq_nil_iff.1 hts
    exact yields_statements_nil hrest
  | cons s ss ih =>
    rw [List.forall_mem_cons] at hss
    rw [List.flatMap_cons] at hts
    obtain ⟨ts₁, ts₂, rfl, hs, hts₂⟩ := List.map_eq_append_iff.1 hts
    rw [List.append_assoc]
    exact yields_statements_cons (yields_statement hss.1 hs) (ih hss.2 hts₂)

/-- No statement starts like a declaration, so the local variables end where the statements start. -/
theorem peek_of_statements {ss : List Stmt} (h : Yields (statements sc ts) ss rest) :
    peek ts ≠ .int := by
  intro hint
  obtain ⟨_, h⟩ := h
  rw [statements] at h
  simp only [hint] at h
  obtain ⟨⟨s, r⟩, hs, -⟩ := Except.bind_eq_ok_iff.1 h
  have hpeek := peek_of_statement ⟨r.2, hs⟩
  rw [hint] at hpeek
  simp at hpeek

/-- **The body of a function in order is read from its words.** -/
theorem yields_body {program : Program} {f : Function} {ts : List Token} (hf : f.WellFormed program)
    (hplain : ∀ s ∈ f.stmts, s.value.Plain) (hts : ts.map Token.word = f.bodyWords) :
    Yields (body eof program f.prototype (ts ++ rest)) f rest := by
  obtain ⟨xs, hdecls⟩ := hf.decls
  have hvars : f.vars = f.prototype.params ++ xs := by
    simp [Function.vars, hdecls, Function.comp_def]
  have hlocals : f.decls.flatMap Decl.words = (xs.map (Decl.mk .local)).flatMap Decl.words := by
    simp [hdecls, Decl.words]
  rw [Function.bodyWords, hlocals] at hts
  obtain ⟨t, ts₁, rfl, hopen, hts₁⟩ := List.map_eq_cons_iff.1 hts
  obtain ⟨ts₂, ts₃, rfl, hxs, hts₃⟩ := List.map_eq_append_iff.1 hts₁
  obtain ⟨ts₄, ts₅, rfl, hss, hts₅⟩ := List.map_eq_append_iff.1 hts₃
  obtain ⟨t', rfl, hclose⟩ := List.map_eq_singleton_iff.1 hts₅
  rw [List.cons_append, List.append_assoc, List.append_assoc, List.singleton_append]
  have hclose := Token.kind_of_word_mark hclose
  have haccepts : ∀ s ∈ f.stmts, Accepts ⟨eof, program, f.prototype.params ++ xs⟩ s.value := by
    intro s hs
    exact accepts_expr (hplain s hs) (hvars ▸ hf.stmts s hs)
  have hstmts : Yields (statements ⟨eof, program, f.prototype.params ++ xs⟩ (ts₄ ++ t' :: rest))
      f.stmts (t' :: rest) := yields_statements haccepts hss hclose
  obtain ⟨h₁, hlocals⟩ : Yields (locals eof f.prototype.params (ts₂ ++ (ts₄ ++ t' :: rest))) xs
      (ts₄ ++ t' :: rest) := yields_locals (hvars ▸ hf.vars) hxs (peek_of_statements hstmts)
  obtain ⟨h₂, hstmts⟩ := hstmts
  have hfunction : (⟨f.prototype, declarations f.prototype.params xs, f.stmts⟩ : Function) = f := by
    rw [declarations, ← hdecls]
  refine ⟨by simp only [List.length_cons] at h₁ h₂ ⊢; omega, ?_⟩
  rw [body]
  refine Except.bind_eq_ok_iff.2 ⟨_, expect_eq (Token.kind_of_word_mark hopen), ?_⟩
  refine Except.bind_eq_ok_iff.2 ⟨_, hlocals, Except.bind_eq_ok_iff.2 ⟨_, hstmts, ?_⟩⟩
  dsimp only
  rw [if_pos hf.returns]
  refine Except.bind_eq_ok_iff.2 ⟨_, expect_eq hclose, ?_⟩
  dsimp only
  rw [hfunction]
  rfl

/-! ### Items -/

/-- A body starts with a brace. -/
theorem peek_of_body {program : Program} {proto : Prototype} {f : Function} {r : Shorter ts}
    (h : body eof program proto ts = .ok (f, r)) : peek ts = .openBrace := by
  rw [body] at h
  obtain ⟨r₁, hopen, -⟩ := Except.bind_eq_ok_iff.1 h
  exact peek_of_expect hopen

/-- A signature starts with a type. -/
theorem peek_of_signature {proto : Prototype} {r : Shorter ts}
    (h : signature eof ts = .ok (proto, r)) : peek ts = .int := by
  rw [signature] at h
  obtain ⟨r₁, hint, -⟩ := Except.bind_eq_ok_iff.1 h
  exact peek_of_expect hint

variable {program p : Program}

/-- **A declaration that agrees with the program so far is read,** and the reading goes on. -/
theorem items_declaration {proto : Prototype} {ts : List Token} (hparams : proto.params.Nodup)
    (hcheck : checkDeclaration program proto = none)
    (hts : ts.map Token.word = (Item.declaration proto).words)
    (h : items eof ⟨program.prototypes ++ [proto], program.functions⟩ rest = .ok p) :
    items eof program (ts ++ rest) = .ok p := by
  obtain ⟨ts₁, ts₂, rfl, hsig, hts₂⟩ := List.map_eq_append_iff.1 hts
  obtain ⟨t, rfl, hsemi⟩ := List.map_eq_singleton_iff.1 hts₂
  rw [List.append_assoc, List.singleton_append]
  obtain ⟨_, hsig⟩ : Yields (signature eof (ts₁ ++ t :: rest)) proto (t :: rest) :=
    yields_signature hparams hsig
  rw [items]
  simp only [peek_of_signature hsig]
  refine Except.bind_eq_ok_iff.2 ⟨_, hsig, ?_⟩
  simp only [peek_cons, Token.kind_of_word_mark hsemi, hcheck]
  exact h

/-- **A definition that agrees with the program so far is read,** and the reading goes on. -/
theorem items_definition {f : Function} {ts : List Token} (hf : f.WellFormed program)
    (hplain : ∀ s ∈ f.stmts, s.value.Plain) (hcheck : checkDefinition program f.prototype = none)
    (hts : ts.map Token.word = (Item.definition f).words)
    (h : items eof ⟨program.prototypes, program.functions ++ [f]⟩ rest = .ok p) :
    items eof program (ts ++ rest) = .ok p := by
  obtain ⟨ts₁, ts₂, rfl, hsig, hbody⟩ := List.map_eq_append_iff.1 hts
  rw [List.append_assoc]
  obtain ⟨_, hsig⟩ : Yields (signature eof (ts₁ ++ (ts₂ ++ rest))) f.prototype (ts₂ ++ rest) :=
    yields_signature hf.nodup_params hsig
  obtain ⟨_, hbody⟩ : Yields (body eof program f.prototype (ts₂ ++ rest)) f rest :=
    yields_body hf hplain hbody
  rw [items]
  simp only [peek_of_signature hsig]
  refine Except.bind_eq_ok_iff.2 ⟨_, hsig, ?_⟩
  simp only [peek_of_body hbody, hcheck]
  exact Except.bind_eq_ok_iff.2 ⟨(), rfl, Except.bind_eq_ok_iff.2 ⟨_, hbody, h⟩⟩

end Parser
end Source
end Straightline
