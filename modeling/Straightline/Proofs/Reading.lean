/-
# What a successful reading consists of

Each reader of `Source.Parser` that succeeds has gone one of a few ways, and each of its parts has
succeeded before it.  One lemma for each reader says so (`expression_eq_ok`, `operators_eq_ok`, …); the
proofs about what is read use these and do not open the readers.

The readers of expressions call each other; `expression_induct` is the induction along them.  So a
property of expressions, which may depend on how tightly the operators had to bind, holds of all that
is read if the readers' ways to build an expression keep it (`Keeps`, `expression_keeps`).  A name
before an opening parenthesis is the one thing that is read before it is known to be good; the call
that follows replaces it.  An operator is never followed by one that binds tighter, since that would
have been read with the operand before it (`expression_stop`).  What is kept by each declaration and
each definition holds of the whole program (`items_induct`).
-/

import Straightline.Proofs.Basic
import Straightline.Source.Parser

namespace Straightline
namespace Source

/-- How tightly an expression holds together: as its outermost operator binds, or tighter than any
operator if it has none. -/
def Expr.tier : Expr → Nat
  | .binary op _ _ => op.tier
  | _ => 3

/-- No operator binds as tight as an operand. -/
theorem BinaryOp.tier_lt_three (op : BinaryOp) : op.tier < 3 := by
  cases op <;> decide

namespace Parser

open Token (Kind)

variable {eof : Token} {sc : Scope} {floor line : Nat} {ts : List Token} {t : Token}
  {e left : Expr}

/-! ### Expressions -/

/-- An operand is a constant that fits, or a name that is a variable or is called. -/
theorem primary_eq_ok {r : Shorter ts} (h : primary sc ts = .ok (e, r)) :
    (∃ t rest n, ts = t :: rest ∧ t.kind = .constant ∧ Text.readInt32 t.literal.toList = some n ∧
      e = .const n ∧ r.1 = rest) ∨
    ∃ t rest, ts = t :: rest ∧ t.kind = .identifier ∧
      (peek rest = .openParen ∨ t.literal ∈ sc.vars) ∧ e = .var t.literal ∧ r.1 = rest := by
  cases ts with
  | nil => cases h
  | cons t rest =>
    simp only [primary] at h
    split at h
    · rename_i hkind
      split at h
      · rename_i n hn
        cases h
        exact .inl ⟨t, rest, n, rfl, hkind, hn, rfl, rfl⟩
      · cases h
    · rename_i hkind
      split at h
      · rename_i hvar
        cases h
        exact .inr ⟨t, rest, rfl, hkind, hvar, rfl, rfl⟩
      · cases h
    · cases h

/-- Only a variable is assigned. -/
theorem join_eq_ok {op : BinaryOp} {right : Expr} {rest : List Token}
    (h : join line op left right rest = .ok e) :
    e = .binary op left right ∧ (op = .assign → ∃ x, left = .var x) := by
  unfold join at h
  split at h
  · cases h
    exact ⟨rfl, fun _ => ⟨_, rfl⟩⟩
  · cases h
  · rename_i hop _
    cases h
    exact ⟨rfl, fun hassign => absurd hassign hop⟩

/-- Only a name is called. -/
theorem callee_eq_ok {f : String} {rest : List Token} (h : callee line e rest = .ok f) :
    e = .var f := by
  unfold callee at h
  split at h
  · cases h
    rfl
  · cases h

/-- A call has as many arguments as the function has parameters. -/
theorem checkCall_eq_ok {f : String} {args : List Expr} {rest : List Token}
    (h : checkCall sc line f args rest = .ok e) :
    e = .call f args ∧ sc.program.arity? f = some args.length := by
  unfold checkCall at h
  split at h
  · cases h
  · rename_i arity harity
    split at h
    · rename_i hlen
      cases h
      exact ⟨rfl, hlen ▸ harity⟩
    · cases h

/-- An expression is its first operand with the operators that follow. -/
theorem expression_eq_ok {r : Shorter ts} (h : expression sc floor ts = .ok (e, r)) :
    ∃ left r₁ r₂, primary sc ts = .ok (left, r₁) ∧ operators sc floor left r₁.1 = .ok (e, r₂) ∧
      r₂.1 = r.1 := by
  rw [expression] at h
  obtain ⟨⟨left, r₁⟩, hprim, h⟩ := Except.bind_eq_ok_iff.1 h
  obtain ⟨⟨e', r₂⟩, hops, h⟩ := Except.bind_eq_ok_iff.1 h
  cases h
  exact ⟨left, r₁, r₂, hprim, hops, rfl⟩

/-- After an expression stands a call, an operator that binds, or the end of what is read. -/
theorem operators_eq_ok {rest : List Token} {r : NoLonger (t :: rest)}
    (h : operators sc floor left (t :: rest) = .ok (e, r)) :
    (t.kind = .openParen ∧ ∃ f args r₁ r₂, left = .var f ∧ arguments sc rest = .ok (args, r₁) ∧
      sc.program.arity? f = some args.length ∧
        operators sc floor (.call f args) r₁.1 = .ok (e, r₂) ∧ r₂.1 = r.1) ∨
    (t.kind ≠ .openParen ∧ ∃ op right r₁ r₂, operator? t.kind = some op ∧ floor < op.tier ∧
      expression sc op.tier rest = .ok (right, r₁) ∧ (op = .assign → ∃ x, left = .var x) ∧
        operators sc floor (.binary op left right) r₁.1 = .ok (e, r₂) ∧ r₂.1 = r.1) ∨
    (t.kind ≠ .openParen ∧ (∀ op, operator? t.kind = some op → ¬floor < op.tier) ∧ e = left ∧
      r.1 = t :: rest) := by
  rw [operators] at h
  split at h
  · rename_i hparen
    obtain ⟨f, hf, h⟩ := Except.bind_eq_ok_iff.1 h
    obtain ⟨⟨args, r₁⟩, hargs, h⟩ := Except.bind_eq_ok_iff.1 h
    obtain ⟨call, hcall, h⟩ := Except.bind_eq_ok_iff.1 h
    obtain ⟨⟨e', r₂⟩, hops, h⟩ := Except.bind_eq_ok_iff.1 h
    cases h
    obtain ⟨rfl, harity⟩ := checkCall_eq_ok hcall
    exact .inl ⟨hparen, f, args, r₁, r₂, callee_eq_ok hf, hargs, harity, hops, rfl⟩
  · rename_i hparen
    split at h
    · rename_i hnone
      cases h
      exact .inr (.inr ⟨hparen, fun op hop => absurd (hnone.symm.trans hop) (by simp), rfl, rfl⟩)
    · rename_i op hop
      split at h
      · rename_i htier
        obtain ⟨⟨right, r₁⟩, hright, h⟩ := Except.bind_eq_ok_iff.1 h
        obtain ⟨node, hnode, h⟩ := Except.bind_eq_ok_iff.1 h
        obtain ⟨⟨e', r₂⟩, hops, h⟩ := Except.bind_eq_ok_iff.1 h
        cases h
        obtain ⟨rfl, htarget⟩ := join_eq_ok hnode
        exact .inr (.inl ⟨hparen, op, right, r₁, r₂, hop, htier, hright, htarget, hops, rfl⟩)
      · rename_i htier
        cases h
        refine .inr (.inr ⟨hparen, fun op' hop' => ?_, rfl, rfl⟩)
        obtain rfl := Option.some.inj (hop.symm.trans hop')
        exact htier

/-- An argument is followed by a comma and more of them, or by the parenthesis. -/
theorem argumentList_eq_ok {args : List Expr} {r : Shorter ts}
    (h : argumentList sc ts = .ok (args, r)) :
    ∃ arg r₁, expression sc 0 ts = .ok (arg, r₁) ∧
      ((peek r₁.1 = .comma ∧ ∃ args' r₂, argumentList sc r₁.1.tail = .ok (args', r₂) ∧
        args = arg :: args' ∧ r₂.1 = r.1) ∨
      (peek r₁.1 = .closeParen ∧ args = [arg] ∧ r.1 = r₁.1.tail)) := by
  rw [argumentList] at h
  obtain ⟨⟨arg, r₁⟩, harg, h⟩ := Except.bind_eq_ok_iff.1 h
  refine ⟨arg, r₁, harg, ?_⟩
  dsimp only at h
  split at h
  · rename_i hcomma
    obtain ⟨⟨args', r₂⟩, hargs, h⟩ := Except.bind_eq_ok_iff.1 h
    cases h
    exact .inl ⟨hcomma, args', r₂, hargs, rfl, rfl⟩
  · rename_i hclose
    cases h
    exact .inr ⟨hclose, rfl, rfl⟩
  · cases h

/-- Arguments are none, or a list of them. -/
theorem arguments_eq_ok {args : List Expr} {r : NoLonger ts}
    (h : arguments sc ts = .ok (args, r)) :
    (peek ts = .closeParen ∧ args = [] ∧ r.1 = ts.tail) ∨
      (peek ts ≠ .closeParen ∧ ∃ r₁, argumentList sc ts = .ok (args, r₁) ∧ r₁.1 = r.1) := by
  rw [arguments] at h
  split at h
  · rename_i hclose
    cases h
    exact .inl ⟨hclose, rfl, rfl⟩
  · rename_i hclose
    obtain ⟨⟨args', r₁⟩, hargs, h⟩ := Except.bind_eq_ok_iff.1 h
    cases h
    exact .inr ⟨hclose, r₁, hargs, rfl⟩

/-- **What holds of each way to read an expression holds of every expression that is read.**  There is
one property for each reader: of expressions (`E`), of the operators after one (`O`), of the arguments of
a call (`A`) and of one or more of them (`L`).  Each is about what the reader is given, what it
returns, and the tokens that it leaves. -/
theorem expression_induct
    {E : Nat → List Token → Expr → List Token → Prop}
    {O : Nat → Expr → List Token → Expr → List Token → Prop}
    {A L : List Token → List Expr → List Token → Prop}
    (hexpression : ∀ floor ts left (r : Shorter ts) e rest, primary sc ts = .ok (left, r) →
      O floor left r.1 e rest → E floor ts e rest)
    (hend : ∀ floor left, O floor left [] left [])
    (hcall : ∀ floor f t ts args ts₁ e rest, t.kind = .openParen → A ts args ts₁ →
      sc.program.arity? f = some args.length → O floor (.call f args) ts₁ e rest →
        O floor (.var f) (t :: ts) e rest)
    (hbinary : ∀ floor left t ts op right (r : Shorter ts) e rest, t.kind ≠ .openParen →
      operator? t.kind = some op → floor < op.tier → expression sc op.tier ts = .ok (right, r) →
        E op.tier ts right r.1 → (op = .assign → ∃ x, left = .var x) →
          O floor (.binary op left right) r.1 e rest → O floor left (t :: ts) e rest)
    (hstop : ∀ floor left t ts, t.kind ≠ .openParen →
      (∀ op, operator? t.kind = some op → ¬floor < op.tier) → O floor left (t :: ts) left (t :: ts))
    (hnone : ∀ ts, peek ts = .closeParen → A ts [] ts.tail)
    (hsome : ∀ ts args rest, L ts args rest → A ts args rest)
    (hmore : ∀ ts arg ts₁ args rest, E 0 ts arg ts₁ → peek ts₁ = .comma → L ts₁.tail args rest →
      L ts (arg :: args) rest)
    (hlast : ∀ ts arg ts₁, E 0 ts arg ts₁ → peek ts₁ = .closeParen → L ts [arg] ts₁.tail)
    {r : Shorter ts} (h : expression sc floor ts = .ok (e, r)) : E floor ts e r.1 := by
  refine (expression.mutual_induct
    (fun floor ts => ∀ e r, expression sc floor ts = .ok (e, r) → E floor ts e r.1)
    (fun floor left ts => ∀ e r, operators sc floor left ts = .ok (e, r) → O floor left ts e r.1)
    (fun ts => ∀ args r, arguments sc ts = .ok (args, r) → A ts args r.1)
    (fun ts => ∀ args r, argumentList sc ts = .ok (args, r) → L ts args r.1)
    ?_ ?_ ?_ ?_ ?_ ?_ ?_ ?_ ?_).1 floor ts e r h
  · intro floor ts ih e r h
    obtain ⟨left, r₁, r₂, hprim, hops, hr⟩ := expression_eq_ok h
    rw [← hr]
    exact hexpression floor ts left r₁ e r₂.1 hprim (ih left r₁.1 r₁.2 e r₂ hops)
  · intro floor left e r h
    rw [operators] at h
    cases h
    exact hend floor left
  · intro floor left t rest hparen ihargs ihops e r h
    rcases operators_eq_ok h with ⟨-, f, args, r₁, r₂, rfl, hargs, harity, hops, hr⟩ |
      ⟨hne, _⟩ | ⟨hne, _⟩
    · rw [← hr]
      exact hcall floor f t rest args r₁.1 e r₂.1 hparen (ihargs args r₁ hargs) harity
        (ihops r₁.1 r₁.2 _ e r₂ hops)
    · exact absurd hparen hne
    · exact absurd hparen hne
  · intro floor left t rest hparen hnone e r h
    rcases operators_eq_ok h with ⟨hpar, _⟩ | ⟨-, op, _, _, _, hop, _⟩ | ⟨-, hno, rfl, hr⟩
    · exact absurd hpar hparen
    · exact absurd (hnone.symm.trans hop) (by simp)
    · rw [hr]
      exact hstop floor e t rest hparen hno
  · intro floor left t rest hparen op hop htier ihright ihops e r h
    rcases operators_eq_ok h with
      ⟨hpar, _⟩ | ⟨-, op', right, r₁, r₂, hop', -, hright, htarget, hops, hr⟩ | ⟨-, hno, _⟩
    · exact absurd hpar hparen
    · obtain rfl := Option.some.inj (hop.symm.trans hop')
      rw [← hr]
      exact hbinary floor left t rest op right r₁ e r₂.1 hparen hop htier hright
        (ihright right r₁ hright) htarget (ihops r₁.1 r₁.2 _ e r₂ hops)
    · exact absurd htier (hno op hop)
  · intro floor left t rest hparen op hop htier e r h
    rcases operators_eq_ok h with ⟨hpar, _⟩ | ⟨-, op', _, _, _, hop', htier', _⟩ | ⟨-, hno, rfl, hr⟩
    · exact absurd hpar hparen
    · obtain rfl := Option.some.inj (hop.symm.trans hop')
      exact absurd htier' htier
    · rw [hr]
      exact hstop floor e t rest hparen hno
  · intro ts hclose args r h
    rcases arguments_eq_ok h with ⟨-, rfl, hr⟩ | ⟨hne, _⟩
    · rw [hr]
      exact hnone ts hclose
    · exact absurd hclose hne
  · intro ts hclose ih args r h
    rcases arguments_eq_ok h with ⟨hpeek, _⟩ | ⟨-, r₁, hargs, hr⟩
    · exact absurd hpeek hclose
    · rw [← hr]
      exact hsome ts args r₁.1 (ih args r₁ hargs)
  · intro ts iharg ihargs args r h
    obtain ⟨arg, r₁, harg, ⟨hcomma, args', r₂, hargs, rfl, hr⟩ | ⟨hclose, rfl, hr⟩⟩ :=
      argumentList_eq_ok h
    · rw [← hr]
      exact hmore ts arg r₁.1 args' r₂.1 (iharg arg r₁ harg) hcomma
        (ihargs r₁.1 r₁.2 args' r₂ hargs)
    · rw [hr]
      exact hlast ts arg r₁.1 (iharg arg r₁ harg) hclose

/-- **The reading of an expression goes on as long as operators bind:** what follows it is no operator
that binds tighter than `floor`. -/
theorem expression_stop {r : Shorter ts} (h : expression sc floor ts = .ok (e, r)) :
    ∀ op, operator? (peek r.1) = some op → op.tier ≤ floor := by
  refine expression_induct
    (E := fun floor _ _ rest => ∀ op, operator? (peek rest) = some op → op.tier ≤ floor)
    (O := fun floor _ _ _ rest => ∀ op, operator? (peek rest) = some op → op.tier ≤ floor)
    (A := fun _ _ _ => True) (L := fun _ _ _ => True)
    ?_ ?_ ?_ ?_ ?_ (by simp) (by simp) (by simp) (by simp) h
  · exact fun floor ts left r e rest _ hops => hops
  · intro floor left op hop
    cases hop
  · exact fun floor f t ts args ts₁ e rest _ _ _ hops => hops
  · exact fun floor left t ts op right r e rest _ _ _ _ _ _ hops => hops
  · intro floor left t ts _ hno op hop
    exact Nat.le_of_not_lt (hno op hop)

/-- A property of expressions, by how tightly their operators had to bind, that the readers of
expressions keep. -/
structure Keeps (sc : Scope) (Q : Nat → Expr → Prop) : Prop where
  const : ∀ floor n, Q floor (.const n)
  var : ∀ floor x, x ∈ sc.vars → Q floor (.var x)
  call : ∀ floor f args, sc.program.arity? f = some args.length → (∀ a ∈ args, Q 0 a) →
    Q floor (.call f args)
  binary : ∀ floor op left right, floor < op.tier → op.tier ≤ left.tier → Q floor left →
    Q op.tier right → (op = .assign → ∃ x, left = .var x) → Q floor (.binary op left right)

/-- An expression that operators may still follow: it has the property and no operator after it binds
tighter than it holds together, or it is a name that is about to be called. -/
def Pending (Q : Nat → Expr → Prop) (floor : Nat) (left : Expr) (ts : List Token) : Prop :=
  (Q floor left ∧ ∀ op, operator? (peek ts) = some op → op.tier ≤ left.tier) ∨
    ((∃ x, left = .var x) ∧ peek ts = .openParen)

/-- What binds tightest can be followed by any operator. -/
theorem pending_of_tier {Q : Nat → Expr → Prop} (h : Q floor left) (htier : left.tier = 3) :
    Pending Q floor left ts := by
  refine .inl ⟨h, fun op _ => ?_⟩
  have := op.tier_lt_three
  omega

/-- Where no argument list follows, the operators that follow bind no tighter. -/
theorem Pending.of_ne_openParen {Q : Nat → Expr → Prop} (h : Pending Q floor left ts)
    (hts : peek ts ≠ .openParen) :
    Q floor left ∧ ∀ op, operator? (peek ts) = some op → op.tier ≤ left.tier := by
  rcases h with hleft | ⟨-, hpeek⟩
  · exact hleft
  · exact absurd hpeek hts

/-- An operand can be followed by any operator, and a name by arguments. -/
theorem pending_of_primary {Q : Nat → Expr → Prop} (hQ : Keeps sc Q) {r : Shorter ts}
    (h : primary sc ts = .ok (left, r)) : Pending Q floor left r.1 := by
  rcases primary_eq_ok h with ⟨t, rest, n, -, -, -, rfl, -⟩ |
    ⟨t, rest, -, -, hparen | hvar, rfl, hrest⟩
  · exact pending_of_tier (hQ.const floor n) rfl
  · exact .inr ⟨⟨_, rfl⟩, hrest ▸ hparen⟩
  · exact pending_of_tier (hQ.var floor _ hvar) rfl

/-- **What the readers of expressions keep holds of every expression that is read.** -/
theorem expression_keeps {Q : Nat → Expr → Prop} (hQ : Keeps sc Q) {r : Shorter ts}
    (h : expression sc floor ts = .ok (e, r)) : Q floor e := by
  refine expression_induct (E := fun floor _ e _ => Q floor e)
    (O := fun floor left ts e _ => Pending Q floor left ts → Q floor e)
    (A := fun _ args _ => ∀ a ∈ args, Q 0 a) (L := fun _ args _ => ∀ a ∈ args, Q 0 a)
    ?_ ?_ ?_ ?_ ?_ ?_ ?_ ?_ ?_ h
  · intro floor ts left r e rest hprim hops
    exact hops (pending_of_primary hQ hprim)
  · intro floor left hleft
    exact (hleft.of_ne_openParen (by decide)).1
  · intro floor f t ts args ts₁ e rest _ hargs harity hops _
    exact hops (pending_of_tier (hQ.call floor f args harity hargs) rfl)
  · intro floor left t ts op right r e rest hparen hop htier hread hright htarget hops hleft
    obtain ⟨hQleft, hbinds⟩ := hleft.of_ne_openParen hparen
    have hnode := hQ.binary floor op left right htier (hbinds op hop) hQleft hright htarget
    exact hops (.inl ⟨hnode, expression_stop hread⟩)
  · intro floor left t ts hparen _ hleft
    exact (hleft.of_ne_openParen hparen).1
  · exact fun ts _ a ha => absurd ha List.not_mem_nil
  · exact fun ts args rest hargs => hargs
  · intro ts arg ts₁ args rest harg _ hargs
    rw [List.forall_mem_cons]
    exact ⟨harg, hargs⟩
  · intro ts arg ts₁ harg _
    rw [List.forall_mem_singleton]
    exact harg

/-! ### Signatures and bodies -/

/-- The parameters of a signature are distinct. -/
theorem signature_eq_ok {proto : Prototype} {r : Shorter ts}
    (h : signature eof ts = .ok (proto, r)) : proto.params.Nodup := by
  rw [signature] at h
  obtain ⟨r₁, -, h⟩ := Except.bind_eq_ok_iff.1 h
  obtain ⟨⟨f, r₂⟩, -, h⟩ := Except.bind_eq_ok_iff.1 h
  obtain ⟨r₃, -, h⟩ := Except.bind_eq_ok_iff.1 h
  obtain ⟨⟨params, r₄⟩, -, h⟩ := Except.bind_eq_ok_iff.1 h
  dsimp only at h
  split at h
  · cases h
  · rename_i hnone
    cases h
    exact (Names.firstRepeated_eq_none_iff params).1 hnone

/-- The local variables differ from each other and from the variables before them. -/
theorem nodup_of_locals_eq_ok {vars xs : List String} {r : NoLonger ts} (hvars : vars.Nodup)
    (h : locals eof vars ts = .ok (xs, r)) : (vars ++ xs).Nodup := by
  induction vars, ts using locals.induct generalizing xs with
  | case2 vars ts hint =>
    rw [locals, if_neg hint] at h
    cases h
    rwa [List.append_nil]
  | case1 vars ts hint ih =>
    rw [locals, if_pos hint] at h
    obtain ⟨r₁, -, h⟩ := Except.bind_eq_ok_iff.1 h
    obtain ⟨⟨x, r₂⟩, -, h⟩ := Except.bind_eq_ok_iff.1 h
    dsimp only at h
    split at h
    · cases h
    · rename_i hx
      obtain ⟨r₃, -, h⟩ := Except.bind_eq_ok_iff.1 h
      obtain ⟨⟨xs', r₄⟩, hxs, h⟩ := Except.bind_eq_ok_iff.1 h
      cases h
      have hnew : (vars ++ [x]).Nodup := by
        rw [List.nodup_append]
        refine ⟨hvars, by simp, fun y hy z hz => ?_⟩
        rw [List.mem_singleton] at hz
        rintro rfl
        exact hx (hz ▸ hy)
      have hall := ih r₁.1 r₁.2 x r₂.1 r₂.2 r₃.1 r₃.2 hnew hxs
      rwa [List.append_assoc] at hall

/-- What is kept for expressions holds of that in a statement. -/
theorem statement_keeps {Q : Nat → Expr → Prop} (hQ : Keeps sc Q) {s : Stmt} {r : Shorter ts}
    (h : statement sc ts = .ok (s, r)) : Q 0 s.value := by
  rw [statement] at h
  split at h
  · obtain ⟨r₁, -, h⟩ := Except.bind_eq_ok_iff.1 h
    obtain ⟨⟨e, r₂⟩, he, h⟩ := Except.bind_eq_ok_iff.1 h
    obtain ⟨r₃, -, h⟩ := Except.bind_eq_ok_iff.1 h
    cases h
    exact expression_keeps hQ he
  · obtain ⟨⟨e, r₁⟩, he, h⟩ := Except.bind_eq_ok_iff.1 h
    obtain ⟨r₂, -, h⟩ := Except.bind_eq_ok_iff.1 h
    cases h
    exact expression_keeps hQ he

/-- What is kept for expressions holds of those in all statements. -/
theorem statements_keeps {Q : Nat → Expr → Prop} (hQ : Keeps sc Q) {ss : List Stmt}
    {r : NoLonger ts} (h : statements sc ts = .ok (ss, r)) : ∀ s ∈ ss, Q 0 s.value := by
  induction ts using statements.induct generalizing ss with
  | case1 ts hclose =>
    rw [statements] at h
    simp only [hclose] at h
    cases h
    intro s hs
    cases hs
  | case2 ts heof =>
    rw [statements] at h
    simp only [heof] at h
    cases h
  | case3 ts hclose heof ih =>
    rw [statements] at h
    split at h
    · rename_i hpeek
      exact absurd hpeek hclose
    · rename_i hpeek
      exact absurd hpeek heof
    · obtain ⟨⟨s, r₁⟩, hs, h⟩ := Except.bind_eq_ok_iff.1 h
      obtain ⟨⟨ss', r₂⟩, hss, h⟩ := Except.bind_eq_ok_iff.1 h
      cases h
      rw [List.forall_mem_cons]
      exact ⟨statement_keeps hQ hs, ih r₁.1 r₁.2 hss⟩

/-- A body holds declarations of the parameters and of local variables, and statements in their scope
of which the last one returns. -/
theorem body_eq_ok {program : Program} {proto : Prototype} {f : Function} {r : Shorter ts}
    (h : body eof program proto ts = .ok (f, r)) :
    ∃ vars, f.prototype = proto ∧ f.decls = declarations proto.params vars ∧
      f.stmts.getLast?.any Stmt.isReturn = true ∧ ∃ r₁ r₂ r₃ r₄,
        expect eof .openBrace ts = .ok r₁ ∧ locals eof proto.params r₁.1 = .ok (vars, r₂) ∧
          statements ⟨eof, program, proto.params ++ vars⟩ r₂.1 = .ok (f.stmts, r₃) ∧
            expect eof .closeBrace r₃.1 = .ok r₄ ∧ r₄.1 = r.1 := by
  rw [body] at h
  obtain ⟨r₁, hopen, h⟩ := Except.bind_eq_ok_iff.1 h
  obtain ⟨⟨vars, r₂⟩, hvars, h⟩ := Except.bind_eq_ok_iff.1 h
  obtain ⟨⟨stmts, r₃⟩, hstmts, h⟩ := Except.bind_eq_ok_iff.1 h
  dsimp only at h
  split at h
  · rename_i hret
    obtain ⟨r₄, hclose, h⟩ := Except.bind_eq_ok_iff.1 h
    cases h
    exact ⟨vars, rfl, rfl, hret, r₁, r₂, r₃, r₄, hopen, hvars, hstmts, hclose, rfl⟩
  · cases h

/-! ### Items -/

/-- A check that passes found nothing. -/
theorem check_eq_ok {rest : List Token} {cause : Option Cause} {u : Unit}
    (h : check line rest cause = .ok u) : cause = none := by
  cases cause with
  | none => rfl
  | some c => cases h

/-- A declaration is right if its name is not declared, and not defined with another number of
parameters. -/
theorem checkDeclaration_eq_none_iff {program : Program} {proto : Prototype} :
    checkDeclaration program proto = none ↔ program.prototype? proto.name = none ∧
      ∀ f, program.function? proto.name = some f → f.arity = proto.arity := by
  unfold checkDeclaration
  cases program.prototype? proto.name with
  | some q => simp
  | none =>
    cases program.function? proto.name with
    | none => simp
    | some f => by_cases h : f.arity = proto.arity <;> simp [h]

/-- A definition is right if its name is not defined, and not declared with another number of
parameters. -/
theorem checkDefinition_eq_none_iff {program : Program} {proto : Prototype} :
    checkDefinition program proto = none ↔ program.function? proto.name = none ∧
      ∀ q, program.prototype? proto.name = some q → q.arity = proto.arity := by
  unfold checkDefinition
  cases program.prototype? proto.name with
  | none => simp
  | some q => by_cases h : q.arity = proto.arity <;> simp [Option.filter, h]

/-- **What holds at the start of a reading, and is kept by each declaration and each definition that
is read and let through, holds at its end.**  The property is one of the program so far and the tokens
that are left. -/
theorem items_induct {P : Program → List Token → Prop}
    (hdeclare : ∀ program ts proto (r : Shorter ts), P program ts →
      signature eof ts = .ok (proto, r) → peek r.1 = .semicolon →
        checkDeclaration program proto = none →
          P ⟨program.prototypes ++ [proto], program.functions⟩ r.1.tail)
    (hdefine : ∀ program ts f (r : Shorter ts) (r' : Shorter r.1), P program ts →
      signature eof ts = .ok (f.prototype, r) → checkDefinition program f.prototype = none →
        body eof program f.prototype r.1 = .ok (f, r') →
          P ⟨program.prototypes, program.functions ++ [f]⟩ r'.1)
    {program p : Program} (hstart : P program ts) (h : items eof program ts = .ok p) :
    ∃ rest, P p rest ∧ peek rest = .eof := by
  induction program, ts using items.induct eof with
  | case2 program ts heof =>
    rw [items] at h
    simp only [heof] at h
    cases h
    exact ⟨ts, hstart, heof⟩
  | case3 program ts hint heof =>
    rw [items] at h
    split at h
    · rename_i hpeek
      exact absurd hpeek hint
    · rename_i hpeek
      exact absurd hpeek heof
    · cases h
  | case1 program ts hint ihdeclare ihdefine =>
    rw [items] at h
    simp only [hint] at h
    obtain ⟨⟨proto, r⟩, hsig, h⟩ := Except.bind_eq_ok_iff.1 h
    dsimp only at h
    split at h
    · rename_i hpeek
      obtain ⟨_, hcheck, h⟩ := Except.bind_eq_ok_iff.1 h
      have hnext := hdeclare program ts proto r hstart hsig hpeek (check_eq_ok hcheck)
      exact ihdeclare proto r.1 r.2 hnext h
    · obtain ⟨_, hcheck, h⟩ := Except.bind_eq_ok_iff.1 h
      obtain ⟨⟨f, r'⟩, hbody, hrest⟩ := Except.bind_eq_ok_iff.1 h
      obtain ⟨vars, rfl, -⟩ := body_eq_ok hbody
      have hnext := hdefine program ts f r r' hstart hsig (check_eq_ok hcheck) hbody
      exact ihdefine r.1 r.2 f r'.1 r'.2 hnext hrest
    · cases h

/-- **What holds of the program at the start, and is kept by each declaration and each definition that
the checks let through, holds of the program that is read.** -/
theorem items_keep {P : Program → Prop}
    (hdeclare : ∀ program proto, P program → proto.params.Nodup →
      checkDeclaration program proto = none →
        P ⟨program.prototypes ++ [proto], program.functions⟩)
    (hdefine : ∀ program f (ts : List Token) (r : Shorter ts), P program →
      f.prototype.params.Nodup → checkDefinition program f.prototype = none →
        body eof program f.prototype ts = .ok (f, r) →
          P ⟨program.prototypes, program.functions ++ [f]⟩)
    {program p : Program} (hstart : P program) (h : items eof program ts = .ok p) : P p := by
  obtain ⟨rest, hp, -⟩ := items_induct (P := fun program _ => P program)
    (fun program ts proto r hprogram hsig _ hcheck =>
      hdeclare program proto hprogram (signature_eq_ok hsig) hcheck)
    (fun program ts f r r' hprogram hsig hcheck hbody =>
      hdefine program f r.1 r' hprogram (signature_eq_ok hsig) hcheck hbody) hstart h
  exact hp

end Parser

/-- A text is parsed through its tokens. -/
theorem parse_eq_ok_iff {source : String} {p : Program} :
    parse source = .ok p ↔ parseTokens (Token.lex source) = .ok p :=
  Except.mapError_eq_ok_iff

end Source
end Straightline
