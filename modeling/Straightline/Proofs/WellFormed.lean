/-
# The programs that can be read

A program that is read from a text is well formed (`Program.WellFormed`): names are declared once and
defined once, with the same number of parameters; the variables of a function differ from each
other; and its statements, of which the last one returns, use its variables and call only what was
declared, or defined before it, with as many arguments as it takes (`Expr.Scoped`).

The reader checks names against the program read so far.  A definition may be read before the
prototypes that follow it, so what it calls is looked up in a longer list later on;
`Program.arity?_declare` says that this does not change what was found.
-/

import Straightline.Proofs.Reading

namespace Straightline
namespace Source

/-- An expression over variables that calls functions of a program with their arities, and assigns to
variables only. -/
inductive Expr.Scoped (p : Program) (vars : List String) : Expr → Prop
  | const (n : Int32) : Scoped p vars (.const n)
  | var {x : String} (hx : x ∈ vars) : Scoped p vars (.var x)
  | assign {x : String} {e : Expr} (hx : x ∈ vars) (he : Scoped p vars e) :
    Scoped p vars (.binary .assign (.var x) e)
  | binary {op : BinaryOp} {left right : Expr} (hop : op ≠ .assign) (hleft : Scoped p vars left)
    (hright : Scoped p vars right) : Scoped p vars (.binary op left right)
  | call {f : String} {args : List Expr} (harity : p.arity? f = some args.length)
    (hargs : ∀ a ∈ args, Scoped p vars a) : Scoped p vars (.call f args)

/-- The names of the variables of a function, in the order of their declarations. -/
def Function.vars (f : Function) : List String :=
  f.decls.map Decl.name

/-- A function that is in order after the given program. -/
structure Function.WellFormed (p : Program) (f : Function) : Prop where
  decls : ∃ xs : List String, f.decls =
    f.prototype.params.map (fun x => ⟨.parameter, x⟩) ++ xs.map fun x => ⟨.local, x⟩
  vars : f.vars.Nodup
  stmts : ∀ s ∈ f.stmts, s.value.Scoped p f.vars
  returns : f.stmts.getLast?.any Stmt.isReturn = true

/-- A program whose names are in order, and whose functions are, each after the prototypes and the
functions before it. -/
structure Program.WellFormed (p : Program) : Prop where
  builtin : p.prototypes.head? = some Program.printnum
  prototypes : (p.prototypes.map Prototype.name).Nodup
  functions : (p.functions.map Function.name).Nodup
  arity : ∀ q ∈ p.prototypes, ∀ f ∈ p.functions, q.name = f.name → q.arity = f.arity
  params : ∀ q ∈ p.prototypes, q.params.Nodup
  bodies : ∀ before f after, p.functions = before ++ f :: after →
    f.WellFormed ⟨p.prototypes, before⟩

/-- An expression in scope assigns to a variable, or is not an assignment. -/
theorem Expr.Scoped.eq_assign_or {p : Program} {vars : List String} {e : Expr} (he : e.Scoped p vars) :
    (∃ x right, x ∈ vars ∧ e = .binary .assign (.var x) right) ∨ e.isAssignment = false := by
  cases he with
  | assign hx _ => exact .inl ⟨_, _, hx, rfl⟩
  | @binary op _ _ hop _ _ =>
    cases op with
    | assign => exact absurd rfl hop
    | _ => exact .inr rfl
  | _ => exact .inr rfl

/-- The parameters of a well-formed function are distinct. -/
theorem Function.WellFormed.nodup_params {p : Program} {f : Function} (hf : f.WellFormed p) :
    f.prototype.params.Nodup := by
  obtain ⟨xs, hdecls⟩ := hf.decls
  have hvars : (f.prototype.params ++ xs).Nodup := by
    simpa [Function.vars, hdecls, Function.comp_def] using hf.vars
  exact (List.nodup_append.1 hvars).1

/-- The parameters among the declarations of a function are those with the name of a parameter. -/
theorem Function.WellFormed.kind_eq_iff {p : Program} {f : Function} (hf : f.WellFormed p) {d : Decl}
    (hd : d ∈ f.decls) : d.kind = .parameter ↔ d.name ∈ f.prototype.params := by
  obtain ⟨xs, hdecls⟩ := hf.decls
  have hnodup : (f.prototype.params ++ xs).Nodup := by
    simpa [Function.vars, hdecls, Function.comp_def] using hf.vars
  rw [hdecls] at hd
  rcases List.mem_append.1 hd with hd | hd
  · obtain ⟨x, hx, rfl⟩ := List.mem_map.1 hd
    simp [hx]
  · obtain ⟨x, hx, rfl⟩ := List.mem_map.1 hd
    have hnot : x ∉ f.prototype.params := fun hmem =>
      (List.nodup_append.1 hnodup).2.2 x hmem x hx rfl
    simp [hnot]

/-- A well-formed function returns. -/
theorem Function.WellFormed.any_isReturn {p : Program} {f : Function} (hf : f.WellFormed p) :
    f.stmts.any Stmt.isReturn = true := by
  have h := hf.returns
  cases hlast : f.stmts.getLast? with
  | none =>
    rw [hlast] at h
    cases h
  | some s =>
    rw [hlast] at h
    exact List.any_eq_true.2 ⟨s, List.mem_of_getLast? hlast, h⟩

/-! ### Looking names up in a longer program -/

/-- What is in scope stays so when more functions are known. -/
theorem Expr.Scoped.mono {p p' : Program} {vars : List String} {e : Expr}
    (h : ∀ name n, p.arity? name = some n → p'.arity? name = some n) (he : e.Scoped p vars) :
    e.Scoped p' vars := by
  induction he with
  | const n => exact .const n
  | var hx => exact .var hx
  | assign hx _ ih => exact .assign hx ih
  | binary hop _ _ ihl ihr => exact .binary hop ihl ihr
  | call harity _ ih => exact .call (h _ _ harity) ih

/-- A well-formed function stays so when more functions are known. -/
theorem Function.WellFormed.mono {p p' : Program} {f : Function}
    (h : ∀ name n, p.arity? name = some n → p'.arity? name = some n) (hf : f.WellFormed p) :
    f.WellFormed p' :=
  ⟨hf.decls, hf.vars, fun s hs => (hf.stmts s hs).mono h, hf.returns⟩

/-- A later prototype does not change the arity of a name, if it agrees with the definition of that
name. -/
theorem Program.arity?_declare {ps : List Prototype} {fs : List Function} {proto : Prototype}
    (h : ∀ f ∈ fs, proto.name = f.name → proto.arity = f.arity) {name : String} {n : Nat}
    (hname : Program.arity? ⟨ps, fs⟩ name = some n) :
    Program.arity? ⟨ps ++ [proto], fs⟩ name = some n := by
  unfold Program.arity? Program.prototype? at hname ⊢
  rw [List.find?_append]
  cases hps : ps.find? (·.name == name) with
  | some q => simpa [hps] using hname
  | none =>
    rw [hps, Option.map_none, Option.none_or] at hname
    by_cases heq : proto.name = name
    · obtain ⟨f, hf, rfl⟩ := Option.map_eq_some_iff.1 hname
      have hfname : f.name = name := by simpa using List.find?_some hf
      have harity := h f (List.mem_of_find?_eq_some hf) (heq.trans hfname.symm)
      simp [heq, harity]
    · simpa [heq, Program.function?] using hname

/-- Later definitions do not change the arity of a name. -/
theorem Program.arity?_append {ps : List Prototype} {fs fs' : List Function} {name : String} {n : Nat}
    (hname : Program.arity? ⟨ps, fs⟩ name = some n) :
    Program.arity? ⟨ps, fs ++ fs'⟩ name = some n := by
  unfold Program.arity? Program.prototype? Program.function? at hname ⊢
  rw [List.find?_append]
  cases hps : ps.find? (·.name == name) with
  | some q => simpa [hps] using hname
  | none =>
    rw [hps, Option.map_none, Option.none_or] at hname
    obtain ⟨f, hf, rfl⟩ := Option.map_eq_some_iff.1 hname
    rw [hf, Option.map_none, Option.none_or, Option.some_or, Option.map_some]

/-- A definition of a well-formed program is in order in the whole program. -/
theorem Program.WellFormed.wellFormed_of_mem {p : Program} {f : Function} (hp : p.WellFormed)
    (hf : f ∈ p.functions) : f.WellFormed p := by
  obtain ⟨before, after, h⟩ := List.append_of_mem hf
  have hp' : p = ⟨p.prototypes, before ++ f :: after⟩ := by rw [← h]
  rw [hp']
  exact (hp.bodies before f after h).mono fun _ _ => Program.arity?_append

/-- The parameters are among the variables. -/
theorem Function.WellFormed.mem_vars_of_mem_params {p : Program} {f : Function} (hf : f.WellFormed p)
    {x : String} (hx : x ∈ f.prototype.params) : x ∈ f.vars := by
  obtain ⟨xs, hdecls⟩ := hf.decls
  simp [Function.vars, hdecls, hx]

/-- The names that a program declares: of functions, of their parameters and of their variables. -/
def Program.names (p : Program) : List String :=
  p.prototypes.flatMap (fun q => q.name :: q.params) ++ p.functions.flatMap fun f => f.name :: f.vars

/-- The names in a prototype are names of the program. -/
theorem Program.mem_names_of_prototype {p : Program} {q : Prototype} (hq : q ∈ p.prototypes) :
    q.name ∈ p.names ∧ ∀ x ∈ q.params, x ∈ p.names := by
  have hsub : ∀ x ∈ q.name :: q.params, x ∈ p.names := fun x hx =>
    List.mem_append_left _ (List.mem_flatMap.2 ⟨q, hq, hx⟩)
  exact List.forall_mem_cons.1 hsub

/-- The names in a function are names of the program. -/
theorem Program.mem_names_of_function {p : Program} {f : Function} (hf : f ∈ p.functions) :
    f.name ∈ p.names ∧ ∀ x ∈ f.vars, x ∈ p.names := by
  have hsub : ∀ x ∈ f.name :: f.vars, x ∈ p.names := fun x hx =>
    List.mem_append_right _ (List.mem_flatMap.2 ⟨f, hf, hx⟩)
  exact List.forall_mem_cons.1 hsub

/-! ### What the checks let through -/

/-- The program that every program starts with is well formed. -/
theorem Program.wellFormed_builtin : Program.builtin.WellFormed := by
  refine ⟨rfl, by simp [Program.builtin], by simp [Program.builtin], ?_, ?_, ?_⟩
  · intro q _ f hf
    cases hf
  · simp [Program.builtin, Program.printnum]
  · intro before f after h
    simp [Program.builtin] at h

/-- A declaration that passes its check keeps a program well formed. -/
theorem Program.WellFormed.declare {p : Program} {proto : Prototype} (hp : p.WellFormed)
    (hparams : proto.params.Nodup) (hcheck : Parser.checkDeclaration p proto = none) :
    Program.WellFormed ⟨p.prototypes ++ [proto], p.functions⟩ := by
  obtain ⟨hnone, hsame⟩ := Parser.checkDeclaration_eq_none_iff.1 hcheck
  have harity : ∀ f ∈ p.functions, proto.name = f.name → proto.arity = f.arity := by
    intro f hf hname
    refine (hsame f ?_).symm
    rw [hname]
    exact find?_eq_some_of_mem hp.functions hf
  refine ⟨?_, ?_, hp.functions, ?_, ?_, ?_⟩
  · simp [hp.builtin]
  · have hnew : proto.name ∉ p.prototypes.map Prototype.name := find?_key_eq_none_iff.1 hnone
    simpa [List.nodup_append] using ⟨hp.prototypes, fun q hq heq => hnew (heq ▸ List.mem_map_of_mem hq)⟩
  · intro q hq
    rcases List.mem_append.1 hq with hq | hq
    · exact hp.arity q hq
    · rw [List.mem_singleton.1 hq]
      exact harity
  · intro q hq
    rcases List.mem_append.1 hq with hq | hq
    · exact hp.params q hq
    · rw [List.mem_singleton.1 hq]
      exact hparams
  · intro before f after h
    refine (hp.bodies before f after h).mono fun name n => Program.arity?_declare fun g hg => ?_
    exact harity g (by rw [show p.functions = before ++ f :: after from h]; simp [hg])

/-- A definition that passes its check keeps a program well formed. -/
theorem Program.WellFormed.define {p : Program} {f : Function} (hp : p.WellFormed)
    (hf : f.WellFormed p) (hcheck : Parser.checkDefinition p f.prototype = none) :
    Program.WellFormed ⟨p.prototypes, p.functions ++ [f]⟩ := by
  obtain ⟨hnone, hsame⟩ := Parser.checkDefinition_eq_none_iff.1 hcheck
  refine ⟨hp.builtin, hp.prototypes, ?_, ?_, hp.params, ?_⟩
  · have hnew : f.name ∉ p.functions.map Function.name := find?_key_eq_none_iff.1 hnone
    simpa [List.nodup_append] using ⟨hp.functions, fun g hg heq => hnew (heq ▸ List.mem_map_of_mem hg)⟩
  · intro q hq g hg
    rcases List.mem_append.1 hg with hg | hg
    · exact hp.arity q hq g hg
    · rw [List.mem_singleton.1 hg]
      intro hname
      refine hsame q ?_
      rw [show f.prototype.name = q.name from hname.symm]
      exact find?_eq_some_of_mem hp.prototypes hq
  · intro before g after h
    rcases List.eq_nil_or_concat after with rfl | ⟨after, g', rfl⟩
    · obtain ⟨rfl, heq⟩ := List.append_inj' h rfl
      obtain rfl := List.head_eq_of_cons_eq heq
      exact hf
    · have hconcat : p.functions ++ [f] = (before ++ g :: after) ++ [g'] := by simpa using h
      obtain ⟨hbefore, -⟩ := List.append_inj' hconcat rfl
      exact hp.bodies before g after hbefore

/-! ### What is read -/

/-- Parsers put nothing into expressions but what is in scope. -/
theorem Parser.keeps_scoped (sc : Parser.Scope) :
    Parser.Keeps sc fun _ e => e.Scoped sc.program sc.vars := by
  refine ⟨fun _ n => .const n, fun _ _ hx => .var hx, fun _ _ _ harity hargs => .call harity hargs, ?_⟩
  intro _ op left right _ _ hleft hright htarget
  by_cases hop : op = .assign
  · subst hop
    obtain ⟨x, rfl⟩ := htarget rfl
    cases hleft with
    | var hx => exact .assign hx hright
  · exact .binary hop hleft hright

/-- A body that is read belongs to a well-formed function. -/
theorem Parser.wellFormed_of_body {eof : Token} {p : Program} {proto : Prototype}
    {ts : List Token} {f : Function} {r : Parser.Shorter ts} (hparams : proto.params.Nodup)
    (h : Parser.body eof p proto ts = .ok (f, r)) : f.WellFormed p := by
  obtain ⟨xs, rfl, hdecls, hret, r₁, r₂, r₃, -, -, hlocals, hstmts, -⟩ := Parser.body_eq_ok h
  have hvars : f.vars = f.prototype.params ++ xs := by
    simp [Function.vars, hdecls, Parser.declarations, Function.comp_def]
  refine ⟨⟨xs, hdecls⟩, ?_, ?_, hret⟩
  · rw [hvars]
    exact Parser.nodup_of_locals_eq_ok hparams hlocals
  · rw [hvars]
    exact Parser.statements_keeps (Parser.keeps_scoped _) hstmts

/-- **A program that is read is well formed.** -/
theorem wellFormed_of_parseTokens {s : Token.Stream} {p : Program} (h : parseTokens s = .ok p) :
    p.WellFormed := by
  refine Parser.items_keep ?_ ?_ Program.wellFormed_builtin h
  · intro program proto hprogram hparams hcheck
    exact hprogram.declare hparams hcheck
  · intro program f ts r hprogram hparams hcheck hbody
    exact hprogram.define (Parser.wellFormed_of_body hparams hbody) hcheck

/-- A program that is read is well formed. -/
theorem wellFormed_of_parse {source : String} {p : Program} (h : parse source = .ok p) :
    p.WellFormed :=
  wellFormed_of_parseTokens (parse_eq_ok_iff.1 h)

end Source
end Straightline
