/-
# What lowering has from its steps

Some properties of scripts hold of lowering because they hold of each step that it takes and stay when steps
are put together: that it never fails for want of a function that is being lowered, that it ends when it is
refused something.  The walk along the definitions of the generator is the same for all of them, so it is
made once, for a property with what such a walk needs (`Gen.Stepwise`).

The steps are requests that cannot be refused, requests whose answer is looked at right away, and the start of
a definition, which sets the function that is being lowered before it is asked for.  There is no step that
makes a request which can be refused and takes no notice of the answer.
-/

import Straightline.Lowering.Generator

namespace Straightline
namespace Lowering
namespace Gen

open Source (Expr Stmt Decl Prototype Program)

variable {F V S ε : Type}

/-- A property that the steps of lowering have, and what is put together from parts that have it. -/
structure Stepwise (P : (α : Type) → Gen F V S ε α → Prop) : Prop where
  result : ∀ {α : Type} (a : α), P α (pure a)
  andThen : ∀ {α β : Type} {x : Gen F V S ε α} {g : α → Gen F V S ε β}, P α x → (∀ a, P β (g a)) →
    P β (x >>= g)
  failure : ∀ {α : Type} {error : Error ε}, error ≠ .fault .noCurrentFunction → P α (fail error)
  look : ∀ {α : Type} {g : Scope F S → Gen F V S ε α}, (∀ scope, P α (g scope)) → P α (get >>= g)
  change : ∀ f : Scope F S → Scope F S, P PUnit (modify f)
  request : ∀ r : Request F V S, r.fallible = false → P (r.Answer ε) (ask r)
  reply : ∀ r : Request F V S, (∀ path, r ≠ .linkFile path) →
    P r.Reply (ask r >>= fun answer => backend answer.result)
  link : ∀ path : String, P Unit (ask (.linkFile path) >>= linked path)
  enter : ∀ {α : Type} {f : F} {r : Request F V S} {g : F → Gen F V S ε α}, r.fallible = false → P α (g f) →
    P α (do set (⟨some f, []⟩ : Scope F S); let _ ← ask r; g (← current))

namespace Stepwise

variable {P : (α : Type) → Gen F V S ε α → Prop} (hP : Stepwise P)
include hP

/-- A variable is looked up in the scope. -/
theorem slot (name : String) : P S (slot name) := by
  refine hP.look fun scope => ?_
  split
  · exact hP.result _
  · exact hP.failure (by simp)

/-- What is assigned is a variable, or the failure is another one. -/
theorem target (left : Expr) : P String (target left) := by
  cases left with
  | var name => exact hP.result name
  | _ => exact hP.failure (by simp)

/-- A store is a step. -/
theorem store (v : V) (s : S) : P Unit (ask (.store v s) >>= backend) :=
  hP.reply (.store v s) (by simp)

/-- An argument is loaded again, or is there already. -/
theorem argument (arg : Expr) (v : V) : P V (argument arg v) := by
  unfold Gen.argument
  split
  · refine hP.andThen (hP.target _) fun name => hP.andThen (hP.slot name) fun s => ?_
    exact hP.reply (.load s _) (by simp)
  · exact hP.result v

mutual

/-- **Expressions,** by recursion on the expression. -/
theorem expr : ∀ e : Expr, P V (expr e)
  | .const n => by
    rw [Gen.expr]
    exact hP.request (.constInt n) rfl
  | .var name => by
    rw [Gen.expr]
    exact hP.andThen (hP.slot name) fun s => hP.reply (.load s name) (by simp)
  | .binary op left right => by
    rw [Gen.expr]
    split
    · -- an assignment: its left side is not lowered
      refine hP.andThen (expr right) fun v => hP.andThen (hP.target left) fun name => ?_
      refine hP.andThen (hP.slot name) fun s => ?_
      exact hP.andThen (hP.store v s) fun _ => hP.result v
    · refine hP.andThen (expr left) fun lhs => hP.andThen (expr right) fun rhs => ?_
      exact hP.reply (.binary _ lhs rhs) (by simp)
  | .call name args => by
    rw [Gen.expr]
    refine hP.andThen (hP.request (.getFunction name) rfl) fun found => ?_
    split
    · exact hP.failure (by simp)
    · exact hP.andThen (exprs args) fun values => hP.reply (.call _ values) (by simp)

/-- The arguments of a call, one after the other. -/
theorem exprs : ∀ es : List Expr, P (List V) (exprs es)
  | [] => by
    rw [Gen.exprs]
    exact hP.result []
  | arg :: args => by
    rw [Gen.exprs]
    refine hP.andThen (expr arg) fun v => hP.andThen (hP.argument arg v) fun v => ?_
    exact hP.andThen (exprs args) fun vs => hP.result (v :: vs)

end

/-- Statements, up to the first that returns. -/
theorem stmts (ss : List Stmt) : P Unit (stmts ss) := by
  induction ss with
  | nil => exact hP.result _
  | cons s ss ih =>
    cases s with
    | ret e => exact hP.andThen (hP.expr e) fun v => hP.reply (.ret v) (by simp)
    | expr e => exact hP.andThen (hP.expr e) fun _ => ih

/-- A declaration: a slot, and for a parameter a store. -/
theorem decl (f : F) (params : List String) (d : Decl) : P Unit (decl f params d) := by
  refine hP.andThen (hP.reply (.alloca d.name) (by simp)) fun s => hP.andThen (hP.change _) fun _ => ?_
  split
  · exact hP.result _
  · split
    · exact hP.failure (by simp)
    · exact hP.andThen (hP.reply (.param f _) (by simp)) fun v => hP.store v s

/-- Declarations, one after the other. -/
theorem decls (f : F) (params : List String) (ds : List Decl) : P Unit (decls f params ds) := by
  induction ds with
  | nil => exact hP.result _
  | cons d ds ih => exact hP.andThen (hP.decl f params d) fun _ => ih

/-- A prototype: the function is found, or it is declared. -/
theorem prototype (p : Prototype) : P F (prototype p) := by
  refine hP.andThen (hP.request (.getFunction p.name) rfl) fun found => ?_
  split
  · split
    · exact hP.result _
    · exact hP.failure (by simp)
  · exact hP.reply (.declareFunction p.name p.params) (by simp)

/-- **A definition:** once its function is set, it is the one that is being lowered. -/
theorem function (f : Source.Function) : P Unit (function f) := by
  refine hP.andThen (hP.prototype f.prototype) fun handle => hP.enter rfl ?_
  refine hP.andThen (hP.decls handle f.prototype.params f.decls) fun _ => ?_
  exact hP.andThen (hP.stmts f.stmts) fun _ => hP.change _

/-- Prototypes, one after the other. -/
theorem prototypes (ps : List Prototype) : P Unit (prototypes ps) := by
  induction ps with
  | nil => exact hP.result _
  | cons p ps ih => exact hP.andThen (hP.prototype p) fun _ => ih

/-- Definitions, one after the other. -/
theorem functions (fs : List Source.Function) : P Unit (functions fs) := by
  induction fs with
  | nil => exact hP.result _
  | cons f fs ih => exact hP.andThen (hP.function f) fun _ => ih

/-- **Lowering a program has what its steps have.** -/
theorem program (p : Program) (link : Option String) : P Unit (program p link) := by
  refine hP.andThen (hP.prototypes p.prototypes) fun _ => hP.andThen (hP.functions p.functions) fun _ => ?_
  cases link with
  | none => exact hP.result _
  | some path => exact hP.link path

end Stepwise

end Gen
end Lowering
end Straightline
