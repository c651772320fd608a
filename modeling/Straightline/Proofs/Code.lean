/-
# The code of a function

What lowering writes for a function, as plain recursion on its body: `Code.expr` for an expression,
`Code.stmts` for statements, `Code.body` for all of it.  The variable in place `s` has the slot of
number `s`; integers are numbered on from there, in the order in which they are computed.

So at every point the defined values are the numbers below some `n`, of which the first are slots
(`Table.upTo`).  Code that starts at `n` ends at a number of its own (`Code.next`); it is valid
before whatever is valid there (`Code.ValidExpr`), and its result is readable from there on.
`valid_lowered` says that a well-formed function has a valid body when it is lowered.
-/

import Mathlib.Data.List.Basic
import Straightline.Lowering.Module
import Straightline.Proofs.Execution
import Straightline.Proofs.WellFormed

namespace Straightline

namespace IR

/-- Adds values that are named after bases, in order. -/
def Function.addValues (f : Function) (bases : List String) : Function :=
  bases.foldl Function.addValue f

section AddValues

variable {f : Function} {bases : List String}

/-- New values change nothing of a function but the names of its values. -/
theorem Function.addValues_eq : f.addValues bases = { f with names := (f.addValues bases).names } := by
  induction bases generalizing f with
  | nil => rfl
  | cons base bases ih =>
    rw [addValues, List.foldl_cons]
    exact ih

@[simp] theorem Function.name_addValues : (f.addValues bases).name = f.name := by
  rw [addValues_eq]

@[simp] theorem Function.params_addValues : (f.addValues bases).params = f.params := by
  rw [addValues_eq]

/-- Each base gives one value. -/
@[simp] theorem Function.length_names_addValues :
    (f.addValues bases).names.length = f.names.length + bases.length := by
  induction bases generalizing f with
  | nil => rfl
  | cons base bases ih =>
    rw [addValues, List.foldl_cons]
    refine ih.trans ?_
    simp [Function.addValue]
    omega

end AddValues

/-! ### Values that are numbered in order -/

/-- The values below `n` are defined, and the first `slots` of them are slots. -/
def Table.upTo (slots n : Nat) : Table ValueKind :=
  fun id => if id < slots then some .slot else if id < n then some .integer else none

namespace Table

variable {slots n : Nat}

/-- What the table holds for a value. -/
theorem get_upTo (id : Nat) : (upTo slots n).get id =
    if id < slots then some .slot else if id < n then some .integer else none := rfl

/-- Nothing is defined below zero. -/
theorem upTo_zero : upTo 0 0 = empty := by
  funext id
  simp [upTo, empty]

/-- While all values are slots, the next `alloca` makes one more. -/
theorem after_upTo_alloca : (upTo n n).after (.alloca n) = upTo (n + 1) (n + 1) := by
  funext id
  show (if id = n then some ValueKind.slot else upTo n n id) = upTo (n + 1) (n + 1) id
  unfold upTo
  grind

/-- The next value that is no slot is an integer. -/
theorem after_upTo {i : Instr} (hn : slots ≤ n) (hd : i.dest? = some n)
    (hkind : i.kind = .integer) : (upTo slots n).after i = upTo slots (n + 1) := by
  funext id
  rw [Table.after, hd, hkind]
  show (if id = n then some ValueKind.integer else upTo slots n id) = upTo slots (n + 1) id
  unfold upTo
  grind

end Table

/-- What is readable stays readable when more values are defined. -/
theorem Operand.Readable.upTo_mono {f : Function} {slots n n' : Nat} {o : Operand}
    (ho : o.Readable f (.upTo slots n)) (h : n ≤ n') : o.Readable f (.upTo slots n') := by
  cases o with
  | value id =>
    have hid : (Table.upTo slots n).get id = some .integer := ho
    show (Table.upTo slots n').get id = some .integer
    rw [Table.get_upTo] at hid ⊢
    grind
  | _ => exact ho

/-- What is readable where the values below `n` are defined reads the same in frames that agree
below `n`. -/
theorem Operand.Readable.read_congr {f : Function} {slots n : Nat} {o : Operand}
    {args : List Int32} {fr fr' : Execution.Frame} (ho : o.Readable f (.upTo slots n))
    (h : ∀ id < n, fr'.values.get id = fr.values.get id) : fr'.read f args o = fr.read f args o := by
  cases o with
  | value id =>
    have hid : (Table.upTo slots n).get id = some .integer := ho
    have hlt : id < n := by
      rw [Table.get_upTo] at hid
      grind
    rw [Execution.Frame.read, Execution.Frame.read, h id hlt]
  | _ => rfl

section ValidBody

variable {m : Module} {f : Function} {slots n : Nat} {is : List Instr}

/-- The next `alloca` is valid wherever only slots were defined. -/
theorem ValidBody.alloca (hn : n < f.names.length)
    (his : ValidBody m f (.upTo (n + 1) (n + 1)) is) :
    ValidBody m f (.upTo n n) (.alloca n :: is) := by
  refine .step rfl ⟨fun o ho => (by cases ho), fun s hs => (by cases hs), ?_, ?_⟩ ?_
  · intro name args d h
    cases h
  · rintro d hd
    obtain rfl := Option.some.inj hd
    exact ⟨hn, by simp [Table.get_upTo]⟩
  · rwa [Table.after_upTo_alloca]

/-- A `store` to one of the slots is valid. -/
theorem ValidBody.store {s : Nat} {v : Operand} (hs : s < slots)
    (hv : v.Readable f (.upTo slots n)) (his : ValidBody m f (.upTo slots n) is) :
    ValidBody m f (.upTo slots n) (.store v s :: is) := by
  refine .step rfl ⟨?_, ?_, ?_, ?_⟩ his
  · intro o ho
    rwa [List.mem_singleton.1 ho]
  · intro s' hs'
    obtain rfl := Option.some.inj hs'
    simp [Table.get_upTo, hs]
  · intro name args d h
    cases h
  · intro d hd
    cases hd

/-- An instruction that computes the next integer. -/
theorem ValidBody.integer {i : Instr} (ht : i.isTerminator = false) (hd : i.dest? = some n)
    (hkind : i.kind = .integer) (hslots : slots ≤ n) (hn : n < f.names.length)
    (hoperands : ∀ o ∈ i.operands, o.Readable f (.upTo slots n))
    (hslot : ∀ s, i.slot? = some s → s < slots)
    (hcallee : ∀ name args d, i = .call name args d →
      ∃ g, m.function? name = some g ∧ g.arity = args.length)
    (his : ValidBody m f (.upTo slots (n + 1)) is) : ValidBody m f (.upTo slots n) (i :: is) := by
  refine .step ht ⟨hoperands, ?_, hcallee, ?_⟩ ?_
  · intro s hs
    simp [Table.get_upTo, hslot s hs]
  · intro d hd'
    obtain rfl := Option.some.inj (hd.symm.trans hd')
    refine ⟨hn, ?_⟩
    rw [Table.get_upTo]
    grind
  · rwa [Table.after_upTo hslots hd hkind]

/-- A `load` from one of the slots is valid, and defines the next value. -/
theorem ValidBody.load {s : Nat} (hs : s < slots) (hslots : slots ≤ n) (hn : n < f.names.length)
    (his : ValidBody m f (.upTo slots (n + 1)) is) :
    ValidBody m f (.upTo slots n) (.load n s :: is) := by
  refine .integer rfl rfl rfl hslots hn (fun o ho => (by cases ho)) ?_ ?_ his
  · intro s' hs'
    obtain rfl := Option.some.inj hs'
    exact hs
  · intro name args d h
    cases h

end ValidBody
end IR

namespace Lowering

open IR (Operand Instr ValidBody)
open Source (Expr Stmt Decl Program)

/-! ### The code -/

/-- Every operator but assignment is an operation. -/
theorem Gen.arith?_eq_some {op : Source.BinaryOp} (h : op ≠ .assign) :
    ∃ op', Gen.arith? op = some op' := by
  cases op with
  | assign => exact absurd rfl h
  | _ => exact ⟨_, rfl⟩

/-- Instructions, the names that their new values are named after, and what they give. -/
structure Code (α : Type) where
  instrs : List Instr
  bases : List String
  result : α

namespace Code

/-- The number after the values of code that starts at `n`. -/
def next {α : Type} (c : Code α) (n : Nat) : Nat :=
  n + c.bases.length

/-- The code of an argument: an assigned variable is loaded again. -/
def argument (vars : List String) (n : Nat) (c : Code Operand) : Expr → Code Operand
  | .binary .assign (.var x) _ =>
    ⟨c.instrs ++ [.load (c.next n) (vars.idxOf x)], c.bases ++ [Gen.argumentName],
      .value (c.next n)⟩
  | _ => c

mutual

/-- The code of an expression over variables, from the number `n` on. -/
def expr (vars : List String) : Expr → Nat → Code Operand
  | .const k, _ => ⟨[], [], .const k⟩
  | .var x, n => ⟨[.load n (vars.idxOf x)], [x], .value n⟩
  | .binary .assign (.var x) right, n =>
    let c := expr vars right n
    ⟨c.instrs ++ [.store c.result (vars.idxOf x)], c.bases, c.result⟩
  | .binary op left right, n =>
    let l := expr vars left n
    let r := expr vars right (l.next n)
    match Gen.arith? op with
    | none => ⟨l.instrs ++ r.instrs, l.bases ++ r.bases, r.result⟩
    | some op =>
      ⟨l.instrs ++ r.instrs ++ [.binary op l.result r.result (r.next (l.next n))],
        l.bases ++ r.bases ++ [ModuleTarget.resultName op], .value (r.next (l.next n))⟩
  | .call f args, n =>
    let c := exprs vars args n
    ⟨c.instrs ++ [.call f c.result (c.next n)], c.bases ++ [ModuleTarget.callName],
      .value (c.next n)⟩

/-- The code of the arguments of a call. -/
def exprs (vars : List String) : List Expr → Nat → Code (List Operand)
  | [], _ => ⟨[], [], []⟩
  | e :: es, n =>
    let c := argument vars n (expr vars e n) e
    let cs := exprs vars es (c.next n)
    ⟨c.instrs ++ cs.instrs, c.bases ++ cs.bases, c.result :: cs.result⟩

end

/-- The code of statements, up to the first `return`. -/
def stmts (vars : List String) : List Stmt → Nat → Code Unit
  | [], _ => ⟨[], [], ()⟩
  | .ret e :: _, n =>
    let c := expr vars e n
    ⟨c.instrs ++ [.ret c.result], c.bases, ()⟩
  | .expr e :: rest, n =>
    let c := expr vars e n
    let cs := stmts vars rest (c.next n)
    ⟨c.instrs ++ cs.instrs, c.bases ++ cs.bases, ()⟩

/-- The code that gives a parameter to the slot of its variable. -/
def binding (params : List String) (d : Decl) (slot : Nat) : List Instr :=
  match d.kind with
  | .local => []
  | .parameter => [.store (.param (params.idxOf d.name)) slot]

/-- The code of declarations. -/
def decls (params : List String) : List Decl → Nat → Code Unit
  | [], _ => ⟨[], [], ()⟩
  | d :: ds, n =>
    let cs := decls params ds (n + 1)
    ⟨.alloca n :: binding params d n ++ cs.instrs, d.name :: cs.bases, ()⟩

/-- The code of a function. -/
def body (f : Source.Function) : Code Unit :=
  let ds := decls f.prototype.params f.decls 0
  let ss := stmts f.vars f.stmts f.vars.length
  ⟨ds.instrs ++ ss.instrs, ds.bases ++ ss.bases, ()⟩

variable {p : Program} {vars : List String} {e : Expr} {es : List Expr} {n : Nat}

/-- The numbers go up. -/
theorem le_next {α : Type} (c : Code α) (n : Nat) : n ≤ c.next n :=
  Nat.le_add_right _ _

/-- The code of an operation, whichever it is: both sides, then the instruction. -/
theorem expr_binary {op : Source.BinaryOp} {op' : IR.Arith} {left right : Expr}
    (h : Gen.arith? op = some op') :
    expr vars (.binary op left right) n =
      let l := expr vars left n
      let r := expr vars right (l.next n)
      ⟨l.instrs ++ r.instrs ++ [.binary op' l.result r.result (r.next (l.next n))],
        l.bases ++ r.bases ++ [ModuleTarget.resultName op'], .value (r.next (l.next n))⟩ := by
  cases op with
  | assign => cases h
  | _ =>
    obtain rfl := Option.some.inj h
    rw [expr]
    · rfl
    · intro x hx
      cases hx

/-- An operation has one value more than its sides. -/
theorem next_binary {op : Source.BinaryOp} {op' : IR.Arith} {left right : Expr}
    (h : Gen.arith? op = some op') : (expr vars (.binary op left right) n).next n =
      (expr vars right ((expr vars left n).next n)).next ((expr vars left n).next n) + 1 := by
  simp [expr_binary h, next, Nat.add_assoc]

/-- A call has one value more than its arguments. -/
theorem next_call {f : String} :
    (expr vars (.call f es) n).next n = (exprs vars es n).next n + 1 := by
  simp [expr, next, Nat.add_assoc]

/-- An assignment as an argument has one value more than as an expression. -/
theorem next_argument {c : Code Operand} {x : String} {right : Expr} :
    (argument vars n c (.binary .assign (.var x) right)).next n = c.next n + 1 := by
  simp [argument, next, Nat.add_assoc]

/-- The values of arguments are numbered one argument after the other. -/
theorem next_exprs_cons : (exprs vars (e :: es) n).next n =
    (exprs vars es ((argument vars n (expr vars e n) e).next n)).next
      ((argument vars n (expr vars e n) e).next n) := by
  simp [exprs, next, Nat.add_assoc]

/-- The values of statements are numbered one statement after the other. -/
theorem next_stmts_expr {ss : List Stmt} : (stmts vars (.expr e :: ss) n).next n =
    (stmts vars ss ((expr vars e n).next n)).next ((expr vars e n).next n) := by
  simp [stmts, next, Nat.add_assoc]

/-- There is one operand for each argument. -/
theorem length_result_exprs : (exprs vars es n).result.length = es.length := by
  induction es generalizing n with
  | nil => rfl
  | cons e es ih => simp [exprs, ih]

/-- The slots are named after the variables. -/
theorem bases_decls {params : List String} {ds : List Decl} :
    (decls params ds n).bases = ds.map Decl.name := by
  induction ds generalizing n with
  | nil => rfl
  | cons d ds ih => rw [decls, ih, List.map_cons]

/-- Any other argument is the expression itself. -/
theorem argument_of_isAssignment {c : Code Operand} (h : e.isAssignment = false) :
    argument vars n c e = c := by
  rw [argument]
  rintro x right rfl
  cases h

/-! ### Validity -/

variable {m : IR.Module} {f : IR.Function}

/-- Every value that is defined and no slot is readable. -/
theorem readable_value {slots id : Nat} (h : slots ≤ id) (hn : id < n) :
    (Operand.value id).Readable f (.upTo slots n) := by
  show (IR.Table.upTo slots n).get id = some .integer
  rw [IR.Table.get_upTo, if_neg (Nat.not_lt.2 h), if_pos hn]

/-- The result of the code of an expression is readable after it. -/
theorem readable_expr (he : e.Scoped p vars) (hn : vars.length ≤ n) :
    (expr vars e n).result.Readable f (.upTo vars.length ((expr vars e n).next n)) := by
  induction he generalizing n with
  | const k =>
    rw [expr]
    trivial
  | var hx =>
    rw [expr]
    exact readable_value hn (Nat.lt_succ_self n)
  | assign hx _ ih =>
    rw [expr]
    exact ih hn
  | @binary op left right hop _ _ _ _ =>
    obtain ⟨op', hop'⟩ := Gen.arith?_eq_some hop
    have hl := (expr vars left n).le_next n
    have hr := (expr vars right ((expr vars left n).next n)).le_next ((expr vars left n).next n)
    rw [next_binary hop', expr_binary hop']
    exact readable_value (by omega) (Nat.lt_succ_self _)
  | @call g args _ _ _ =>
    rw [next_call, expr]
    exact readable_value (Nat.le_trans hn (le_next _ n)) (Nat.lt_succ_self _)

/-- The code of an expression is valid before whatever is valid after it. -/
def ValidExpr (m : IR.Module) (f : IR.Function) (vars : List String) (e : Expr) : Prop :=
  ∀ (n : Nat) (rest : List Instr), vars.length ≤ n → (expr vars e n).next n ≤ f.names.length →
    ValidBody m f (.upTo vars.length ((expr vars e n).next n)) rest →
    ValidBody m f (.upTo vars.length n) ((expr vars e n).instrs ++ rest)

/-- The result of an argument is readable after its code. -/
theorem readable_argument (he : e.Scoped p vars) (hn : vars.length ≤ n) :
    (argument vars n (expr vars e n) e).result.Readable f
      (.upTo vars.length ((argument vars n (expr vars e n) e).next n)) := by
  obtain ⟨x, right, -, rfl⟩ | hother := he.eq_assign_or
  · rw [next_argument]
    exact readable_value (Nat.le_trans hn (le_next _ n)) (Nat.lt_succ_self _)
  · rw [argument_of_isAssignment hother]
    exact readable_expr he hn

/-- The code of an argument is valid if that of the expression is, and if what follows is. -/
theorem validBody_argument {rest : List Instr} (he : e.Scoped p vars)
    (hvalid : ValidExpr m f vars e) (hn : vars.length ≤ n)
    (hnames : (argument vars n (expr vars e n) e).next n ≤ f.names.length)
    (hrest : ValidBody m f (.upTo vars.length ((argument vars n (expr vars e n) e).next n)) rest) :
    ValidBody m f (.upTo vars.length n) ((argument vars n (expr vars e n) e).instrs ++ rest) := by
  obtain ⟨x, right, hx, rfl⟩ | hother := he.eq_assign_or
  · rw [next_argument] at hnames hrest
    rw [argument, List.append_assoc]
    refine hvalid n _ hn (Nat.le_of_succ_le hnames) ?_
    exact .load (List.idxOf_lt_length_of_mem hx) (Nat.le_trans hn (le_next _ n)) hnames hrest
  · rw [argument_of_isAssignment hother] at hnames hrest ⊢
    exact hvalid n rest hn hnames hrest

/-- The results of all arguments are readable after the code of the last one. -/
theorem readable_exprs (hes : ∀ e ∈ es, e.Scoped p vars) (hn : vars.length ≤ n) :
    ∀ o ∈ (exprs vars es n).result, o.Readable f (.upTo vars.length ((exprs vars es n).next n)) := by
  induction es generalizing n with
  | nil =>
    intro o ho
    cases ho
  | cons e es ih =>
    rw [List.forall_mem_cons] at hes
    rw [next_exprs_cons]
    intro o ho
    rw [exprs] at ho
    rcases List.mem_cons.1 ho with rfl | ho
    · exact (readable_argument hes.1 hn).upTo_mono (le_next _ _)
    · exact ih hes.2 (Nat.le_trans hn (le_next _ _)) o ho

/-- The code of arguments is valid if that of each is, and if what follows is. -/
theorem validBody_exprs {rest : List Instr} (hes : ∀ e ∈ es, e.Scoped p vars)
    (hvalid : ∀ e ∈ es, ValidExpr m f vars e) (hn : vars.length ≤ n)
    (hnames : (exprs vars es n).next n ≤ f.names.length)
    (hrest : ValidBody m f (.upTo vars.length ((exprs vars es n).next n)) rest) :
    ValidBody m f (.upTo vars.length n) ((exprs vars es n).instrs ++ rest) := by
  induction es generalizing n with
  | nil => exact hrest
  | cons e es ih =>
    rw [List.forall_mem_cons] at hes hvalid
    rw [next_exprs_cons] at hnames hrest
    rw [exprs, List.append_assoc]
    refine validBody_argument hes.1 hvalid.1 hn (Nat.le_trans (le_next _ _) hnames) ?_
    exact ih hes.2 hvalid.2 (Nat.le_trans hn (le_next _ _)) hnames hrest

/-- A module has what a program may call, with the same numbers of parameters. -/
def Provides (m : IR.Module) (p : Program) : Prop :=
  ∀ name k, p.arity? name = some k → (m.function? name).map IR.Function.arity = some k

/-- **The code of an expression in scope is valid,** in a module that has what it may call. -/
theorem validExpr (hm : Provides m p) (he : e.Scoped p vars) : ValidExpr m f vars e := by
  induction he with
  | const k =>
    intro n rest _ _ hrest
    rw [expr] at hrest ⊢
    exact hrest
  | var hx =>
    intro n rest hn hnames hrest
    rw [expr] at hnames hrest ⊢
    exact .load (List.idxOf_lt_length_of_mem hx) hn hnames hrest
  | assign hx he ih =>
    intro n rest hn hnames hrest
    rw [expr] at hnames hrest ⊢
    rw [List.append_assoc]
    exact ih n _ hn hnames (.store (List.idxOf_lt_length_of_mem hx) (readable_expr he hn) hrest)
  | @binary op left right hop hl hr ihl ihr =>
    intro n rest hn hnames hrest
    obtain ⟨op', hop'⟩ := Gen.arith?_eq_some hop
    have hl' := (expr vars left n).le_next n
    have hr' := (expr vars right ((expr vars left n).next n)).le_next ((expr vars left n).next n)
    rw [next_binary hop'] at hnames hrest
    rw [expr_binary hop', List.append_assoc, List.append_assoc]
    refine ihl n _ hn (by omega) (ihr _ _ (by omega) (by omega) ?_)
    refine .integer rfl rfl rfl (by omega) hnames ?_ ?_ ?_ hrest
    · intro o ho
      obtain rfl | rfl : o = _ ∨ o = _ := by simpa [Instr.operands] using ho
      · exact (readable_expr hl hn).upTo_mono (le_next _ _)
      · exact readable_expr hr (by omega)
    · intro s hs
      cases hs
    · intro name args d h
      cases h
  | @call g args harity hargs ih =>
    intro n rest hn hnames hrest
    rw [next_call] at hnames hrest
    rw [expr, List.append_assoc]
    refine validBody_exprs hargs ih hn (Nat.le_of_succ_le hnames) ?_
    refine .integer rfl rfl rfl (Nat.le_trans hn (le_next _ n)) hnames (readable_exprs hargs hn) ?_ ?_
      hrest
    · intro s hs
      cases hs
    · intro name os d h
      cases h
      rw [length_result_exprs]
      exact Option.map_eq_some_iff.1 (hm _ _ harity)

/-- The code of statements one of which returns is valid, by induction on the statements: the first that
returns ends the block, and those before it leave the values in order. -/
theorem validBody_stmts {ss : List Stmt} (hm : Provides m p)
    (hss : ∀ s ∈ ss, s.value.Scoped p vars) (hret : ss.any Stmt.isReturn = true)
    (hn : vars.length ≤ n) (hnames : (stmts vars ss n).next n ≤ f.names.length) :
    ValidBody m f (.upTo vars.length n) (stmts vars ss n).instrs := by
  induction ss generalizing n with
  | nil => cases hret
  | cons s ss ih =>
    rw [List.forall_mem_cons] at hss
    cases s with
    | ret e =>
      have he : e.Scoped p vars := hss.1
      rw [stmts] at hnames ⊢
      exact validExpr hm he n _ hn hnames (.ret (readable_expr he hn))
    | expr e =>
      have he : e.Scoped p vars := hss.1
      rw [next_stmts_expr] at hnames
      rw [stmts]
      refine validExpr hm he n _ hn (Nat.le_trans (le_next _ _) hnames) ?_
      exact ih hss.2 (by simpa [Stmt.isReturn] using hret) (Nat.le_trans hn (le_next _ n)) hnames

/-- The code of declarations is valid if what follows is, with one slot for each of them. -/
theorem validBody_decls {params : List String} {ds : List Decl} {rest : List Instr}
    (hds : ∀ d ∈ ds, d.kind = .parameter → d.name ∈ params) (harity : f.arity = params.length)
    (hnames : n + ds.length ≤ f.names.length)
    (hrest : ValidBody m f (.upTo (n + ds.length) (n + ds.length)) rest) :
    ValidBody m f (.upTo n n) ((decls params ds n).instrs ++ rest) := by
  induction ds generalizing n with
  | nil => exact hrest
  | cons d ds ih =>
    rw [List.forall_mem_cons] at hds
    rw [List.length_cons, Nat.add_comm ds.length 1, ← Nat.add_assoc] at hnames hrest
    have hds' := ih hds.2 hnames hrest
    rw [decls]
    simp only [List.cons_append, List.append_assoc]
    refine .alloca (by omega) ?_
    cases hkind : d.kind with
    | «local» =>
      rw [binding, hkind]
      exact hds'
    | parameter =>
      rw [binding, hkind]
      refine .store (Nat.lt_succ_self n) ?_ hds'
      show params.idxOf d.name < f.arity
      rw [harity]
      exact List.idxOf_lt_length_of_mem (hds.1 hkind)

/-! ### Functions -/

end Code

/-- A signature as it is lowered. -/
def declaration (name : String) (params : List String) : IR.Function :=
  .declare name (params.map ModuleTarget.paramName)

/-- A function as it is lowered, if its parameters are called `params`. -/
def lowered (params : List String) (f : Source.Function) : IR.Function :=
  { (declaration f.name params).addValues (Code.body f).bases with
    blocks := [⟨ModuleTarget.entryLabel, (Code.body f).instrs⟩] }

variable {p : Program} {params : List String} {f : Source.Function}

@[simp] theorem name_declaration {name : String} : (declaration name params).name = name := rfl

@[simp] theorem arity_declaration {name : String} :
    (declaration name params).arity = params.length := by
  simp [declaration, IR.Function.arity, IR.Function.declare]

@[simp] theorem name_lowered : (lowered params f).name = f.name := by
  simp [lowered]

/-- A lowered function takes as many arguments as it was given parameters. -/
@[simp] theorem arity_lowered : (lowered params f).arity = params.length := by
  simpa [lowered, IR.Function.arity] using arity_declaration

@[simp] theorem instrs_lowered : (lowered params f).instrs = (Code.body f).instrs := by
  simp [lowered, IR.Function.instrs]

/-- A lowered function has one value for each variable, and those of its statements. -/
theorem length_names_lowered : (lowered params f).names.length =
    (Code.stmts f.vars f.stmts f.vars.length).next f.vars.length := by
  have hnames : (declaration f.name params).names = [] := rfl
  simp [lowered, hnames, Code.body, Code.bases_decls, Code.next, Source.Function.vars]

/-- **The code of a well-formed function is valid,** in a module that has what it may call. -/
theorem valid_lowered {m : IR.Module} (hm : Code.Provides m p) (hf : f.WellFormed p)
    (hparams : params.length = f.arity) : (lowered params f).Valid m := by
  refine ⟨⟨ModuleTarget.entryLabel, (Code.body f).instrs⟩, rfl, ?_⟩
  have hlen : f.decls.length = f.vars.length := by simp [Source.Function.vars]
  have hnext := (Code.stmts f.vars f.stmts f.vars.length).le_next f.vars.length
  rw [← IR.Table.upTo_zero]
  refine Code.validBody_decls (fun d hd => (hf.kind_eq_iff hd).1) (arity_lowered.trans hparams) ?_ ?_
  · rw [length_names_lowered]
    omega
  · rw [Nat.zero_add, hlen]
    exact Code.validBody_stmts hm hf.stmts hf.any_isReturn (Nat.le_refl _)
      (Nat.le_of_eq length_names_lowered.symm)

end Lowering
end Straightline
