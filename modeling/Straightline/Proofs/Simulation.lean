/-
# Code runs like what it was made from

The code of an expression, run in a frame whose slots hold the variables, does what the expression
does (`Code.RunsExpr`).  It is said with what follows the code: if that runs like some `K` from every
frame that the code can end in, then the code and what follows it run like the expression and then
`K`.  Such an end (`Code.Computed`) has the variables in their slots, the value of the expression in
the operand that the code names as its result, and the integers that were there before; so the
operand of code that came first is still right after more code.  An argument that assigns is loaded
from its slot again, which gives the value that was assigned.

`run_lowered` says this of a whole function: parameters and locals are in their slots when the
statements begin, and what follows the first `return` is not run.
-/

import Straightline.Proofs.Code
import Straightline.Source.Evaluation

namespace Straightline

/-! ### Evaluation in steps -/

namespace Source
namespace Env

variable {params : List String} {args : List Int32} {x : String}

/-- A variable that is no parameter is zero at the start. -/
theorem get_ofArgs_of_not_mem (hx : x ∉ params) : (ofArgs params args).get x = 0 := by
  induction params generalizing args with
  | nil => rfl
  | cons y params ih =>
    rw [List.mem_cons, not_or] at hx
    cases args with
    | nil => rfl
    | cons n args =>
      rw [ofArgs, get_set_of_ne _ _ hx.1]
      exact ih hx.2

/-- A parameter is its argument at the start. -/
theorem getElem?_eq_get_ofArgs (hargs : args.length = params.length) (hx : x ∈ params) :
    args[params.idxOf x]? = some ((ofArgs params args).get x) := by
  induction params generalizing args with
  | nil => cases hx
  | cons y params ih =>
    cases args with
    | nil => cases hargs
    | cons n args =>
      by_cases hxy : x = y
      · subst hxy
        simp [ofArgs]
      · rw [ofArgs, get_set_of_ne _ _ hxy, List.idxOf_cons_ne _ (Ne.symm hxy),
          List.getElem?_cons_succ]
        exact ih (Nat.succ.inj hargs) ((List.mem_cons.1 hx).resolve_left hxy)

end Env

namespace Evaluation

open IR (Execution)

variable {call : String → List Int32 → Execution Int32} {function : String} {env : Env}

/-- How an assignment runs: the right side, and then the variable has its value. -/
theorem run_assign {x : String} {right : Expr} :
    expr call function (.binary .assign (.var x) right) env =
      expr call function right env >>= fun q => pure (q.1, q.2.set x q.1) := by
  rw [expr]
  rfl

/-- How an operation runs: left side, right side, operation. -/
theorem run_binary {op : BinaryOp} {left right : Expr} (hop : op ≠ .assign) :
    expr call function (.binary op left right) env =
      expr call function left env >>= fun q => expr call function right q.2 >>= fun q' =>
        Execution.ofExcept (operator function op q.1 q'.1) >>= fun n => pure (n, q'.2) := by
  rw [expr]
  · rfl
  · exact fun x h => absurd h hop

/-- How a call runs: the arguments, and then the function. -/
theorem run_call {f : String} {args : List Expr} :
    expr call function (.call f args) env =
      exprs call function args env >>= fun q => call f q.1 >>= fun n => pure (n, q.2) := by
  rw [expr]
  rfl

/-- How arguments run: from left to right, each after the assignments in those before it. -/
theorem run_exprs_cons {e : Expr} {es : List Expr} :
    exprs call function (e :: es) env =
      expr call function e env >>= fun q => exprs call function es q.2 >>= fun q' =>
        pure (q.1 :: q'.1, q'.2) := by
  rw [exprs]
  rfl

/-- An operator has the value of its instruction, and fails where the instruction does. -/
theorem operator_eq_arith {op : BinaryOp} {op' : IR.Arith} (h : Lowering.Gen.arith? op = some op')
    (l r : Int32) : operator function op l r = Execution.arith function op' l r := by
  cases op with
  | assign => cases h
  | divide =>
    obtain rfl := Option.some.inj h
    rw [operator, Execution.arith, IR.Arith.eval?]
    by_cases hr : r = 0
    · simp [hr, IR.divides]
    · by_cases hl : l = Int32.minValue ∧ r = -1
      · simp [hl, IR.divides]
      · have hdiv : IR.divides l r = true := by simpa [IR.divides, hr, imp_iff_not_or] using hl
        simp [hr, hl, hdiv]
  | _ =>
    obtain rfl := Option.some.inj h
    rfl

end Evaluation
end Source

namespace Lowering

open IR (Operand Instr Execution)
open IR.Execution (Frame)
open Source (Expr Stmt Decl Program Env Evaluation)

namespace Code

variable {p : Program} {vars : List String} {e : Expr} {es : List Expr} {n : Nat}
  {f : IR.Function} {args : List Int32} {fr fr' : Frame} {env env' : Env} {k : Int32}
  {inv : String → List Int32 → Execution Int32}

/-- The slots of a frame hold the values of variables. -/
def Holds (vars : List String) (fr : Frame) (env : Env) : Prop :=
  ∀ x ∈ vars, fr.memory (vars.idxOf x) = env.get x

/-- A store to the slot of a variable is an assignment. -/
theorem Holds.store (h : Holds vars fr env) {x : String} :
    Holds vars (fr.store (vars.idxOf x) k) (env.set x k) := by
  intro y hy
  by_cases hne : y = x
  · rw [hne, Frame.memory_store_self, Env.get_set_self]
  · rw [Frame.memory_store_of_ne, Env.get_set_of_ne _ _ hne]
    · exact h y hy
    · exact fun heq => hne ((List.idxOf_inj hy).1 heq)

/-- What holds after the code of `e`, which has started at the number `n` in the frame `fr`, and whose
result is `v`: the slots hold the variables, the integers below `n` are as before, and the result is
the value of the expression, which an assigned variable has as well. -/
structure Computed (f : IR.Function) (args : List Int32) (vars : List String) (n : Nat) (fr : Frame)
    (e : Expr) (v : Operand) (fr' : Frame) (env' : Env) (k : Int32) : Prop where
  holds : Holds vars fr' env'
  below : ∀ id < n, fr'.values.get id = fr.values.get id
  value : fr'.read f args v = .ok k
  assigned : ∀ x right, e = .binary .assign (.var x) right → env'.get x = k

/-- The code of an expression, and whatever follows it, runs like the expression and then what
follows. -/
def RunsExpr (inv : String → List Int32 → Execution Int32) (f : IR.Function) (args : List Int32)
    (vars : List String) (e : Expr) : Prop :=
  ∀ (n : Nat) (fr : Frame) (env : Env) (rest : List Instr)
    (K : Int32 × Env → Execution (Option Int32)),
    vars.length ≤ n → (expr vars e n).next n ≤ f.names.length → Holds vars fr env →
    (∀ fr' env' k, Computed f args vars n fr e (expr vars e n).result fr' env' k →
      IR.Execution.instrs inv f args fr' rest = K (k, env')) →
    IR.Execution.instrs inv f args fr ((expr vars e n).instrs ++ rest) =
      Evaluation.expr inv f.name e env >>= K

/-- An instruction that computes the integer of number `d` leaves the slots and the other integers. -/
theorem computed_after {i : Instr} {d : Nat} (hfr : Holds vars fr' env')
    (hbelow : ∀ id < n, fr'.values.get id = fr.values.get id) (hd : i.dest? = some d)
    (hkind : i.kind = .integer) (hn : n ≤ d)
    (hassigned : ∀ x right, e = .binary .assign (.var x) right → env'.get x = k) :
    Computed f args vars n fr e (.value d) (fr'.after k i) env' k := by
  refine ⟨?_, ?_, ?_, hassigned⟩
  · intro x hx
    rw [Frame.memory_after_dest hd hkind]
    exact hfr x hx
  · intro id hid
    rw [Frame.values_after_of_ne]
    · exact hbelow id hid
    · rw [hd]
      intro h
      have := Option.some.inj h
      omega
  · rw [Frame.read, Frame.values_after_dest hd hkind]

/-- A load goes on with what the slot holds. -/
theorem instrs_load {s : Nat} {rest : List Instr} (hn : n < f.names.length) :
    IR.Execution.instrs inv f args fr (.load n s :: rest) =
      IR.Execution.instrs inv f args (fr.after (fr.memory s) (.load n s)) rest := by
  rw [IR.Execution.instrs_step rfl, IR.Execution.outcome, pure_bind]
  intro d hd
  obtain rfl := Option.some.inj hd
  exact hn

/-- A store goes on with what was read in the slot. -/
theorem instrs_store {v : Operand} {s : Nat} {rest : List Instr} (hv : fr.read f args v = .ok k) :
    IR.Execution.instrs inv f args fr (.store v s :: rest) =
      IR.Execution.instrs inv f args (fr.store s k) rest := by
  rw [IR.Execution.instrs_step rfl, IR.Execution.outcome, hv, IR.Execution.ofExcept_ok, pure_bind]
  · rfl
  · intro d hd
    cases hd

/-- The code of an argument runs as the argument does, if that of the expression does, whatever
follows. -/
theorem run_argument {rest : List Instr} {K : Int32 × Env → Execution (Option Int32)}
    (he : e.Scoped p vars) (hruns : RunsExpr inv f args vars e) (hn : vars.length ≤ n)
    (hnames : (argument vars n (expr vars e n) e).next n ≤ f.names.length)
    (hfr : Holds vars fr env)
    (hrest : ∀ fr' env' k,
      Computed f args vars n fr e (argument vars n (expr vars e n) e).result fr' env' k →
        IR.Execution.instrs inv f args fr' rest = K (k, env')) :
    IR.Execution.instrs inv f args fr ((argument vars n (expr vars e n) e).instrs ++ rest) =
      Evaluation.expr inv f.name e env >>= K := by
  obtain ⟨x, right, hx, rfl⟩ | hother := he.eq_assign_or
  · rw [next_argument] at hnames
    rw [argument, List.append_assoc]
    refine hruns n fr env _ K hn (Nat.le_of_succ_le hnames) hfr fun fr₁ env₁ k h₁ => ?_
    -- the slot holds the variable, and the variable the value that was assigned
    have hk : fr₁.memory (vars.idxOf x) = k := (h₁.holds x hx).trans (h₁.assigned x right rfl)
    rw [List.singleton_append, instrs_load hnames, hk]
    exact hrest _ _ _ (computed_after h₁.holds h₁.below rfl rfl (le_next _ n) h₁.assigned)
  · rw [argument_of_isAssignment hother] at hnames hrest ⊢
    exact hruns n fr env rest K hn hnames hfr hrest

/-- The code of arguments runs as the arguments do, if that of each does, by induction on the
arguments. -/
theorem run_exprs {rest : List Instr} {K : List Int32 × Env → Execution (Option Int32)}
    (hes : ∀ e ∈ es, e.Scoped p vars) (hruns : ∀ e ∈ es, RunsExpr inv f args vars e)
    (hn : vars.length ≤ n) (hnames : (exprs vars es n).next n ≤ f.names.length)
    (hfr : Holds vars fr env)
    (hrest : ∀ fr' env' ks, Holds vars fr' env' →
      (∀ id < n, fr'.values.get id = fr.values.get id) →
      fr'.readAll f args (exprs vars es n).result = .ok ks →
        IR.Execution.instrs inv f args fr' rest = K (ks, env')) :
    IR.Execution.instrs inv f args fr ((exprs vars es n).instrs ++ rest) =
      Evaluation.exprs inv f.name es env >>= K := by
  induction es generalizing n fr env K with
  | nil =>
    rw [Evaluation.exprs]
    exact hrest fr env [] hfr (fun _ _ => rfl) rfl
  | cons e es ih =>
    rw [List.forall_mem_cons] at hes hruns
    rw [next_exprs_cons] at hnames
    rw [exprs] at hrest ⊢
    rw [List.append_assoc, Evaluation.run_exprs_cons, bind_assoc]
    refine run_argument hes.1 hruns.1 hn (Nat.le_trans (le_next _ _) hnames) hfr
      fun fr₁ env₁ k h₁ => ?_
    rw [bind_assoc]
    refine ih hes.2 hruns.2 (Nat.le_trans hn (le_next _ _)) hnames h₁.holds
      fun fr₂ env₂ ks hfr₂ hbelow hks => ?_
    rw [pure_bind]
    refine hrest fr₂ env₂ (k :: ks) hfr₂ ?_ ?_
    · intro id hid
      exact (hbelow id (Nat.lt_of_lt_of_le hid (le_next _ _))).trans (h₁.below id hid)
    · have hk : fr₂.read f args (argument vars n (expr vars e n) e).result = .ok k :=
        ((readable_argument hes.1 hn).read_congr hbelow).trans h₁.value
      rw [Frame.readAll, hk, hks]
      rfl

/-- **The code of an expression in scope runs like the expression.** -/
theorem runsExpr (he : e.Scoped p vars) : RunsExpr inv f args vars e := by
  induction he with
  | const k =>
    intro n fr env rest K _ _ hfr hrest
    rw [expr] at hrest ⊢
    rw [Evaluation.expr]
    exact hrest fr env k ⟨hfr, fun _ _ => rfl, rfl, fun _ _ h => by cases h⟩
  | @var x hx =>
    intro n fr env rest K hn hnames hfr hrest
    rw [expr] at hnames hrest ⊢
    rw [Evaluation.expr, List.singleton_append, instrs_load hnames, hfr x hx]
    exact hrest _ env _ (computed_after hfr (fun _ _ => rfl) rfl rfl (Nat.le_refl n)
      fun _ _ h => by cases h)
  | @assign x e hx he ih =>
    intro n fr env rest K hn hnames hfr hrest
    rw [expr] at hnames hrest ⊢
    rw [List.append_assoc, Evaluation.run_assign, bind_assoc]
    refine ih n fr env _ _ hn hnames hfr fun fr₁ env₁ k h₁ => ?_
    rw [List.singleton_append, instrs_store h₁.value, pure_bind]
    refine hrest _ _ k ⟨h₁.holds.store, h₁.below, ?_, ?_⟩
    · exact ((readable_expr he hn).read_congr fun _ _ => rfl).trans h₁.value
    · intro y right h
      cases h
      exact Env.get_set_self _ _ _
  | @binary op left right hop hl hr ihl ihr =>
    intro n fr env rest K hn hnames hfr hrest
    obtain ⟨op', hop'⟩ := Gen.arith?_eq_some hop
    have hl' := (expr vars left n).le_next n
    have hr' := (expr vars right ((expr vars left n).next n)).le_next ((expr vars left n).next n)
    rw [next_binary hop'] at hnames
    rw [expr_binary hop'] at hrest ⊢
    rw [List.append_assoc, List.append_assoc, Evaluation.run_binary hop, bind_assoc]
    refine ihl n fr env _ _ hn (by omega) hfr fun fr₁ env₁ l h₁ => ?_
    rw [bind_assoc]
    refine ihr _ fr₁ env₁ _ _ (by omega) (by omega) h₁.holds fun fr₂ env₂ r h₂ => ?_
    -- the code on the right starts above the result of the left one, so that reads as before
    have hleft := ((readable_expr hl hn).read_congr h₂.below).trans h₁.value
    rw [List.singleton_append, IR.Execution.instrs_step rfl, IR.Execution.outcome, hleft, h₂.value,
      IR.Execution.ofExcept_ok, IR.Execution.ofExcept_ok, pure_bind, pure_bind, bind_assoc]
    · rw [Evaluation.operator_eq_arith hop']
      refine bind_congr fun k => ?_
      rw [pure_bind]
      refine hrest _ _ _ (computed_after h₂.holds ?_ rfl rfl (by omega) fun x _ h => ?_)
      · intro id hid
        exact (h₂.below id (by omega)).trans (h₁.below id hid)
      · cases h
        exact absurd rfl hop
    · intro d hd
      obtain rfl := Option.some.inj hd
      exact hnames
  | @call g os harity hargs ih =>
    intro n fr env rest K hn hnames hfr hrest
    rw [next_call] at hnames
    rw [expr] at hrest ⊢
    rw [List.append_assoc, Evaluation.run_call, bind_assoc]
    refine run_exprs hargs ih hn (Nat.le_of_succ_le hnames) hfr fun fr₁ env₁ ks hfr₁ hbelow hks => ?_
    rw [List.singleton_append, IR.Execution.instrs_step rfl, IR.Execution.outcome, hks,
      IR.Execution.ofExcept_ok, pure_bind, bind_assoc]
    · refine bind_congr fun k => ?_
      rw [pure_bind]
      exact hrest _ _ _ (computed_after hfr₁ hbelow rfl rfl (le_next _ n) fun _ _ h => by cases h)
    · intro d hd
      obtain rfl := Option.some.inj hd
      exact hnames

/-- The code of statements with a `return` runs like the statements. -/
theorem run_stmts {ss : List Stmt} (hss : ∀ s ∈ ss, s.value.Scoped p vars)
    (hret : ss.any Stmt.isReturn = true) (hn : vars.length ≤ n)
    (hnames : (stmts vars ss n).next n ≤ f.names.length) (hfr : Holds vars fr env) :
    IR.Execution.instrs inv f args fr (stmts vars ss n).instrs =
      Evaluation.stmts inv f.name ss env >>= fun q => pure (some q.1) := by
  induction ss generalizing n fr env with
  | nil => cases hret
  | cons s ss ih =>
    rw [List.forall_mem_cons] at hss
    cases s with
    | ret e =>
      have he : e.Scoped p vars := hss.1
      rw [stmts] at hnames ⊢
      rw [Evaluation.stmts]
      refine runsExpr he n fr env _ _ hn hnames hfr fun fr₁ env₁ k h₁ => ?_
      rw [IR.Execution.instrs_ret, IR.Execution.outcome, h₁.value, IR.Execution.ofExcept_ok, pure_bind]
    | expr e =>
      have he : e.Scoped p vars := hss.1
      rw [next_stmts_expr] at hnames
      have hrun : Evaluation.stmts inv f.name (.expr e :: ss) env =
          Evaluation.expr inv f.name e env >>= fun q => Evaluation.stmts inv f.name ss q.2 := rfl
      rw [stmts, hrun, bind_assoc]
      refine runsExpr he n fr env _ _ hn (Nat.le_trans (le_next _ _) hnames) hfr
        fun fr₁ env₁ k h₁ => ?_
      exact ih hss.2 (by simpa [Stmt.isReturn] using hret) (Nat.le_trans hn (le_next _ n)) hnames
        h₁.holds

/-- A declaration is in order with a call: a parameter has its argument, a local is zero. -/
def Binds (params : List String) (args : List Int32) (env : Env) (d : Decl) : Prop :=
  match d.kind with
  | .local => env.get d.name = 0
  | .parameter => args[params.idxOf d.name]? = some (env.get d.name)

/-- The code of a declaration puts the variable into its slot. -/
theorem run_decl {params : List String} {d : Decl} {rest : List Instr}
    (hd : Binds params args env d) :
    IR.Execution.instrs inv f args fr (.alloca n :: (binding params d n ++ rest)) =
      IR.Execution.instrs inv f args (fr.store n (env.get d.name)) rest := by
  have halloca : ∀ is, IR.Execution.instrs inv f args fr (.alloca n :: is) =
      IR.Execution.instrs inv f args (fr.store n 0) is := fun is => rfl
  rw [halloca]
  unfold Binds at hd
  unfold binding
  cases hkind : d.kind with
  | «local» =>
    rw [hkind] at hd
    rw [show env.get d.name = 0 from hd, List.nil_append]
  | parameter =>
    rw [hkind] at hd
    have hread : (fr.store n 0).read f args (.param (params.idxOf d.name)) =
        .ok (env.get d.name) := by
      rw [Frame.read, show args[params.idxOf d.name]? = some (env.get d.name) from hd]
    rw [List.singleton_append, instrs_store hread]
    congr 1
    simp only [Frame.store, Frame.mk.injEq, true_and]
    funext s
    by_cases hs : s = n <;> simp [hs]

/-- A new slot holds the value of a new variable. -/
theorem Holds.concat (h : Holds vars fr env) {x : String} (hx : x ∉ vars) :
    Holds (vars ++ [x]) (fr.store vars.length (env.get x)) env := by
  intro y hy
  rcases List.mem_append.1 hy with hy | hy
  · have hlt := List.idxOf_lt_length_of_mem hy
    rw [List.idxOf_append_of_mem hy, Frame.memory_store_of_ne (Nat.ne_of_lt hlt)]
    exact h y hy
  · obtain rfl := List.mem_singleton.1 hy
    rw [List.idxOf_append_of_notMem hx]
    simp

/-- The code of declarations puts the variables into their slots. -/
theorem run_decls {params : List String} {ds : List Decl} {rest : List Instr} (done : List String)
    (hvars : (done ++ ds.map Decl.name).Nodup) (hds : ∀ d ∈ ds, Binds params args env d)
    (hfr : Holds done fr env) :
    ∃ fr', Holds (done ++ ds.map Decl.name) fr' env ∧
      IR.Execution.instrs inv f args fr ((decls params ds done.length).instrs ++ rest) =
        IR.Execution.instrs inv f args fr' rest := by
  induction ds generalizing done fr with
  | nil => exact ⟨fr, by simpa using hfr, rfl⟩
  | cons d ds ih =>
    rw [List.forall_mem_cons] at hds
    have hnew : d.name ∉ done := not_mem_of_nodup_append hvars
    have hassoc : done ++ (d :: ds).map Decl.name = (done ++ [d.name]) ++ ds.map Decl.name := by simp
    have hlen : (done ++ [d.name]).length = done.length + 1 := by simp
    rw [hassoc] at hvars ⊢
    obtain ⟨fr', hfr', hrun⟩ := ih _ hvars hds.2 (hfr.concat hnew)
    refine ⟨fr', hfr', ?_⟩
    rw [hlen] at hrun
    rw [decls]
    simp only [List.cons_append, List.append_assoc]
    rw [run_decl hds.1]
    exact hrun

end Code

/-- **A lowered function runs like the function.** -/
theorem run_lowered {p : Program} {f : Source.Function} {params : List String} {args : List Int32}
    (inv : String → List Int32 → Execution Int32) (hf : f.WellFormed p)
    (hargs : args.length = f.arity) :
    IR.Execution.instrs inv (lowered params f) args .empty (lowered params f).instrs =
      Evaluation.stmts inv f.name f.stmts (Env.ofArgs f.prototype.params args) >>=
        fun q => pure (some q.1) := by
  have hbinds : ∀ d ∈ f.decls, Code.Binds f.prototype.params args
      (Env.ofArgs f.prototype.params args) d := by
    intro d hd
    have hkind := hf.kind_eq_iff hd
    unfold Code.Binds
    cases h : d.kind with
    | «local» =>
      refine Env.get_ofArgs_of_not_mem fun hmem => ?_
      rw [hkind.2 hmem] at h
      cases h
    | parameter => exact Env.getElem?_eq_get_ofArgs hargs (hkind.1 h)
  obtain ⟨fr, hfr, hrun⟩ : ∃ fr, Code.Holds f.vars fr (Env.ofArgs f.prototype.params args) ∧
      IR.Execution.instrs inv (lowered params f) args .empty (Code.body f).instrs =
        IR.Execution.instrs inv (lowered params f) args fr
          (Code.stmts f.vars f.stmts f.vars.length).instrs :=
    Code.run_decls [] hf.vars hbinds fun x hx => by cases hx
  rw [instrs_lowered, hrun]
  have hname : f.name = (lowered params f).name := name_lowered.symm
  rw [hname]
  exact Code.run_stmts hf.stmts hf.any_isReturn (Nat.le_refl _)
    (Nat.le_of_eq length_names_lowered.symm) hfr

end Lowering
end Straightline
