/-
# What lowering writes

Lowering is a script of requests; here the builder of modules answers them.  While a function is open
(`Builder.OpenAt`), every request for an instruction is granted and adds to the end of its block
(`Builder.write`), and what is added in parts is added as a whole (`Builder.write_write`).  So
lowering an expression in scope succeeds, and adds exactly its code (`Gen.exec_expr`); likewise for
statements and declarations (`Gen.exec_stmts`, `Gen.exec_decls`).

What a name refers to depends on the names and numbers of parameters in the module only
(`Module.signatures`), and these stay as they are while a function is written.
-/

import Straightline.Proofs.Code

namespace Straightline
namespace IR

/-! ### Writing into a module -/

/-- Adds values to a function, and instructions to the end of a block of it. -/
def Function.write (block : Nat) (bases : List String) (is : List Instr) (f : Function) : Function :=
  { f.addValues bases with
    blocks := f.blocks.modify block fun b => { b with instrs := b.instrs ++ is } }

/-- The names of new values do not depend on the blocks. -/
theorem Function.addValues_blocks (f : Function) (bases : List String) (blocks : List Block) :
    ({ f with blocks } : Function).addValues bases = { f.addValues bases with blocks } := by
  induction bases generalizing f with
  | nil => rfl
  | cons base bases ih => exact ih (f.addValue base)

/-- What is written in two pieces is written in one. -/
theorem Function.write_write (block : Nat) (bases bases' : List String) (is is' : List Instr)
    (f : Function) :
    (f.write block bases is).write block bases' is' =
      f.write block (bases ++ bases') (is ++ is') := by
  have hvalues : (f.addValues bases).addValues bases' = f.addValues (bases ++ bases') :=
    List.foldl_append.symm
  unfold Function.write
  rw [Function.addValues_blocks, hvalues]
  simp only [Function.mk.injEq, true_and, List.modify_modify_eq]
  congr 1
  funext b
  simp

/-- The names of functions with their numbers of parameters, in order. -/
def Module.signatures (m : Module) : List (String × Nat) :=
  m.functions.map fun f => (f.name, f.arity)

/-- How many arguments a function takes can be read off the signatures. -/
theorem Module.map_arity_function? (m : Module) (name : String) :
    (m.function? name).map Function.arity =
      (m.signatures.find? (·.1 == name)).map Prod.snd := by
  rw [Module.function?, Module.signatures, List.find?_map, Option.map_map]
  rfl

namespace Builder

/-- Adds values and instructions where the next instruction goes. -/
def write (b : Builder) (bases : List String) (is : List Instr) : Builder :=
  match b.point with
  | none => b
  | some q => b.modifyFunction q.function (Function.write q.block bases is)

/-- Instructions can be added, and the next value has the number `n`. -/
def OpenAt (b : Builder) (n : Nat) : Prop :=
  ∃ q f, b.point = some q ∧ b.module.functions[q.function]? = some f ∧ f.names.length = n

variable {b : Builder} {n : Nat} {bases bases' : List String} {is is' : List Instr}

/-- Instructions can still be added after some were. -/
theorem OpenAt.write (h : b.OpenAt n) : (b.write bases is).OpenAt (n + bases.length) := by
  obtain ⟨q, f, hq, hf, rfl⟩ := h
  refine ⟨q, f.write q.block bases is, ?_, ?_, ?_⟩
  · simp [Builder.write, hq, modifyFunction]
  · simp [Builder.write, hq, modifyFunction, hf]
  · simp [Function.write]

/-- What is written in two pieces is written in one. -/
theorem write_write : (b.write bases is).write bases' is' = b.write (bases ++ bases') (is ++ is') := by
  unfold write
  cases hq : b.point with
  | none => simp [hq]
  | some q =>
    simp only [modifyFunction, hq, List.modify_modify_eq]
    congr 3
    funext f
    exact Function.write_write _ _ _ _ _ f

/-- To write nothing changes nothing. -/
theorem write_nil : b.write [] [] = b := by
  unfold write
  cases hq : b.point with
  | none => rfl
  | some q =>
    have hid : Function.write q.block [] [] = id := by
      funext f
      have hblocks : f.blocks.modify q.block (fun b => { b with instrs := b.instrs ++ [] }) = f.blocks := by
        simp only [List.append_nil]
        exact List.modify_id _ _
      simp only [Function.write, hblocks]
      rfl
    simp only [modifyFunction, hid, List.modify_id]

/-- An instruction without a result is written to the block that is open. -/
theorem push_eq (h : b.OpenAt n) (i : Instr) : b.push i = .ok (b.write [] [i]) := by
  obtain ⟨q, f, hq, -, -⟩ := h
  simp only [push, write, hq]
  rfl

/-- An instruction with a result is written with the next number. -/
theorem pushValue_eq (h : b.OpenAt n) (base : String) (i : Nat → Instr) :
    b.pushValue base i = .ok (n, b.write [base] [i n]) := by
  obtain ⟨q, f, hq, hf, rfl⟩ := h
  simp only [pushValue, write, hq, function, hf]
  rfl

/-- Signatures do not change with the inside of a function. -/
theorem signatures_modifyFunction {i : Nat} {g : Function → Function}
    (hname : ∀ f, (g f).name = f.name) (hparams : ∀ f, (g f).params = f.params) :
    (b.modifyFunction i g).module.signatures = b.module.signatures := by
  refine List.ext_getElem? fun j => ?_
  simp only [modifyFunction, Module.signatures, List.getElem?_map, List.getElem?_modify]
  cases b.module.functions[j]? with
  | none => rfl
  | some f => by_cases hj : i = j <;> simp [hj, hname, hparams, Function.arity]

/-- Signatures do not change with what is written. -/
theorem signatures_write : (b.write bases is).module.signatures = b.module.signatures := by
  unfold write
  cases b.point with
  | none => rfl
  | some q =>
    exact signatures_modifyFunction (fun f => by simp [Function.write])
      fun f => by simp [Function.write]

/-- A function that the module does not have has no place in it. -/
theorem index?_eq_none {name : String} (h : b.module.function? name = none) :
    b.index? name = none := by
  rw [Builder.index?, Module.index?, List.findIdx?_eq_none_iff]
  simpa [Module.function?] using h

/-- A call is written with the name of the function that has the given place. -/
theorem call_eq (h : b.OpenAt n) {i k : Nat} {name : String} (os : List Operand) (base : String)
    (hi : b.module.signatures[i]? = some (name, k)) :
    b.call i os base = .ok (n, b.write [base] [.call name os n]) := by
  rw [Module.signatures, List.getElem?_map] at hi
  obtain ⟨f, hf, heq⟩ := Option.map_eq_some_iff.1 hi
  obtain ⟨rfl, -⟩ := Prod.mk.inj heq
  rw [call, function, hf]
  exact pushValue_eq h base (.call f.name os)

end Builder
end IR

namespace Lowering

open IR (Operand Instr Builder)
open Source (Expr Stmt Decl Program)

/-- What a module provides depends on its signatures alone. -/
theorem Code.Provides.congr {m m' : IR.Module} {p : Program} (hm : Code.Provides m p)
    (h : m'.signatures = m.signatures) : Code.Provides m' p := by
  intro name k hname
  rw [IR.Module.map_arity_function?, h, ← IR.Module.map_arity_function?]
  exact hm name k hname

/-- A function of the module is found at its place. -/
theorem ModuleTarget.lookup_eq_some {b : Builder} {name : String} {f : IR.Function}
    (h : b.module.function? name = some f) :
    ∃ i, lookup b name = some (i, f.arity) ∧ b.module.functions[i]? = some f ∧
      b.module.signatures[i]? = some (name, f.arity) := by
  obtain ⟨hname, i, hi, hfi, hfirst⟩ := List.find?_eq_some_iff_getElem.1 h
  have hindex : b.index? name = some i := by
    refine List.findIdx?_eq_some_iff_getElem.2 ⟨hi, ?_, fun j hj => ?_⟩
    · rw [hfi]
      exact hname
    · simpa using hfirst j hj
  have hget : b.module.functions[i]? = some f := by rw [List.getElem?_eq_getElem hi, hfi]
  refine ⟨i, ?_, hget, ?_⟩
  · simp [lookup, hindex, hget]
  · have hname' : f.name = name := by simpa using hname
    simp [IR.Module.signatures, hget, hname']

namespace Gen

/-! ### Lowering on a builder -/

/-- Runs a part of lowering on a builder of modules. -/
def exec {α : Type} (read : String → Except String String) (x : Gen Nat Operand Nat Refusal α)
    (scope : Scope Nat Nat) (b : Builder) : Except (Error Refusal) (α × Scope Nat Nat) × Builder :=
  (x scope).run (moduleTarget read) b

variable {α β : Type} {read : String → Except String String} {x : Gen Nat Operand Nat Refusal α}
  {g : α → Gen Nat Operand Nat Refusal β} {scope scope' : Scope Nat Nat} {b b' : Builder} {a : α}

/-- To return a result sends no request. -/
theorem exec_pure : exec read (pure a) scope b = (.ok (a, scope), b) := rfl

theorem exec_get : exec read get scope b = (.ok (scope, scope), b) := rfl

theorem exec_set : exec read (set scope') scope b = (.ok ((), scope'), b) := rfl

/-- The function that is lowered is known. -/
theorem exec_current {i : Nat} {slots : List (String × Nat)} :
    exec read current ⟨some i, slots⟩ b = (.ok (i, ⟨some i, slots⟩), b) := rfl

theorem exec_modify {f : Scope Nat Nat → Scope Nat Nat} :
    exec read (modify f) scope b = (.ok ((), f scope), b) := rfl

/-- What follows a part that succeeds goes on from its result. -/
theorem exec_bind (h : exec read x scope b = (.ok (a, scope'), b')) :
    exec read (x >>= g) scope b = exec read (g a) scope' b' := by
  have hbind : exec read (x >>= g) scope b =
      ((x scope >>= fun q => g q.1 q.2) : Script _ _ _ _ _).run (moduleTarget read) b := rfl
  rw [hbind, Script.run_bind]
  unfold exec at h
  rw [h]
  rfl

/-- A request is answered by the builder. -/
theorem exec_ask (r : Request Nat Operand Nat) : exec read (ask r) scope b =
    (.ok ((ModuleTarget.handle read r b).1, scope), (ModuleTarget.handle read r b).2) := rfl

/-- A request that the builder grants goes on with the reply. -/
theorem exec_ask_backend {r : Request Nat Operand Nat} {reply : r.Reply}
    (h : ModuleTarget.handle read r b = (.granted reply, b')) :
    exec read (ask r >>= fun answer => backend answer.result) scope b = (.ok (reply, scope), b') := by
  refine (exec_bind (exec_ask r)).trans ?_
  rw [h, Answer.result_granted]
  rfl

/-- To look a function up changes nothing. -/
theorem exec_getFunction {name : String} : exec read (ask (.getFunction name)) scope b =
    (.ok (ModuleTarget.lookup b name, scope), b) :=
  rfl

section Requests

variable {n : Nat} (hb : b.OpenAt n)
include hb

/-- A load is written as such; its result has the next number. -/
theorem exec_load (s : Nat) (name : String) :
    exec read (ask (.load s name) >>= backend) scope b =
      (.ok (.value n, scope), b.write [name] [.load n s]) := by
  refine exec_ask_backend ?_
  simp only [ModuleTarget.handle, Builder.load, Builder.pushValue_eq hb]
  rfl

/-- A store is written as such. -/
theorem exec_store (v : Operand) (s : Nat) :
    exec read (ask (.store v s) >>= backend) scope b = (.ok ((), scope), b.write [] [.store v s]) := by
  refine exec_ask_backend ?_
  simp only [ModuleTarget.handle, Builder.store, Builder.push_eq hb]
  rfl

/-- An operation is written as such; its result has the next number. -/
theorem exec_binary (op : IR.Arith) (l r : Operand) :
    exec read (ask (.binary op l r) >>= backend) scope b =
      (.ok (.value n, scope), b.write [ModuleTarget.resultName op] [.binary op l r n]) := by
  refine exec_ask_backend ?_
  simp only [ModuleTarget.handle, Builder.binary, Builder.pushValue_eq hb]
  rfl

/-- A call is written as such; its result has the next number. -/
theorem exec_call {i k : Nat} {name : String} (os : List Operand)
    (hi : b.module.signatures[i]? = some (name, k)) :
    exec read (ask (.call i os) >>= backend) scope b =
      (.ok (.value n, scope), b.write [ModuleTarget.callName] [.call name os n]) := by
  refine exec_ask_backend ?_
  simp only [ModuleTarget.handle, Builder.call_eq hb os _ hi]
  rfl

/-- A return is written as such. -/
theorem exec_ret (v : Operand) :
    exec read (ask (.ret v) >>= backend) scope b = (.ok ((), scope), b.write [] [.ret v]) := by
  refine exec_ask_backend ?_
  simp only [ModuleTarget.handle, Builder.ret, Builder.push_eq hb]
  rfl

/-- A slot is written as such; it has the next number. -/
theorem exec_alloca (name : String) :
    exec read (ask (.alloca name) >>= backend) scope b = (.ok (n, scope), b.write [name] [.alloca n]) := by
  refine exec_ask_backend ?_
  simp only [ModuleTarget.handle, Builder.alloca, Builder.pushValue_eq hb]
  rfl

end Requests

/-- A variable with a slot is found. -/
theorem exec_slot {name : String} {s : Nat} (h : scope.slots.lookup name = some s) :
    exec read (slot name) scope b = (.ok (s, scope), b) := by
  refine (exec_bind exec_get).trans ?_
  rw [h]
  rfl

/-! ### Expressions -/

/-- The slots of a scope are those of variables. -/
def HasSlots (vars : List String) (scope : Scope Nat Nat) : Prop :=
  ∀ x ∈ vars, scope.slots.lookup x = some (vars.idxOf x)

/-- Lowering an expression adds its code to the open function. -/
def EmitsExpr (read : String → Except String String) (p : Program) (vars : List String)
    (scope : Scope Nat Nat) (e : Expr) : Prop :=
  ∀ (b : Builder) (n : Nat), b.OpenAt n → Code.Provides b.module p →
    exec read (expr e) scope b = (.ok ((Code.expr vars e n).result, scope),
      b.write (Code.expr vars e n).bases (Code.expr vars e n).instrs)

variable {p : Program} {vars : List String} {e : Expr} {es : List Expr} {n : Nat}

/-- What is written takes no function away. -/
theorem provides_write {bases : List String} {is : List Instr} (h : Code.Provides b.module p) :
    Code.Provides (b.write bases is).module p :=
  h.congr Builder.signatures_write

/-- An argument writes its code, given that the code of the expression was written. -/
theorem exec_argument (he : e.Scoped p vars) (hscope : HasSlots vars scope) (hb : b.OpenAt n) :
    exec read (argument e (Code.expr vars e n).result) scope
        (b.write (Code.expr vars e n).bases (Code.expr vars e n).instrs) =
      (.ok ((Code.argument vars n (Code.expr vars e n) e).result, scope),
        b.write (Code.argument vars n (Code.expr vars e n) e).bases
          (Code.argument vars n (Code.expr vars e n) e).instrs) := by
  obtain ⟨x, right, hx, rfl⟩ | hother := he.eq_assign_or
  · refine (exec_bind exec_pure).trans ?_
    refine (exec_bind (exec_slot (hscope x hx))).trans ?_
    refine (exec_load hb.write _ _).trans ?_
    rw [Builder.write_write]
    rfl
  · rw [Code.argument_of_isAssignment hother, argument]
    · exact exec_pure
    · rintro left right rfl
      cases hother

/-- Arguments write their code if each of them does. -/
theorem exec_exprs (hscope : HasSlots vars scope) (hes : ∀ e ∈ es, e.Scoped p vars)
    (hemits : ∀ e ∈ es, EmitsExpr read p vars scope e) (hb : b.OpenAt n)
    (hm : Code.Provides b.module p) :
    exec read (exprs es) scope b = (.ok ((Code.exprs vars es n).result, scope),
      b.write (Code.exprs vars es n).bases (Code.exprs vars es n).instrs) := by
  induction es generalizing b n with
  | nil =>
    rw [Code.exprs, Builder.write_nil, exprs, exec_pure]
  | cons e es ih =>
    rw [List.forall_mem_cons] at hes hemits
    rw [exprs, Code.exprs]
    refine (exec_bind (hemits.1 b n hb hm)).trans ?_
    refine (exec_bind (exec_argument hes.1 hscope hb)).trans ?_
    refine (exec_bind (ih hes.2 hemits.2 hb.write (provides_write hm))).trans ?_
    rw [exec_pure, Builder.write_write]
    rfl

/-- **Lowering an expression in scope adds its code.** -/
theorem exec_expr (hscope : HasSlots vars scope) (he : e.Scoped p vars) :
    EmitsExpr read p vars scope e := by
  induction he with
  | const k =>
    intro b n hb hm
    rw [expr, Code.expr, Builder.write_nil]
    exact exec_ask _
  | @var x hx =>
    intro b n hb hm
    rw [expr, Code.expr]
    refine (exec_bind (exec_slot (hscope x hx))).trans ?_
    exact exec_load hb _ _
  | @assign x e hx _ ih =>
    intro b n hb hm
    rw [expr, Code.expr]
    refine (exec_bind (ih b n hb hm)).trans ?_
    refine (exec_bind exec_pure).trans ?_
    refine (exec_bind (exec_slot (hscope x hx))).trans ?_
    refine (exec_bind (exec_store hb.write _ _)).trans ?_
    rw [exec_pure, Builder.write_write, List.append_nil]
  | @binary op left right hop hl hr ihl ihr =>
    intro b n hb hm
    obtain ⟨op', hop'⟩ := Gen.arith?_eq_some hop
    have hexpr : (expr (.binary op left right) : Gen Nat Operand Nat Refusal Operand) =
        expr left >>= fun l => expr right >>= fun r => ask (.binary op' l r) >>= backend := by
      rw [expr, hop']
    rw [hexpr, Code.expr_binary hop']
    refine (exec_bind (ihl b n hb hm)).trans ?_
    refine (exec_bind (ihr _ _ hb.write (provides_write hm))).trans ?_
    refine (exec_binary hb.write.write _ _ _).trans ?_
    rw [Builder.write_write, Builder.write_write, ← List.append_assoc, ← List.append_assoc]
    rfl
  | @call g args harity hargs ih =>
    intro b n hb hm
    -- the callee is looked up first; its place is the same after the code of the arguments
    obtain ⟨h, hh, -⟩ := Option.map_eq_some_iff.1 (hm _ _ harity)
    obtain ⟨i, hi, -, hsig⟩ := ModuleTarget.lookup_eq_some hh
    rw [expr, Code.expr]
    refine (exec_bind exec_getFunction).trans ?_
    rw [hi]
    refine (exec_bind (exec_exprs hscope hargs ih hb hm)).trans ?_
    refine (exec_call hb.write _ (by rw [Builder.signatures_write]; exact hsig)).trans ?_
    rw [Builder.write_write]
    rfl

/-! ### Statements and declarations -/

/-- Statements write their code, by induction on the statements up to the first that returns. -/
theorem exec_stmts {ss : List Stmt} (hscope : HasSlots vars scope)
    (hss : ∀ s ∈ ss, s.value.Scoped p vars) (hb : b.OpenAt n) (hm : Code.Provides b.module p) :
    exec read (stmts ss) scope b = (.ok ((), scope),
      b.write (Code.stmts vars ss n).bases (Code.stmts vars ss n).instrs) := by
  induction ss generalizing b n with
  | nil => rw [Code.stmts, Builder.write_nil, stmts, exec_pure]
  | cons s ss ih =>
    rw [List.forall_mem_cons] at hss
    cases s with
    | ret e =>
      rw [stmts, Code.stmts]
      refine (exec_bind (exec_expr hscope hss.1 b n hb hm)).trans ?_
      refine (exec_ret hb.write _).trans ?_
      rw [Builder.write_write, List.append_nil]
      rfl
    | expr e =>
      rw [stmts, Code.stmts]
      refine (exec_bind (exec_expr hscope hss.1 b n hb hm)).trans ?_
      rw [ih hss.2 hb.write (provides_write hm), Builder.write_write]
      rfl

/-- A parameter is there if the function takes that many, and to ask for it changes nothing. -/
theorem exec_param {i j k : Nat} {name : String} (hi : b.module.signatures[i]? = some (name, k))
    (hj : j < k) : exec read (ask (.param i j) >>= backend) scope b = (.ok (.param j, scope), b) := by
  rw [IR.Module.signatures, List.getElem?_map] at hi
  obtain ⟨f, hf, heq⟩ := Option.map_eq_some_iff.1 hi
  obtain ⟨-, rfl⟩ := Prod.mk.inj heq
  refine exec_ask_backend ?_
  simp only [ModuleTarget.handle, Builder.param, Builder.function, hf]
  show ((if j < f.arity then pure (Operand.param j) else _ : Except _ _).mapError _, b) = _
  rw [if_pos hj]
  rfl

/-- Lowering a declaration adds its code, and remembers the slot. -/
theorem exec_decl {i : Nat} {name : String} {params : List String} {d : Decl}
    (hi : b.module.signatures[i]? = some (name, params.length))
    (hd : d.kind = .parameter → d.name ∈ params) (hb : b.OpenAt n) :
    exec read (decl i params d) scope b =
      (.ok ((), { scope with slots := (d.name, n) :: scope.slots }),
        b.write [d.name] (.alloca n :: Code.binding params d n)) := by
  refine (exec_bind (exec_alloca hb d.name)).trans ?_
  refine (exec_bind exec_modify).trans ?_
  unfold Code.binding
  cases hkind : d.kind with
  | «local» => exact exec_pure
  | parameter =>
    have hmem := hd hkind
    have hidx : params.idxOf? d.name = some (params.idxOf d.name) := by
      rw [List.idxOf?, List.findIdx?_eq_guard_findIdx_lt]
      simpa [List.idxOf] using List.idxOf_lt_length_of_mem hmem
    rw [hidx]
    refine (exec_bind (exec_param (by rwa [Builder.signatures_write])
      (List.idxOf_lt_length_of_mem hmem))).trans ?_
    refine (exec_store hb.write _ _).trans ?_
    rw [Builder.write_write]
    rfl

/-- A new variable gets the slot after the others. -/
theorem HasSlots.concat (h : HasSlots vars scope) {x : String} (hx : x ∉ vars) :
    HasSlots (vars ++ [x]) { scope with slots := (x, vars.length) :: scope.slots } := by
  intro y hy
  rcases List.mem_append.1 hy with hmem | hy
  · have hne : (y == x) = false := beq_false_of_ne fun heq => hx (heq ▸ hmem)
    rw [List.idxOf_append_of_mem hmem, List.lookup_cons, hne]
    exact h y hmem
  · obtain rfl := List.mem_singleton.1 hy
    rw [List.idxOf_append_of_notMem hx]
    simp

/-- Declarations write their code and leave a slot for each variable, by induction on the declarations
that are left: `done` are the variables before them. -/
theorem exec_decls {i : Nat} {name : String} {params : List String} {ds : List Decl}
    (done : List String) (hvars : (done ++ ds.map Decl.name).Nodup)
    (hi : b.module.signatures[i]? = some (name, params.length))
    (hds : ∀ d ∈ ds, d.kind = .parameter → d.name ∈ params) (hscope : HasSlots done scope)
    (hb : b.OpenAt done.length) :
    ∃ scope', HasSlots (done ++ ds.map Decl.name) scope' ∧
      exec read (decls i params ds) scope b = (.ok ((), scope'),
        b.write (Code.decls params ds done.length).bases
          (Code.decls params ds done.length).instrs) := by
  induction ds generalizing done scope b with
  | nil =>
    refine ⟨scope, by simpa using hscope, ?_⟩
    rw [Code.decls, Builder.write_nil, decls, exec_pure]
  | cons d ds ih =>
    rw [List.forall_mem_cons] at hds
    have hnew : d.name ∉ done := not_mem_of_nodup_append hvars
    have hassoc : done ++ (d :: ds).map Decl.name = (done ++ [d.name]) ++ ds.map Decl.name := by simp
    rw [hassoc] at hvars ⊢
    have hopen : (b.write [d.name] (.alloca done.length :: Code.binding params d done.length)).OpenAt
        (done ++ [d.name]).length := by
      rw [List.length_append]
      exact hb.write
    obtain ⟨scope', hscope', hexec⟩ := ih (done ++ [d.name]) hvars
      (by rwa [Builder.signatures_write]) hds.2 (hscope.concat hnew) hopen
    refine ⟨scope', hscope', ?_⟩
    rw [decls, Code.decls]
    refine (exec_bind (exec_decl hi hds.1 hb)).trans ?_
    rw [hexec, Builder.write_write, List.length_append]
    rfl

end Gen
end Lowering
end Straightline
