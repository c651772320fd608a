/-
# What one instruction does

Every instruction computes one number (`outcome`) and, unless it is a `ret`, puts it into one place of
the frame (`Frame.after`).  `instrs_step` says that a body runs in such steps, so what holds of a run
is shown by looking at one step: the number depends only on what the operands and the slot of the
instruction read (`outcome_mapOperands`), and the step leaves every other place as it is.

A frame covers the values that are defined (`Frame.Covers`), and what is readable can then be read
(`Frame.Covers.read`): a valid body finds all it needs.

A body does with its calls nothing but go on from what they end with, so a relation between executions
that goes on with them holds of bodies if it holds of calls (`Compositional.instrs`).

A function stands for another if its body ends in the same way, whatever its calls do
(`Function.RunsLike`).  Modules whose definitions stand for each other run alike
(`Module.RunsLike.run`); a pass that keeps what bodies do gives such a module
(`Module.runsLike_mapFunctions`).
-/

import Straightline.IR.Execution
import Straightline.Proofs.Verification

namespace Straightline
namespace IR
namespace Execution

variable {inv : String → List Int32 → Execution Int32} {m : Module} {f f' : Function}
  {args : List Int32} {fr fr' : Frame} {defined : Table ValueKind} {i : Instr} {o : Operand}

@[simp] theorem ofExcept_ok {α : Type} (a : α) : ofExcept (.ok a) = pure a := rfl

/-- What follows goes on from a result and from what was written; an error ends the execution. -/
theorem bind_apply {α β : Type} (x : Execution α) (g : α → Execution β) (out : String) :
    (x >>= g) out = match x out with
      | (.ok a, out') => g a out'
      | (.error e, out') => (.error e, out') := by
  show StateT.bind x (ExceptT.bindCont g) out = _
  unfold StateT.bind
  rcases x out with ⟨e | a, out'⟩ <;> rfl

/-- The number that an instruction computes; that of a `ret` is the result of the body. -/
def outcome (inv : String → List Int32 → Execution Int32) (f : Function) (args : List Int32)
    (fr : Frame) : Instr → Execution Int32
  | .alloca _ => return 0
  | .load _ s => return fr.memory s
  | .store v _ => ofExcept (fr.read f args v)
  | .binary op l r _ => do
    let lhs ← ofExcept (fr.read f args l)
    let rhs ← ofExcept (fr.read f args r)
    ofExcept (arith f.name op lhs rhs)
  | .call callee os _ => do
    let ns ← ofExcept (fr.readAll f args os)
    inv callee ns
  | .ret v => ofExcept (fr.read f args v)

/-- The frame after an instruction that computed a number. -/
def Frame.after (fr : Frame) (n : Int32) : Instr → Frame
  | .alloca d => fr.store d n
  | .load d _ | .binary _ _ _ d | .call _ _ d => { fr with values := fr.values.set d n }
  | .store _ s => fr.store s n
  | .ret _ => fr

/-- **A body runs in steps:** an instruction computes a number, and the rest runs on the frame with
that number in its place. -/
theorem instrs_step {is : List Instr} (ht : i.isTerminator = false)
    (hd : ∀ d, i.dest? = some d → d < f.names.length) :
    instrs inv f args fr (i :: is) =
      outcome inv f args fr i >>= fun n => instrs inv f args (fr.after n i) is := by
  cases i with
  | ret v => simp [Instr.isTerminator] at ht
  | alloca d => rfl
  | store v s => simp [instrs, instr, outcome, Frame.after]
  | load d s =>
    have hlt := hd d rfl
    simp [instrs, instr, outcome, Frame.after, Frame.define, hlt]
  | binary op l r d =>
    have hlt := hd d rfl
    simp [instrs, instr, outcome, Frame.after, Frame.define, hlt]
  | call callee os d =>
    have hlt := hd d rfl
    simp [instrs, instr, outcome, Frame.after, Frame.define, hlt]

/-- A body ends with the number of its `ret`. -/
theorem instrs_ret {v : Operand} {is : List Instr} :
    instrs inv f args fr (.ret v :: is) =
      outcome inv f args fr (.ret v) >>= fun n => pure (some n) := rfl

/-- Operands that each read the same read the same together. -/
theorem Frame.readAll_map {g : Operand → Operand} {os : List Operand}
    (h : ∀ o ∈ os, fr'.read f' args (g o) = fr.read f args o) :
    fr'.readAll f' args (os.map g) = fr.readAll f args os := by
  induction os with
  | nil => rfl
  | cons o os ih =>
    rw [List.forall_mem_cons] at h
    rw [List.map_cons, Frame.readAll, Frame.readAll, h.1, ih h.2]

/-- **The number of an instruction depends only on what it reads.**  If its operands, changed by `g`,
read in one frame as they do in another, and so does its slot, then the number is the same. -/
theorem outcome_mapOperands (inv : String → List Int32 → Execution Int32)
    {g : Operand → Operand} (hname : f'.name = f.name)
    (hread : ∀ o ∈ i.operands, fr'.read f' args (g o) = fr.read f args o)
    (hslot : ∀ s, i.slot? = some s → fr'.memory s = fr.memory s) :
    outcome inv f' args fr' (i.mapOperands g) = outcome inv f args fr i := by
  cases i with
  | alloca d => rfl
  | load d s =>
    show (pure (fr'.memory s) : Execution Int32) = pure (fr.memory s)
    rw [hslot s rfl]
  | store v s =>
    show ofExcept (fr'.read f' args (g v)) = ofExcept (fr.read f args v)
    rw [hread v (by simp [Instr.operands])]
  | binary op l r d =>
    rw [Instr.mapOperands, outcome, outcome, hread l (by simp [Instr.operands]),
      hread r (by simp [Instr.operands]), hname]
  | call callee os d =>
    have hall : fr'.readAll f' args (os.map g) = fr.readAll f args os := Frame.readAll_map hread
    rw [Instr.mapOperands, outcome, outcome, hall]
  | ret v =>
    show ofExcept (fr'.read f' args (g v)) = ofExcept (fr.read f args v)
    rw [hread v (by simp [Instr.operands])]

/-! ### What a step leaves as it is -/

/-- No other value changes. -/
theorem Frame.values_after_of_ne {n : Int32} {id : Nat} (h : i.dest? ≠ some id) :
    (fr.after n i).values.get id = fr.values.get id := by
  cases i with
  | alloca d | store v s | ret v => rfl
  | load d s | binary op l r d | call callee os d =>
    refine Table.get_set_of_ne _ _ ?_
    rintro rfl
    exact h rfl

/-- The value that is defined is the result. -/
theorem Frame.values_after_dest {n : Int32} {d : Nat} (h : i.dest? = some d)
    (hkind : i.kind = .integer) : (fr.after n i).values.get d = some n := by
  cases i with
  | alloca d => cases hkind
  | store v s | ret v => cases h
  | load d s | binary op l r d | call callee os d =>
    obtain rfl := Option.some.inj h
    exact Table.get_set_self _ _ _

/-- A step changes two frames alike: where they agree, they agree after it. -/
theorem Frame.values_after_congr {n : Int32} {id : Nat}
    (h : fr'.values.get id = fr.values.get id) :
    (fr'.after n i).values.get id = (fr.after n i).values.get id := by
  cases i with
  | alloca d | store v s | ret v => exact h
  | load d s | binary op l r d | call callee os d =>
    show (fr'.values.set d n).get id = (fr.values.set d n).get id
    by_cases hid : id = d
    · subst hid
      rw [Table.get_set_self, Table.get_set_self]
    · rw [Table.get_set_of_ne _ _ hid, Table.get_set_of_ne _ _ hid, h]

/-- A slot that holds the same in two frames holds the same after an instruction. -/
theorem Frame.memory_after_congr {n : Int32} {s : Nat} (h : fr'.memory s = fr.memory s) :
    (fr'.after n i).memory s = (fr.after n i).memory s := by
  cases i with
  | load d s' | binary op l r d | call callee os d | ret v => exact h
  | alloca s' | store v s' =>
    show (if s = s' then n else fr'.memory s) = if s = s' then n else fr.memory s
    rw [h]

/-- An instruction with an integer result leaves the memory alone. -/
theorem Frame.memory_after_dest {n : Int32} {d : Nat} (h : i.dest? = some d)
    (hkind : i.kind = .integer) : (fr.after n i).memory = fr.memory := by
  cases i with
  | alloca d => cases hkind
  | store v s | ret v => cases h
  | load d s | binary op l r d | call callee os d => rfl

@[simp] theorem Frame.memory_store_self {s : Nat} {n : Int32} : (fr.store s n).memory s = n := by
  simp [Frame.store]

@[simp] theorem Frame.memory_store_of_ne {s s' : Nat} {n : Int32} (h : s' ≠ s) :
    (fr.store s n).memory s' = fr.memory s' := by
  simp [Frame.store, h]

/-- What an instruction does to a frame, given its result, does not depend on its operands. -/
@[simp] theorem Frame.after_mapOperands (n : Int32) (g : Operand → Operand) (i : Instr) :
    fr.after n (i.mapOperands g) = fr.after n i := by
  cases i <;> rfl

/-- An operand reads the same after a step, unless it is what the step defines. -/
theorem Frame.read_after {n : Int32} (h : ∀ id, o = .value id → i.dest? ≠ some id) :
    (fr.after n i).read f args o = fr.read f args o := by
  cases o with
  | value id => rw [Frame.read, Frame.read, Frame.values_after_of_ne (h id rfl)]
  | _ => rfl

/-! ### Frames that hold what is defined -/

/-- A frame that holds every integer that is defined. -/
def Frame.Covers (fr : Frame) (defined : Table ValueKind) : Prop :=
  ∀ id, defined.get id = some .integer → ∃ n, fr.values.get id = some n

/-- A frame that has just been made covers what is defined there: nothing. -/
theorem Frame.covers_empty : Frame.empty.Covers .empty := by
  intro id h
  cases h

/-- **What is readable can be read.** -/
theorem Frame.Covers.read (hfr : fr.Covers defined) (hargs : args.length = f.arity)
    (ho : o.Readable f defined) : ∃ n, fr.read f args o = .ok n := by
  cases o with
  | const n => exact ⟨n, rfl⟩
  | undef => exact ⟨0, rfl⟩
  | param index =>
    have hlt : index < args.length := by
      rw [hargs]
      exact ho
    exact ⟨args[index], by rw [Frame.read, List.getElem?_eq_getElem hlt]⟩
  | value id =>
    obtain ⟨n, hn⟩ := hfr id ho
    exact ⟨n, by rw [Frame.read, hn]⟩

/-- A frame that covers what is defined does so after each instruction. -/
theorem Frame.Covers.after (hfr : fr.Covers defined) (n : Int32) (i : Instr) :
    (fr.after n i).Covers (defined.after i) := by
  intro id hid
  by_cases hd : i.dest? = some id
  · rw [Table.get_after_dest hd, Option.some.injEq] at hid
    exact ⟨n, Frame.values_after_dest hd hid⟩
  · rw [Table.get_after_of_ne hd] at hid
    rw [Frame.values_after_of_ne hd]
    exact hfr id hid

/-! ### From bodies to modules -/

/-- Of its function, a body knows only the name and the names of the values. -/
theorem instrs_congr_function {is : List Instr} (hname : f'.name = f.name)
    (hnames : f'.names = f.names) :
    instrs inv f' args fr is = instrs inv f args fr is := by
  have hread : ∀ (fr : Frame) (o : Operand), fr.read f' args o = fr.read f args o := by
    intro fr o
    cases o <;> simp [Frame.read, Function.valueName, hname, hnames]
  have hreadAll : ∀ (fr : Frame) (os : List Operand),
      fr.readAll f' args os = fr.readAll f args os := by
    intro fr os
    simpa using Frame.readAll_map (fun o (_ : o ∈ os) => hread fr o)
  have hdefine : ∀ (fr : Frame) (d : Nat) (n : Int32), fr.define f' d n = fr.define f d n := by
    intro fr d n
    simp [Frame.define, hname, hnames]
  have hinstr : ∀ (fr : Frame) (i : Instr), instr inv f' args fr i = instr inv f args fr i := by
    intro fr i
    cases i <;> simp [instr, hread, hreadAll, hdefine, hname]
  induction is generalizing fr with
  | nil => rfl
  | cons i is ih =>
    cases i with
    | ret v => simp [instrs, hread]
    | _ => simp [instrs, hinstr, ih]

/-! ### Relations between executions -/

/-- A relation between executions that an outcome has to itself, and that executions have if they go on in
related ways after related beginnings. -/
structure Compositional (R : (α : Type) → Execution α → Execution α → Prop) : Prop where
  ofExcept : ∀ {α : Type} (r : Except Error α), R α (ofExcept r) (ofExcept r)
  bind : ∀ {α β : Type} {x y : Execution α} {g h : α → Execution β}, R α x y →
    (∀ a, R β (g a) (h a)) → R β (x >>= g) (y >>= h)

namespace Compositional

variable {R : (α : Type) → Execution α → Execution α → Prop} (hR : Compositional R)
  {inv inv' : String → List Int32 → Execution Int32} {f : Function} {args : List Int32}
include hR

/-- Of all instructions, only calls depend on what calls do. -/
theorem instr (hinv : ∀ name ns, R Int32 (inv name ns) (inv' name ns)) (fr : Frame) (i : Instr) :
    R Frame (instr inv f args fr i) (instr inv' f args fr i) := by
  cases i with
  | alloca d | ret v => exact hR.ofExcept (.ok _)
  | load d s => exact hR.ofExcept _
  | store v s => exact hR.bind (hR.ofExcept _) fun n => hR.ofExcept (.ok _)
  | binary op l r d =>
    exact hR.bind (hR.ofExcept _) fun lhs => hR.bind (hR.ofExcept _) fun rhs =>
      hR.bind (hR.ofExcept _) fun n => hR.ofExcept _
  | call callee os d =>
    exact hR.bind (hR.ofExcept _) fun ns => hR.bind (hinv callee ns) fun n => hR.ofExcept _

/-- **Bodies are related if their calls are.** -/
theorem instrs (hinv : ∀ name ns, R Int32 (inv name ns) (inv' name ns)) {fr : Frame}
    {is : List Instr} : R (Option Int32) (instrs inv f args fr is) (instrs inv' f args fr is) := by
  induction is generalizing fr with
  | nil => exact hR.ofExcept (.ok none)
  | cons i is ih =>
    cases i with
    | ret v => exact hR.bind (hR.ofExcept _) fun n => hR.ofExcept (.ok _)
    | _ => exact hR.bind (hR.instr hinv fr _) fun _ => ih

/-- **Calls are related if definitions are entered in related ways,** and writing is. -/
theorem invoke (m : Module) {sink : Sink}
    {enter enter' : Function → List Int32 → Execution Int32}
    (hprint : ∀ n, R Int32 (print sink n) (print sink n))
    (henter : ∀ f args, R Int32 (enter f args) (enter' f args)) (name : String) (args : List Int32) :
    R Int32 (invoke m sink enter name args) (invoke m sink enter' name args) := by
  unfold Execution.invoke
  cases m.definition? name with
  | some f =>
    by_cases harity : f.arity = args.length
    · simp only [if_pos harity]
      exact henter f args
    · simp only [if_neg harity]
      exact hR.ofExcept (.error _)
  | none =>
    by_cases hname : name = printnum
    · simp only [if_pos hname]
      rcases args with _ | ⟨n, _ | ⟨n', ns⟩⟩
      · exact hR.ofExcept (.error _)
      · exact hprint n
      · exact hR.ofExcept (.error _)
    · simp only [if_neg hname]
      exact hR.ofExcept (.error _)

end Compositional

end Execution

open Execution

/-- A definition that is found is in the module, under its name. -/
theorem Module.mem_of_definition? {m : Module} {name : String} {f : Function}
    (h : m.definition? name = some f) : f ∈ m.functions ∧ f.isDeclaration = false ∧ f.name = name := by
  obtain ⟨hfind, hdef⟩ := Option.filter_eq_some_iff.1 h
  refine ⟨List.mem_of_find?_eq_some hfind, by simpa using hdef, ?_⟩
  simpa using List.find?_some hfind

/-- Where names occur once, a definition is found under its name. -/
theorem Module.definition?_of_mem {m : Module} {f : Function}
    (hnames : (m.functions.map Function.name).Nodup) (hf : f ∈ m.functions)
    (hdef : f.isDeclaration = false) : m.definition? f.name = some f := by
  rw [Module.definition?, Module.function?, find?_eq_some_of_mem hnames hf]
  simp [hdef]

/-- Definitions are found as before in a module whose functions keep their shape. -/
theorem KeepsShape.definition? {g : Function → Function} (hg : KeepsShape g) (m : Module)
    (name : String) : (m.mapFunctions g).definition? name = (m.definition? name).map g := by
  rw [Module.definition?, Module.definition?, hg.function?]
  cases m.function? name with
  | none => rfl
  | some f => cases hf : f.isDeclaration <;> simp [Option.filter, hg.isDeclaration, hf]

/-- A function that can stand for another: it has the same name and as many parameters, and its body
ends in the same way, whatever the calls in it do. -/
structure Function.RunsLike (f' f : Function) : Prop where
  name : f'.name = f.name
  arity : f'.arity = f.arity
  body : ∀ inv args, args.length = f.arity →
    Execution.instrs inv f' args .empty f'.instrs = Execution.instrs inv f args .empty f.instrs

/-- A module in which each definition of another is stood for, and no other name is defined. -/
def Module.RunsLike (m' m : Module) : Prop :=
  ∀ name, Option.Rel Function.RunsLike (m'.definition? name) (m.definition? name)

namespace Module.RunsLike

variable {m' m : Module} {sink : Sink} (h : m'.RunsLike m)
include h

/-- Calls go the same way in two modules, if definitions that stand for each other are entered
alike. -/
theorem invoke {enter enter' : Function → List Int32 → Execution Int32}
    (henter : ∀ f' f, f'.RunsLike f → ∀ args, args.length = f.arity → enter' f' args = enter f args)
    (name : String) (args : List Int32) :
    Execution.invoke m' sink enter' name args = Execution.invoke m sink enter name args := by
  unfold Execution.invoke
  rcases eq_none_or_some_of_rel (h name) with ⟨hnone', hnone⟩ | ⟨f', f, hf', hf, hlike⟩
  · rw [hnone', hnone]
  · rw [hf', hf]
    simp only [hlike.arity]
    split
    · rename_i hargs
      exact henter f' f hlike args hargs.symm
    · rfl

/-- **Definitions that stand for each other are entered alike.**  The induction is on the number of
calls that may still be nested. -/
theorem enter (budget : Nat) : ∀ f' f, f'.RunsLike f → ∀ args, args.length = f.arity →
    Execution.enter m' sink budget f' args = Execution.enter m sink budget f args := by
  induction budget with
  | zero =>
    intro f' f hf args _
    rw [Execution.enter, Execution.enter, hf.name]
  | succ budget ih =>
    intro f' f hf args hargs
    have hinv : Execution.invoke m' sink (Execution.enter m' sink budget) =
        Execution.invoke m sink (Execution.enter m sink budget) := by
      funext name ns
      exact h.invoke ih name ns
    rw [Execution.enter, Execution.enter, hinv, hf.body _ args hargs]

/-- **Modules whose definitions stand for each other run alike.** -/
theorem run (sink : Sink) (name : String) (args : List Int32) :
    m'.run sink name args = m.run sink name args := by
  rw [Module.run, Module.run, Module.runAt, Module.runAt, h.invoke (h.enter _)]

end Module.RunsLike

/-- **A pass that keeps what bodies do gives a module that runs alike.** -/
theorem Module.runsLike_mapFunctions {m : Module} {g : Function → Function} (hg : KeepsShape g)
    (h : ∀ f ∈ m.functions, f.isDeclaration = false → ∀ inv args, args.length = f.arity →
      instrs inv f args .empty (g f).instrs = instrs inv f args .empty f.instrs) :
    (m.mapFunctions g).RunsLike m := by
  intro name
  rw [hg.definition?]
  cases hdef : m.definition? name with
  | none => exact .none
  | some f =>
    obtain ⟨hf, hbody, -⟩ := Module.mem_of_definition? hdef
    refine .some ⟨hg.name f, hg.arity f, fun inv args hargs => ?_⟩
    rw [instrs_congr_function (hg.name f) (hg.names f), h f hf hbody inv args hargs]

end IR
end Straightline
