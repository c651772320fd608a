/-
# Promoted programs do not go wrong

What an execution can end with is said by two predicates, one on results and one on errors (`Meets`),
and shown along the steps of a body.  A valid body finds every integer that it reads and has a place
for every integer that it defines, so its own errors are those of divisions; and it ends with its
`ret`, so it has a result (`ValidBody.meets_instrs`).  The calls in it name functions of the module
and pass as many arguments as these take.  By induction on the calls that may still be nested, all
errors of a call inside a program are therefore regular (`Error.Regular`): of the ways in which
arguments can be too many or too few, only the built-in print routine is left, which a module may
declare with any number of parameters.

A valid body mentions only values and parameters that have a name, so a valid module has a text
(`Module.Valid.text?_eq`).
-/

import Straightline.IR.Printer
import Straightline.Proofs.Folding

namespace Straightline
namespace IR
namespace Execution

/-! ### What an execution can end with -/

/-- However much was written before, an execution ends with a result for which `Q` holds, or with an
error for which `P` holds. -/
def Meets {α : Type} (x : Execution α) (Q : α → Prop) (P : Error → Prop) : Prop :=
  ∀ out, match (x out).1 with
    | .ok a => Q a
    | .error e => P e

section Meets

variable {α β : Type} {x : Execution α} {Q Q' : α → Prop} {P P' : Error → Prop}

theorem meets_pure {a : α} (h : Q a) : Meets (pure a) Q P :=
  fun _ => h

theorem meets_throw {e : Error} (h : P e) : Meets (throw e : Execution α) Q P :=
  fun _ => h

/-- What holds of the results and of the errors can be weakened. -/
theorem Meets.imp (hx : Meets x Q P) (hQ : ∀ a, Q a → Q' a) (hP : ∀ e, P e → P' e) :
    Meets x Q' P' := by
  intro out
  have h := hx out
  cases hr : (x out).1 with
  | ok a =>
    rw [hr] at h
    exact hQ a h
  | error e =>
    rw [hr] at h
    exact hP e h

/-- **What follows goes on from a result;** an error ends the execution. -/
theorem Meets.bind {R : β → Prop} {g : α → Execution β} (hx : Meets x Q P)
    (hg : ∀ a, Q a → Meets (g a) R P) : Meets (x >>= g) R P := by
  intro out
  have h := hx out
  rw [bind_apply]
  rcases hr : x out with ⟨e | a, out'⟩
  · rw [hr] at h
    exact h
  · rw [hr] at h
    exact hg a h out'

end Meets

/-! ### Bodies -/

variable {inv : String → List Int32 → Execution Int32} {m : Module} {f : Function}
  {args : List Int32} {fr : Frame} {defined : Table ValueKind} {P : Error → Prop}

/-- Operands that are readable are read, each of them. -/
theorem Frame.Covers.readAll (hfr : fr.Covers defined) (hargs : args.length = f.arity)
    {os : List Operand} (hos : ∀ o ∈ os, o.Readable f defined) :
    ∃ ns, fr.readAll f args os = .ok ns ∧ ns.length = os.length := by
  induction os with
  | nil => exact ⟨[], rfl, rfl⟩
  | cons o os ih =>
    rw [List.forall_mem_cons] at hos
    obtain ⟨n, hn⟩ := hfr.read hargs hos.1
    obtain ⟨ns, hns, hlen⟩ := ih hos.2
    refine ⟨n :: ns, ?_, by simp [hlen]⟩
    rw [Frame.readAll, hn, hns]
    rfl

/-- A division fails if it has no result, and no other arithmetic does. -/
theorem meets_arith (op : Arith) (l r : Int32) (hzero : P (.divisionByZero f.name))
    (hover : P (.divisionOverflow f.name)) :
    Meets (ofExcept (arith f.name op l r)) (fun _ => True) P := by
  unfold arith
  cases op.eval? l r with
  | some n => exact meets_pure trivial
  | none =>
    by_cases hr : r = 0
    · rw [if_pos hr]
      exact meets_throw hzero
    · rw [if_neg hr]
      exact meets_throw hover

/-- The calls that keep the rules of a module end as said. -/
def CallsMeet (m : Module) (inv : String → List Int32 → Execution Int32) (P : Error → Prop) : Prop :=
  ∀ name ns g, m.function? name = some g → g.arity = ns.length →
    Meets (inv name ns) (fun _ => True) P

/-- **A valid instruction fails only as a division or as the call that it makes.** -/
theorem meets_outcome {i : Instr} (hargs : args.length = f.arity) (hfr : fr.Covers defined)
    (hi : i.Valid m f defined) (hzero : P (.divisionByZero f.name))
    (hover : P (.divisionOverflow f.name)) (hcalls : CallsMeet m inv P) :
    Meets (outcome inv f args fr i) (fun _ => True) P := by
  have hread : ∀ o ∈ i.operands, ∃ n, fr.read f args o = .ok n := fun o ho =>
    hfr.read hargs (hi.operands o ho)
  cases i with
  | alloca d | load d s => exact meets_pure trivial
  | store v s | ret v =>
    obtain ⟨n, hn⟩ := hread v (List.mem_singleton_self v)
    rw [outcome, hn]
    exact meets_pure trivial
  | binary op l r d =>
    obtain ⟨lhs, hl⟩ := hread l (by simp [Instr.operands])
    obtain ⟨rhs, hr⟩ := hread r (by simp [Instr.operands])
    rw [outcome, hl, hr, ofExcept_ok, ofExcept_ok, pure_bind, pure_bind]
    exact meets_arith op lhs rhs hzero hover
  | call callee os d =>
    obtain ⟨ns, hns, hlen⟩ : ∃ ns, fr.readAll f args os = .ok ns ∧ ns.length = os.length :=
      hfr.readAll hargs hi.operands
    obtain ⟨g, hg, harity⟩ := hi.callee callee os d rfl
    have hlen' : g.arity = ns.length := harity.trans hlen.symm
    rw [outcome, hns, ofExcept_ok, pure_bind]
    exact hcalls callee ns g hg hlen'

/-- **A valid body ends with a result,** or with an error of a division or of one of its calls. -/
theorem meets_instrs {is : List Instr} (hargs : args.length = f.arity)
    (hbody : ValidBody m f defined is) (hfr : fr.Covers defined)
    (hzero : P (.divisionByZero f.name)) (hover : P (.divisionOverflow f.name))
    (hcalls : CallsMeet m inv P) :
    Meets (instrs inv f args fr is) (fun n => n.isSome = true) P := by
  induction hbody generalizing fr with
  | @ret defined v hv =>
    obtain ⟨n, hn⟩ := hfr.read hargs hv
    rw [instrs_ret, outcome, hn]
    exact meets_pure rfl
  | @step defined i is ht hi _ ih =>
    rw [instrs_step ht fun d hd => (hi.result d hd).1]
    refine (meets_outcome hargs hfr hi hzero hover hcalls).bind fun n _ => ?_
    exact ih (hfr.after n i)

/-- The body of a valid function ends with a result, or with an error that a division or a call has. -/
theorem meets_instrs_of_valid (hargs : args.length = f.arity) (hf : f.Valid m)
    (hzero : P (.divisionByZero f.name)) (hover : P (.divisionOverflow f.name))
    (hcalls : CallsMeet m inv P) :
    Meets (instrs inv f args .empty f.instrs) (fun n => n.isSome = true) P :=
  meets_instrs hargs hf.validBody Frame.covers_empty hzero hover hcalls

/-! ### Calls -/

/-- The errors that a call inside a program can end with.  Where the print routine is built in, a
module may have declared it with another number of parameters than one. -/
inductive Error.Regular (m : Module) : Error → Prop
  | divisionByZero (function : String) : Regular m (.divisionByZero function)
  | divisionOverflow (function : String) : Regular m (.divisionOverflow function)
  | unresolvedSymbol (name : String) : Regular m (.unresolvedSymbol name)
  | callDepthExceeded (function : String) : Regular m (.callDepthExceeded function)
  | output (reason : String) : Regular m (.output reason)
  | arityMismatch {found : Nat} (hnone : m.definition? printnum = none) (hfound : found ≠ 1) :
    Regular m (.arityMismatch printnum 1 found)

/-- The error of a call with too many or too few arguments for the definition that it names. -/
def Error.IsMiscall (m : Module) (name : String) (args : List Int32) (e : Error) : Prop :=
  ∃ f, m.definition? name = some f ∧ f.arity ≠ args.length ∧
    e = .arityMismatch name f.arity args.length

/-- To print gives a result, or the error of the sink. -/
theorem meets_print (sink : Sink) (n : Int32) :
    Meets (print sink n) (fun _ => True) (Error.Regular m) := by
  cases sink with
  | accepting =>
    intro out
    trivial
  | refusing reason => exact meets_throw (.output reason)

/-- **A call fails regularly or for its own number of arguments,** if definitions fail regularly when
they are entered. -/
theorem meets_invoke (sink : Sink) {enter : Function → List Int32 → Execution Int32}
    (henter : ∀ f ∈ m.functions, f.isDeclaration = false → ∀ args, args.length = f.arity →
      Meets (enter f args) (fun _ => True) (Error.Regular m)) (name : String) (args : List Int32) :
    Meets (invoke m sink enter name args) (fun _ => True)
      fun e => e.Regular m ∨ e.IsMiscall m name args := by
  have hregular : ∀ e : Error, e.Regular m → e.Regular m ∨ e.IsMiscall m name args := fun _ => .inl
  unfold invoke
  cases hdef : m.definition? name with
  | some f =>
    obtain ⟨hf, hbody, -⟩ := Module.mem_of_definition? hdef
    by_cases harity : f.arity = args.length
    · simp only [if_pos harity]
      exact (henter f hf hbody args harity.symm).imp (fun _ h => h) hregular
    · simp only [if_neg harity]
      exact meets_throw (.inr ⟨f, hdef, harity, rfl⟩)
  | none =>
    by_cases hname : name = printnum
    · subst hname
      simp only [if_true]
      split
      · exact (meets_print sink _).imp (fun _ h => h) hregular
      · rename_i hone
        refine meets_throw (.inl (.arityMismatch hdef fun hlen => ?_))
        obtain ⟨n, rfl⟩ := List.length_eq_one_iff.1 hlen
        exact hone n rfl
    · simp only [if_neg hname]
      exact meets_throw (.inl (.unresolvedSymbol name))

/-- The calls of a valid module pass as many arguments as definitions take. -/
theorem callsMeet_invoke (sink : Sink) {enter : Function → List Int32 → Execution Int32}
    (henter : ∀ f ∈ m.functions, f.isDeclaration = false → ∀ args, args.length = f.arity →
      Meets (enter f args) (fun _ => True) (Error.Regular m)) :
    CallsMeet m (invoke m sink enter) (Error.Regular m) := by
  intro name ns g hg harity
  refine (meets_invoke sink henter name ns).imp (fun _ h => h) ?_
  rintro e (he | ⟨f, hf, hne, -⟩)
  · exact he
  · obtain ⟨hfind, -⟩ := Option.filter_eq_some_iff.1 hf
    obtain rfl := Option.some.inj (hg.symm.trans hfind)
    exact absurd harity hne

/-- **Definitions of a valid module fail regularly.**  The induction is on the number of calls that may
still be nested. -/
theorem meets_enter (hm : m.Valid) (sink : Sink) (budget : Nat) :
    ∀ f ∈ m.functions, f.isDeclaration = false → ∀ args, args.length = f.arity →
      Meets (enter m sink budget f args) (fun _ => True) (Error.Regular m) := by
  induction budget with
  | zero =>
    intro f _ _ args _
    exact meets_throw (.callDepthExceeded f.name)
  | succ budget ih =>
    intro f hf hdef args hargs
    have hbody := meets_instrs_of_valid hargs (hm.bodies f hf hdef) (.divisionByZero f.name)
      (.divisionOverflow f.name) (callsMeet_invoke sink ih)
    exact hbody.bind fun n _ => meets_pure trivial

end Execution

open Execution

/-- **A run of a valid module fails regularly, or for the number of its own arguments.** -/
theorem Module.Valid.error_of_run {m : Module} (hm : m.Valid) {sink : Sink} {name : String}
    {args : List Int32} {e : Error} (h : (m.run sink name args).1 = .error e) :
    e.Regular m ∨ e.IsMiscall m name args := by
  have hmeets := meets_invoke sink (meets_enter hm sink (maxCallDepth - 0)) name args ""
  rw [Module.run, Module.runAt] at h
  rwa [h] at hmeets

/-! ### Names for what is mentioned -/

/-- A valid body mentions only what has a name. -/
theorem ValidBody.nameableInstr {m : Module} {f : Function} {defined : Table ValueKind}
    {is : List Instr} (h : ValidBody m f defined is)
    (hdefined : ∀ id k, defined.get id = some k → id < f.names.length) :
    ∀ i ∈ is, f.NameableInstr i := by
  have hoperand : ∀ {defined : Table ValueKind} {o : Operand}, o.Readable f defined →
      (∀ id k, defined.get id = some k → id < f.names.length) → f.NameableOperand o := by
    intro defined o ho hdefined
    cases o with
    | value id => exact hdefined id _ ho
    | param index => exact ho
    | const n | undef => trivial
  induction h with
  | @ret defined v hv =>
    rw [List.forall_mem_singleton]
    refine ⟨?_, fun s hs => (by cases hs), fun d hd => (by cases hd)⟩
    intro o ho
    rw [List.mem_singleton.1 ho]
    exact hoperand hv hdefined
  | @step defined i is ht hi _ ih =>
    rw [List.forall_mem_cons]
    refine ⟨⟨fun o ho => hoperand (hi.operands o ho) hdefined, ?_, ?_⟩, ih ?_⟩
    · intro s hs
      exact hdefined s _ (hi.slot s (Option.mem_toList.1 hs))
    · intro d hd
      exact (hi.result d (Option.mem_toList.1 hd)).1
    · intro id k hid
      by_cases hd : i.dest? = some id
      · exact (hi.result id hd).1
      · rw [Table.get_after_of_ne hd] at hid
        exact hdefined id k hid

/-- A valid module has a name for every value. -/
theorem Module.Valid.nameable {m : Module} (hm : m.Valid) : m.Nameable := by
  intro f hf
  cases hdef : f.isDeclaration with
  | true =>
    have hblocks : f.blocks = [] := List.isEmpty_iff.1 hdef
    intro i hi
    simp [Function.instrs, hblocks] at hi
  | false =>
    have hbody := (hm.bodies f hf hdef).validBody
    exact hbody.nameableInstr fun id k hid => by cases hid

/-- **A valid module has a text.** -/
theorem Module.Valid.text?_eq {m : Module} (hm : m.Valid) : m.text? = some m.text :=
  if_pos hm.nameable

/-- Only a valid module is prepared. -/
theorem Module.valid_of_prepare {m p : Module} (h : m.prepare = .ok p) : m.Valid :=
  (Module.prepare_eq_ok_iff.1 h).1

/-- **A promoted program does not go wrong.**  It has a text, as has every module that it was prepared
from.  No body of it ends without a `ret`, whatever its calls do.  And a run never reads or writes what
is not there; if it fails because of a number of arguments, then these are its own arguments, or those
of the print routine, which the program does not define and which takes one. -/
theorem promoted_does_not_go_wrong (p : Module) (h : p.Promoted) :
    (p.text? = some p.text ∧ ∀ m : Module, m.prepare = .ok p → m.text? = some m.text) ∧
    (∀ f ∈ p.functions, f.isDeclaration = false → ∀ inv args, args.length = f.arity →
      ∀ out, (instrs inv f args .empty f.instrs out).1 ≠ .ok none) ∧
    ∀ sink name args e, (p.run sink name args).1 = .error e →
      (∀ function, e ≠ .outOfRange function) ∧
      (∀ function value, e ≠ .uninitialized function value) ∧
      ∀ callee expected found, e = .arityMismatch callee expected found →
        (callee = name ∧ found = args.length ∧ expected ≠ found ∧
          ∃ f, p.definition? name = some f ∧ f.arity = expected) ∨
        (callee = printnum ∧ p.definition? printnum = none ∧ expected = 1 ∧ found ≠ 1) := by
  have hp := h.valid
  refine ⟨⟨hp.text?_eq, fun m hm => (Module.valid_of_prepare hm).text?_eq⟩, ?_, ?_⟩
  · intro f hf hdef inv args hargs out hnone
    have hcalls : CallsMeet p inv fun _ => True := by
      intro name ns g _ _ out
      split <;> trivial
    have hmeets := meets_instrs_of_valid hargs (hp.bodies f hf hdef) trivial trivial hcalls out
    rw [hnone] at hmeets
    cases hmeets
  · intro sink name args e he
    rcases hp.error_of_run he with hregular | ⟨f, hf, hne, rfl⟩
    · refine ⟨?_, ?_, ?_⟩
      · rintro function rfl
        cases hregular
      · rintro function value rfl
        cases hregular
      · rintro callee expected found rfl
        cases hregular with
        | arityMismatch hnone hfound => exact .inr ⟨rfl, hnone, rfl, hfound⟩
    · refine ⟨fun _ => (by simp), fun _ _ => (by simp), ?_⟩
      rintro callee expected found heq
      obtain ⟨rfl, rfl, rfl⟩ := Error.arityMismatch.inj heq
      exact .inl ⟨rfl, rfl, hne, f, hf, rfl⟩

/-- A program that declares the print routine with two parameters, and calls it so after a division of
constants. -/
def pairPrinter : Module :=
  ⟨"m", [.declare "printnum" ["i", "j"],
    ⟨"main", ["aArg"], ["half", "call_tmp"],
      [⟨"entry", [.binary .sdiv (.const 8) (.const 2) 0, .call "printnum" [.value 0, .param 0] 1,
        .ret (.value 1)]⟩]⟩]⟩

/-- The hypotheses are satisfiable: `pairPrinter` is promoted and folded, and its run fails because it
calls the built-in print routine with two arguments. -/
theorem folded_pairPrinter_does_not_go_wrong : pairPrinter.fold.Promoted ∧
    pairPrinter.fold.text? = some pairPrinter.fold.text ∧
    (pairPrinter.fold.run .accepting "main" [3]).1 = .error (.arityMismatch "printnum" 1 2) ∧
    pairPrinter.fold.definition? printnum = none := by
  have h : pairPrinter.fold.Promoted := .fold (.prepare (m := pairPrinter) rfl)
  obtain ⟨⟨htext, -⟩, -, hrun⟩ := promoted_does_not_go_wrong pairPrinter.fold h
  obtain ⟨-, -, hcause⟩ := hrun .accepting "main" [3] (.arityMismatch "printnum" 1 2) rfl
  rcases hcause "printnum" 1 2 rfl with ⟨hname, -⟩ | ⟨-, hnone, -⟩
  · exact absurd hname (by decide)
  · exact ⟨h, htext, rfl, hnone⟩

end IR
end Straightline
