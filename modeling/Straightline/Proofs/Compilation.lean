/-
# Compiling programs

A module realizes a program if its definitions do what those of the program say, whatever the calls
in them do (`Implements`, `Realizes`).  Then it does what the program does (`Realizes.run`): calls find
definitions that belong together, and by induction on the calls that may still be nested each of
them runs like its source (`Realizes.enter_eq`).

The module of a well-formed program is valid (`Lowers.valid`), since the code of each function is,
and it realizes the program (`Lowers.realizes`).

A program that was read is well formed.  So after reading nothing can go wrong up to the module
that is executed, and that module behaves like the text.
-/

import Mathlib
import Straightline.Proofs.Lowering
import Straightline.Proofs.Promotion
import Straightline.Proofs.Simulation

namespace Straightline
namespace Lowering

open Source (Program)

/-! ### Modules that do what programs say -/

/-- A function of a module that does what a definition says, whatever the calls in it do. -/
structure Implements (g : IR.Function) (f : Source.Function) : Prop where
  name : g.name = f.name
  arity : g.arity = f.arity
  body : ∀ inv args, args.length = f.arity →
    IR.Execution.instrs inv g args .empty g.instrs =
      Source.Evaluation.stmts inv f.name f.stmts (Source.Env.ofArgs f.prototype.params args) >>=
        fun q => pure (some q.1)

/-- What runs like an implementation is one. -/
theorem Implements.of_runsLike {g' g : IR.Function} {f : Source.Function} (hg : Implements g f)
    (h : g'.RunsLike g) : Implements g' f := by
  refine ⟨h.name.trans hg.name, h.arity.trans hg.arity, fun inv args hargs => ?_⟩
  rw [h.body inv args (hargs.trans hg.arity.symm), hg.body inv args hargs]

/-- A module whose definitions do what those of a program say. -/
def Realizes (m : IR.Module) (p : Program) : Prop :=
  ∀ name, Option.Rel Implements (m.definition? name) (p.function? name)

namespace Realizes

/-- A module that runs like one that realizes a program realizes it. -/
theorem of_runsLike {m' m : IR.Module} {p : Program} (hm : Realizes m p) (h : m'.RunsLike m) :
    Realizes m' p := by
  intro name
  exact rel_comp (fun _ _ _ hlike himpl => himpl.of_runsLike hlike) (h name) (hm name)

variable {m : IR.Module} {p : Program} {sink : IR.Sink} (h : Realizes m p)
include h

/-- Calls go the same way in a module and a program, if definitions are entered alike. -/
theorem invoke_eq {enter : Source.Function → List Int32 → IR.Execution Int32}
    {enter' : IR.Function → List Int32 → IR.Execution Int32}
    (henter : ∀ g f, Implements g f → ∀ args, args.length = f.arity → enter' g args = enter f args) :
    IR.Execution.invoke m sink enter' = p.call sink enter := by
  funext name args
  unfold IR.Execution.invoke Program.call
  rcases eq_none_or_some_of_rel (h name) with ⟨hnone, hnone'⟩ | ⟨g, f, hg, hf, himpl⟩
  · rw [hnone, hnone']
    match args with
    | [] | [n] | n :: n' :: ns => rfl
  · rw [hg, hf]
    show (if g.arity = args.length then enter' g args else _) =
      if f.arity = args.length then enter f args else _
    rw [himpl.arity]
    split
    · rename_i hargs
      exact henter g f himpl args hargs.symm
    · rfl

/-- A function that implements another does the same, with as many calls left to nest. -/
theorem enter_eq (budget : Nat) : ∀ g f, Implements g f → ∀ args, args.length = f.arity →
    IR.Execution.enter m sink budget g args = p.enter sink budget f args := by
  -- inside a body the calls have one less to nest, so they go alike by induction
  induction budget with
  | zero =>
    intro g f himpl args _
    rw [IR.Execution.enter, Program.enter, himpl.name]
  | succ budget ih =>
    intro g f himpl args hargs
    rw [IR.Execution.enter, Program.enter, h.invoke_eq ih, himpl.body _ args hargs, bind_assoc]
    simp only [pure_bind, Option.getD_some, StateT.run', map_eq_pure_bind]

/-- **A module that realizes a program does what the program does.** -/
theorem run (sink : IR.Sink) (name : String) (args : List Int32) :
    m.run sink name args = p.run sink name args := by
  rw [IR.Module.run, IR.Module.runAt, Program.run, h.invoke_eq (h.enter_eq _)]
  rfl

end Realizes

/-! ### The module of a program -/

/-- The parameters that a function is lowered with are as many as it has. -/
theorem length_paramsOf {p : Program} (hp : p.WellFormed) {f : Source.Function}
    (hf : f ∈ p.functions) : (paramsOf p f).length = f.arity := by
  unfold paramsOf
  cases hq : p.prototype? f.name with
  | none => rfl
  | some q =>
    exact hp.arity q (List.mem_of_find?_eq_some hq) f hf (by simpa using List.find?_some hq)

namespace Lowers

variable {p : Program} {m : IR.Module}

/-- The definitions of a module that was lowered from a program are those of the program, lowered. -/
theorem definition? (h : Lowers p m) (name : String) :
    m.definition? name = (p.function? name).map fun f => lowered (paramsOf p f) f := by
  rw [IR.Module.definition?, h.function?, loweredFunction?]
  cases p.function? name with
  | none => cases p.prototype? name <;> rfl
  | some f => rfl

/-- **The module of a well-formed program is valid.** -/
theorem valid (h : Lowers p m) (hp : p.WellFormed) : m.Valid := by
  refine ⟨h.names, fun g hg hdef => ?_⟩
  have hfound : m.definition? g.name = some g := by
    rw [IR.Module.definition?, IR.Module.function?, find?_eq_some_of_mem h.names hg]
    simp [hdef]
  rw [h.definition?] at hfound
  obtain ⟨f, hf, rfl⟩ := Option.map_eq_some_iff.1 hfound
  have hmem : f ∈ p.functions := List.mem_of_find?_eq_some hf
  exact valid_lowered h.provides (hp.wellFormed_of_mem hmem) (length_paramsOf hp hmem)

/-- A lowered module realizes the program. -/
theorem realizes (h : Lowers p m) (hp : p.WellFormed) : Realizes m p := by
  intro name
  rw [h.definition?]
  cases hf : p.function? name with
  | none => exact .none
  | some f =>
    have hmem : f ∈ p.functions := List.mem_of_find?_eq_some hf
    refine .some ⟨name_lowered, arity_lowered.trans (length_paramsOf hp hmem), ?_⟩
    exact fun inv args hargs => run_lowered inv (hp.wellFormed_of_mem hmem) hargs

/-- **The module of a well-formed program does what the program does.** -/
theorem run_eq (h : Lowers p m) (hp : p.WellFormed) (sink : IR.Sink) (name : String)
    (args : List Int32) : m.run sink name args = p.run sink name args :=
  (h.realizes hp).run sink name args

end Lowers

/-! ### From texts to modules -/

/-- **Nothing goes wrong after reading.**  A program that was read is lowered, verification accepts
its module, and the slots of that can be replaced; if a file is linked into it, an error is one of
linking that file. -/
theorem toModule_of_parse (source : String) (u : Program) (h : Source.parse source = .ok u)
    (read : String → Except String String) (name : String) :
    (∃ m p, toModule read u name none = .ok m ∧ m.verify = .ok () ∧ m.prepare = .ok p) ∧
      ∀ path e, toModule read u name (some path) = .error e →
        ∃ cause, e = .link path (.link cause) := by
  have hu := Source.wellFormed_of_parse h
  obtain ⟨m, hm, hlowers⟩ := toModule_of_wellFormed hu read name
  have hvalid := hlowers.valid hu
  refine ⟨⟨m, m.promote, hm, m.verify_eq_ok_iff.2 hvalid, hvalid.prepare⟩, fun path e he => ?_⟩
  exact eq_link_of_toModule_eq_error hu he

/-- A text with a definition under other parameter names than its prototype, with assignments as
arguments, and with a statement after a `return`. -/
def halves : String :=
  r"int half(int n); int main(int a) { int x; half(x = a * 3); return half(a = x) + x - a; " ++
    r"return 0; } int half(int k) { return printnum(k) / 2; }"

/-- What is read from `halves`. -/
def halvesProgram : Program :=
  ⟨[Program.printnum, ⟨"half", ["n"]⟩],
    [⟨⟨"main", ["a"]⟩, [⟨.parameter, "a"⟩, ⟨.local, "x"⟩],
      [.expr (.call "half" [.binary .assign (.var "x") (.binary .multiply (.var "a") (.const 3))]),
        .ret (.binary .subtract (.binary .add
          (.call "half" [.binary .assign (.var "a") (.var "x")]) (.var "x")) (.var "a")),
        .ret (.const 0)]⟩,
      ⟨⟨"half", ["k"]⟩, [⟨.parameter, "k"⟩],
        [.ret (.binary .divide (.call "printnum" [.var "k"]) (.const 2))]⟩]⟩

theorem parse_halves : Source.parse halves = .ok halvesProgram := by cbv

/-- The hypothesis is satisfiable: `halves` is read and lowered, and a file that is not there cannot
be linked. -/
theorem toModule_halves : Source.parse halves = .ok halvesProgram ∧
    (∃ m p, toModule (fun _ => .error "missing") halvesProgram "m" none = .ok m ∧
      m.verify = .ok () ∧ m.prepare = .ok p) ∧
    ∃ e, toModule (fun _ => .error "missing") halvesProgram "m" (some "lib.ll") = .error e ∧
      ∃ cause, e = .link "lib.ll" (.link cause) :=
  have hmodule := toModule_of_parse halves halvesProgram parse_halves (fun _ => .error "missing") "m"
  ⟨parse_halves, hmodule.1, _, rfl, hmodule.2 "lib.ll" _ rfl⟩

/-- **Compiled programs do what their texts say.**  The module of a program that was read, with its
slots replaced by values, gives for every call the outcome of the program, result or error, and the
same output. -/
theorem run_prepare_of_parse (source : String) (u : Program) (h : Source.parse source = .ok u)
    (read : String → Except String String) (name : String) :
    ∃ m p, toModule read u name none = .ok m ∧ m.prepare = .ok p ∧
      ∀ sink function args, p.run sink function args = u.run sink function args := by
  have hu := Source.wellFormed_of_parse h
  obtain ⟨m, hm, hlowers⟩ := toModule_of_wellFormed hu read name
  have hvalid := hlowers.valid hu
  refine ⟨m, m.promote, hm, hvalid.prepare, fun sink function args => ?_⟩
  rw [hvalid.run_promote, hlowers.run_eq hu]

/-- The hypothesis is satisfiable: `halves` is read, and its module prints twice and returns like the
program. -/
theorem run_prepare_halves : Source.parse halves = .ok halvesProgram ∧
    halvesProgram.run .accepting "main" [4] = (.ok 6, "12\n12\n") ∧
    ∃ m p, toModule (fun _ => .error "missing") halvesProgram "m" none = .ok m ∧
      m.prepare = .ok p ∧ ∀ sink function args,
        p.run sink function args = halvesProgram.run sink function args :=
  ⟨parse_halves, rfl,
    run_prepare_of_parse halves halvesProgram parse_halves (fun _ => .error "missing") "m"⟩

end Lowering
end Straightline
