/-
# Nothing is left over from one lowering to the next

A generator keeps a scope, and a run that fails in the middle of a function leaves it as it is by then: with
a function that is being lowered, and with slots for some of its variables.  The next program may have
variables of the same names, or use names that it does not declare.

Still its lowering is the same script from any scope.  A script that keeps a scope is blind to it if its
requests and its result are the same whatever scope it starts in (`Gen.Blind`).  This is not so for the parts
of a definition, but they come after a scope was set (`Gen.blind_set`).  For the same reason the function that
is being lowered is always there when it is asked for: of the scripts that keep a scope, none but `Gen.current`
can fail for want of it (`Gen.Avoids`), and that one comes right after it was set (`Gen.stepwise_avoids`).
-/

import Straightline.Proofs.Protocol
import Straightline.Proofs.Stepwise

namespace Straightline
namespace Lowering

open Source (Expr Stmt Decl Prototype Program)

variable {F V S σ ε α β : Type}

namespace Script

/-- Scripts compose in any grouping. -/
theorem bind_assoc {γ : Type} (x : Script F V S ε α) (g : α → Script F V S ε β) (h : β → Script F V S ε γ) :
    (x >>= g) >>= h = x >>= fun a => g a >>= h := by
  induction x with
  | done a => rfl
  | fail error => rfl
  | ask r next ih =>
    rw [ask_bind, ask_bind, ask_bind]
    exact congrArg (ask r) (funext ih)

/-- A script that returns at its end is the script. -/
theorem bind_done (x : Script F V S ε α) : x >>= done = x := by
  induction x with
  | done a => rfl
  | fail error => rfl
  | ask r next ih =>
    rw [ask_bind]
    exact congrArg (ask r) (funext ih)

instance : LawfulMonad (Script F V S ε) :=
  LawfulMonad.mk' (Script F V S ε) bind_done pure_bind bind_assoc

/-! ### Faults that a script does not end with -/

/-- A script does not end with a fault, whatever it is answered. -/
def Avoids (fault : Fault) : Script F V S ε α → Prop
  | done _ => True
  | fail error => error ≠ .fault fault
  | ask _ next => ∀ answer, (next answer).Avoids fault

variable {fault : Fault}

/-- A composition avoids a fault if both parts do. -/
theorem Avoids.bind {x : Script F V S ε α} {g : α → Script F V S ε β} (hx : x.Avoids fault)
    (hg : ∀ a, (g a).Avoids fault) : (x >>= g).Avoids fault := by
  induction x with
  | done a => exact hg a
  | fail error => exact hx
  | ask r next ih => exact fun answer => ih answer (hx answer)

/-- **A run does not end with a fault that the script avoids.** -/
theorem Avoids.run_ne (T : Target F V S σ ε) {x : Script F V S ε α} (hx : x.Avoids fault) (s : σ) :
    (x.run T s).1 ≠ .error (.fault fault) := by
  induction x generalizing s with
  | done a =>
    intro h
    cases h
  | fail error =>
    intro h
    cases h
    exact hx rfl
  | ask r next ih => exact ih _ (hx _) _

end Script

namespace Gen

/-! ### Scripts that do not look at their scope -/

/-- A script that asks the same and has the same result in every scope. -/
def Blind (x : Gen F V S ε α) : Prop :=
  ∀ scope scope' : Scope F S, Prod.fst <$> x scope = Prod.fst <$> x scope'

theorem blind_pure (a : α) : (pure a : Gen F V S ε α).Blind := fun _ _ => rfl

/-- To fail does not look at the scope. -/
theorem blind_fail (error : Error ε) : (fail error : Gen F V S ε α).Blind := fun _ _ => rfl

/-- To send a request does not look at the scope. -/
theorem blind_ask (r : Request F V S) : (ask r : Gen F V S ε (r.Answer ε)).Blind := fun _ _ => rfl

/-- To take an answer or fail with it does not look at the scope. -/
theorem blind_backend (answer : Except ε α) : (backend answer : Gen F V S ε α).Blind := by
  cases answer with
  | error refusal => exact blind_fail _
  | ok reply => exact blind_pure reply

/-- The same for the answer to a request to link. -/
theorem blind_linked (path : String) (answer : Except ε Unit) :
    (linked path answer : Gen F V S ε Unit).Blind := by
  cases answer with
  | error refusal => exact blind_fail _
  | ok reply => exact blind_pure _

/-- A composition does not look at the scope if neither part does. -/
theorem Blind.bind {x : Gen F V S ε α} {g : α → Gen F V S ε β} (hx : x.Blind) (hg : ∀ a, (g a).Blind) :
    (x >>= g).Blind := by
  -- the scope that the first part leaves may be replaced by any other
  have hsplit : ∀ scope : Scope F S, Prod.fst <$> (x >>= g) scope =
      (Prod.fst <$> x scope) >>= fun a => Prod.fst <$> g a .empty := by
    intro scope
    calc Prod.fst <$> (x >>= g) scope = x scope >>= fun a => Prod.fst <$> g a.1 a.2 := map_bind ..
      _ = x scope >>= fun a => Prod.fst <$> g a.1 .empty := bind_congr fun a => hg a.1 a.2 .empty
      _ = (Prod.fst <$> x scope) >>= fun a => Prod.fst <$> g a .empty :=
        (bind_map_left Prod.fst (x scope) fun a => Prod.fst <$> g a .empty).symm
  intro scope scope'
  rw [hsplit, hsplit, hx scope scope']

/-- After a scope was set, the one before it is gone. -/
theorem blind_set (scope : Scope F S) (g : PUnit → Gen F V S ε α) : (set scope >>= g).Blind :=
  fun _ _ => rfl

/-- Prototypes are lowered the same in every scope. -/
theorem blind_prototype (p : Prototype) : (prototype p : Gen F V S ε F).Blind := by
  refine (blind_ask _).bind fun found => ?_
  split
  · split
    · exact blind_pure _
    · exact blind_fail _
  · exact (blind_ask _).bind fun answer => blind_backend answer

/-- **A definition is lowered in a scope of its own.** -/
theorem blind_function (f : Source.Function) : (function f : Gen F V S ε Unit).Blind :=
  (blind_prototype f.prototype).bind fun _ => blind_set _ _

/-- So are lists of them. -/
theorem blind_prototypes (ps : List Prototype) : (prototypes ps : Gen F V S ε Unit).Blind := by
  induction ps with
  | nil => exact blind_pure _
  | cons p ps ih => exact (blind_prototype p).bind fun _ => ih

/-- Functions are lowered the same in every scope: each of them starts with its own. -/
theorem blind_functions (fs : List Source.Function) : (functions fs : Gen F V S ε Unit).Blind := by
  induction fs with
  | nil => exact blind_pure _
  | cons f fs ih => exact (blind_function f).bind fun _ => ih

/-- Programs are lowered the same in every scope. -/
theorem blind_program (p : Program) (link : Option String) :
    (program p link : Gen F V S ε Unit).Blind := by
  refine (blind_prototypes p.prototypes).bind fun _ => (blind_functions p.functions).bind fun _ => ?_
  cases link with
  | none => exact blind_pure _
  | some path => exact (blind_ask _).bind fun answer => blind_linked path answer

/-! ### There is a function that is being lowered -/

/-- A script that does not end with a fault, in any scope. -/
def Avoids (fault : Fault) (x : Gen F V S ε α) : Prop :=
  ∀ scope, (x scope).Avoids fault

variable {fault : Fault}

theorem avoids_pure (a : α) : (pure a : Gen F V S ε α).Avoids fault := fun _ => trivial

/-- A failure avoids every other fault. -/
theorem avoids_fail {error : Error ε} (h : error ≠ .fault fault) :
    (fail error : Gen F V S ε α).Avoids fault := fun _ => h

/-- A request by itself raises no fault. -/
theorem avoids_ask (r : Request F V S) : (ask r : Gen F V S ε (r.Answer ε)).Avoids fault :=
  fun _ _ => trivial

/-- A refusal is no fault. -/
theorem avoids_backend (answer : Except ε α) : (backend answer : Gen F V S ε α).Avoids fault := by
  cases answer with
  | error refusal => exact avoids_fail (by simp)
  | ok reply => exact avoids_pure reply

/-- A refusal to link is no fault. -/
theorem avoids_linked (path : String) (answer : Except ε Unit) :
    (linked path answer : Gen F V S ε Unit).Avoids fault := by
  cases answer with
  | error refusal => exact avoids_fail (by simp)
  | ok reply => exact avoids_pure _

/-- A composition avoids a fault if both parts do. -/
theorem Avoids.bind {x : Gen F V S ε α} {g : α → Gen F V S ε β} (hx : x.Avoids fault)
    (hg : ∀ a, (g a).Avoids fault) : (x >>= g).Avoids fault :=
  fun scope => (hx scope).bind fun a => hg a.1 a.2

/-- A function that was set is there after the next request. -/
theorem avoids_current {f : F} {r : Request F V S} {g : F → Gen F V S ε α}
    (hg : (g f).Avoids fault) :
    (do set (⟨some f, []⟩ : Scope F S); let _ ← ask r; g (← current)).Avoids fault :=
  fun _ _ => hg ⟨some f, []⟩

/-- **No step of lowering fails for want of a function that is being lowered.** -/
theorem stepwise_avoids : Stepwise fun α (x : Gen F V S ε α) => x.Avoids .noCurrentFunction where
  result := avoids_pure
  andThen := Avoids.bind
  failure := avoids_fail
  look h scope := h scope scope
  change _ _ := trivial
  request r _ := avoids_ask r
  reply r _ := (avoids_ask r).bind fun answer => avoids_backend answer.result
  link path := (avoids_ask _).bind fun answer => avoids_linked path answer
  enter _ := avoids_current

end Gen

/-- **No lowering is touched by what an earlier one has left behind.**  On every target in every state, a
program, in order or not, is lowered from any two scopes with the same requests and the same replies, to the
same result and the same state of the target; and it never fails because no function is being lowered. -/
theorem generate_isolated (T : Target F V S σ ε) (scope scope' : Scope F S) (p : Program)
    (link : Option String) (s : σ) :
    generateTrace T scope p link s = generateTrace T scope' p link s ∧
    generate T scope p link s = generate T scope' p link s ∧
    (generate T scope p link s).1 ≠ .error (.fault .noCurrentFunction) := by
  have hsame : Prod.fst <$> (Gen.program p link : Gen F V S ε Unit) scope =
      Prod.fst <$> (Gen.program p link : Gen F V S ε Unit) scope' := Gen.blind_program p link scope scope'
  refine ⟨congrArg (Script.trace T · s) hsame, congrArg (Script.run T · s) hsame, ?_⟩
  have havoids : (Prod.fst <$> (Gen.program p link : Gen F V S ε Unit) scope).Avoids .noCurrentFunction :=
    (Gen.stepwise_avoids.program p link scope).bind fun _ => trivial
  exact havoids.run_ne T s

/-- A program that reads a variable which it does not declare fails for that, though a slot for the name was
left behind by a lowering that was broken off. -/
example : (generate (recorderTarget none) ⟨some 0, [("x", 0)]⟩
    ⟨[], [⟨⟨"g", []⟩, [], [.ret (.var "x")]⟩]⟩ none (.ofFunctions [("f", 0)])).1 =
      .error (.fault (.unknownVariable "x")) := by
  rfl

end Lowering
end Straightline
