/-
# Scripts of requests to a target

Code is generated through a target: something that holds functions, opens blocks and takes
instructions, and answers each request with a handle of its own for a function, a value or a slot.
Generation is therefore described by a script: a tree of requests in which every answer picks the
branch to go on with.  A script ends with a result or with an error.

A target may refuse some requests (`Request.fallible`).  The answer to such a request is a reply or a
refusal, and a script has branches for both: what becomes of a refusal is up to the script.  All other
requests are answered with a reply.

Source: `Backend` of the `hestia` code generator, whose methods are the requests, and `CodegenError`.
-/

import Straightline.IR.Basic

namespace Straightline
namespace Lowering

open IR (Arith)

/-- A request to a target with handles `F` for functions, `V` for values and `S` for slots. -/
inductive Request (F V S : Type)
  | getFunction (name : String)
  | declareFunction (name : String) (params : List String)
  | appendEntryBlock (function : F)
  | param (function : F) (index : Nat)
  | constInt (n : Int32)
  | alloca (name : String)
  | load (slot : S) (name : String)
  | store (value : V) (slot : S)
  | binary (op : Arith) (lhs rhs : V)
  | call (function : F) (args : List V)
  | ret (value : V)
  | linkFile (path : String)
deriving Repr, DecidableEq

namespace Request

variable {F V S : Type}

/-- What a request is answered with; a function that is found comes with its arity. -/
def Reply : Request F V S → Type
  | getFunction _ => Option (F × Nat)
  | declareFunction .. => F
  | appendEntryBlock _ | store .. | ret _ | linkFile _ => Unit
  | alloca _ => S
  | param .. | constInt _ | load .. | binary .. | call .. => V

/-- The requests that a target may refuse. -/
def fallible : Request F V S → Bool
  | getFunction _ | appendEntryBlock _ | constInt _ => false
  | _ => true

end Request

/-- What answers a request for a `ρ`: a reply, and where the request may be refused, a reply or a
refusal `ε`. -/
def Answer (ε ρ : Type) (fallible : Bool) : Type :=
  bif fallible then Except ε ρ else ρ

namespace Answer

variable {ε ρ : Type}

/-- The reply, or the refusal in its place. -/
def result : {fallible : Bool} → Answer ε ρ fallible → Except ε ρ
  | true, answer => answer
  | false, reply => .ok reply

/-- The answer with a reply. -/
def granted : {fallible : Bool} → ρ → Answer ε ρ fallible
  | true, reply => .ok reply
  | false, reply => reply

/-- The answer turned into a refusal, if that is possible. -/
def refused (refusal : ε) : {fallible : Bool} → Answer ε ρ fallible → Answer ε ρ fallible
  | true, _ => .error refusal
  | false, reply => reply

/-- A reply is a success, whether or not the request can be refused. -/
@[simp] theorem result_granted {fallible : Bool} (reply : ρ) :
    (granted reply : Answer ε ρ fallible).result = .ok reply := by
  cases fallible <;> rfl

end Answer

/-- What answers a request. -/
abbrev Request.Answer {F V S : Type} (ε : Type) (r : Request F V S) : Type :=
  Lowering.Answer ε r.Reply r.fallible

/-- What can be wrong with a program that is lowered. -/
inductive Fault
  | missingFunction (name : String)
  | unknownVariable (name : String)
  | prototypeMismatch (name : String) (existing found : Nat)
  | noCurrentFunction
  | invalidAssignment
deriving Repr, DecidableEq

/-- The wording of a fault. -/
def Fault.message : Fault → String
  | missingFunction name => "call to '" ++ name ++ "', which is not in the module"
  | unknownVariable name => "variable '" ++ name ++ "' has no slot"
  | prototypeMismatch name existing found =>
    "'" ++ name ++ "' is already in the module with " ++ Text.ofNat existing ++
      " parameter(s), not " ++ Text.ofNat found
  | noCurrentFunction => "no function is being lowered"
  | invalidAssignment => "the left side of '=' must be a variable"

/-- Why lowering fails: a fault of the program, a request that the target refused, or a file that
it could not link. -/
inductive Error (ε : Type)
  | fault (fault : Fault)
  | backend (refusal : ε)
  | link (path : String) (refusal : ε)
deriving Repr, DecidableEq

/-- The wording of an error. -/
def Error.message {ε : Type} : Error ε → String
  | fault f => f.message
  | backend _ => "backend error"
  | link path _ => "failed to link '" ++ path ++ "'"

/-- The refusal behind an error. -/
def Error.refusal? {ε : Type} : Error ε → Option ε
  | fault _ => none
  | backend refusal | link _ refusal => some refusal

/-- A tree of requests and answers that ends with a result or an error. -/
inductive Script (F V S ε α : Type)
  | done (a : α)
  | fail (error : Error ε)
  | ask (r : Request F V S) (next : r.Answer ε → Script F V S ε α)

namespace Script

variable {F V S ε α β : Type}

/-- Goes on with another script after the result. -/
def bind : Script F V S ε α → (α → Script F V S ε β) → Script F V S ε β
  | done a, g => g a
  | fail error, _ => fail error
  | ask r next, g => ask r fun answer => (next answer).bind g

instance : Monad (Script F V S ε) where
  pure := done
  bind := bind

/-- One request, with its answer as the result. -/
def request (r : Request F V S) : Script F V S ε (r.Answer ε) :=
  ask r done

@[simp] theorem pure_bind (a : α) (g : α → Script F V S ε β) : (pure a >>= g) = g a := rfl

/-- Nothing follows a failure. -/
@[simp] theorem fail_bind (error : Error ε) (g : α → Script F V S ε β) :
    (fail error >>= g) = fail error := rfl

/-- What follows the last request of a script follows each of its answers. -/
@[simp] theorem ask_bind (r : Request F V S) (next : r.Answer ε → Script F V S ε α)
    (g : α → Script F V S ε β) : (ask r next >>= g) = ask r fun answer => next answer >>= g := rfl

end Script

/-- Something that answers requests: a state `σ`, refusals `ε`, and an answer to each request in each
state. -/
structure Target (F V S σ ε : Type) where
  handle : (r : Request F V S) → σ → r.Answer ε × σ

namespace Script

variable {F V S σ ε α β : Type}

/-- Runs a script on a target: the result or error, and the state of the target then. -/
def run (T : Target F V S σ ε) : Script F V S ε α → σ → Except (Error ε) α × σ
  | done a, s => (.ok a, s)
  | fail error, s => (.error error, s)
  | ask r next, s => (next (T.handle r s).1).run T (T.handle r s).2

/-- **A script runs in stages:** its first part, then the rest on its result. -/
theorem run_bind (T : Target F V S σ ε) (x : Script F V S ε α) (g : α → Script F V S ε β) (s : σ) :
    (x >>= g).run T s =
      match x.run T s with
      | (.ok a, s') => (g a).run T s'
      | (.error e, s') => (.error e, s') := by
  induction x generalizing s with
  | done a => rfl
  | fail error => rfl
  | ask r next ih => exact ih _ _

end Script
end Lowering
end Straightline
