/-
# Linking two modules

The functions of one module are placed into another, in order.  A declaration and a definition of one
name become the definition, two declarations the first of them.  Two definitions of a name do not
fit together, nor do two functions of a name with different numbers of parameters.  What was placed
before a mistake stays.

Source: `link_modules` and `LinkError` of the `hestia` back end.
-/

import Straightline.IR.Reader

namespace Straightline
namespace IR

/-- Why two modules cannot be linked, or why the text of one cannot be had. -/
inductive Linking.Error
  | unreadable (path reason : String)
  | malformed (error : Reader.Error)
  | duplicateDefinition (name : String)
  | arityMismatch (name : String) (expected found : Nat)
deriving Repr, DecidableEq

/-- The wording of an error. -/
def Linking.Error.message : Linking.Error → String
  | unreadable path _ => "unable to read link module '" ++ path ++ "'"
  | malformed error => "malformed link module: " ++ error.message
  | duplicateDefinition name => "function '" ++ name ++ "' is defined in both modules"
  | arityMismatch name expected found =>
    "function '" ++ name ++ "' takes " ++ Text.ofNat expected ++ " argument(s) in one module and " ++
      Text.ofNat found ++ " in the other"

/-- What caused an error, if something did. -/
def Linking.Error.causes : Linking.Error → List String
  | unreadable _ reason => [reason]
  | malformed error => [error.message]
  | duplicateDefinition _ | arityMismatch .. => []

namespace Linking

/-- The function that two functions of one name become. -/
def merge (old new : Function) : Except Error Function :=
  if old.arity ≠ new.arity then .error (.arityMismatch new.name old.arity new.arity)
  else if new.isDeclaration then .ok old
  else if old.isDeclaration then .ok new
  else .error (.duplicateDefinition new.name)

/-- Places a function among others: where its name stands, or at the end. -/
def place (new : Function) : List Function → Except Error (List Function)
  | [] => .ok [new]
  | old :: fs =>
    if old.name = new.name then (merge old new).map (· :: fs)
    else (place new fs).map (old :: ·)

/-- Places functions in order; after a mistake it is told, with what was placed before. -/
def functions (dest : List Function) : List Function → Except Error Unit × List Function
  | [] => (.ok (), dest)
  | new :: fs =>
    match place new dest with
    | .error e => (.error e, dest)
    | .ok dest => functions dest fs

end Linking

namespace Module

/-- Links a module into another: whether it went well, and what the other is then. -/
def link (dest src : Module) : Except Linking.Error Unit × Module :=
  let (status, functions) := Linking.functions dest.functions src.functions
  (status, { dest with functions })

/-- Links a module that is given as a text, under a path; the text may be missing for a reason. -/
def linkText (dest : Module) (path : String) (text : Except String String) :
    Except Linking.Error Unit × Module :=
  match text with
  | .error reason => (.error (.unreadable path reason), dest)
  | .ok text =>
    match Module.read path text with
    | .error e => (.error (.malformed e), dest)
    | .ok src => dest.link src

end Module
end IR
end Straightline
