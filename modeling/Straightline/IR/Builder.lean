/-
# Building a module step by step

A builder is a module together with the place where the next instruction goes: a block of one of its
functions.  Every step either gives the builder after it, with what it made, or an error; after an
error the builder is the one before.  New values get fresh names, so each has a name of its own.

Source: `Builder` of the `hestia` intermediate representation, from `add_function` to `build_ret`.
-/

import Straightline.IR.Basic

namespace Straightline
namespace IR

/-- Why a step cannot be made. -/
inductive Builder.Error
  | duplicateFunction (name : String)
  | noInsertPoint
  | paramOutOfRange (function : String) (index : Nat)
  | noSuchFunction (index : Nat)
deriving Repr, DecidableEq

/-- The wording of an error. -/
def Builder.Error.message : Builder.Error → String
  | duplicateFunction name => "function '" ++ name ++ "' already exists in the module"
  | noInsertPoint => "no insertion point: open a block before emitting instructions"
  | paramOutOfRange function index =>
    "function '" ++ function ++ "' has no parameter " ++ Text.ofNat index
  | noSuchFunction index => "the module has no function number " ++ Text.ofNat index

/-- The place of a block: the number of its function, and its number there. -/
structure InsertPoint where
  function : Nat
  block : Nat
deriving Repr, DecidableEq

/-- A module under construction. -/
structure Builder where
  module : Module
  point : Option InsertPoint
deriving Repr, DecidableEq

namespace Builder

/-- Starts from a module, with no place for instructions yet. -/
def ofModule (m : Module) : Builder :=
  ⟨m, none⟩

/-- Starts from nothing. -/
def empty (name : String) : Builder :=
  ofModule (Module.empty name)

/-- The number of the function of a name. -/
def index? (b : Builder) (name : String) : Option Nat :=
  b.module.index? name

/-- The function of a number. -/
def function (b : Builder) (index : Nat) : Except Error Function :=
  match b.module.functions[index]? with
  | some f => .ok f
  | none => .error (.noSuchFunction index)

/-- Changes the function of a number. -/
def modifyFunction (b : Builder) (index : Nat) (g : Function → Function) : Builder :=
  { b with module := { b.module with functions := b.module.functions.modify index g } }

/-- Adds a declaration; its number is the number of functions before. -/
def addFunction (b : Builder) (name : String) (params : List String) :
    Except Error (Nat × Builder) :=
  match b.index? name with
  | some _ => .error (.duplicateFunction name)
  | none =>
    let functions := b.module.functions ++ [Function.declare name params]
    .ok (b.module.functions.length, { b with module := { b.module with functions } })

/-- Adds an empty block to a function and goes on there. -/
def appendBlock (b : Builder) (index : Nat) (label : String) : Except Error Builder := do
  let f ← b.function index
  let b' := b.modifyFunction index fun f => { f with blocks := f.blocks ++ [⟨label, []⟩] }
  return { b' with point := some ⟨index, f.blocks.length⟩ }

/-- A parameter of a function as an operand. -/
def param (b : Builder) (index place : Nat) : Except Error Operand := do
  let f ← b.function index
  if place < f.arity then return .param place else throw (.paramOutOfRange f.name place)

/-- Puts an instruction at the end of a block of a function. -/
def pushTo (block : Nat) (i : Instr) (f : Function) : Function :=
  { f with blocks := f.blocks.modify block fun b => { b with instrs := b.instrs ++ [i] } }

/-- Adds an instruction without a result. -/
def push (b : Builder) (i : Instr) : Except Error Builder :=
  match b.point with
  | none => .error .noInsertPoint
  | some p => .ok (b.modifyFunction p.function (pushTo p.block i))

/-- Adds an instruction with a result, which gets a fresh name and the next number. -/
def pushValue (b : Builder) (base : String) (i : Nat → Instr) : Except Error (Nat × Builder) :=
  match b.point with
  | none => .error .noInsertPoint
  | some p => do
    let f ← b.function p.function
    let dest := (f.newValue base).1
    return (dest, b.modifyFunction p.function fun f => pushTo p.block (i dest) (f.newValue base).2)

/-- Adds an allocation. -/
def alloca (b : Builder) (name : String) : Except Error (Nat × Builder) :=
  b.pushValue name .alloca

/-- Adds a load. -/
def load (b : Builder) (slot : Nat) (name : String) : Except Error (Nat × Builder) :=
  b.pushValue name (.load · slot)

/-- Adds a store. -/
def store (b : Builder) (value : Operand) (slot : Nat) : Except Error Builder :=
  b.push (.store value slot)

/-- Adds an arithmetic instruction. -/
def binary (b : Builder) (op : Arith) (lhs rhs : Operand) (name : String) :
    Except Error (Nat × Builder) :=
  b.pushValue name (.binary op lhs rhs)

/-- Adds a call of the function of a number. -/
def call (b : Builder) (index : Nat) (args : List Operand) (name : String) :
    Except Error (Nat × Builder) := do
  let callee ← b.function index
  b.pushValue name (.call callee.name args)

/-- Adds a return. -/
def ret (b : Builder) (value : Operand) : Except Error Builder :=
  b.push (.ret value)

end Builder
end IR
end Straightline
