/-
# Reading the text of a module

The text is read line by line, without the blanks around each line.  Empty lines, comments and lines
that tell about the source or the target are skipped.  Between functions stand declarations and the
first lines of definitions; inside a definition stand labels, instructions and the closing brace.

Operands are looked up among the parameters first, then among the values defined above, so an
instruction cannot mention its own result.  A declaration shows no names for its parameters; they
are called `arg0`, `arg1`, ….  The first line that cannot be read ends the reading.

Source: `parse_module` of the `hestia` intermediate representation, with `parse_line`,
`parse_signature`, `parse_instruction`, `parse_rhs`, `operand` and `slot`.
-/

import Straightline.IR.Basic
import Straightline.Text.Cut

namespace Straightline
namespace IR

/-- What is wrong with a line. -/
inductive Reader.Fault
  | topLevel (line : String)
  | missingBrace
  | signature (found : String)
  | missingOpenParen
  | missingCloseParen
  | parameter (text : String)
  | functionTwice (name : String)
  | noBlocks (name : String)
  | outsideBlock
  | unclosed (name : String)
  | storeValue
  | storeSlot
  | loadSlot
  | instruction (line : String)
  | valueName (text : String)
  | needsIntegers (opcode : String)
  | operandCount (opcode : String)
  | argument (text : String)
  | unknownOpcode (text : String)
  | valueTwice (name : String)
  | undefinedValue (name : String)
  | operand (text : String)
  | notASlot (text : String)
deriving Repr, DecidableEq

/-- The wording of a fault. -/
def Reader.Fault.message : Reader.Fault → String
  | topLevel line => "expected 'declare' or 'define', found '" ++ line ++ "'"
  | missingBrace => r"expected '{' after function signature"
  | signature found => "expected 'i32 @name', found '" ++ found ++ "'"
  | missingOpenParen => "expected '(' after function name"
  | missingCloseParen => "expected ')' after parameters"
  | parameter text => "bad parameter '" ++ text ++ "'"
  | functionTwice name => "function '@" ++ name ++ "' appears twice"
  | noBlocks name => "function '@" ++ name ++ "' has no blocks"
  | outsideBlock => "instruction outside of a block"
  | unclosed name => "function '@" ++ name ++ "' is never closed"
  | storeValue => "store needs a value"
  | storeSlot => "store needs a 'ptr' slot"
  | loadSlot => "load needs a 'ptr' slot"
  | instruction line => "unrecognised instruction '" ++ line ++ "'"
  | valueName text => "bad value name '" ++ text ++ "'"
  | needsIntegers opcode => "'" ++ opcode ++ "' needs i32 operands"
  | operandCount opcode => "'" ++ opcode ++ "' takes two operands"
  | argument text => "bad call argument '" ++ text ++ "'"
  | unknownOpcode text => "unknown opcode '" ++ text ++ "'"
  | valueTwice name => "value '%" ++ name ++ "' is defined twice"
  | undefinedValue name => "use of undefined value '%" ++ name ++ "'"
  | operand text => "bad operand '" ++ text ++ "'"
  | notASlot text => "'" ++ text ++ "' is not a slot"

/-- A fault at a line, counted from one. -/
structure Reader.Error where
  line : Nat
  fault : Reader.Fault
deriving Repr, DecidableEq

/-- The wording of an error. -/
def Reader.Error.message (e : Reader.Error) : String :=
  "line " ++ Text.ofNat e.line ++ ": " ++ e.fault.message

namespace Reader

open Text (trim trimEnd items stripFront? stripBack? stripAll cutAt?)

/-- The functions read so far, and the definition whose closing brace is still to come. -/
structure State where
  closed : List Function
  current : Option Function
deriving Repr, DecidableEq

/-- Reads an operand of an instruction of `f`. -/
def operand (f : Function) (text : List Char) : Except Fault Operand :=
  let word := trim text
  if word = "undef".toList then .ok .undef
  else
    match stripFront? "%" word with
    | some name =>
      match f.params.idxOf? (String.ofList name), f.names.idxOf? (String.ofList name) with
      | some index, _ => .ok (.param index)
      | none, some id => .ok (.value id)
      | none, none => .error (.undefinedValue (String.ofList name))
    | none =>
      match Text.readInt32 word with
      | some n => .ok (.const n)
      | none => .error (.operand (String.ofList word))

/-- Reads the slot of a load or store. -/
def slot (f : Function) (text : List Char) : Except Fault Nat := do
  match ← operand f text with
  | .value id => return id
  | _ => throw (.notASlot (String.ofList text))

/-- Reads a signature: the name and the texts of the parameters. -/
def signature (text : List Char) : Except Fault (String × List (List Char)) :=
  match stripFront? "i32 @" (trim text) with
  | none => .error (.signature (String.ofList text))
  | some rest =>
    match cutAt? "(" rest with
    | none => .error .missingOpenParen
    | some (name, params) =>
      match stripBack? ")" (trimEnd params) with
      | none => .error .missingCloseParen
      | some params => .ok (String.ofList name, items params)

/-- The name of a parameter without one. -/
def defaultParam (index : Nat) : String :=
  "arg" ++ Text.ofNat index

/-- The name of a parameter of a definition: its second word, after a percent sign. -/
def paramName (index : Nat) (text : List Char) : Except Fault String :=
  match Text.secondWord? text with
  | none => .ok (defaultParam index)
  | some word =>
    match stripFront? "%" word with
    | some name => .ok (String.ofList name)
    | none => .error (.parameter (String.ofList text))

/-- The names of the parameters of a definition, from a place on. -/
def paramNames : Nat → List (List Char) → Except Fault (List String)
  | _, [] => .ok []
  | index, text :: texts => do
    let name ← paramName index text
    let names ← paramNames (index + 1) texts
    return name :: names

/-- Adds a function, unless one of that name is there. -/
def addFunction (closed : List Function) (f : Function) : Except Fault (List Function) :=
  if closed.any (·.name == f.name) then .error (.functionTwice f.name) else .ok (closed ++ [f])

/-- The arithmetic instruction of a name. -/
def arith? (opcode : List Char) : Option Arith :=
  if opcode = "add".toList then some .add
  else if opcode = "sub".toList then some .sub
  else if opcode = "mul".toList then some .mul
  else if opcode = "sdiv".toList then some .sdiv
  else none

/-- Reads the arguments of a call. -/
def arguments (f : Function) : List (List Char) → Except Fault (List Operand)
  | [] => .ok []
  | text :: texts =>
    match stripFront? "i32 " text with
    | none => .error (.argument (String.ofList text))
    | some rest => do
      let arg ← operand f rest
      let args ← arguments f texts
      return arg :: args

/-- Reads the operands of an arithmetic instruction.  The marks `nsw`, `nuw` and `exact` before
them are passed over. -/
def arithmetic (f : Function) (opcode : String) (op : Arith) (text : List Char) :
    Except Fault (Nat → Instr) :=
  match stripFront? "i32 " (stripAll "exact " (stripAll "nuw " (stripAll "nsw " text))) with
  | none => .error (.needsIntegers opcode)
  | some rest =>
    match items rest with
    | [l, r] => do
      let lhs ← operand f l
      let rhs ← operand f r
      return .binary op lhs rhs
    | _ => .error (.operandCount opcode)

/-- Reads what stands right of the equals sign: an instruction that waits for its result. -/
def rightSide (f : Function) (text : List Char) : Except Fault (Nat → Instr) :=
  let (opcode, rest) := (cutAt? " " text).getD (text, [])
  if opcode = "alloca".toList then .ok .alloca
  else if opcode = "load".toList then
    match (items rest)[1]?.bind (stripFront? "ptr ") with
    | none => .error .loadSlot
    | some s => do
      let s ← slot f s
      return fun dest => .load dest s
  else if opcode = "call".toList then do
    let (callee, args) ← signature rest
    let args ← arguments f args
    return .call callee args
  else
    match arith? opcode with
    | some op => arithmetic f (String.ofList opcode) op rest
    | none => .error (.unknownOpcode (String.ofList opcode))

/-- Adds the name of a value that an instruction defines. -/
def define (f : Function) (name : String) : Except Fault Function :=
  if name ∈ f.takenNames then .error (.valueTwice name)
  else .ok { f with names := f.names ++ [name] }

/-- Reads a store, after its first words. -/
def storeInstr (f : Function) (text : List Char) : Except Fault Instr :=
  match items text with
  | [] => .error .storeValue
  | value :: rest =>
    match rest.head?.bind (stripFront? "ptr ") with
    | none => .error .storeSlot
    | some s => do
      let value ← operand f value
      let s ← slot f s
      return .store value s

/-- Reads an instruction that defines a value. -/
def definition (f : Function) (line : List Char) : Except Fault (Instr × Function) :=
  match cutAt? " = " line with
  | none => .error (.instruction (String.ofList line))
  | some (left, right) =>
    match stripFront? "%" left with
    | none => .error (.valueName (String.ofList left))
    | some name => do
      let pending ← rightSide f (trim right)
      let f' ← define f (String.ofList name)
      return (pending f.names.length, f')

/-- Reads an instruction, and adds the name of the value it defines. -/
def instruction (f : Function) (line : List Char) : Except Fault (Instr × Function) :=
  match stripFront? "store i32 " line with
  | some rest => do
    let i ← storeInstr f rest
    return (i, f)
  | none =>
    match stripFront? "ret i32 " line with
    | some rest => do
      let v ← operand f rest
      return (.ret v, f)
    | none => definition f line

/-- Adds an instruction to the last block. -/
def pushInstr (i : Instr) : List Block → Option (List Block)
  | [] => none
  | [b] => some [{ b with instrs := b.instrs ++ [i] }]
  | b :: bs => (pushInstr i bs).map (b :: ·)

/-- Reads a line between functions. -/
def outsideLine (closed : List Function) (line : List Char) : Except Fault State :=
  match stripFront? "declare " line, stripFront? "define " line with
  | some rest, _ => do
    let (name, params) ← signature rest
    let closed ← addFunction closed
      (Function.declare name ((List.range params.length).map defaultParam))
    return ⟨closed, none⟩
  | none, some rest =>
    match stripBack? r"{" rest with
    | none => .error .missingBrace
    | some sig => do
      let (name, params) ← signature (trimEnd sig)
      let params ← paramNames 0 params
      return ⟨closed, some (Function.declare name params)⟩
  | none, none => .error (.topLevel (String.ofList line))

/-- Reads a line inside a definition. -/
def insideLine (closed : List Function) (f : Function) (line : List Char) :
    Except Fault State :=
  if line = r"}".toList then
    if f.isDeclaration then .error (.noBlocks f.name)
    else do
      let closed ← addFunction closed f
      return ⟨closed, none⟩
  else
    match stripBack? ":" line with
    | some label =>
      .ok ⟨closed, some { f with blocks := f.blocks ++ [⟨String.ofList label, []⟩] }⟩
    | none => do
      let (i, f') ← instruction f line
      match pushInstr i f'.blocks with
      | none => throw .outsideBlock
      | some blocks => return ⟨closed, some { f' with blocks := blocks }⟩

/-- The lines that say nothing about the module. -/
def isSkipped (line : List Char) : Bool :=
  line.isEmpty || [";", "source_filename", "target ", "attributes "].any fun word =>
    (stripFront? word line).isSome

/-- Reads one line, which has no blanks around it. -/
def line (st : State) (text : List Char) : Except Fault State :=
  if isSkipped text then .ok st
  else
    match st.current with
    | none => outsideLine st.closed text
    | some f => insideLine st.closed f text

/-- Reads lines; the first one has the given number. -/
def lines (number : Nat) (st : State) : List (List Char) → Except Error State
  | [] => .ok st
  | text :: texts =>
    match line st (trim text) with
    | .error fault => .error ⟨number, fault⟩
    | .ok st' => lines (number + 1) st' texts

end Reader

/-- Reads the text of a module; the module gets the given name. -/
def Module.read (name text : String) : Except Reader.Error Module := do
  let texts := Text.lines text.toList
  let st ← Reader.lines 1 ⟨[], none⟩ texts
  match st.current with
  | some f => throw ⟨texts.length, .unclosed f.name⟩
  | none => return ⟨name, st.closed⟩

end IR
end Straightline
