/-
# The program

Hands the effects of the command to the operating system.
-/

import Straightline.Command.Compile

namespace Straightline

/-- The error of a number of the operating system, which may come with a minus sign. -/
def diskError? (code : UInt32) : Option Disk.Error :=
  match (min code (-code)).toNat with
  | 2 => some .notFound
  | 20 => some .notADirectory
  | 21 => some .isADirectory
  | 36 => some .nameTooLong
  | _ => none

/-- The text of an error of the operating system. -/
def osErrorText (e : IO.Error) : String :=
  let error? := match e with
    | .noFileOrDirectory _ code _ | .inappropriateType _ code _ | .invalidArgument _ code _ =>
      diskError? code
    | _ => none
  error?.elim (toString e) Disk.Error.message

/-- Reads a text file. -/
def readText (path : String) : IO (Except String String) := do
  try
    let bytes ← IO.FS.readBinFile path
    match String.fromUTF8? bytes with
    | some text => return .ok text
    | none => return .error Disk.Error.notText.message
  catch e => return .error (osErrorText e)

/-- Writes a text file. -/
def writeText (path text : String) : IO (Except String Unit) := do
  try
    IO.FS.writeFile path text
    return .ok ()
  catch e => return .error (osErrorText e)

/-- Performs an action. -/
def Action.perform {α : Type} : Action α → IO α
  | done a => return a
  | readFile path next => do
    let r ← readText path
    (next r).perform
  | writeFile path text next => do
    let r ← writeText path text
    (next r).perform
  | printOut text next => do
    IO.print text
    next.perform
  | printErr text next => do
    IO.eprint text
    next.perform

end Straightline

def main (args : List String) : IO UInt32 :=
  (Straightline.Command.run args).perform
