/-
# What a command does to the world

A command reads files, writes files and prints; an action is the tree of these effects, with a branch
for each way a file may answer.  It can be run on a model of the world (`Action.runOn`) or handed to
the operating system.
-/

import Straightline.Command.Disk

namespace Straightline

/-- A tree of effects with a result.  A file that cannot be read or written tells why. -/
inductive Action (α : Type)
  | done (a : α)
  | readFile (path : String) (next : Except String String → Action α)
  | writeFile (path text : String) (next : Except String Unit → Action α)
  | printOut (text : String) (next : Action α)
  | printErr (text : String) (next : Action α)

namespace Action

variable {α β : Type}

/-- Goes on with another action after the result. -/
def bind : Action α → (α → Action β) → Action β
  | done a, g => g a
  | readFile path next, g => readFile path fun r => (next r).bind g
  | writeFile path text next, g => writeFile path text fun r => (next r).bind g
  | printOut text next, g => printOut text (next.bind g)
  | printErr text next, g => printErr text (next.bind g)

instance : Monad Action where
  pure := done
  bind := bind

/-- Reads a text. -/
def read (path : String) : Action (Except String String) :=
  readFile path done

/-- Writes a text. -/
def write (path text : String) : Action (Except String Unit) :=
  writeFile path text done

/-- Prints to the standard output. -/
def out (text : String) : Action Unit :=
  printOut text (done ())

/-- Prints to the standard error output. -/
def err (text : String) : Action Unit :=
  printErr text (done ())

end Action

/-- A model of the world: a disk, and what was printed. -/
structure World where
  disk : Disk
  stdout : String
  stderr : String
deriving Repr, DecidableEq

namespace Action

variable {α : Type}

/-- Runs an action on a model of the world. -/
def runOn : Action α → World → α × World
  | done a, w => (a, w)
  | readFile path next, w => (next ((w.disk.read path).mapError Disk.Error.message)).runOn w
  | writeFile path text next, w =>
    match w.disk.write path text with
    | .ok disk => (next (.ok ())).runOn { w with disk }
    | .error e => (next (.error e.message)).runOn w
  | printOut text next, w => next.runOn { w with stdout := w.stdout ++ text }
  | printErr text next, w => next.runOn { w with stderr := w.stderr ++ text }

end Action
end Straightline
