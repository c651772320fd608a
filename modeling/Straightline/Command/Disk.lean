/-
# Files and directories

A plain model of a disk: which directories and which files there are, and a directory to work in.
A path is followed part by part, each through a directory; reading wants a file at its end, writing
a directory before its last part and no directory at its end.  Paths and the names in them have a
greatest length: a path is measured before it is followed, a name when it is looked up, so a long
name behind a directory that does not exist is not met.  The errors have the numbers and texts that
Linux gives them.
-/

import Straightline.Text.Cut

namespace Straightline

/-- Why a file cannot be read or written. -/
inductive Disk.Error
  | notFound
  | notADirectory
  | isADirectory
  | nameTooLong
  | notText
deriving Repr, DecidableEq

/-- The wording of an error. -/
def Disk.Error.message : Disk.Error → String
  | notFound => "No such file or directory (os error 2)"
  | notADirectory => "Not a directory (os error 20)"
  | isADirectory => "Is a directory (os error 21)"
  | nameTooLong => "File name too long (os error 36)"
  | notText => "stream did not contain valid UTF-8"

/-- What a file holds: a text, or bytes that are none. -/
inductive Content
  | text (s : String)
  | bytes (b : List UInt8)
deriving Repr, DecidableEq

/-- A file or a directory. -/
inductive Node
  | file (content : Content)
  | directory
deriving Repr, DecidableEq

/-- The nodes by the names on the way to them; a later entry replaces an earlier one. -/
structure Disk where
  entries : List (List String × Node)
deriving Repr, DecidableEq

namespace Disk

/-- The place of the working directory.  Its name is none that a path can spell. -/
def home : List String := [""]

/-- A disk with an empty working directory. -/
def empty : Disk := ⟨[(home, .directory)]⟩

/-- What is at a place; the root is a directory. -/
def node? (d : Disk) : List String → Option Node
  | [] => some .directory
  | place => d.entries.lookup place

/-- Puts a node at a place. -/
def put (d : Disk) (place : List String) (n : Node) : Disk :=
  ⟨(place, n) :: d.entries⟩

/-- The parts of a path, between its slashes. -/
def parts (path : String) : List String :=
  (Text.split '/' path.toList).map String.ofList

/-- Where a path starts: at the root if it starts with a slash, else in the working directory. -/
def origin (path : String) : List String :=
  if path.toList.head? = some '/' then [] else home

/-- There is a directory at a place. -/
def checkDirectory (d : Disk) (place : List String) : Except Error Unit :=
  match d.node? place with
  | none => .error .notFound
  | some (.file _) => .error .notADirectory
  | some .directory => .ok ()

/-- The greatest length of a name, in bytes. -/
def maxName : Nat := 255

/-- The greatest length of a path, in bytes. -/
def maxPath : Nat := 4095

/-- A path is not too long to be followed. -/
def checkPath (path : String) : Except Error Unit :=
  if path.utf8ByteSize ≤ maxPath then .ok () else .error .nameTooLong

/-- The place that one part leads to: an empty part and a dot stay, two dots go up, any other part
is a name, which is not too long. -/
def step (place : List String) (part : String) : Except Error (List String) :=
  if part = "" ∨ part = "." then .ok place
  else if part = ".." then .ok place.dropLast
  else if part.utf8ByteSize ≤ maxName then .ok (place ++ [part])
  else .error .nameTooLong

/-- Follows parts from a place, each through a directory. -/
def walk (d : Disk) (place : List String) : List String → Except Error (List String)
  | [] => .ok place
  | part :: rest => do
    d.checkDirectory place
    let place ← step place part
    d.walk place rest

/-- Reads a text. -/
def read (d : Disk) (path : String) : Except Error String := do
  checkPath path
  let place ← d.walk (origin path) (parts path)
  match d.node? place with
  | none => throw .notFound
  | some .directory => throw .isADirectory
  | some (.file (.bytes _)) => throw .notText
  | some (.file (.text s)) => return s

/-- Writes a text, to a new file or over an old one.  A path that ends with a slash, a dot or two
dots names a directory. -/
def write (d : Disk) (path text : String) : Except Error Disk := do
  checkPath path
  let all := parts path
  let trimmed := (all.reverse.dropWhile (· = "")).reverse
  let last := trimmed.getLast?.getD ""
  let place ← d.walk (origin path) trimmed.dropLast
  d.checkDirectory place
  if trimmed.length < all.length ∨ last = "" ∨ last = "." ∨ last = ".." then throw .isADirectory
  else
    let place ← step place last
    match d.node? place with
    | some .directory => throw .isADirectory
    | _ => return d.put place (.file (.text text))

/-- The directories on the way to a place. -/
def addParents (d : Disk) (place : List String) : List String → Disk
  | [] | [_] => d
  | part :: rest => (d.put (place ++ [part]) .directory).addParents (place ++ [part]) rest

/-- Puts a node at a path in the working directory, with the directories on the way to it. -/
def add (d : Disk) (path : String) (n : Node) : Disk :=
  let names := parts path
  (d.addParents home names).put (home ++ names) n

/-- What the file at a path in the working directory holds, if there is one. -/
def content? (d : Disk) (path : String) : Option Content :=
  match d.node? (home ++ parts path) with
  | some (.file c) => some c
  | _ => none

/-- The paths of the files in the working directory and below it. -/
def files (d : Disk) : List String :=
  (d.entries.filterMap fun (place, n) =>
    match place, n with
    | "" :: names, .file _ => some ("/".intercalate names)
    | _, _ => none).eraseDups

end Disk
end Straightline
