/-
# Paths

A path is a text whose parts stand between slashes.  Empty parts and dots say nothing, so the file
name is the last other part; two dots are no file name.  A dot inside a file name, and not at its
start, separates the stem from the extension.

`Paths.resolve` fixes which files a compilation reads and writes.

Source: `Paths` of the `hestia` driver, with `resolve` and `has_extension`.
-/

import Straightline.Text.Cut

namespace Straightline
namespace Path

/-- Removes slashes, and dots that are parts of their own, from the front of a reversed path. -/
def dropIdle : List Char → List Char
  | '/' :: cs => dropIdle cs
  | '.' :: '/' :: cs => dropIdle cs
  | cs => cs

/-- A path without the parts at its end that say nothing, cut before its last part. -/
def cut (path : List Char) : List Char × List Char :=
  let rev := dropIdle path.reverse
  ((rev.dropWhile (· ≠ '/')).reverse, (rev.takeWhile (· ≠ '/')).reverse)

/-- The last part of a path with what stands before it, if it is a file name. -/
def file? (path : List Char) : Option (List Char × List Char) :=
  let (dir, name) := cut path
  if name = [] ∨ name = ['.'] ∨ name = ['.', '.'] then none else some (dir, name)

/-- The stem and the extension of a file name.  Without a dot after its first character a name has
no extension. -/
def splitName (name : List Char) : List Char × Option (List Char) :=
  let ext := (name.reverse.takeWhile (· ≠ '.')).reverse
  let stem := (name.reverse.dropWhile (· ≠ '.')).tail.reverse
  if stem = [] then (name, none) else (stem, some ext)

/-- The file name of a path. -/
def fileName? (path : String) : Option String :=
  (file? path.toList).map fun p => String.ofList p.2

/-- The extension of the file name of a path. -/
def extension? (path : String) : Option String :=
  (file? path.toList).bind fun p => (splitName p.2).2.map String.ofList

/-- Replaces the extension of the file name of a path, or adds one.  A path without a file name
stays. -/
def setExtension (path ext : String) : String :=
  match file? path.toList with
  | none => path
  | some (dir, name) => String.ofList (dir ++ (splitName name).1) ++ "." ++ ext

/-- The path with another extension: the old one is taken off the end of the path, then the new one
is set. -/
def withExtension (path ext : String) : String :=
  match extension? path with
  | none => setExtension path ext
  | some old =>
    setExtension (String.ofList (path.toList.take (path.length - old.length))) ext

end Path

/-- Why the files of a compilation cannot be named. -/
inductive Paths.Error
  | source (path : String)
  | output (path : String)
  | link (path : String)
deriving Repr, DecidableEq

/-- The wording of an error. -/
def Paths.Error.message : Paths.Error → String
  | source path => "source file '" ++ path ++ "' must have a .dc extension"
  | output path => "output file '" ++ path ++ "' must have a .ll extension"
  | link path => "link module '" ++ path ++ "' must have a .ll extension"

/-- The files of a compilation, and the name of its module. -/
structure Paths where
  input : String
  output : String
  raw : String
  link : Option String
  moduleName : String
deriving Repr, DecidableEq

namespace Paths

/-- The extension of source files. -/
def sourceExt : String := "dc"

/-- The extension of module texts. -/
def moduleExt : String := "ll"

/-- The extension of module texts before slots are replaced. -/
def rawExt : String := "raw.ll"

/-- The output: the given path, or the input with the extension of module texts. -/
def outputOf (input : String) : Option String → Except Error String
  | none => .ok (Path.withExtension input moduleExt)
  | some path =>
    if Path.extension? path = some moduleExt then .ok path else .error (.output path)

/-- A file to link is a module text. -/
def checkLink : Option String → Except Error Unit
  | none => .ok ()
  | some path =>
    if Path.extension? path = some moduleExt then .ok () else .error (.link path)

/-- Names the files of a compilation. -/
def resolve (input : String) (output link : Option String) : Except Error Paths := do
  if Path.extension? input ≠ some sourceExt then throw (.source input)
  let output ← outputOf input output
  checkLink link
  let raw := Path.withExtension output rawExt
  return ⟨input, output, raw, link, (Path.fileName? input).getD ""⟩

end Paths
end Straightline
