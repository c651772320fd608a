/-
# The arguments of the command

One path, options with a value (`-o`, `-l`), flags of one letter, which can be put together (`-d`,
`-O`), and flags with a name.  The value of an option is the rest of its word, with or without an
equals sign, or the next word.  Words are read from left to right, and the first one that does not
fit ends the reading; a question for the version or for help is answered where it is met.  What only
the whole shows, a missing path or two stages to stop at, is looked at in the end.

Source: `CLI` and `StageOptions` of the `hestia` driver.
-/

namespace Straightline

/-- Where a compilation stops early. -/
inductive Stage
  | lex | parse | codegen
deriving Repr, DecidableEq

/-- What is to be done. -/
structure Options where
  path : String
  output : Option String
  link : Option String
  stage : Option Stage
  debug : Bool
  optimize : Bool
  run : Bool
deriving Repr, DecidableEq

/-- Why the arguments ask for no compilation. -/
inductive NoRun
  | usage
  | version
  | help
deriving Repr, DecidableEq

namespace Arguments

/-- The options that take a value. -/
inductive ValueOption
  | output | link
deriving Repr, DecidableEq

/-- What was read so far: `pending` waits for its value, and after two dashes (`onlyPaths`) every
word is a path. -/
structure State where
  path : Option String := none
  output : Option String := none
  link : Option String := none
  stages : List Stage := []
  debug : Bool := false
  optimize : Bool := false
  run : Bool := false
  pending : Option ValueOption := none
  onlyPaths : Bool := false
deriving Repr, DecidableEq

/-- Takes the path, which comes once and is not empty. -/
def addPath (st : State) (word : String) : Except NoRun State :=
  if word = "" ∨ st.path ≠ none then .error .usage else .ok { st with path := some word }

/-- Takes the value of an option, which comes once and is not empty. -/
def addValue (st : State) (opt : ValueOption) (value : String) : Except NoRun State :=
  if value = "" then .error .usage
  else
    match opt with
    | .output =>
      if st.output ≠ none then .error .usage
      else .ok { st with output := some value, pending := none }
    | .link =>
      if st.link ≠ none then .error .usage
      else .ok { st with link := some value, pending := none }

/-- Takes a stage, which comes once. -/
def addStage (st : State) (stage : Stage) : Except NoRun State :=
  if stage ∈ st.stages then .error .usage else .ok { st with stages := st.stages ++ [stage] }

/-- Takes a flag with a name. -/
def longFlag (st : State) (word : String) : Except NoRun State :=
  if word = "--lex" then addStage st .lex
  else if word = "--parse" then addStage st .parse
  else if word = "--codegen" then addStage st .codegen
  else if word = "--run" then if st.run then .error .usage else .ok { st with run := true }
  else if word = "--version" then .error .version
  else if word = "--help" then .error .help
  else .error .usage

/-- Takes an option and what stands behind its letter: its value, if there is anything. -/
def valueOption (st : State) (opt : ValueOption) : List Char → Except NoRun State
  | [] => .ok { st with pending := some opt }
  | '=' :: value => addValue st opt (String.ofList value)
  | value => addValue st opt (String.ofList value)

/-- Takes the letters after a dash. -/
def shortFlags (st : State) : List Char → Except NoRun State
  | [] => .ok st
  | 'd' :: cs => if st.debug then .error .usage else shortFlags { st with debug := true } cs
  | 'O' :: cs => if st.optimize then .error .usage else shortFlags { st with optimize := true } cs
  | 'o' :: cs => valueOption st .output cs
  | 'l' :: cs => valueOption st .link cs
  | 'V' :: _ => .error .version
  | 'h' :: _ => .error .help
  | _ => .error .usage

/-- Takes a word that may start with a dash; an option that waits for its value takes no such
word. -/
def dashed (st : State) (word : String) : Except NoRun State :=
  match word.toList, st.pending with
  | '-' :: _ :: _, some _ => .error .usage
  | ['-', '-'], none => .ok { st with onlyPaths := true }
  | '-' :: '-' :: _, none => longFlag st word
  | '-' :: c :: cs, none => shortFlags st (c :: cs)
  | _, some opt => addValue st opt word
  | _, none => addPath st word

/-- Takes the next word. -/
def step (st : State) (word : String) : Except NoRun State :=
  if st.onlyPaths then addPath st word else dashed st word

/-- Takes words in order. -/
def steps (st : State) : List String → Except NoRun State
  | [] => .ok st
  | word :: words => do
    let st ← step st word
    steps st words

/-- Looks at the whole: there is a path, no option waits, and there is one stage at most. -/
def finish (st : State) : Except NoRun Options :=
  match st.path, st.pending, st.stages with
  | some path, none, [] =>
    .ok ⟨path, st.output, st.link, none, st.debug, st.optimize, st.run⟩
  | some path, none, [stage] =>
    .ok ⟨path, st.output, st.link, some stage, st.debug, st.optimize, st.run⟩
  | _, _, _ => .error .usage

end Arguments

/-- Reads the arguments of the command. -/
def Options.ofArguments (args : List String) : Except NoRun Options := do
  let st ← Arguments.steps {} args
  Arguments.finish st

end Straightline
