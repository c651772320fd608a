/-
# What the command does to files

What an action does is followed on a disk alone, without what is printed (`Action.trace`): its result, the
texts that it writes, and the disk after it, which is the disk before with these texts
(`Action.runOn_eq`, `Action.writeAll_trace`).

A task after another one succeeds if both do, and writes what both write, the second one only if the first
succeeds (`result_bind_eq_ok_iff`, `mem_written_bind_iff`).  Since no task changes which files can be created
(`Action.creatable_trace_iff`), this says for each stage, from the last to the first, when it succeeds and
what it writes, in words of the disk at the start: `result_emit_eq_ok_iff` and `mem_written_emit_iff` after
lowering, `result_task_eq_ok_iff` and `mem_written_iff` for a whole compilation.  How arguments are read as
options does not matter to any of this (`effects_runOptions`).

Lowered modules have a text also if a module was linked that is not valid, for every module that was read has
one (`Lowering.nameable_of_toModule`).  And the two files that may be written are different ones, so none of
the two texts is written over the other (`at?_of_mem_written`, `at?_output_of_not_emits`).
-/

import Straightline.Command.Compile
import Straightline.Proofs.Building
import Straightline.Proofs.Compilation
import Straightline.Proofs.Files
import Straightline.Proofs.Safety

namespace Straightline

/-! ### What an action does to a disk -/

namespace Action

variable {α β : Type}

/-- What an action does to a disk: its result, the texts that it writes in order, each with its path, and the
disk after it. -/
structure Trace (α : Type) where
  result : α
  written : List (String × String)
  disk : Disk

/-- Follows an action on a disk. -/
def trace : Action α → Disk → Trace α
  | done a, d => ⟨a, [], d⟩
  | readFile path next, d => (next ((d.read path).mapError Disk.Error.message)).trace d
  | writeFile path text next, d =>
    match d.write path text with
    | .ok d' =>
      let t := (next (.ok ())).trace d'
      ⟨t.result, (path, text) :: t.written, t.disk⟩
    | .error e => (next (.error e.message)).trace d
  | printOut _ next, d => next.trace d
  | printErr _ next, d => next.trace d

/-- **What an action does to a disk is what it does in a world with that disk.** -/
theorem runOn_eq (a : Action α) (w : World) :
    (a.runOn w).1 = (a.trace w.disk).result ∧ (a.runOn w).2.disk = (a.trace w.disk).disk := by
  induction a generalizing w with
  | done a => exact ⟨rfl, rfl⟩
  | readFile path next ih => exact ih _ w
  | writeFile path text next ih =>
    rw [runOn, trace]
    cases w.disk.write path text with
    | ok d' => exact ih (.ok ()) { w with disk := d' }
    | error e => exact ih _ w
  | printOut text next ih => exact ih _
  | printErr text next ih => exact ih _

/-- The trace of two actions is that of the first, and that of the second on the disk that the first
leaves. -/
theorem trace_bind (a : Action α) (g : α → Action β) (d : Disk) : (a >>= g).trace d =
    ⟨((g (a.trace d).result).trace (a.trace d).disk).result,
      (a.trace d).written ++ ((g (a.trace d).result).trace (a.trace d).disk).written,
      ((g (a.trace d).result).trace (a.trace d).disk).disk⟩ := by
  show (a.bind g).trace d = _
  induction a generalizing d with
  | done a => rfl
  | readFile path next ih => exact ih _ d
  | writeFile path text next ih =>
    rw [bind, trace, trace]
    cases d.write path text with
    | ok d' =>
      dsimp only
      rw [ih (.ok ()) d']
      rfl
    | error e => exact ih _ d
  | printOut text next ih => exact ih d
  | printErr text next ih => exact ih d

/-- **The disk after an action is the disk with what it wrote.** -/
theorem writeAll_trace (a : Action α) (d : Disk) :
    d.writeAll (a.trace d).written = .ok (a.trace d).disk := by
  induction a generalizing d with
  | done a => rfl
  | readFile path next ih => exact ih _ d
  | writeFile path text next ih =>
    rw [trace]
    split
    · rename_i d' hwrite
      exact Except.bind_eq_ok_iff.2 ⟨d', hwrite, ih (.ok ()) d'⟩
    · exact ih _ d
  | printOut text next ih => exact ih d
  | printErr text next ih => exact ih d

/-- An action does not change which files can be created. -/
theorem creatable_trace_iff (a : Action α) (d : Disk) {path : String} :
    (a.trace d).disk.Creatable path ↔ d.Creatable path := by
  have hsame := Disk.sameDirectories_of_writeAll (a.writeAll_trace d)
  constructor
  · rintro ⟨place, hplace⟩
    exact ⟨place, hsame.creates_iff.1 hplace⟩
  · rintro ⟨place, hplace⟩
    exact ⟨place, hsame.creates_iff.2 hplace⟩

end Action

namespace Command

open IR (Module)

/-! ### Tasks one after the other -/

section Tasks

variable {α β : Type} {x : Task α} {g : α → Task β} {d : Disk} {f : String × String}

/-- A task after another one starts with the result of the first, if that does not fail, on the disk after
it. -/
theorem trace_bind (x : Task α) (g : α → Task β) (d : Disk) : (x >>= g).run.trace d =
    match (x.run.trace d).result with
    | .ok a =>
      let t := (g a).run.trace (x.run.trace d).disk
      ⟨t.result, (x.run.trace d).written ++ t.written, t.disk⟩
    | .error e => ⟨.error e, (x.run.trace d).written, (x.run.trace d).disk⟩ := by
  refine (Action.trace_bind x.run _ d).trans ?_
  cases (x.run.trace d).result with
  | ok a => rfl
  | error e => simp [ExceptT.bindCont, Action.trace, pure]

/-- Two tasks succeed if the first does and then the second. -/
theorem result_bind_eq_ok_iff {b : β} : ((x >>= g).run.trace d).result = .ok b ↔
    ∃ a, (x.run.trace d).result = .ok a ∧
      ((g a).run.trace (x.run.trace d).disk).result = .ok b := by
  rw [trace_bind]
  cases (x.run.trace d).result <;> simp

/-- What two tasks write is what the first writes, and what the second writes if the first succeeds. -/
theorem mem_written_bind_iff : f ∈ ((x >>= g).run.trace d).written ↔ f ∈ (x.run.trace d).written ∨
    ∃ a, (x.run.trace d).result = .ok a ∧ f ∈ ((g a).run.trace (x.run.trace d).disk).written := by
  rw [trace_bind]
  cases (x.run.trace d).result <;> simp

/-- The same where the first task gives nothing to the second. -/
theorem result_then_eq_ok_iff {x : Task Unit} {g : Unit → Task β} {b : β} :
    ((x >>= g).run.trace d).result = .ok b ↔ (x.run.trace d).result = .ok () ∧
      ((g ()).run.trace (x.run.trace d).disk).result = .ok b := by
  rw [result_bind_eq_ok_iff]
  exact ⟨fun ⟨⟨⟩, h⟩ => h, fun h => ⟨(), h⟩⟩

/-- The same where the first task gives nothing to the second. -/
theorem mem_written_then_iff {x : Task Unit} {g : Unit → Task β} :
    f ∈ ((x >>= g).run.trace d).written ↔ f ∈ (x.run.trace d).written ∨
      (x.run.trace d).result = .ok () ∧ f ∈ ((g ()).run.trace (x.run.trace d).disk).written := by
  rw [mem_written_bind_iff]
  exact or_congr_right ⟨fun ⟨⟨⟩, h⟩ => h, fun h => ⟨(), h⟩⟩

/-- A result by itself writes nothing. -/
theorem trace_pure (a : α) (d : Disk) : (pure a : Task α).run.trace d = ⟨.ok a, [], d⟩ :=
  rfl

/-- A check writes nothing. -/
theorem trace_orFail {ε : Type} (r : Except ε α) (failure : ε → Failure) (d : Disk) :
    (orFail r failure).run.trace d = ⟨r.mapError failure, [], d⟩ :=
  rfl

/-- To read a source file writes nothing, and fails exactly where the disk does. -/
theorem trace_readSource (path : String) (d : Disk) : (readSource path).run.trace d =
    ⟨((d.read path).mapError Disk.Error.message).mapError fun reason =>
      ⟨"Unable to read source file: " ++ path, [reason]⟩, [], d⟩ :=
  rfl

/-- A module is written with its text, if the file can be made. -/
theorem trace_writeModule (path : String) (m : Module) (d : Disk) : (writeModule path m).run.trace d =
    match d.write path m.text with
    | .ok d' => ⟨.ok (), [(path, m.text)], d'⟩
    | .error e => ⟨.error ⟨"Unable to write " ++ path, [e.message]⟩, [], d⟩ := by
  show (Action.writeFile path m.text _).trace d = _
  rw [Action.trace]
  cases d.write path m.text <;> rfl

end Tasks

/-! ### The stages -/

variable {o : Options} {paths : Paths} {m : Module} {d : Disk} {f : String × String}

/-- A module is written exactly if the file can be made. -/
theorem result_writeModule_eq_ok_iff {path : String} :
    ((writeModule path m).run.trace d).result = .ok () ↔ d.Creatable path := by
  rw [trace_writeModule, Disk.creatable_iff m.text]
  cases d.write path m.text <;> simp

/-- What is written is the text of the module. -/
theorem mem_written_writeModule_iff {path : String} :
    f ∈ ((writeModule path m).run.trace d).written ↔ f = (path, m.text) ∧ d.Creatable path := by
  rw [trace_writeModule, Disk.creatable_iff m.text]
  cases d.write path m.text <;> simp

/-- Executing a module writes no file, and succeeds if the main function does. -/
theorem trace_execute (m : Module) (d : Disk) : ∃ r, (execute m).run.trace d = ⟨r, [], d⟩ ∧
    (r = .ok () ↔ ∃ n, (m.run .accepting "main" []).1 = .ok n) := by
  rw [execute]
  rcases m.run .accepting "main" [] with ⟨e | n, output⟩
  · exact ⟨_, rfl, by simp⟩
  · exact ⟨_, rfl, by simp⟩

/-- Writes the module before its slots are replaced, if asked to. -/
def dump (o : Options) (paths : Paths) (m : Module) : Task Unit :=
  if o.debug then writeModule paths.raw m else pure ()

/-- The module that is written in the end. -/
def finished (o : Options) (promoted : Module) : Module :=
  if o.optimize then promoted.fold else promoted

/-- What follows when a module was promoted. -/
def finish (o : Options) (paths : Paths) (promoted : Module) : Task Unit := do
  writeModule paths.output (finished o promoted)
  if o.run then execute (finished o promoted)

/-- Verifies the module, and goes on unless the compilation stops there. -/
def conclude (o : Options) (paths : Paths) (m : Module) : Task Unit :=
  if o.stage = some .codegen then orFail m.verify verifyFailure
  else orFail m.prepare verifyFailure >>= finish o paths

/-- To emit a module is to dump it and then to conclude. -/
theorem emit_eq (o : Options) (paths : Paths) (m : Module) :
    emit o paths m = dump o paths m >>= fun _ => conclude o paths m := by
  rw [emit, dump]
  cases o.debug <;> rfl

/-- The dump succeeds unless it is asked for and its file cannot be made. -/
theorem result_dump_eq_ok_iff :
    ((dump o paths m).run.trace d).result = .ok () ↔ (o.debug = true → d.Creatable paths.raw) := by
  rw [dump]
  split
  · rename_i hdebug
    simp [hdebug, result_writeModule_eq_ok_iff]
  · rename_i hdebug
    rw [trace_pure]
    simp [hdebug]

/-- The dump writes the module as it was lowered, if it is asked for. -/
theorem mem_written_dump_iff : f ∈ ((dump o paths m).run.trace d).written ↔
    o.debug = true ∧ f = (paths.raw, m.text) ∧ d.Creatable paths.raw := by
  rw [dump]
  split
  · rename_i hdebug
    simp [hdebug, mem_written_writeModule_iff]
  · rename_i hdebug
    rw [trace_pure]
    simp [hdebug]

/-- Executing the module, or not, writes no file. -/
theorem trace_execute_if (run : Bool) (m : Module) (d : Disk) :
    ∃ r, (if run then execute m else pure () : Task Unit).run.trace d = ⟨r, [], d⟩ ∧
      (r = .ok () ↔ (run = true → ∃ n, (m.run .accepting "main" []).1 = .ok n)) := by
  cases run with
  | true =>
    obtain ⟨r, htrace, hr⟩ := trace_execute m d
    exact ⟨r, htrace, by simpa using hr⟩
  | false => exact ⟨.ok (), rfl, by simp⟩

/-- The end of the pipeline succeeds if the output can be made and, where it is asked for, `main`
runs. -/
theorem result_finish_eq_ok_iff : ((finish o paths m).run.trace d).result = .ok () ↔
    d.Creatable paths.output ∧
      (o.run = true → ∃ n, ((finished o m).run .accepting "main" []).1 = .ok n) := by
  obtain ⟨r, htrace, hr⟩ := trace_execute_if o.run (finished o m)
    ((writeModule paths.output (finished o m)).run.trace d).disk
  rw [finish, result_then_eq_ok_iff, result_writeModule_eq_ok_iff, htrace, hr]

/-- The end of the pipeline writes the finished module. -/
theorem mem_written_finish_iff : f ∈ ((finish o paths m).run.trace d).written ↔
    f = (paths.output, (finished o m).text) ∧ d.Creatable paths.output := by
  obtain ⟨r, htrace, -⟩ := trace_execute_if o.run (finished o m)
    ((writeModule paths.output (finished o m)).run.trace d).disk
  rw [finish, mem_written_then_iff, htrace, mem_written_writeModule_iff]
  simp

/-- What follows the dump succeeds if the module is valid and the stages that are asked for succeed. -/
theorem result_conclude_eq_ok_iff : ((conclude o paths m).run.trace d).result = .ok () ↔
    if o.stage = some .codegen then m.verify = .ok ()
    else ∃ q, m.prepare = .ok q ∧ d.Creatable paths.output ∧
      (o.run = true → ∃ n, ((finished o q).run .accepting "main" []).1 = .ok n) := by
  rw [conclude]
  split
  · exact Except.mapError_eq_ok_iff
  · simp only [result_bind_eq_ok_iff, trace_orFail, Except.mapError_eq_ok_iff, result_finish_eq_ok_iff]

/-- What follows the dump writes the finished module, unless only its validity was asked for. -/
theorem mem_written_conclude_iff : f ∈ ((conclude o paths m).run.trace d).written ↔
    o.stage ≠ some .codegen ∧ ∃ q, m.prepare = .ok q ∧
      f = (paths.output, (finished o q).text) ∧ d.Creatable paths.output := by
  rw [conclude]
  split
  · rename_i hstage
    simp [hstage, trace_orFail]
  · rename_i hstage
    simp only [mem_written_bind_iff, trace_orFail, Except.mapError_eq_ok_iff, mem_written_finish_iff,
      List.not_mem_nil, false_or, ne_eq, hstage, not_false_eq_true, true_and]

/-- **The stages after lowering succeed** if the files that are to be written can be created, and the module
is in order and, if asked to, executed. -/
theorem result_emit_eq_ok_iff : ((emit o paths m).run.trace d).result = .ok () ↔
    (o.debug = true → d.Creatable paths.raw) ∧
      if o.stage = some .codegen then m.verify = .ok ()
      else ∃ q, m.prepare = .ok q ∧ d.Creatable paths.output ∧
        (o.run = true → ∃ n, ((finished o q).run .accepting "main" []).1 = .ok n) := by
  rw [emit_eq, result_then_eq_ok_iff, result_dump_eq_ok_iff, result_conclude_eq_ok_iff]
  simp only [Action.creatable_trace_iff]

/-- **What the stages after lowering write.** -/
theorem mem_written_emit_iff : f ∈ ((emit o paths m).run.trace d).written ↔
    (o.debug = true ∧ f = (paths.raw, m.text) ∧ d.Creatable paths.raw) ∨
      ((o.debug = true → d.Creatable paths.raw) ∧ o.stage ≠ some .codegen ∧
        ∃ q, m.prepare = .ok q ∧ f = (paths.output, (finished o q).text) ∧
          d.Creatable paths.output) := by
  rw [emit_eq, mem_written_then_iff, mem_written_dump_iff, result_dump_eq_ok_iff,
    mem_written_conclude_iff]
  simp only [Action.creatable_trace_iff]

/-- The text of the file to link. -/
def linkedText (d : Disk) : Option String → Except String String
  | none => .ok ""
  | some path => (d.read path).mapError Disk.Error.message

/-- The module of a program, with the file to link from a disk. -/
def lowerOn (d : Disk) (paths : Paths) (p : Source.Program) :
    Except (Lowering.Error Lowering.Refusal) Module :=
  Lowering.toModule (fun _ => linkedText d paths.link) p paths.moduleName paths.link

/-- To lower a program writes nothing, and fails with the reasons of `lowerOn`. -/
theorem trace_lower (paths : Paths) (p : Source.Program) (d : Disk) : (lower paths p).run.trace d =
    ⟨(lowerOn d paths p).mapError fun e =>
      ⟨"IR generation failed for " ++ paths.moduleName, e.message :: e.causes⟩, [], d⟩ := by
  rw [lower, lowerOn]
  cases paths.link <;> rfl

/-- The source is read, and lowered to a module with the file to link. -/
def Lowered (d : Disk) (paths : Paths) (m : Module) : Prop :=
  ∃ source p, d.read paths.input = .ok source ∧ Source.parse source = .ok p ∧
    lowerOn d paths p = .ok m

/-- Every stage up to the last one that the options ask for succeeds. -/
def Succeeds (d : Disk) (o : Options) : Prop :=
  ∃ paths source, Paths.resolve o.path o.output o.link = .ok paths ∧ d.read paths.input = .ok source ∧
    (o.stage = some .lex ∨ ∃ p, Source.parse source = .ok p ∧
      (o.stage = some .parse ∨ ∃ m, lowerOn d paths p = .ok m ∧
        (o.debug = true → d.Creatable paths.raw) ∧
        if o.stage = some .codegen then m.verify = .ok ()
        else ∃ q, m.prepare = .ok q ∧ d.Creatable paths.output ∧
          (o.run = true → ∃ n, ((finished o q).run .accepting "main" []).1 = .ok n)))

/-- The compiler as a chain of its stages, each of which can be the last. -/
theorem compile_eq (o : Options) (paths : Paths) (source : String) : compile o paths source =
    if o.stage = some .lex then printTokens paths.moduleName (Token.lex source).toList
    else orFail (Source.parseTokens (Token.lex source)) (fun f =>
        ⟨"Failed to compile " ++ paths.moduleName, [f.error.message]⟩) >>= fun p =>
      if o.stage = some .parse then (Action.out p.text : Task Unit) else lower paths p >>= emit o paths :=
  rfl

/-- The compiler succeeds if all stages up to the last that is asked for do. -/
theorem result_compile_eq_ok_iff {source : String} :
    ((compile o paths source).run.trace d).result = .ok () ↔
      o.stage = some .lex ∨ ∃ p, Source.parse source = .ok p ∧
        (o.stage = some .parse ∨ ∃ m, lowerOn d paths p = .ok m ∧
          ((emit o paths m).run.trace d).result = .ok ()) := by
  rw [compile_eq]
  split
  · rename_i hlex
    exact iff_of_true rfl (.inl hlex)
  · rename_i hlex
    simp only [result_bind_eq_ok_iff, trace_orFail, Except.mapError_eq_ok_iff,
      ← Source.parse_eq_ok_iff, hlex, false_or]
    refine exists_congr fun p => and_congr_right fun _ => ?_
    split
    · rename_i hparse
      exact iff_of_true rfl (.inl hparse)
    · rename_i hparse
      simp only [result_bind_eq_ok_iff, trace_lower, Except.mapError_eq_ok_iff, hparse, false_or]

/-- What the compiler writes, it writes when it emits the module. -/
theorem mem_written_compile_iff {source : String} : f ∈ ((compile o paths source).run.trace d).written ↔
    o.stage ≠ some .lex ∧ o.stage ≠ some .parse ∧ ∃ p m, Source.parse source = .ok p ∧
      lowerOn d paths p = .ok m ∧ f ∈ ((emit o paths m).run.trace d).written := by
  rw [compile_eq]
  split
  · rename_i hlex
    exact iff_of_false List.not_mem_nil fun h => h.1 hlex
  · rename_i hlex
    simp only [mem_written_bind_iff, trace_orFail, Except.mapError_eq_ok_iff, ← Source.parse_eq_ok_iff,
      List.not_mem_nil, false_or]
    split
    · rename_i hparse
      exact iff_of_false (fun ⟨_, _, hf⟩ => List.not_mem_nil hf) fun h => h.2.1 hparse
    · rename_i hparse
      simp only [mem_written_bind_iff, trace_lower, Except.mapError_eq_ok_iff, List.not_mem_nil, false_or,
        ne_eq, hlex, hparse, not_false_eq_true, true_and, exists_and_left]

/-- The command succeeds exactly if `Succeeds` says so. -/
theorem result_task_eq_ok_iff : ((task o).run.trace d).result = .ok () ↔ Succeeds d o := by
  rw [task, Succeeds]
  simp only [result_bind_eq_ok_iff, trace_orFail, trace_readSource, Except.mapError_eq_ok_iff,
    result_compile_eq_ok_iff, result_emit_eq_ok_iff, exists_and_left]

/-- What the command writes, it writes when it emits the module of its source. -/
theorem mem_written_task_iff : f ∈ ((task o).run.trace d).written ↔
    ∃ paths m, Paths.resolve o.path o.output o.link = .ok paths ∧ o.stage ≠ some .lex ∧
      o.stage ≠ some .parse ∧ Lowered d paths m ∧ f ∈ ((emit o paths m).run.trace d).written := by
  rw [task]
  simp only [mem_written_bind_iff, trace_orFail, trace_readSource, Except.mapError_eq_ok_iff,
    mem_written_compile_iff, List.not_mem_nil, false_or]
  constructor
  · rintro ⟨paths, hpaths, source, hread, hlex, hparse, p, m, hp, hm, hf⟩
    exact ⟨paths, m, hpaths, hlex, hparse, ⟨source, p, hread, hp, hm⟩, hf⟩
  · rintro ⟨paths, m, hpaths, hlex, hparse, ⟨source, p, hread, hp, hm⟩, hf⟩
    exact ⟨paths, hpaths, source, hread, hlex, hparse, p, m, hp, hm, hf⟩

/-- The exit code tells whether the compilation succeeds; a report is not written to the disk. -/
theorem trace_runOptions (o : Options) (d : Disk) :
    ((runOptions o).trace d).written = ((task o).run.trace d).written ∧
      (((runOptions o).trace d).result = 0 ∨ ((runOptions o).trace d).result = 1) ∧
        (((runOptions o).trace d).result = 0 ↔ ((task o).run.trace d).result = .ok ()) := by
  rw [runOptions, Action.trace_bind]
  cases ((task o).run.trace d).result with
  | ok u => exact ⟨List.append_nil _, .inl rfl, iff_of_true rfl rfl⟩
  | error e => exact ⟨List.append_nil _, .inr rfl, iff_of_false (show (1 : UInt32) ≠ 0 by decide) nofun⟩

end Command

/-- Linking keeps that all that functions mention has a name, for what is read has one. -/
theorem IR.Module.Nameable.linkText {m m' : IR.Module} (hm : m.Nameable) {path : String}
    {text : Except String String} {u : Unit} (h : m.linkText path text = (.ok u, m')) : m'.Nameable := by
  unfold IR.Module.linkText at h
  split at h
  · cases h
  · split at h
    · cases h
    · rename_i src hread
      have hkeep : ∀ f ∈ (m.link src).2.functions, f.Nameable :=
        IR.Linking.forall_mem_functions hm (IR.Module.nameable_of_read hread)
      rwa [h] at hkeep

namespace Lowering

/-- **A module that a program was lowered to has a text,** whatever file was linked into it. -/
theorem nameable_of_toModule {p : Source.Program} (hp : p.WellFormed)
    {read : String → Except String String} {name : String} {link : Option String} {m : IR.Module}
    (h : toModule read p name link = .ok m) : m.Nameable := by
  cases link with
  | none =>
    obtain ⟨m', hm', hlowers⟩ := toModule_of_wellFormed hp read name
    obtain rfl := Except.ok.inj (hm'.symm.trans h)
    exact (hlowers.valid hp).nameable
  | some path =>
    obtain ⟨scope', b', hlowers, -, hexec⟩ := Gen.exec_program read name hp
    rw [toModule, generate_eq] at h
    rcases hlink : b'.module.linkText path (read path) with ⟨cause | u, m'⟩
    · rw [(hexec path).trans (Gen.exec_linkFile hlink)] at h
      cases h
    · rw [(hexec path).trans (Gen.exec_linkFile hlink)] at h
      obtain rfl := Except.ok.inj h
      exact (hlowers.valid hp).nameable.linkText hlink

end Lowering

namespace Command

open IR (Module)

variable {o : Options} {paths : Paths} {d : Disk}

/-! ### The command -/

/-- The lowered module is written as it is. -/
structure Dumps (d : Disk) (o : Options) (paths : Paths) (m : Module) : Prop where
  debug : o.debug = true
  stage : o.stage ≠ some .lex ∧ o.stage ≠ some .parse
  lowered : Lowered d paths m
  creatable : d.Creatable paths.raw

/-- The prepared module is written, with constants folded or not. -/
structure Emits (d : Disk) (o : Options) (paths : Paths) (final : Module) : Prop where
  stage : o.stage = none
  dumped : o.debug = true → d.Creatable paths.raw
  prepared : ∃ m q, Lowered d paths m ∧ m.prepare = .ok q ∧ final = finished o q
  creatable : d.Creatable paths.output

/-- A module that was lowered has a text. -/
theorem Lowered.text?_eq {m : Module} (h : Lowered d paths m) : m.text? = some m.text := by
  obtain ⟨source, p, -, hp, hm⟩ := h
  exact if_pos (Lowering.nameable_of_toModule (Source.wellFormed_of_parse hp) hm)

/-- A module that is emitted has a text. -/
theorem Emits.text?_eq {final : Module} (h : Emits d o paths final) : final.text? = some final.text := by
  obtain ⟨m, q, -, hq, rfl⟩ := h.prepared
  obtain ⟨hvalid, rfl⟩ := IR.Module.prepare_eq_ok_iff.1 hq
  rw [finished]
  split
  · exact hvalid.promote.fold.text?_eq
  · exact hvalid.promote.text?_eq

/-- No other stage is left. -/
theorem eq_none_of_stage {s : Option Stage} (hlex : s ≠ some .lex) (hparse : s ≠ some .parse)
    (hcodegen : s ≠ some .codegen) : s = none := by
  rcases s with _ | _ | _ | _ <;> trivial

/-- **What a compilation writes:** the lowered module, and the prepared one. -/
theorem mem_written_iff {f : String × String} : f ∈ ((task o).run.trace d).written ↔
    ∃ paths, Paths.resolve o.path o.output o.link = .ok paths ∧
      ((∃ m, Dumps d o paths m ∧ f = (paths.raw, m.text)) ∨
        ∃ q, Emits d o paths q ∧ f = (paths.output, q.text)) := by
  rw [mem_written_task_iff]
  constructor
  · rintro ⟨paths, m, hpaths, hlex, hparse, hlowered, hf⟩
    refine ⟨paths, hpaths, ?_⟩
    rcases mem_written_emit_iff.1 hf with ⟨hdebug, hf, hraw⟩ | ⟨hraw, hcodegen, q, hq, hf, houtput⟩
    · exact .inl ⟨m, ⟨hdebug, ⟨hlex, hparse⟩, hlowered, hraw⟩, hf⟩
    · have hstage := eq_none_of_stage hlex hparse hcodegen
      exact .inr ⟨_, ⟨hstage, hraw, ⟨m, q, hlowered, hq, rfl⟩, houtput⟩, hf⟩
  · rintro ⟨paths, hpaths, ⟨m, hdumps, hf⟩ | ⟨_, ⟨hstage, hraw, ⟨m, q, hlowered, hq, rfl⟩, houtput⟩, hf⟩⟩
    · exact ⟨paths, m, hpaths, hdumps.stage.1, hdumps.stage.2, hdumps.lowered,
        mem_written_emit_iff.2 (.inl ⟨hdumps.debug, hf, hdumps.creatable⟩)⟩
    · refine ⟨paths, m, hpaths, by simp [hstage], by simp [hstage], hlowered, ?_⟩
      exact mem_written_emit_iff.2 (.inr ⟨hraw, by simp [hstage], q, hq, hf, houtput⟩)

/-- At most one module is lowered from a source. -/
theorem Lowered.unique {m m' : Module} (h : Lowered d paths m) (h' : Lowered d paths m') : m = m' := by
  obtain ⟨source, p, hread, hp, hm⟩ := h
  obtain ⟨source', p', hread', hp', hm'⟩ := h'
  obtain rfl := Except.ok.inj (hread.symm.trans hread')
  obtain rfl := Except.ok.inj (hp.symm.trans hp')
  exact Except.ok.inj (hm.symm.trans hm')

/-- At most one module is emitted. -/
theorem Emits.unique {final final' : Module} (h : Emits d o paths final) (h' : Emits d o paths final') :
    final = final' := by
  obtain ⟨m, q, hm, hq, rfl⟩ := h.prepared
  obtain ⟨m', q', hm', hq', rfl⟩ := h'.prepared
  obtain rfl := hm.unique hm'
  obtain rfl := Except.ok.inj (hq.symm.trans hq')
  rfl

/-- If the result is written, then only its execution can fail. -/
theorem Emits.succeeds {final : Module} (h : Emits d o paths final)
    (hpaths : Paths.resolve o.path o.output o.link = .ok paths)
    (hrun : o.run = true → ∃ n, (final.run .accepting "main" []).1 = .ok n) : Succeeds d o := by
  obtain ⟨m, q, ⟨source, p, hread, hp, hm⟩, hq, rfl⟩ := h.prepared
  refine ⟨paths, source, hpaths, hread, .inr ⟨p, hp, .inr ⟨m, hm, h.dumped, ?_⟩⟩⟩
  rw [if_neg (by simp [h.stage])]
  exact ⟨q, hq, h.creatable, hrun⟩

section Written

variable {d' : Disk} {f : String × String} {text : String}
  (hpaths : Paths.resolve o.path o.output o.link = .ok paths)
include hpaths

/-- Whatever is written is the dump or the output. -/
theorem mem_written_iff_of_resolve : f ∈ ((task o).run.trace d).written ↔
    (∃ m, Dumps d o paths m ∧ f = (paths.raw, m.text)) ∨
      ∃ final, Emits d o paths final ∧ f = (paths.output, final.text) := by
  rw [mem_written_iff]
  constructor
  · rintro ⟨paths', hpaths', h⟩
    obtain rfl := Except.ok.inj (hpaths.symm.trans hpaths')
    exact h
  · intro h
    exact ⟨paths, hpaths, h⟩

/-- The dump is written exactly if `Dumps` says so. -/
theorem raw_mem_written_iff : (paths.raw, text) ∈ ((task o).run.trace d).written ↔
    ∃ m, Dumps d o paths m ∧ m.text? = some text := by
  rw [mem_written_iff_of_resolve hpaths]
  constructor
  · rintro (⟨m, h, hf⟩ | ⟨final, h, hf⟩)
    · obtain ⟨-, rfl⟩ := Prod.mk.inj hf
      exact ⟨m, h, h.lowered.text?_eq⟩
    · have heq := (Prod.mk.inj hf).1
      exact absurd heq (Paths.raw_ne_output hpaths (heq ▸ h.creatable))
  · rintro ⟨m, h, htext⟩
    rw [h.lowered.text?_eq] at htext
    exact .inl ⟨m, h, by rw [Option.some.inj htext]⟩

/-- The output is written exactly if `Emits` says so. -/
theorem output_mem_written_iff : (paths.output, text) ∈ ((task o).run.trace d).written ↔
    ∃ final, Emits d o paths final ∧ final.text? = some text := by
  rw [mem_written_iff_of_resolve hpaths]
  constructor
  · rintro (⟨m, h, hf⟩ | ⟨final, h, hf⟩)
    · exact absurd (Prod.mk.inj hf).1.symm (Paths.raw_ne_output hpaths h.creatable)
    · obtain ⟨-, rfl⟩ := Prod.mk.inj hf
      exact ⟨final, h, h.text?_eq⟩
  · rintro ⟨final, h, htext⟩
    rw [h.text?_eq] at htext
    exact .inr ⟨final, h, by rw [Option.some.inj htext]⟩

variable (hwritten : d.writeAll ((task o).run.trace d).written = .ok d')
include hwritten

/-- **Each file that was written has its text in the end,** for the two are not the same. -/
theorem at?_of_mem_written (hf : f ∈ ((task o).run.trace d).written) :
    d'.at? f.1 = some (.file (.text f.2)) := by
  have hsame := Disk.sameDirectories_of_writeAll hwritten
  rcases (mem_written_iff_of_resolve hpaths).1 hf with ⟨m, h, rfl⟩ | ⟨final, h, rfl⟩
  · obtain ⟨place, hplace⟩ := h.creatable
    rw [hsame.at?_of_locate hplace.locate]
    refine Disk.node?_of_written hwritten hf hplace fun g hg hcreates => ?_
    rcases (mem_written_iff_of_resolve hpaths).1 hg with ⟨m', h', rfl⟩ | ⟨final, -, rfl⟩
    · rw [h'.lowered.unique h.lowered]
    · exact absurd rfl (Paths.locate_ne hpaths hplace hcreates.locate)
  · obtain ⟨place, hplace⟩ := h.creatable
    rw [hsame.at?_of_locate hplace.locate]
    refine Disk.node?_of_written hwritten hf hplace fun g hg hcreates => ?_
    rcases (mem_written_iff_of_resolve hpaths).1 hg with ⟨m, -, rfl⟩ | ⟨final', h', rfl⟩
    · exact absurd rfl (Paths.locate_ne hpaths hcreates hplace.locate)
    · rw [h'.unique h]

/-- **An output that is not written is as it was,** also if the lowered module is. -/
theorem at?_output_of_not_emits (h : ∀ final, ¬Emits d o paths final) :
    d'.at? paths.output = d.at? paths.output := by
  refine (Disk.sameDirectories_of_writeAll hwritten).at?_eq fun q hq => ?_
  refine Disk.node?_of_not_written hwritten fun f hf hcreates => ?_
  rcases (mem_written_iff_of_resolve hpaths).1 hf with ⟨m, -, rfl⟩ | ⟨final, hemits, -⟩
  · exact Paths.locate_ne hpaths hcreates hq rfl
  · exact h final hemits

end Written

/-- What a compilation does to the disk, and its exit code.  The disk is changed by writing texts in order,
to the output and to the file beside it only; and all that was written is there in the end.  The file beside
the output gets the lowered module, exactly if it was asked for and can be created, the compilation does not
stop before, and the source can be read and lowered.  The output gets the prepared module, folded if that
was asked for, exactly if no stage stops the compilation, all stages before succeed, and it can be created.
So after a failure the output is as it was, unless it is the execution of the result that failed.  The exit
code is zero exactly if every stage that is reached succeeds. -/
def Effects (o : Options) (w : World) (code : UInt32) (w' : World) : Prop :=
  ∃ written : List (String × String), w.disk.writeAll written = .ok w'.disk ∧
    (∀ place, w'.disk.node? place ≠ w.disk.node? place → ∃ f ∈ written, w.disk.Creates f.1 place) ∧
    (∀ f ∈ written, w'.disk.at? f.1 = some (.file (.text f.2)) ∧
      ∃ paths, Paths.resolve o.path o.output o.link = .ok paths ∧
        (f.1 = paths.output ∨ f.1 = paths.raw)) ∧
    (∀ paths, Paths.resolve o.path o.output o.link = .ok paths →
      (∀ text, (paths.raw, text) ∈ written ↔ ∃ m, Dumps w.disk o paths m ∧ m.text? = some text) ∧
      (∀ text, (paths.output, text) ∈ written ↔
        ∃ final, Emits w.disk o paths final ∧ final.text? = some text) ∧
      (code ≠ 0 → w'.disk.at? paths.output = w.disk.at? paths.output ∨
        o.run = true ∧ ∃ final e, Emits w.disk o paths final ∧
          (final.run .accepting "main" []).1 = .error e)) ∧
    (code = 0 ∨ code = 1) ∧ (code = 0 ↔ Succeeds w.disk o)

/-- **What a compilation does, for all options and in every world.** -/
theorem effects_runOptions (o : Options) (w : World) :
    Effects o w ((runOptions o).runOn w).1 ((runOptions o).runOn w).2 := by
  obtain ⟨hcode, hdisk⟩ := (runOptions o).runOn_eq w
  have hwritten := (runOptions o).writeAll_trace w.disk
  obtain ⟨htask, hor, hzero⟩ := trace_runOptions o w.disk
  rw [← hcode] at hor hzero
  rw [← hdisk, htask] at hwritten
  rw [result_task_eq_ok_iff] at hzero
  refine ⟨_, hwritten, fun place hplace => ?_, fun f hf => ?_, fun paths hpaths => ?_, hor, hzero⟩
  · by_contra hnone
    exact hplace (Disk.node?_of_not_written hwritten fun f hf hcreates => hnone ⟨f, hf, hcreates⟩)
  · obtain ⟨paths, hpaths, hor⟩ := mem_written_iff.1 hf
    refine ⟨at?_of_mem_written hpaths hwritten hf, paths, hpaths, ?_⟩
    rcases hor with ⟨m, -, rfl⟩ | ⟨final, -, rfl⟩
    · exact .inr rfl
    · exact .inl rfl
  · refine ⟨fun text => raw_mem_written_iff hpaths, fun text => output_mem_written_iff hpaths,
      fun hne => ?_⟩
    by_cases hemits : ∃ final, Emits w.disk o paths final
    · obtain ⟨final, hemits⟩ := hemits
      have hfails : ¬(o.run = true → ∃ n, (final.run .accepting "main" []).1 = .ok n) :=
        fun hok => hne (hzero.2 (hemits.succeeds hpaths hok))
      rw [Classical.not_imp] at hfails
      cases hresult : (final.run .accepting "main" []).1 with
      | ok n => exact absurd ⟨n, hresult⟩ hfails.2
      | error e => exact .inr ⟨hfails.1, final, e, hemits, hresult⟩
    · rw [not_exists] at hemits
      exact .inl (at?_output_of_not_emits hpaths hwritten hemits)

/-- **What the command does to the disk, and its exit code.**  Whatever the disk is and whatever options the
arguments are read as, the command does to it what a compilation with these options does. -/
theorem run_effects (args : List String) (o : Options) (h : Options.ofArguments args = .ok o)
    (w w' : World) (code : UInt32) (hrun : (run args).runOn w = (code, w')) : Effects o w code w' := by
  have hoptions : run args = runOptions o := by
    unfold run
    rw [h]
  have heffects := effects_runOptions o w
  rwa [← hoptions, hrun] at heffects

/-- A disk with a source, and with a directory in the place of the output. -/
def blockedDisk : Disk :=
  (Disk.empty.add "a.dc" (.file (.text Lowering.halves))).add "a.ll" .directory

/-- The hypotheses are satisfiable: on `blockedDisk` the lowered module is written, and then the command
fails without a change to what is in the place of the output. -/
theorem run_effects_blocked : ∃ m code w',
    Lowering.toModule (fun _ => .ok "") Lowering.halvesProgram "a.dc" none = .ok m ∧
      (run ["-d", "a.dc"]).runOn ⟨blockedDisk, "", ""⟩ = (code, w') ∧ code = 1 ∧
        w'.disk.at? "a.raw.ll" = some (.file (.text m.text)) ∧ w'.disk.at? "a.ll" = some .directory := by
  have hwell := Source.wellFormed_of_parse Lowering.parse_halves
  obtain ⟨m, hm, -⟩ := Lowering.toModule_of_wellFormed hwell (fun _ => .ok "") "a.dc"
  have hread : blockedDisk.read "a.dc" = .ok Lowering.halves := by decide +kernel
  have hpaths : Paths.resolve "a.dc" none none =
      .ok ⟨"a.dc", "a.ll", "a.raw.ll", none, "a.dc"⟩ := by decide +kernel
  have hraw : blockedDisk.Creatable "a.raw.ll" := (Disk.creatable_iff "").2 ⟨_, rfl⟩
  have houtput : ¬blockedDisk.Creatable "a.ll" := by
    intro h
    obtain ⟨d', hwrite⟩ := (Disk.creatable_iff "").1 h
    have herror : blockedDisk.write "a.ll" "" = .error .isADirectory := by decide +kernel
    rw [herror] at hwrite
    cases hwrite
  obtain ⟨written, -, -, hthere, hfiles, hor, hzero⟩ := run_effects ["-d", "a.dc"]
    ⟨"a.dc", none, none, none, true, false, false⟩ (by decide +kernel) ⟨blockedDisk, "", ""⟩ _ _ rfl
  have hlowered : Lowered blockedDisk ⟨"a.dc", "a.ll", "a.raw.ll", none, "a.dc"⟩ m :=
    ⟨_, _, hread, Lowering.parse_halves, hm⟩
  obtain ⟨hwritten, -, hfails⟩ := hfiles _ hpaths
  have hcode : ((run ["-d", "a.dc"]).runOn ⟨blockedDisk, "", ""⟩).1 ≠ 0 := by
    intro heq
    obtain ⟨paths, source, hpaths', -, hlex | ⟨p, -, hparse | ⟨m', -, -, hrest⟩⟩⟩ := hzero.1 heq
    · cases hlex
    · cases hparse
    · obtain ⟨q, -, hcreatable, -⟩ := hrest
      obtain rfl := Except.ok.inj (hpaths.symm.trans hpaths')
      exact houtput hcreatable
  refine ⟨m, _, _, hm, rfl, hor.resolve_left hcode, ?_, ?_⟩
  · exact (hthere _ ((hwritten m.text).2 ⟨m, ⟨rfl, ⟨nofun, nofun⟩, hlowered, hraw⟩, hlowered.text?_eq⟩)).1
  · rcases hfails hcode with heq | ⟨hrun, -⟩
    · exact heq.trans (by decide +kernel)
    · cases hrun

end Command
end Straightline
