/-
# One executor, many calls

The counter of an executor is raised and lowered as calls begin and end, and an error ends several of them at
once.  It is after each call what it was before, so all calls of a body find the same counter; by induction
on the calls that may still be nested, an executor does what `Module.runAt` says at its depth, and the largest
counter that it tells of is not beyond the limit (`Executor.run_does`).

An execution takes no notice of what was written before it (`Execution.Appends`).  So all that a call can find
of earlier ones, the counter and the output, makes no difference to it.

The limit makes a difference only to executions that run into it: with less of it left, an execution goes
the same way, or is cut off and has written what the other one writes first (`Execution.CutOff`).
-/

import Straightline.IR.Executor
import Straightline.Proofs.Execution

namespace Straightline
namespace IR
namespace Execution

variable {α β : Type} {x y : Execution α} {inv : String → List Int32 → Execution Int32}
  {f : Function} {args : List Int32} {fr : Frame} {i : Instr}

/-! ### Executions and the output before them -/

/-- An execution that takes no notice of what was written before it, and adds to it. -/
def Appends (x : Execution α) : Prop :=
  ∀ out, x out = ((x "").1, out ++ (x "").2)

/-- What was written before stays in front. -/
theorem Appends.exists_append (hx : Appends x) (out : String) : ∃ more, (x out).2 = out ++ more :=
  ⟨(x "").2, by rw [hx out]⟩

/-- A composition appends if both parts do. -/
theorem Appends.bind {g : α → Execution β} (hx : Appends x) (hg : ∀ a, Appends (g a)) :
    Appends (x >>= g) := by
  intro out
  rw [bind_apply, bind_apply, hx out]
  rcases x "" with ⟨e | a, written⟩
  · rfl
  · show g a (out ++ written) = ((g a written).1, out ++ (g a written).2)
    rw [hg a (out ++ written), hg a written, String.append_assoc]

/-- To fail or to give a result at once writes nothing. -/
theorem appends_ofExcept (r : Except Error α) : Appends (ofExcept r) := by
  intro out
  show (r, out) = (r, out ++ "")
  rw [String.append_empty]

/-- To print writes at the end. -/
theorem appends_print (sink : Sink) (n : Int32) : Appends (print sink n) := by
  cases sink with
  | accepting =>
    intro out
    rw [print]
    show (Except.ok n, out ++ (Text.ofInt32 n ++ "\n")) = (_, out ++ ("" ++ (Text.ofInt32 n ++ "\n")))
    rw [String.empty_append]
    rfl
  | refusing reason => exact appends_ofExcept (.error (.output reason))

/-- That an execution only appends follows from its parts. -/
theorem compositional_appends : Compositional fun _ x y => x = y ∧ Appends x where
  ofExcept r := ⟨rfl, appends_ofExcept r⟩
  bind := by
    rintro α β x _ g h ⟨rfl, hx⟩ hg
    obtain rfl : g = h := funext fun a => (hg a).1
    exact ⟨rfl, hx.bind fun a => (hg a).2⟩

/-- To run a function only appends to the output. -/
theorem appends_enter (m : Module) (sink : Sink) (budget : Nat) (f : Function) (args : List Int32) :
    Appends (enter m sink budget f args) := by
  induction budget generalizing f args with
  | zero => exact appends_ofExcept (.error _)
  | succ budget ih =>
    have hcalls := compositional_appends.invoke m (fun n => ⟨rfl, appends_print sink n⟩)
      fun f args => ⟨rfl, ih f args⟩
    exact (compositional_appends.instrs hcalls).2.bind fun n => appends_ofExcept (.ok _)

/-- **A call adds to the output and does not depend on it.** -/
theorem appends_runAt (m : Module) (sink : Sink) (depth : Nat) (name : String) (args : List Int32) :
    Appends (m.runAt sink depth name args) :=
  (compositional_appends.invoke m (fun n => ⟨rfl, appends_print sink n⟩)
    (fun f args => ⟨rfl, appends_enter m sink _ f args⟩) name args).2

/-! ### Executions that are cut off -/

/-- An execution that goes like another one, unless a call is nested too deep in it; and what it has written
by then the other one writes first. -/
structure CutOff (x y : Execution α) : Prop where
  appends : Appends y
  cut : ∀ out, (∃ f, (x out).1 = .error (.callDepthExceeded f) ∧
    ∃ more, (y out).2 = (x out).2 ++ more) ∨ x out = y out

/-- An execution that appends is cut off by itself. -/
theorem Appends.cutOff (hx : Appends x) : CutOff x x :=
  ⟨hx, fun _ => .inr rfl⟩

/-- **What is cut off stays cut off,** whatever the other execution goes on with: that only adds to the
output. -/
theorem CutOff.bind {g h : α → Execution β} (hxy : CutOff x y) (hgh : ∀ a, CutOff (g a) (h a)) :
    CutOff (x >>= g) (y >>= h) := by
  refine ⟨hxy.appends.bind fun a => (hgh a).appends, fun out => ?_⟩
  rw [bind_apply, bind_apply]
  rcases hxy.cut out with ⟨f, hf, more, hmore⟩ | heq
  · left
    rcases hx : x out with ⟨e | a, written⟩
    · rw [hx] at hf hmore
      obtain rfl := Except.error.inj hf
      refine ⟨f, rfl, ?_⟩
      rcases hy : y out with ⟨e | a, written'⟩
      · rw [hy] at hmore
        exact ⟨more, hmore⟩
      · rw [hy] at hmore
        obtain ⟨more', hmore'⟩ := (hgh a).appends.exists_append written'
        refine ⟨more ++ more', ?_⟩
        calc (h a written').2 = written' ++ more' := hmore'
          _ = written ++ more ++ more' := congrArg (· ++ more') hmore
          _ = written ++ (more ++ more') := String.append_assoc
    · rw [hx] at hf
      cases hf
  · rw [heq]
    rcases y out with ⟨e | a, written⟩
    · exact .inr rfl
    · exact (hgh a).cut written

/-- That one execution is another, cut off, follows from their parts. -/
theorem compositional_cutOff : Compositional fun _ x y => CutOff x y where
  ofExcept r := (appends_ofExcept r).cutOff
  bind := CutOff.bind

/-- **With fewer calls that may be nested, a definition is executed as with more,** or cut off. -/
theorem cutOff_enter (m : Module) (sink : Sink) {budget budget' : Nat} (hle : budget ≤ budget')
    (f : Function) (args : List Int32) :
    CutOff (enter m sink budget f args) (enter m sink budget' f args) := by
  induction budget generalizing budget' f args with
  | zero =>
    have happends := appends_enter m sink budget' f args
    exact ⟨happends, fun out => .inl ⟨f.name, rfl, happends.exists_append out⟩⟩
  | succ budget ih =>
    obtain ⟨more, rfl⟩ := Nat.exists_eq_add_of_le hle
    rw [Nat.add_right_comm]
    have hcalls := compositional_cutOff.invoke m
      (fun n => (appends_print sink n).cutOff) (ih (Nat.le_add_right budget more))
    exact (compositional_cutOff.instrs hcalls).bind fun n => (appends_ofExcept (.ok _)).cutOff

/-- A run that starts deeper is the run that starts higher, cut off. -/
theorem cutOff_runAt (m : Module) (sink : Sink) {depth depth' : Nat} (hle : depth' ≤ depth)
    (name : String) (args : List Int32) :
    CutOff (m.runAt sink depth name args) (m.runAt sink depth' name args) :=
  compositional_cutOff.invoke m (fun n => (appends_print sink n).cutOff)
    (cutOff_enter m sink (Nat.sub_le_sub_left hle maxCallDepth)) name args

/-! ### Instructions that are no calls -/

/-- A composition that writes nothing is made of parts that write nothing. -/
theorem ofExcept_bind (r : Except Error α) (g : α → Except Error β) :
    ofExcept (r >>= g) = ofExcept r >>= fun a => ofExcept (g a) := by
  cases r <;> rfl

/-- An instruction that is no call concerns the frame only. -/
theorem instr_eq_step (hi : ∀ callee os d, i ≠ .call callee os d) :
    instr inv f args fr i = ofExcept (fr.step f args i) := by
  cases i with
  | alloca d | load d s | ret v => rfl
  | store v s =>
    rw [instr, Frame.step, ofExcept_bind]
    rfl
  | binary op l r d => simp only [instr, Frame.step, ofExcept_bind]
  | call callee os d => exact absurd rfl (hi callee os d)

/-- An instruction that does not end the block is followed by the others. -/
theorem instrs_cons {is : List Instr} (ht : i.isTerminator = false) :
    instrs inv f args fr (i :: is) =
      instr inv f args fr i >>= fun fr => instrs inv f args fr is := by
  cases i with
  | ret v => cases ht
  | _ => rfl

end Execution

open Execution

namespace Executor

variable {m : Module} {sink : Sink} {ex : Executor} {f : Function} {args : List Int32} {fr : Frame}
  {i : Instr} {is : List Instr}

/-! ### What an executor does -/

namespace Ended

variable {α β : Type} {ended : Ended ex α} {x : Execution α} {g : α → Execution β}
  {next : α → (ex' : Executor) → ex'.depth = ex.depth → Ended ex' β}

/-- An executor has done what an execution does with its output, has changed nothing but the output, and has
not counted beyond the limit on the way, unless it was beyond it at the start. -/
structure Does (ended : Ended ex α) (x : Execution α) : Prop where
  outcome : ended.outcome = (x ex.output).1
  after : ended.after = { ex with output := (x ex.output).2 }
  deepest_le : ex.depth ≤ maxCallDepth → ended.deepest ≤ maxCallDepth

/-- To stop here does what a result by itself does. -/
theorem does_here (r : Except Error α) : (here ex r).Does (Execution.ofExcept r) :=
  ⟨rfl, rfl, fun hex => hex⟩

/-- What is performed is done. -/
theorem does_perform (x : Execution α) : (ex.perform x).Does x :=
  ⟨rfl, rfl, fun hex => hex⟩

/-- To leave a definition does not change what was done in it; it has to be within the limit. -/
theorem Does.left {ended : Ended ex.enter α} (h : ended.Does x) (henter : ex.depth + 1 ≤ maxCallDepth) :
    ended.left.Does x :=
  ⟨h.outcome, congrArg leave h.after, fun _ => h.deepest_le henter⟩

/-- What is done one after the other is done in composition. -/
theorem Does.andThen (h : ended.Does x) (hnext : ∀ a ex' hdepth, (next a ex' hdepth).Does (g a)) :
    (ended.andThen next).Does (x >>= g) := by
  obtain ⟨outcome, after, deepest, hdepth, hle⟩ := ended
  have hbind := bind_apply x g ex.output
  rcases hx : x ex.output with ⟨e | a, output⟩
  · rw [hx] at hbind
    obtain rfl : outcome = .error e := h.outcome.trans (congrArg Prod.fst hx)
    obtain rfl : after = { ex with output } := h.after.trans (by rw [hx])
    exact ⟨congrArg Prod.fst hbind.symm, by rw [hbind]; rfl, h.deepest_le⟩
  · rw [hx] at hbind
    obtain rfl : outcome = .ok a := h.outcome.trans (congrArg Prod.fst hx)
    obtain rfl : after = { ex with output } := h.after.trans (by rw [hx])
    -- what follows starts with the same counter, so the limit is kept on both sides of the maximum
    have hg := hnext a { ex with output } hdepth
    exact ⟨hg.outcome.trans (congrArg Prod.fst hbind.symm), hg.after.trans (by rw [hbind]),
      fun hex => Nat.max_le.2 ⟨h.deepest_le hex, hg.deepest_le hex⟩⟩

end Ended

section Bodies

variable {inv : String → List Int32 → Execution Int32} {depth : Nat}
  (hcalls : ∀ (ex : Executor) name ns, ex.depth = depth → (run m sink ex name ns).Does (inv name ns))
include hcalls

/-- An instruction is executed as it should be, if the call in it is. -/
theorem instr_does (hex : ex.depth = depth) :
    (instr m sink f args ex fr i).Does (Execution.instr inv f args fr i) := by
  cases i with
  | call callee os d =>
    rw [instr, Execution.instr]
    cases fr.readAll f args os with
    | error e => exact Ended.does_here (.error e)
    | ok ns => exact (hcalls ex callee ns hex).andThen fun n ex' _ => Ended.does_here _
  | _ =>
    rw [instr_eq_step (by simp), instr]
    · exact Ended.does_here _
    · simp

/-- **A body is executed as it should be,** if its calls are.  They find the counter where it was at the
start, for each instruction brings it back. -/
theorem instrs_does (hex : ex.depth = depth) : (instrs m sink f args ex fr is).Does
    (Execution.instrs inv f args fr is >>= fun n => pure (n.getD 0)) := by
  induction is generalizing ex fr with
  | nil =>
    rw [instrs]
    exact Ended.does_here (.ok 0)
  | cons i is ih =>
    cases ht : i.isTerminator with
    | true =>
      cases i with
      | ret v =>
        rw [instrs, Execution.instrs]
        cases fr.read f args v with
        | error e => exact Ended.does_here (.error e)
        | ok n => exact Ended.does_here (.ok n)
      | _ => cases ht
    | false =>
      rw [instrs, instrs_cons ht, bind_assoc]
      · exact (instr_does hcalls hex).andThen fun fr' ex' hdepth => ih (hdepth.trans hex)
      · rintro v rfl
        cases ht

end Bodies

/-- A run does what the call of the function does. -/
theorem run_does_of_call {enter : Function → List Int32 → Execution Int32}
    (hcall : ∀ f args, (call m sink ex f args).Does (enter f args)) (name : String)
    (args : List Int32) :
    (run m sink ex name args).Does (invoke m sink enter name args) := by
  unfold run invoke
  cases m.definition? name with
  | some f =>
    by_cases harity : f.arity = args.length
    · simp only [if_pos harity]
      exact hcall f args
    · simp only [if_neg harity]
      exact Ended.does_here (.error _)
  | none =>
    by_cases hname : name = printnum
    · simp only [if_pos hname]
      rcases args with _ | ⟨n, _ | ⟨n', ns⟩⟩
      · exact Ended.does_here (.error _)
      · exact Ended.does_perform _
      · exact Ended.does_here (.error _)
    · simp only [if_neg hname]
      exact Ended.does_here (.error _)

/-- **A definition is executed as it should be.**  The induction is on the number of calls that may still be
nested, which is what the counter leaves of the limit. -/
theorem call_does (budget : Nat) (hbudget : maxCallDepth - ex.depth = budget) (f : Function)
    (args : List Int32) :
    (call m sink ex f args).Does (Execution.enter m sink budget f args) := by
  induction budget generalizing ex f args with
  | zero =>
    have hdeep : ex.depth ≥ maxCallDepth := by omega
    rw [call, if_pos hdeep]
    exact Ended.does_here (.error _)
  | succ budget ih =>
    have hdeep : ¬ ex.depth ≥ maxCallDepth := by omega
    -- the calls in the body are made with this one counted, and so with one less to nest
    have hcalls : ∀ (inner : Executor) name ns, inner.depth = ex.depth + 1 →
        (run m sink inner name ns).Does (invoke m sink (Execution.enter m sink budget) name ns) :=
      fun inner name ns hinner => run_does_of_call (ih (by omega)) name ns
    rw [call, if_neg hdeep]
    exact (instrs_does hcalls rfl).left (by omega)

/-- **An executor does what a module does at its depth.** -/
theorem run_does (m : Module) (sink : Sink) (ex : Executor) (name : String) (args : List Int32) :
    (run m sink ex name args).Does (m.runAt sink ex.depth name args) :=
  run_does_of_call (call_does _ rfl) name args

/-- The outcome of a run, by what the module does. -/
theorem outcome_run (m : Module) (sink : Sink) (ex : Executor) (name : String) (args : List Int32) :
    (run m sink ex name args).outcome = (m.runAt sink ex.depth name args ex.output).1 :=
  (run_does m sink ex name args).outcome

/-- The executor after a run, by what the module does. -/
theorem after_run (m : Module) (sink : Sink) (ex : Executor) (name : String) (args : List Int32) :
    (run m sink ex name args).after =
      { ex with output := (m.runAt sink ex.depth name args ex.output).2 } :=
  (run_does m sink ex name args).after

/-- **The counter does not pass the limit.** -/
theorem deepest_run_le (m : Module) (sink : Sink) (ex : Executor) (name : String) (args : List Int32)
    (hex : ex.depth ≤ maxCallDepth) : (run m sink ex name args).deepest ≤ maxCallDepth :=
  (run_does m sink ex name args).deepest_le hex

/-! ### Calls one after the other -/

/-- **Calls leave an executor behind that counts as many calls as before the first of them.** -/
theorem depth_runAll (m : Module) (sink : Sink) (ex : Executor) (calls : List (String × List Int32)) :
    (runAll m sink ex calls).depth = ex.depth := by
  induction calls generalizing ex with
  | nil => rfl
  | cons call calls ih => exact (ih _).trans (run m sink ex call.1 call.2).depth_after

/-- **Calls on one executor do not influence each other.**  After any calls, whatever they ended with, and
with every sink, a call on the executor ends with what it ends with on a fresh one and adds the same to the
output; the counter is zero before it and after it, and on the way it is at most 256. -/
theorem run_after_calls (m : Module) (sink : Sink) (calls : List (String × List Int32)) (name : String)
    (args : List Int32) :
    (runAll m sink fresh calls).depth = 0 ∧
      (run m sink (runAll m sink fresh calls) name args).outcome =
        (run m sink fresh name args).outcome ∧
      (run m sink (runAll m sink fresh calls) name args).after =
        ⟨0, (runAll m sink fresh calls).output ++ (run m sink fresh name args).after.output⟩ ∧
      (run m sink (runAll m sink fresh calls) name args).deepest ≤ 256 := by
  have hdepth : (runAll m sink fresh calls).depth = 0 := depth_runAll m sink fresh calls
  generalize runAll m sink fresh calls = ex at hdepth ⊢
  obtain ⟨depth, output⟩ := ex
  obtain rfl : depth = 0 := hdepth
  obtain ⟨houtcome, houtput⟩ := Prod.ext_iff.1 (appends_runAt m sink 0 name args output)
  refine ⟨rfl, ?_, ?_, deepest_run_le m sink ⟨0, output⟩ name args (Nat.zero_le _)⟩
  · rw [outcome_run, outcome_run]
    exact houtcome
  · rw [after_run, after_run]
    exact congrArg (Executor.mk 0) houtput

/-- **The limit does nothing but cut executions off.**  If an execution that starts with some calls under way
does not end because a call is nested too deep, then with fewer calls under way it ends with the same result
or error and the same output; and if it does, what it has written begins what is written with fewer. -/
theorem run_cut_off (m : Module) (sink : Sink) (name : String) (args : List Int32) (output : String)
    {depth depth' : Nat} (hle : depth' ≤ depth) :
    ((∀ f, (run m sink ⟨depth, output⟩ name args).outcome ≠ .error (.callDepthExceeded f)) →
      (run m sink ⟨depth', output⟩ name args).outcome = (run m sink ⟨depth, output⟩ name args).outcome ∧
      (run m sink ⟨depth', output⟩ name args).after.output =
        (run m sink ⟨depth, output⟩ name args).after.output) ∧
    ((∃ f, (run m sink ⟨depth, output⟩ name args).outcome = .error (.callDepthExceeded f)) →
      ∃ more, (run m sink ⟨depth', output⟩ name args).after.output =
        (run m sink ⟨depth, output⟩ name args).after.output ++ more) := by
  simp only [outcome_run, after_run]
  rcases (cutOff_runAt m sink hle name args).cut output with ⟨f, hf, hmore⟩ | heq
  · exact ⟨fun h => absurd hf (h f), fun _ => hmore⟩
  · have hsame : (m.runAt sink depth' name args output).2 = (m.runAt sink depth name args output).2 :=
      congrArg Prod.snd heq.symm
    exact ⟨fun _ => ⟨congrArg Prod.fst heq.symm, hsame⟩,
      fun _ => ⟨"", hsame.trans String.append_empty.symm⟩⟩

/-- A module with a call inside a call, and something to write before, in and after the inner one. -/
def nestingModule : Module :=
  ⟨"nest", [⟨"inner", [], ["call_tmp"], [⟨"entry", [.call "printnum" [.const 2] 0, .ret (.value 0)]⟩]⟩,
    ⟨"outer", [], ["call_tmp", "call_tmp1", "call_tmp2"], [⟨"entry", [.call "printnum" [.const 1] 0,
      .call "inner" [] 1, .call "printnum" [.const 3] 2, .ret (.value 1)]⟩]⟩]⟩

/-- The hypothesis is satisfiable: with 255 calls under way `outer` of `nestingModule` can be entered but
`inner` cannot, and what was written by then begins what is written with 254 calls under way; with none it
ends as with 254. -/
theorem run_cut_off_nesting :
    ((run nestingModule .accepting ⟨255, ""⟩ "outer" []).outcome = .error (.callDepthExceeded "inner") ∧
      (run nestingModule .accepting ⟨255, ""⟩ "outer" []).after.output = "1\n" ∧
      ∃ more, (run nestingModule .accepting ⟨254, ""⟩ "outer" []).after.output = "1\n" ++ more) ∧
    (run nestingModule .accepting ⟨254, ""⟩ "outer" []).outcome = .ok 2 ∧
    (run nestingModule .accepting ⟨0, ""⟩ "outer" []).outcome = .ok 2 ∧
    (run nestingModule .accepting ⟨0, ""⟩ "outer" []).after.output = "1\n2\n3\n" := by
  have hcut : (run nestingModule .accepting ⟨255, ""⟩ "outer" []).outcome =
      .error (.callDepthExceeded "inner") := by
    rw [outcome_run]
    rfl
  have hwritten : (run nestingModule .accepting ⟨255, ""⟩ "outer" []).after.output = "1\n" := by
    rw [after_run]
    rfl
  have hflat : (run nestingModule .accepting ⟨254, ""⟩ "outer" []).outcome = .ok 2 := by
    rw [outcome_run]
    rfl
  obtain ⟨-, hmore⟩ := run_cut_off nestingModule .accepting "outer" [] "" (show 254 ≤ 255 by decide)
  obtain ⟨hsame, -⟩ := run_cut_off nestingModule .accepting "outer" [] "" (show 0 ≤ 254 by decide)
  obtain ⟨houtcome, houtput⟩ := hsame fun f hf => (by rw [hflat] at hf; cases hf)
  refine ⟨⟨hcut, hwritten, ?_⟩, hflat, houtcome.trans hflat, houtput.trans ?_⟩
  · rw [← hwritten]
    exact hmore ⟨_, hcut⟩
  · rw [after_run]
    rfl

end Executor
end IR
end Straightline
