/-
# What can be wrong with a module that was read

Whatever a text says, a module that is read from it is put together soundly: its functions have different
names, and what an instruction mentions is defined above it, under a number of its own and a name.  So such
a module has a text, and of the rules of verification four cannot be broken.  The others can, because the
reader does not look at them: how many blocks there are, where a `ret` stands, whether a value is a slot,
and what a call passes to whom (`Verification.Error.Remains`).

The check of a body goes along with the order of its instructions: the values above are those that the
table knows (`Verification.remains_of_instrs`), so nothing is read before it is defined and nothing is
defined twice.
-/

import Straightline.Proofs.ReadModules

namespace Straightline
namespace IR

/-- The errors that can remain in a module that was read. -/
def Verification.Error.Remains : Verification.Error → Prop
  | .blockCount .. | .missingTerminator _ | .earlyTerminator _ | .notAnInteger .. | .notASlot ..
  | .unknownCallee .. | .callArity .. => True
  | .duplicateFunction _ | .undefinedValue .. | .valueRedefined .. | .paramOutOfRange .. => False

namespace Verification

variable {m : Module} {f : Function} {defined : Table ValueKind} {i : Instr} {e : Error}

/-! ### The checks of an instruction -/

/-- An operand that is defined above, or a parameter that is there, is at worst no integer. -/
theorem remains_of_operand {o : Operand} (hvalue : ∀ id, o = .value id → defined.get id ≠ none)
    (hparam : ∀ k, o = .param k → k < f.arity) (h : operand f defined o = .error e) : e.Remains := by
  cases o with
  | const n | undef => cases h
  | param k =>
    rw [operand, if_pos (hparam k rfl)] at h
    cases h
  | value id =>
    rw [operand] at h
    cases hid : defined.get id with
    | none => exact absurd hid (hvalue id rfl)
    | some kind =>
      rw [hid] at h
      cases kind with
      | integer => cases h
      | slot =>
        obtain rfl := Except.error.inj h
        trivial

/-- So are all operands. -/
theorem remains_of_operands {os : List Operand} (hvalue : ∀ id, .value id ∈ os → defined.get id ≠ none)
    (hparam : ∀ k, .param k ∈ os → k < f.arity) (h : operands f defined os = .error e) :
    e.Remains := by
  induction os with
  | nil => cases h
  | cons o os ih =>
    rw [operands, Except.bind_eq_error_iff] at h
    rcases h with h | ⟨-, -, h⟩
    · exact remains_of_operand (fun id ho => hvalue id (by simp [ho])) (fun k ho => hparam k (by simp [ho])) h
    · exact ih (fun id hid => hvalue id (List.mem_cons_of_mem _ hid))
        (fun k hk => hparam k (List.mem_cons_of_mem _ hk)) h

/-- A slot is at worst no slot. -/
theorem remains_of_slot {s : Option Nat} (h : slot f defined s = .error e) : e.Remains := by
  unfold slot at h
  split at h
  · cases h
  · split at h
    · cases h
    · obtain rfl := Except.error.inj h
      trivial

/-- A callee is at worst missing, or takes another number of arguments. -/
theorem remains_of_callee (h : callee m f i = .error e) : e.Remains := by
  unfold callee at h
  split at h
  · split at h
    · obtain rfl := Except.error.inj h
      trivial
    · split at h
      · cases h
      · obtain rfl := Except.error.inj h
        trivial
  · cases h

/-- An instruction that reads what was defined, and defines what was not, fails only by what its values
are or by what it calls. -/
theorem remains_of_instr (hreads : ∀ id ∈ i.reads, defined.get id ≠ none)
    (hparams : ∀ k, .param k ∈ i.operands → k < f.arity)
    (hnew : ∀ d, i.dest? = some d → d < f.names.length ∧ defined.get d = none)
    (h : instr m f defined i = .error e) : e.Remains := by
  simp only [instr, Except.bind_eq_error_iff] at h
  rcases h with h | ⟨-, -, h | ⟨-, -, h | ⟨-, -, h⟩⟩⟩
  · exact remains_of_operands (fun id hid => hreads id (Instr.mem_reads_of_operand hid)) hparams h
  · exact remains_of_slot h
  · exact remains_of_callee h
  · rw [result_eq_ok_iff.2 ⟨hnew, rfl⟩] at h
    cases h

/-! ### The checks of bodies and modules -/

/-- **Instructions in order fail only by what their values are or by what they call.** -/
theorem remains_of_instrs {above : List Nat} {is : List Instr} (hord : Ordered f above is)
    (habove : ∀ id, id ∈ above ↔ defined.get id ≠ none) (h : instrs m f defined is = .error e) :
    e.Remains := by
  induction hord generalizing defined with
  | nil => cases h
  | cons hreads hparams hnew _ ih =>
    rw [instrs, Except.bind_eq_error_iff] at h
    rcases h with h | ⟨defined', hi, h⟩
    · refine remains_of_instr (fun id hid => (habove id).1 (hreads id hid))
        (fun k hk => Ordered.lt_of_param (hparams k hk)) (fun d hd => ?_) h
      obtain ⟨hfresh, hlt⟩ := hnew d hd
      exact ⟨hlt, not_not.1 fun hne => hfresh ((habove d).2 hne)⟩
    · obtain ⟨-, rfl⟩ := instr_eq_ok_iff.1 hi
      exact ih (Table.mem_append_dest_iff habove) h

/-- The end of a block is at worst missing or in the wrong place. -/
theorem remains_of_terminator {is : List Instr} (h : terminator f is = .error e) : e.Remains := by
  induction is with
  | nil =>
    obtain rfl := Except.error.inj h
    trivial
  | cons i is ih =>
    rw [terminator] at h
    split at h
    · split at h
      · cases h
      · obtain rfl := Except.error.inj h
        trivial
    · exact ih h

/-- A body whose values are defined in order has no other faults. -/
theorem remains_of_body (hord : Ordered f [] f.instrs) (h : body m f = .error e) : e.Remains := by
  unfold body at h
  split at h
  · rename_i b hb
    have hinstrs : f.instrs = b.instrs := by simp [Function.instrs, hb]
    rw [hinstrs] at hord
    rcases Except.bind_eq_error_iff.1 h with h | ⟨-, -, h⟩
    · exact remains_of_terminator h
    · exact remains_of_instrs hord (fun id => by simp) h
  · obtain rfl := Except.error.inj h
    trivial

/-- Nor have all functions together. -/
theorem remains_of_functions {fs : List Function} (hord : ∀ f ∈ fs, Ordered f [] f.instrs)
    (h : functions m fs = .error e) : e.Remains := by
  induction fs with
  | nil => cases h
  | cons f fs ih =>
    rw [List.forall_mem_cons] at hord
    rw [functions] at h
    cases hdef : f.isDeclaration with
    | true =>
      rw [if_neg (by simp [hdef])] at h
      exact ih hord.2 h
    | false =>
      rw [if_pos (by simp [hdef]), Except.bind_eq_error_iff] at h
      rcases h with h | ⟨_, -, h⟩
      · exact remains_of_body hord.1 h
      · exact ih hord.2 h

end Verification

/-- A module that was read has no fault of names or numbers, so verification finds one of those that
remain. -/
theorem Module.remains_of_verify {m : Module} {e : Verification.Error}
    (hnames : (m.functions.map Function.name).Nodup) (hord : ∀ f ∈ m.functions, Ordered f [] f.instrs)
    (h : m.verify = .error e) : e.Remains := by
  rw [Module.verify, (Names.firstRepeated_eq_none_iff _).2 hnames] at h
  exact Verification.remains_of_functions hord h

/-- **What is read is put together soundly.**  Whatever the text, the functions of a module that is read
from it have different names; one without blocks stands on a line that declares it; in each, value names
differ from each other and from the parameters, values are numbered in the order of their definitions, and
an instruction reads results of instructions above it and parameters that there are.  So the module has a
text, and verification can find no other errors in it than those that remain. -/
theorem read_is_sound (name text : String) (m : Module) (h : Module.read name text = .ok m) :
    (m.functions.map Function.name).Nodup ∧
    (∀ f ∈ m.functions,
      (f.blocks ≠ [] ∨ ∃ line ∈ Text.lines text.toList, Reader.Declares (Text.trim line) f) ∧
      f.names.Nodup ∧ (∀ x ∈ f.names, x ∉ f.params) ∧
      f.instrs.filterMap Instr.dest? = List.range f.names.length ∧
      ∀ above i below, f.instrs = above ++ i :: below →
        (∀ id ∈ i.reads, ∃ j ∈ above, j.dest? = some id) ∧
        ∀ k, .param k ∈ i.operands → k < f.arity) ∧
    m.text? = some m.text ∧
    ∀ e, m.verify = .error e → e.Remains := by
  have hnames := Module.nodup_of_read h
  have hord := Module.ordered_of_read h
  refine ⟨hnames, fun f hf => ?_, if_pos (Module.nameable_of_read h), fun e he => ?_⟩
  · have hnumbered := Module.numbered_of_read h f hf
    refine ⟨Module.declared_of_read h f hf, hnumbered.names, hnumbered.apart, hnumbered.dests,
      fun above i below hsplit => ?_⟩
    obtain ⟨hreads, hparams⟩ := (hord f hf).reads_above hsplit
    exact ⟨fun id hid => List.mem_filterMap.1 (hreads id hid), hparams⟩
  · exact Module.remains_of_verify hnames hord he

/-- A text with a mark that says nothing, an empty place in a list, parameters without names, and an
instruction that computes with a slot. -/
def oddText : String :=
  "\n".intercalate ["declare i32 @lib(i32, , i32)", r"define i32 @f(i32, i32 %a) {", "entry:",
    "%x = alloca i8", "%y = add nsw i32 %x, %arg0", "; nothing", "ret i32 %y", r"}"]

/-- What is read from `oddText`. -/
def oddModule : Module :=
  ⟨"odd", [.declare "lib" ["arg0", "arg1"],
    ⟨"f", ["arg0", "a"], ["x", "y"],
      [⟨"entry", [.alloca 0, .binary .add (.value 0) (.param 0) 1, .ret (.value 1)]⟩]⟩]⟩

/-- The hypothesis is satisfiable: `oddModule` is read, has a text, and is refused for one of the reasons
that remain. -/
theorem read_is_sound_odd : Module.read "odd" oddText = .ok oddModule ∧
    oddModule.text? = some oddModule.text ∧ oddModule.verify = .error (.notAnInteger "f" "x") ∧
    (Verification.Error.notAnInteger "f" "x").Remains := by
  have h : Module.read "odd" oddText = .ok oddModule := by decide +kernel
  obtain ⟨-, -, htext, hfaults⟩ := read_is_sound "odd" oddText oddModule h
  exact ⟨h, htext, rfl, hfaults _ rfl⟩

end IR
end Straightline
