/-
# What is read from the text of a module

A line adds to the functions that were read in few ways: it declares a function, opens a block, or
puts an instruction at the end of the last block (`Reader.does_of_line`).  An instruction finds the
values and parameters that it mentions among the names of its function, and its result, if it has one,
gets the next number and a name that is new (`Function.Gains`, `Reader.adds_of_instruction`).

What these few changes keep holds of all functions that are read.  Their values are numbered in the order
of their definitions and have names of their own (`Function.Numbered`), their instructions mention only
what has a name, and read values only that stand above them (`Module.ordered_of_read`).  A function is
added if none of its name is there, so the names of functions differ; one without blocks stands on a line
that declares it (`Module.declared_of_read`).  None of this asks for a module that would be valid: a text
may have several blocks in a function, code after a `ret`, and slots that are used as integers.
-/

import Straightline.IR.Printer
import Straightline.IR.Reader
import Straightline.Proofs.Renumbering
import Straightline.Proofs.Text

namespace Straightline
namespace IR

/-! ### Functions that gain instructions -/

namespace Function

/-- A function whose values are numbered in the order of their definitions, and have names that differ
from each other and from those of the parameters. -/
structure Numbered (f : Function) : Prop where
  dests : f.dests = List.range f.names.length
  names : f.names.Nodup
  apart : ∀ x ∈ f.names, x ∉ f.params

/-- An operand that is found by its name: a parameter is the first that is called so, a value has a
name. -/
def Locates (f : Function) : Operand → Prop
  | .param k => f.params.idxOf? (f.paramName k) = some k
  | .value id => id < f.names.length
  | .const _ | .undef => True

/-- An instruction reads only what is found by its name. -/
def ReadsNamed (f : Function) (i : Instr) : Prop :=
  (∀ o ∈ i.operands, f.Locates o) ∧ ∀ s, i.slot? = some s → s < f.names.length

/-- A function after an instruction was put at its end.  If the instruction has a result, that has the
next number, and a name that was not taken. -/
structure Gains (f : Function) (i : Instr) (f' : Function) : Prop where
  params : f'.params = f.params
  instrs : f'.instrs = f.instrs ++ [i]
  result : (i.dest? = none ∧ f'.names = f.names) ∨
    ∃ name, name ∉ f.takenNames ∧ i.dest? = some f.names.length ∧ f'.names = f.names ++ [name]

variable {f f' : Function} {i : Instr}

/-- A declaration has no values to number. -/
theorem numbered_declare (name : String) (params : List String) : (declare name params).Numbered :=
  ⟨rfl, List.nodup_nil, fun _ hx => (by cases hx)⟩

/-- Names and labels of blocks do not matter to the numbers of values. -/
theorem Numbered.congr (hf : f.Numbered) (hparams : f'.params = f.params) (hnames : f'.names = f.names)
    (hinstrs : f'.instrs = f.instrs) : f'.Numbered := by
  refine ⟨?_, hnames ▸ hf.names, ?_⟩
  · rw [Function.dests, hinstrs, hnames]
    exact hf.dests
  · rw [hnames, hparams]
    exact hf.apart

/-- **Values stay numbered in order when an instruction is added.** -/
theorem Numbered.gains (hf : f.Numbered) (h : f.Gains i f') : f'.Numbered := by
  have hdests : f'.dests = f.dests ++ i.dest?.toList := by
    rw [Function.dests, h.instrs, dests_append, dests_cons]
    exact congrArg _ (List.append_nil _)
  rcases h.result with ⟨hd, hnames⟩ | ⟨name, hnew, hd, hnames⟩
  · refine ⟨?_, hnames ▸ hf.names, ?_⟩
    · rw [hdests, hd, hnames, Option.toList_none, List.append_nil]
      exact hf.dests
    · rw [hnames, h.params]
      exact hf.apart
  · rw [takenNames, List.mem_append, not_or] at hnew
    refine ⟨?_, ?_, ?_⟩
    · rw [hdests, hd, hnames, hf.dests, Option.toList_some, List.length_append, List.length_singleton,
        List.range_succ]
    · rw [hnames]
      exact nodup_append_singleton_iff.2 ⟨hf.names, hnew.2⟩
    · rw [hnames, h.params]
      intro x hx
      rcases List.mem_append.1 hx with hx | hx
      · exact hf.apart x hx
      · rw [List.mem_singleton.1 hx]
        exact hnew.1

/-- An operand that was found by its name has a name. -/
theorem Locates.nameableOperand {o : Operand} (ho : f.Locates o) : f.NameableOperand o := by
  cases o with
  | param k =>
    obtain ⟨hlt, -⟩ := List.idxOf?_eq_some_iff.1 ho
    exact hlt
  | value id => exact ho
  | const n | undef => trivial

/-- An operand that has a name keeps it when values are added. -/
theorem NameableOperand.mono {o : Operand} (ho : f.NameableOperand o) (hparams : f'.params = f.params)
    (hnames : f.names.length ≤ f'.names.length) : f'.NameableOperand o := by
  cases o with
  | param index =>
    show index < f'.params.length
    rw [hparams]
    exact ho
  | value id => exact Nat.lt_of_lt_of_le ho hnames
  | const n | undef => trivial

/-- No name is lost when an instruction is gained. -/
theorem Gains.length_names_le (h : f.Gains i f') : f.names.length ≤ f'.names.length := by
  rcases h.result with ⟨-, hnames⟩ | ⟨name, -, -, hnames⟩ <;> simp [hnames]

/-- **What has a name keeps it when an instruction is added that reads what has a name.** -/
theorem Nameable.gains (hf : f.Nameable) (h : f.Gains i f') (hi : f.ReadsNamed i) : f'.Nameable := by
  have hle := h.length_names_le
  intro j hj
  rw [h.instrs] at hj
  rcases List.mem_append.1 hj with hj | hj
  · obtain ⟨hoperands, hslot, hdest⟩ := hf j hj
    exact ⟨fun o ho => (hoperands o ho).mono h.params hle,
      fun s hs => Nat.lt_of_lt_of_le (hslot s hs) hle,
      fun d hd => Nat.lt_of_lt_of_le (hdest d hd) hle⟩
  · rw [List.mem_singleton.1 hj]
    refine ⟨fun o ho => (hi.1 o ho).nameableOperand.mono h.params hle,
      fun s hs => Nat.lt_of_lt_of_le (hi.2 s (Option.mem_toList.1 hs)) hle, fun d hd => ?_⟩
    rcases h.result with ⟨hnone, -⟩ | ⟨name, -, hsome, hnames⟩
    · simp [hnone] at hd
    · obtain rfl : d = f.names.length := by simpa [hsome] using hd
      simp [hnames]

/-- **Instructions stay in order when one is added:** the values with names are those above it. -/
theorem Numbered.ordered_gains (hf : f.Numbered) (hord : Ordered f [] f.instrs) (h : f.Gains i f')
    (hi : f.ReadsNamed i) : Ordered f' [] f'.instrs := by
  have habove : ∀ id, id ∈ IR.dests f.instrs ↔ id < f.names.length := by
    intro id
    rw [show IR.dests f.instrs = List.range f.names.length from hf.dests, List.mem_range]
  rw [h.instrs]
  refine (hord.mono h.params h.length_names_le).append (.cons ?_ ?_ ?_ .nil)
  · intro id hid
    rw [List.nil_append, habove]
    rcases Instr.mem_reads_iff.1 hid with hop | hslot
    · exact hi.1 _ hop
    · exact hi.2 id hslot
  · intro k hk
    rw [paramName, h.params]
    exact hi.1 _ hk
  · intro d hd
    rw [List.nil_append, habove]
    rcases h.result with ⟨hnone, -⟩ | ⟨name, -, hsome, hnames⟩
    · rw [hd] at hnone
      cases hnone
    · obtain rfl := Option.some.inj (hd.symm.trans hsome)
      exact ⟨Nat.lt_irrefl _, by simp [hnames]⟩

end Function

/-! ### What lines add -/

namespace Reader

variable {f f' : Function} {i : Instr} {text : List Char} {st st' : State}

/-- An operand is found among the names of its function. -/
theorem locates_of_operand {o : Operand} (h : operand f text = .ok o) : f.Locates o := by
  unfold operand at h
  simp only at h
  split at h
  · obtain rfl := Except.ok.inj h
    trivial
  · split at h
    · split at h
      · rename_i index hindex
        obtain rfl := Except.ok.inj h
        obtain ⟨hlt, hget, -⟩ := List.idxOf?_eq_some_iff.1 hindex
        show f.params.idxOf? (f.paramName index) = some index
        rw [Function.paramName, List.getElem?_eq_getElem hlt, Option.getD_some, hget]
        exact hindex
      · rename_i id hid
        obtain rfl := Except.ok.inj h
        obtain ⟨hlt, -⟩ := List.idxOf?_eq_some_iff.1 hid
        exact hlt
      · cases h
    · split at h
      · obtain rfl := Except.ok.inj h
        trivial
      · cases h

/-- A slot that was read is a value of the function. -/
theorem lt_of_slot {s : Nat} (h : slot f text = .ok s) : s < f.names.length := by
  obtain ⟨o, ho, h⟩ := Except.bind_eq_ok_iff.1 h
  cases o with
  | value id =>
    obtain rfl := Except.ok.inj h
    exact locates_of_operand ho
  | _ => cases h

/-- Every argument that was read is one of the function's. -/
theorem locates_of_arguments {texts : List (List Char)} {args : List Operand}
    (h : arguments f texts = .ok args) : ∀ o ∈ args, f.Locates o := by
  induction texts generalizing args with
  | nil =>
    obtain rfl := Except.ok.inj h
    intro o ho
    cases ho
  | cons text texts ih =>
    rw [arguments] at h
    split at h
    · cases h
    · obtain ⟨arg, harg, h⟩ := Except.bind_eq_ok_iff.1 h
      obtain ⟨args', hargs, h⟩ := Except.bind_eq_ok_iff.1 h
      obtain rfl := Except.ok.inj h
      rw [List.forall_mem_cons]
      exact ⟨locates_of_operand harg, ih hargs⟩

/-- An operation that was read defines the value that it is given, and reads values with names. -/
theorem readsNamed_of_arithmetic {opcode : String} {op : Arith} {waiting : Nat → Instr}
    (h : arithmetic f opcode op text = .ok waiting) (d : Nat) :
    (waiting d).dest? = some d ∧ f.ReadsNamed (waiting d) := by
  unfold arithmetic at h
  split at h
  · cases h
  · split at h
    · obtain ⟨lhs, hlhs, h⟩ := Except.bind_eq_ok_iff.1 h
      obtain ⟨rhs, hrhs, h⟩ := Except.bind_eq_ok_iff.1 h
      obtain rfl := Except.ok.inj h
      refine ⟨rfl, ?_, fun s hs => (by cases hs)⟩
      rw [show (Instr.binary op lhs rhs d).operands = [lhs, rhs] from rfl, List.forall_mem_cons,
        List.forall_mem_singleton]
      exact ⟨locates_of_operand hlhs, locates_of_operand hrhs⟩
    · cases h

/-- What stands right of an equals sign waits for a result and reads what has a name. -/
theorem readsNamed_of_rightSide {waiting : Nat → Instr} (h : rightSide f text = .ok waiting) (d : Nat) :
    (waiting d).dest? = some d ∧ f.ReadsNamed (waiting d) := by
  unfold rightSide at h
  simp only at h
  split at h
  · obtain rfl := Except.ok.inj h
    exact ⟨rfl, fun o ho => (by cases ho), fun s hs => (by cases hs)⟩
  · split at h
    · split at h
      · cases h
      · obtain ⟨s, hs, h⟩ := Except.bind_eq_ok_iff.1 h
        obtain rfl := Except.ok.inj h
        refine ⟨rfl, fun o ho => (by cases ho), fun s' hs' => ?_⟩
        obtain rfl := Option.some.inj hs'
        exact lt_of_slot hs
    · split at h
      · obtain ⟨⟨callee, texts⟩, -, h⟩ := Except.bind_eq_ok_iff.1 h
        obtain ⟨args, hargs, h⟩ := Except.bind_eq_ok_iff.1 h
        obtain rfl := Except.ok.inj h
        exact ⟨rfl, locates_of_arguments hargs, fun s hs => (by cases hs)⟩
      · split at h
        · exact readsNamed_of_arithmetic h d
        · cases h

/-- A store that was read defines nothing, and reads values with names. -/
theorem readsNamed_of_storeInstr (h : storeInstr f text = .ok i) :
    i.dest? = none ∧ f.ReadsNamed i := by
  unfold storeInstr at h
  split at h
  · cases h
  · split at h
    · cases h
    · obtain ⟨v, hv, h⟩ := Except.bind_eq_ok_iff.1 h
      obtain ⟨s, hs, h⟩ := Except.bind_eq_ok_iff.1 h
      obtain rfl := Except.ok.inj h
      refine ⟨rfl, List.forall_mem_singleton.2 (locates_of_operand hv), fun s' hs' => ?_⟩
      obtain rfl := Option.some.inj hs'
      exact lt_of_slot hs

/-- A result gets the next number, and a name that is not taken. -/
theorem eq_of_definition (h : definition f text = .ok (i, f')) :
    f.ReadsNamed i ∧ ∃ name, name ∉ f.takenNames ∧ i.dest? = some f.names.length ∧
      f' = { f with names := f.names ++ [name] } := by
  unfold definition at h
  split at h
  · cases h
  · split at h
    · cases h
    · rename_i name _
      obtain ⟨waiting, hwaiting, h⟩ := Except.bind_eq_ok_iff.1 h
      obtain ⟨g, hdefine, h⟩ := Except.bind_eq_ok_iff.1 h
      obtain ⟨rfl, rfl⟩ := Prod.mk.inj (Except.ok.inj h)
      obtain ⟨hdest, hreads⟩ := readsNamed_of_rightSide hwaiting f.names.length
      unfold define at hdefine
      split at hdefine
      · cases hdefine
      · rename_i hnew
        exact ⟨hreads, String.ofList name, hnew, hdest, (Except.ok.inj hdefine).symm⟩

/-- **A line with an instruction adds the instruction and the name of its result.** -/
theorem eq_of_instruction (h : instruction f text = .ok (i, f')) :
    f.ReadsNamed i ∧ ((i.dest? = none ∧ f' = f) ∨ ∃ name, name ∉ f.takenNames ∧
      i.dest? = some f.names.length ∧ f' = { f with names := f.names ++ [name] }) := by
  unfold instruction at h
  split at h
  · obtain ⟨j, hstore, h⟩ := Except.bind_eq_ok_iff.1 h
    obtain ⟨rfl, rfl⟩ := Prod.mk.inj (Except.ok.inj h)
    obtain ⟨hnone, hreads⟩ := readsNamed_of_storeInstr hstore
    exact ⟨hreads, .inl ⟨hnone, rfl⟩⟩
  · split at h
    · obtain ⟨v, hv, h⟩ := Except.bind_eq_ok_iff.1 h
      obtain ⟨rfl, rfl⟩ := Prod.mk.inj (Except.ok.inj h)
      refine ⟨⟨?_, fun s hs => (by cases hs)⟩, .inl ⟨rfl, rfl⟩⟩
      exact List.forall_mem_singleton.2 (locates_of_operand hv)
    · obtain ⟨hreads, hname⟩ := eq_of_definition h
      exact ⟨hreads, .inr hname⟩

/-- An instruction that is pushed comes last. -/
theorem instrs_of_pushInstr {blocks blocks' : List Block} (h : pushInstr i blocks = some blocks') :
    blocks'.flatMap Block.instrs = blocks.flatMap Block.instrs ++ [i] := by
  fun_induction pushInstr i blocks generalizing blocks' with
  | case1 => cases h
  | case2 b =>
    obtain rfl := Option.some.inj h
    simp
  | case3 b bs _ ih =>
    obtain ⟨bs', hbs, rfl⟩ := Option.map_eq_some_iff.1 h
    simp [ih hbs]

/-- No label changes when an instruction is pushed. -/
theorem labels_of_pushInstr {blocks blocks' : List Block} (h : pushInstr i blocks = some blocks') :
    blocks'.map Block.label = blocks.map Block.label := by
  fun_induction pushInstr i blocks generalizing blocks' with
  | case1 => cases h
  | case2 b =>
    obtain rfl := Option.some.inj h
    rfl
  | case3 b bs _ ih =>
    obtain ⟨bs', hbs, rfl⟩ := Option.map_eq_some_iff.1 h
    rw [List.map_cons, ih hbs, List.map_cons]

/-- A function after a line with an instruction, which reads only what is found by its name. -/
structure Adds (f : Function) (i : Instr) (f' : Function) : Prop extends f.Gains i f' where
  reads : f.ReadsNamed i
  labels : f'.blocks.map Block.label = f.blocks.map Block.label

/-- A line with an instruction adds it to the function. -/
theorem adds_of_instruction {blocks : List Block} (h : instruction f text = .ok (i, f'))
    (hpush : pushInstr i f'.blocks = some blocks) : Adds f i { f' with blocks := blocks } := by
  obtain ⟨hreads, hresult⟩ := eq_of_instruction h
  have hinstrs := instrs_of_pushInstr hpush
  have hlabels := labels_of_pushInstr hpush
  rcases hresult with ⟨hnone, rfl⟩ | ⟨name, hnew, hsome, rfl⟩
  · exact ⟨⟨rfl, hinstrs, .inl ⟨hnone, rfl⟩⟩, hreads, hlabels⟩
  · exact ⟨⟨rfl, hinstrs, .inr ⟨name, hnew, hsome, rfl⟩⟩, hreads, hlabels⟩

/-! ### What all lines keep -/

/-- A property of all functions read so far, the one that is still open included. -/
def State.All (P : Function → Prop) (st : State) : Prop :=
  (∀ f ∈ st.closed, P f) ∧ ∀ f, st.current = some f → P f

/-- A function is added if its name is new, and comes last. -/
theorem mem_of_addFunction {closed closed' : List Function} (h : addFunction closed f = .ok closed') :
    f.name ∉ closed.map Function.name ∧ closed' = closed ++ [f] := by
  unfold addFunction at h
  split at h
  · cases h
  · rename_i hany
    refine ⟨fun hmem => hany ?_, (Except.ok.inj h).symm⟩
    obtain ⟨g, hg, hname⟩ := List.mem_map.1 hmem
    exact List.any_eq_true.2 ⟨g, hg, by simp [hname]⟩

/-- A line that declares a function, under its name and with as many parameters. -/
def Declares (text : List Char) (f : Function) : Prop :=
  ∃ rest params, text = "declare ".toList ++ rest ∧ signature rest = .ok (f.name, params) ∧
    f = .declare f.name ((List.range params.length).map defaultParam)

/-- **What a line can do:** nothing, declare a function, start a definition or close it, open a block,
or add an instruction.  A definition is closed when it has a block, and a label does not look like a line
about the source. -/
inductive Does (text : List Char) (st : State) : State → Prop
  | skip : Does text st st
  | declare {f : Function} {closed : List Function} (hf : Declares text f)
    (h : addFunction st.closed f = .ok closed) : Does text st ⟨closed, none⟩
  | start {name : String} {params : List String} :
    Does text st ⟨st.closed, some (.declare name params)⟩
  | close {f : Function} {closed : List Function} (hf : st.current = some f)
    (hdef : f.isDeclaration = false) (h : addFunction st.closed f = .ok closed) :
    Does text st ⟨closed, none⟩
  | openBlock {f : Function} {label : String} (hf : st.current = some f)
    (hlabel : ¬ "source_filename".toList <+: label.toList) :
    Does text st ⟨st.closed, some { f with blocks := f.blocks ++ [⟨label, []⟩] }⟩
  | add {f f' : Function} {i : Instr} (hf : st.current = some f) (h : Adds f i f') :
    Does text st ⟨st.closed, some f'⟩

/-- A line that is not skipped does not look like one about the source, and neither does its label. -/
theorem not_prefix_label {label : List Char} (hskip : isSkipped text = false)
    (hlabel : Text.stripBack? ":" text = some label) : ¬ "source_filename".toList <+: label := by
  intro hfront
  obtain rfl := List.isSuffixOf?_eq_some_iff_append_eq.1 hlabel
  have hnone : Text.stripFront? "source_filename" (label ++ ":".toList) = none := by
    simp only [isSkipped, List.any_cons, Bool.or_eq_false_iff] at hskip
    simpa using hskip.2.2.1
  exact Text.stripFront?_eq_none_iff.1 hnone (hfront.trans (List.prefix_append _ _))

/-- Each line that is read does one of the few things that lines can do. -/
theorem does_of_line (h : line st text = .ok st') : Does text st st' := by
  unfold line at h
  split at h
  · obtain rfl := Except.ok.inj h
    exact .skip
  · rename_i hskip
    split at h
    · unfold outsideLine at h
      split at h
      · rename_i rest hrest
        obtain ⟨⟨name, params⟩, hsig, h⟩ := Except.bind_eq_ok_iff.1 h
        obtain ⟨closed, hadd, h⟩ := Except.bind_eq_ok_iff.1 h
        obtain rfl := Except.ok.inj h
        refine .declare ⟨rest, params, ?_, hsig, rfl⟩ hadd
        exact (List.isPrefixOf?_eq_some_iff_append_eq.1 hrest).symm
      · split at h
        · cases h
        · obtain ⟨⟨name, texts⟩, -, h⟩ := Except.bind_eq_ok_iff.1 h
          obtain ⟨params, -, h⟩ := Except.bind_eq_ok_iff.1 h
          obtain rfl := Except.ok.inj h
          exact .start
      · cases h
    · rename_i f hf
      unfold insideLine at h
      split at h
      · split at h
        · cases h
        · rename_i hdef
          obtain ⟨closed, hadd, h⟩ := Except.bind_eq_ok_iff.1 h
          obtain rfl := Except.ok.inj h
          exact .close hf (by simpa using hdef) hadd
      · split at h
        · rename_i label hlabel
          obtain rfl := Except.ok.inj h
          have hfront := not_prefix_label (by simpa using hskip) hlabel
          have hback : (String.ofList label).toList = label := String.toList_ofList
          exact .openBlock hf (hback.symm ▸ hfront)
        · obtain ⟨⟨i, f'⟩, hinstr, h⟩ := Except.bind_eq_ok_iff.1 h
          simp only at h
          split at h
          · cases h
          · rename_i blocks hpush
            obtain rfl := Except.ok.inj h
            exact .add hf (adds_of_instruction hinstr hpush)

/-- **What declarations have, and what blocks and instructions keep, all functions have.** -/
theorem Does.all {P : Function → Prop} (hdeclare : ∀ name params, P (.declare name params))
    (hblock : ∀ f label, ¬ "source_filename".toList <+: label.toList → P f →
      P { f with blocks := f.blocks ++ [⟨label, []⟩] })
    (hadd : ∀ f i f', P f → Adds f i f' → P f') (h : Does text st st') (hst : st.All P) :
    st'.All P := by
  obtain ⟨hclosed, hcurrent⟩ := hst
  have hconcat : ∀ {f : Function} {closed : List Function}, addFunction st.closed f = .ok closed →
      P f → ∀ g ∈ closed, P g := by
    intro f closed hadd hf g hg
    obtain ⟨-, rfl⟩ := mem_of_addFunction hadd
    rcases List.mem_append.1 hg with hg | hg
    · exact hclosed g hg
    · rw [List.mem_singleton.1 hg]
      exact hf
  cases h with
  | skip => exact ⟨hclosed, hcurrent⟩
  | declare hf h =>
    obtain ⟨-, params, -, -, heq⟩ := hf
    exact ⟨hconcat h (heq ▸ hdeclare _ _), fun f hf => (by cases hf)⟩
  | close hf _ h => exact ⟨hconcat h (hcurrent _ hf), fun f hf => (by cases hf)⟩
  | start =>
    refine ⟨hclosed, fun f hf => ?_⟩
    obtain rfl := Option.some.inj hf
    exact hdeclare _ _
  | openBlock hf hlabel =>
    refine ⟨hclosed, fun g hg => ?_⟩
    obtain rfl := Option.some.inj hg
    exact hblock _ _ hlabel (hcurrent _ hf)
  | add hf h =>
    refine ⟨hclosed, fun g hg => ?_⟩
    obtain rfl := Option.some.inj hg
    exact hadd _ _ _ (hcurrent _ hf) h

/-- A function that is added is declared by its line, or has a block. -/
theorem Does.forall_closed {P : Function → Prop} (hdeclare : ∀ f, Declares text f → P f)
    (hdefine : ∀ f, f.isDeclaration = false → P f) (h : Does text st st')
    (hst : ∀ f ∈ st.closed, P f) : ∀ f ∈ st'.closed, P f := by
  cases h with
  | declare hf h =>
    obtain ⟨-, rfl⟩ := mem_of_addFunction h
    exact List.forall_mem_append.2 ⟨hst, List.forall_mem_singleton.2 (hdeclare _ hf)⟩
  | close _ hdef h =>
    obtain ⟨-, rfl⟩ := mem_of_addFunction h
    exact List.forall_mem_append.2 ⟨hst, List.forall_mem_singleton.2 (hdefine _ hdef)⟩
  | _ => exact hst

/-- No line brings in a name twice. -/
theorem Does.nodup (h : Does text st st') (hst : (st.closed.map Function.name).Nodup) :
    (st'.closed.map Function.name).Nodup := by
  have hconcat : ∀ {f : Function} {closed : List Function}, addFunction st.closed f = .ok closed →
      (closed.map Function.name).Nodup := by
    intro f closed hadd
    obtain ⟨hnew, rfl⟩ := mem_of_addFunction hadd
    rw [List.map_append]
    exact nodup_append_singleton_iff.2 ⟨hst, hnew⟩
  cases h with
  | declare _ h => exact hconcat h
  | close _ _ h => exact hconcat h
  | _ => exact hst

/-- **What each line keeps, all lines keep.** -/
theorem lines_keep {Q : State → Prop} {texts : List (List Char)}
    (hline : ∀ text ∈ texts, ∀ st st', Does (Text.trim text) st st' → Q st → Q st') {number : Nat}
    (h : lines number st texts = .ok st') (hst : Q st) : Q st' := by
  induction texts generalizing number st with
  | nil =>
    obtain rfl := Except.ok.inj h
    exact hst
  | cons text texts ih =>
    rw [lines] at h
    split at h
    · cases h
    · rename_i next hnext
      rw [List.forall_mem_cons] at hline
      exact ih hline.2 h (hline.1 st next (does_of_line hnext) hst)

end Reader

namespace Module

variable {m : Module} {name text : String}

/-- What every line keeps and the start has, the module has that was read. -/
theorem exists_state_of_read (h : Module.read name text = .ok m) {Q : Reader.State → Prop}
    (hline : ∀ line ∈ Text.lines text.toList, ∀ st st', Reader.Does (Text.trim line) st st' →
      Q st → Q st') (hstart : Q ⟨[], none⟩) : ∃ st, Q st ∧ m = ⟨name, st.closed⟩ := by
  obtain ⟨st, hst, h⟩ := Except.bind_eq_ok_iff.1 h
  refine ⟨st, Reader.lines_keep hline hst hstart, ?_⟩
  split at h
  · cases h
  · exact (Except.ok.inj h).symm

/-- A module gets the name it is read under. -/
theorem name_of_read (h : Module.read name text = .ok m) : m.name = name := by
  obtain ⟨st, -, rfl⟩ := exists_state_of_read h (Q := fun _ => True) (fun _ _ _ _ _ _ => trivial) trivial
  rfl

/-- What declarations have, and what blocks and instructions keep, holds of all that is read. -/
theorem forall_mem_of_read (h : Module.read name text = .ok m) {P : Function → Prop}
    (hdeclare : ∀ name params, P (.declare name params))
    (hblock : ∀ f label, ¬ "source_filename".toList <+: label.toList → P f →
      P { f with blocks := f.blocks ++ [⟨label, []⟩] })
    (hadd : ∀ f i f', P f → Reader.Adds f i f' → P f') : ∀ f ∈ m.functions, P f := by
  obtain ⟨st, hst, rfl⟩ := exists_state_of_read h
    (fun _ _ st st' hdoes hst => hdoes.all hdeclare hblock hadd hst)
    ⟨fun f hf => (by cases hf), fun f hf => (by cases hf)⟩
  exact hst.1

/-- **The functions that are read have different names.** -/
theorem nodup_of_read (h : Module.read name text = .ok m) :
    (m.functions.map Function.name).Nodup := by
  obtain ⟨st, hst, rfl⟩ := exists_state_of_read h (fun _ _ st st' hdoes hst => hdoes.nodup hst)
    List.nodup_nil
  exact hst

/-- **A function that is read without blocks stands on a line that declares it.** -/
theorem declared_of_read (h : Module.read name text = .ok m) : ∀ f ∈ m.functions,
    f.blocks ≠ [] ∨ ∃ line ∈ Text.lines text.toList, Reader.Declares (Text.trim line) f := by
  have hline : ∀ line ∈ Text.lines text.toList, ∀ st st', Reader.Does (Text.trim line) st st' →
      (∀ f ∈ st.closed, f.blocks ≠ [] ∨
        ∃ line ∈ Text.lines text.toList, Reader.Declares (Text.trim line) f) →
      ∀ f ∈ st'.closed, f.blocks ≠ [] ∨
        ∃ line ∈ Text.lines text.toList, Reader.Declares (Text.trim line) f := by
    intro line hline st st' hdoes hst
    refine hdoes.forall_closed (fun f hf => .inr ⟨line, hline, hf⟩) (fun f hdef => .inl ?_) hst
    exact List.isEmpty_eq_false_iff.1 hdef
  obtain ⟨st, hst, rfl⟩ := exists_state_of_read h hline fun f hf => (by cases hf)
  exact hst

/-- **The values of a function that is read are numbered in the order of their definitions.** -/
theorem numbered_of_read (h : Module.read name text = .ok m) : ∀ f ∈ m.functions, f.Numbered := by
  refine forall_mem_of_read h Function.numbered_declare (fun f label _ hf => ?_)
    fun f i f' hf hadds => hf.gains hadds.toGains
  exact hf.congr rfl rfl (by simp [Function.instrs])

/-- **All that a function that is read mentions has a name.** -/
theorem nameable_of_read (h : Module.read name text = .ok m) : m.Nameable := by
  refine forall_mem_of_read h (fun name params i hi => (by cases hi)) (fun f label _ hf => ?_)
    fun f i f' hf hadds => hf.gains hadds.toGains hadds.reads
  intro i hi
  exact hf i (by simpa [Function.instrs] using hi)

/-- **The instructions of a function that is read are in order:** they read only values above them. -/
theorem ordered_of_read (h : Module.read name text = .ok m) :
    ∀ f ∈ m.functions, Ordered f [] f.instrs := by
  have hboth : ∀ f ∈ m.functions, f.Numbered ∧ Ordered f [] f.instrs := by
    refine forall_mem_of_read h (fun name params => ⟨Function.numbered_declare name params, .nil⟩)
      (fun f label _ hf => ?_) fun f i f' hf hadds => ?_
    · have hinstrs : (f.blocks ++ [(⟨label, []⟩ : Block)]).flatMap Block.instrs = f.instrs := by
        simp [Function.instrs]
      refine ⟨hf.1.congr rfl rfl hinstrs, ?_⟩
      rw [Function.instrs, hinstrs]
      exact hf.2.mono rfl (Nat.le_refl _)
    · exact ⟨hf.1.gains hadds.toGains, hf.1.ordered_gains hf.2 hadds.toGains hadds.reads⟩
  exact fun f hf => (hboth f hf).2

/-- No label that is read looks like a line about the source. -/
theorem labels_of_read (h : Module.read name text = .ok m) : ∀ f ∈ m.functions,
    ∀ l ∈ f.blocks.map Block.label, ¬ "source_filename".toList <+: l.toList := by
  refine forall_mem_of_read h (fun name params l hl => (by cases hl)) (fun f label hlabel hf => ?_)
    fun f i f' hf hadds => hadds.labels ▸ hf
  rw [List.map_append, List.forall_mem_append]
  exact ⟨hf, List.forall_mem_singleton.2 hlabel⟩

end Module
end IR
end Straightline
