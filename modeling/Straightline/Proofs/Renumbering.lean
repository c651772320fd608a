/-
# Renumbering the values of a function

A text shows names in place of numbers, so a function that is read from a text has its values numbered
in the order of their definitions, without gaps (`Function.renumbered`).  The number of a value is
then its place among the values that the function defines, and places of different values differ.  So
what an instruction reads and defines is told apart as before: a renumbered function has the same text
(`Function.text_renumbered`), it is as valid (`ValidBody.renumber`), and it runs alike
(`Function.runsLike_renumbered`).

All of this is about functions that read only what they define.  In a body that verification accepts,
even each value that an instruction reads is defined above it (`ValidBody.ordered`).
-/

import Mathlib.Data.List.Nodup
import Straightline.IR.Printer
import Straightline.Proofs.Execution

namespace Straightline
namespace IR

/-- An operand with values renumbered. -/
def Operand.renumber (ρ : Nat → Nat) : Operand → Operand
  | .value id => .value (ρ id)
  | o => o

namespace Instr

/-- An instruction with values and slots renumbered. -/
def renumber (ρ : Nat → Nat) : Instr → Instr
  | alloca d => alloca (ρ d)
  | load d s => load (ρ d) (ρ s)
  | store v s => store (v.renumber ρ) (ρ s)
  | binary op l r d => binary op (l.renumber ρ) (r.renumber ρ) (ρ d)
  | call callee args d => call callee (args.map (Operand.renumber ρ)) (ρ d)
  | ret v => ret (v.renumber ρ)

variable (ρ : Nat → Nat) (i : Instr)

/-- The operands are renumbered one by one. -/
@[simp] theorem operands_renumber :
    (i.renumber ρ).operands = i.operands.map (Operand.renumber ρ) := by
  cases i <;> rfl

/-- The value that is defined gets its new number. -/
@[simp] theorem dest?_renumber : (i.renumber ρ).dest? = i.dest?.map ρ := by
  cases i <;> rfl

/-- The slot that is accessed gets its new number. -/
@[simp] theorem slot?_renumber : (i.renumber ρ).slot? = i.slot?.map ρ := by
  cases i <;> rfl

/-- What ends a block still ends it. -/
@[simp] theorem isTerminator_renumber : (i.renumber ρ).isTerminator = i.isTerminator := by
  cases i <;> rfl

@[simp] theorem kind_renumber : (i.renumber ρ).kind = i.kind := by
  cases i <;> rfl

end Instr

/-- A block with values and slots renumbered. -/
def Block.renumber (ρ : Nat → Nat) (b : Block) : Block :=
  { b with instrs := b.instrs.map (Instr.renumber ρ) }

/-- The numbers of the values that instructions define, in order. -/
def dests (is : List Instr) : List Nat :=
  is.filterMap Instr.dest?

/-- What an instruction defines is among what the instructions define. -/
theorem mem_dests {is : List Instr} {i : Instr} {d : Nat} (hi : i ∈ is) (hd : i.dest? = some d) :
    d ∈ dests is :=
  List.mem_filterMap.2 ⟨i, hi, hd⟩

/-- What is defined first comes first. -/
theorem dests_cons (i : Instr) (is : List Instr) : dests (i :: is) = i.dest?.toList ++ dests is := by
  rw [dests, dests, List.filterMap_cons]
  cases i.dest? <;> rfl

/-- What is defined in two pieces is defined in that order. -/
theorem dests_append (is js : List Instr) : dests (is ++ js) = dests is ++ dests js :=
  List.filterMap_append

namespace Function

/-- The numbers of the values that a function defines, in order. -/
def dests (f : Function) : List Nat :=
  IR.dests f.instrs

/-- The function with its values numbered in the order of their definitions; there are names for
these values only. -/
def renumbered (f : Function) : Function :=
  { f with names := f.dests.map f.valueName, blocks := f.blocks.map (Block.renumber f.dests.idxOf) }

/-- A function that reads only values which it defines, and has names for these. -/
structure Closed (f : Function) : Prop where
  reads : ∀ i ∈ f.instrs, ∀ id ∈ i.reads, id ∈ f.dests
  named : ∀ d ∈ f.dests, d < f.names.length

/-- The instructions are renumbered one by one, by the order in which values are defined. -/
theorem instrs_renumbered (f : Function) :
    f.renumbered.instrs = f.instrs.map (Instr.renumber f.dests.idxOf) := by
  simp [instrs, renumbered, List.flatMap_map, List.map_flatMap, Block.renumber]

@[simp] theorem isDeclaration_renumbered (f : Function) :
    f.renumbered.isDeclaration = f.isDeclaration := by
  simp [isDeclaration, renumbered]

/-- Values keep their names. -/
theorem valueName_renumbered {f : Function} {id : Nat} (h : id ∈ f.dests) :
    f.renumbered.valueName (f.dests.idxOf id) = f.valueName id := by
  have hlt : f.dests.idxOf id < f.dests.length := List.idxOf_lt_length_of_mem h
  have hget : f.renumbered.names[f.dests.idxOf id]? = some (f.valueName id) := by
    rw [renumbered, List.getElem?_map, List.getElem?_eq_getElem hlt, List.getElem_idxOf hlt]
    rfl
  rw [valueName, hget, Option.getD_some]

/-! ### The text -/

section Text

variable {f : Function}

/-- Operands keep their texts. -/
theorem operandText_renumbered {o : Operand} (ho : ∀ id, o = .value id → id ∈ f.dests) :
    f.renumbered.operandText (o.renumber f.dests.idxOf) = f.operandText o := by
  cases o with
  | value id =>
    show "%" ++ f.renumbered.valueName (f.dests.idxOf id) = "%" ++ f.valueName id
    rw [valueName_renumbered (ho id rfl)]
  | _ => rfl

/-- **An instruction looks the same after renumbering.** -/
theorem instrText_renumbered {i : Instr} (hreads : ∀ id ∈ i.reads, id ∈ f.dests)
    (hdest : ∀ d, i.dest? = some d → d ∈ f.dests) :
    f.renumbered.instrText (i.renumber f.dests.idxOf) = f.instrText i := by
  have hop : ∀ o ∈ i.operands,
      f.renumbered.operandText (o.renumber f.dests.idxOf) = f.operandText o := by
    intro o ho
    refine operandText_renumbered ?_
    rintro id rfl
    exact hreads id (Instr.mem_reads_of_operand ho)
  have hvalue : ∀ id ∈ f.dests,
      f.renumbered.valueText (f.dests.idxOf id) = f.valueText id := by
    intro id hid
    rw [valueText, valueText, valueName_renumbered hid]
  have hslot : ∀ s, i.slot? = some s → s ∈ f.dests := fun s hs =>
    hreads s (Instr.mem_reads_of_slot hs)
  cases i with
  | alloca d => rw [Instr.renumber, instrText, instrText, hvalue d (hdest d rfl)]
  | load d s =>
    rw [Instr.renumber, instrText, instrText, hvalue d (hdest d rfl), hvalue s (hslot s rfl)]
  | store v s =>
    rw [Instr.renumber, instrText, instrText, hop v (by simp [Instr.operands]),
      hvalue s (hslot s rfl)]
  | binary op l r d =>
    rw [Instr.renumber, instrText, instrText, hvalue d (hdest d rfl),
      hop l (by simp [Instr.operands]), hop r (by simp [Instr.operands])]
  | call callee args d =>
    have hargs : (args.map (Operand.renumber f.dests.idxOf)).map f.renumbered.argText =
        args.map f.argText := by
      rw [List.map_map]
      refine List.map_congr_left fun o ho => ?_
      show "i32 " ++ _ = "i32 " ++ _
      rw [hop o ho]
    rw [Instr.renumber, instrText, instrText, hvalue d (hdest d rfl), hargs]
  | ret v => rw [Instr.renumber, instrText, instrText, hop v (by simp [Instr.operands])]

/-- **A function looks the same after renumbering.** -/
theorem text_renumbered (hf : f.Closed) : f.renumbered.text = f.text := by
  have hinstr : ∀ b ∈ f.blocks, ∀ i ∈ b.instrs,
      f.renumbered.instrText (i.renumber f.dests.idxOf) = f.instrText i := by
    intro b hb i hi
    have hmem : i ∈ f.instrs := List.mem_flatMap.2 ⟨b, hb, hi⟩
    exact instrText_renumbered (hf.reads i hmem) fun d hd => mem_dests hmem hd
  have hblocks : f.renumbered.blocks.map f.renumbered.blockText = f.blocks.map f.blockText := by
    show (f.blocks.map _).map _ = _
    rw [List.map_map]
    refine List.map_congr_left fun b hb => ?_
    simp only [Function.comp_apply, blockText, Block.renumber, List.map_map]
    congr 2
    refine List.map_congr_left fun i hi => ?_
    rw [Function.comp_apply, hinstr b hb i hi]
  unfold text
  rw [isDeclaration_renumbered, hblocks]
  rfl

end Text
end Function

/-! ### Validity -/

/-- The places of two values of a list are the same only if the values are. -/
theorem dest?_renumber_ne {ids : List Nat} {i : Instr} {id : Nat} (hid : id ∈ ids)
    (h : i.dest? ≠ some id) : (i.renumber ids.idxOf).dest? ≠ some (ids.idxOf id) := by
  rw [Instr.dest?_renumber]
  intro heq
  obtain ⟨d, hd, hidx⟩ := Option.map_eq_some_iff.1 heq
  obtain rfl : id = d := (List.idxOf_inj hid).1 hidx.symm
  exact h hd

/-- Two tables that know the same values, the second under their places in `ids`. -/
structure Table.Renumbers (ids : List Nat) (defined defined' : Table ValueKind) : Prop where
  known : ∀ id k, defined.get id = some k → id ∈ ids
  get : ∀ id ∈ ids, defined'.get (ids.idxOf id) = defined.get id

section Renumber

variable {m : Module} {f f' : Function} {defined defined' : Table ValueKind} {i : Instr}
  {ids : List Nat}

/-- Tables that fit fit after an instruction. -/
theorem Table.Renumbers.after (h : Table.Renumbers ids defined defined')
    (hdest : ∀ d, i.dest? = some d → d ∈ ids) :
    Table.Renumbers ids (defined.after i) (defined'.after (i.renumber ids.idxOf)) := by
  constructor
  · intro id k hid
    by_cases hd : i.dest? = some id
    · exact hdest id hd
    · rw [Table.get_after_of_ne hd] at hid
      exact h.known id k hid
  · intro id hid
    by_cases hd : i.dest? = some id
    · have hd' : (i.renumber ids.idxOf).dest? = some (ids.idxOf id) := by
        rw [Instr.dest?_renumber, hd, Option.map_some]
      rw [Table.get_after_dest hd, Table.get_after_dest hd', Instr.kind_renumber]
    · rw [Table.get_after_of_ne hd, Table.get_after_of_ne (dest?_renumber_ne hid hd), h.get id hid]

/-- A readable operand is readable under its new number. -/
theorem Operand.Readable.renumber {o : Operand} (ho : o.Readable f defined)
    (harity : f'.arity = f.arity) (h : Table.Renumbers ids defined defined') :
    (o.renumber ids.idxOf).Readable f' defined' := by
  cases o with
  | value id => exact (h.get id (h.known id _ ho)).trans ho
  | param index =>
    show index < f'.arity
    rw [harity]
    exact ho
  | const n | undef => trivial

/-- A valid instruction is valid under new numbers. -/
theorem Instr.Valid.renumber (hi : i.Valid m f defined) (harity : f'.arity = f.arity)
    (hnames : f'.names.length = ids.length) (hdest : ∀ d, i.dest? = some d → d ∈ ids)
    (h : Table.Renumbers ids defined defined') :
    (i.renumber ids.idxOf).Valid m f' defined' := by
  refine ⟨?_, ?_, ?_, ?_⟩
  · rw [operands_renumber, List.forall_mem_map]
    exact fun o ho => (hi.operands o ho).renumber harity h
  · rw [slot?_renumber]
    intro s' hs'
    obtain ⟨s, hs, rfl⟩ := Option.map_eq_some_iff.1 hs'
    have hslot := hi.slot s hs
    rw [h.get s (h.known s _ hslot), hslot]
  · intro name args d hcall
    cases i with
    | call callee os d' =>
      obtain ⟨rfl, rfl, -⟩ : callee = name ∧ os.map _ = args ∧ _ = d := by
        simpa [Instr.renumber] using hcall
      rw [List.length_map]
      exact hi.callee callee os d' rfl
    | _ => simp [Instr.renumber] at hcall
  · rw [dest?_renumber]
    intro d' hd'
    obtain ⟨d, hd, rfl⟩ := Option.map_eq_some_iff.1 hd'
    constructor
    · rw [hnames]
      exact List.idxOf_lt_length_of_mem (hdest d hd)
    · rw [h.get d (hdest d hd)]
      exact (hi.result d hd).2

/-- **A body is valid after renumbering,** where the same values are defined under their new
numbers. -/
theorem ValidBody.renumber {is : List Instr} (hbody : ValidBody m f defined is)
    (harity : f'.arity = f.arity) (hnames : f'.names.length = ids.length)
    (hids : ∀ d ∈ dests is, d ∈ ids) (h : Table.Renumbers ids defined defined') :
    ValidBody m f' defined' (is.map (Instr.renumber ids.idxOf)) := by
  induction hbody generalizing defined' with
  | ret hv => exact .ret (hv.renumber harity h)
  | @step defined i is ht hi _ ih =>
    rw [dests_cons, List.forall_mem_append] at hids
    have hdest : ∀ d, i.dest? = some d → d ∈ ids := fun d hd => hids.1 d (Option.mem_toList.2 hd)
    rw [List.map_cons]
    refine .step ?_ (hi.renumber harity hnames hdest h) (ih hids.2 (h.after hdest))
    rwa [Instr.isTerminator_renumber]

end Renumber

/-! ### Execution -/

namespace Execution

variable {inv : String → List Int32 → Execution Int32} {f f' : Function} {args : List Int32}
  {fr fr' : Frame} {ids : List Nat} {i : Instr}

/-- A frame that holds, under the new number of each value, what another holds under the old one. -/
structure Frame.Renumbers (ids : List Nat) (fr' fr : Frame) : Prop where
  values : ∀ id ∈ ids, fr'.values.get (ids.idxOf id) = fr.values.get id
  memory : ∀ id ∈ ids, fr'.memory (ids.idxOf id) = fr.memory id

/-- An operand reads the same under its new number. -/
theorem Frame.Renumbers.read (hfr : fr'.Renumbers ids fr) (hname : f'.name = f.name)
    (hvalue : ∀ id ∈ ids, f'.valueName (ids.idxOf id) = f.valueName id) {o : Operand}
    (ho : ∀ id, o = .value id → id ∈ ids) :
    fr'.read f' args (o.renumber ids.idxOf) = fr.read f args o := by
  cases o with
  | value id =>
    have hid := ho id rfl
    rw [Operand.renumber, Frame.read, Frame.read, hfr.values id hid, hvalue id hid, hname]
  | param index =>
    show fr'.read f' args (.param index) = _
    rw [Frame.read, Frame.read, hname]
  | const n | undef => rfl

/-- **An instruction computes the same number after renumbering.** -/
theorem Frame.Renumbers.outcome (hfr : fr'.Renumbers ids fr)
    (inv : String → List Int32 → Execution Int32) (args : List Int32) (hname : f'.name = f.name)
    (hvalue : ∀ id ∈ ids, f'.valueName (ids.idxOf id) = f.valueName id)
    (hreads : ∀ id ∈ i.reads, id ∈ ids) :
    Execution.outcome inv f' args fr' (i.renumber ids.idxOf) =
      Execution.outcome inv f args fr i := by
  have hread : ∀ o ∈ i.operands,
      fr'.read f' args (o.renumber ids.idxOf) = fr.read f args o := by
    intro o ho
    refine hfr.read hname hvalue ?_
    rintro id rfl
    exact hreads id (Instr.mem_reads_of_operand ho)
  cases i with
  | alloca d => rfl
  | load d s =>
    rw [Instr.renumber, Execution.outcome, Execution.outcome,
      hfr.memory s (hreads s (Instr.mem_reads_of_slot rfl))]
  | store v s | ret v =>
    rw [Instr.renumber, Execution.outcome, Execution.outcome, hread v (by simp [Instr.operands])]
  | binary op l r d =>
    rw [Instr.renumber, Execution.outcome, Execution.outcome, hread l (by simp [Instr.operands]),
      hread r (by simp [Instr.operands]), hname]
  | call callee os d =>
    have hall : fr'.readAll f' args (os.map (Operand.renumber ids.idxOf)) =
        fr.readAll f args os := Frame.readAll_map hread
    rw [Instr.renumber, Execution.outcome, Execution.outcome, hall]

/-- A number put in the place of a value is put in its new place. -/
theorem Frame.Renumbers.after (hfr : fr'.Renumbers ids fr) (n : Int32)
    (hreads : ∀ id ∈ i.reads, id ∈ ids) (hdest : ∀ d, i.dest? = some d → d ∈ ids) :
    (fr'.after n (i.renumber ids.idxOf)).Renumbers ids (fr.after n i) := by
  have hset : ∀ d ∈ ids, ∀ id ∈ ids,
      (fr'.values.set (ids.idxOf d) n).get (ids.idxOf id) = (fr.values.set d n).get id := by
    intro d _ id hid
    by_cases heq : id = d
    · subst heq
      rw [Table.get_set_self, Table.get_set_self]
    · have hne : ids.idxOf id ≠ ids.idxOf d := fun h => heq ((List.idxOf_inj hid).1 h)
      rw [Table.get_set_of_ne _ _ hne, Table.get_set_of_ne _ _ heq, hfr.values id hid]
  have hstore : ∀ s ∈ ids, ∀ id ∈ ids,
      (fr'.store (ids.idxOf s) n).memory (ids.idxOf id) = (fr.store s n).memory id := by
    intro s _ id hid
    by_cases heq : id = s
    · subst heq
      rw [Frame.memory_store_self, Frame.memory_store_self]
    · have hne : ids.idxOf id ≠ ids.idxOf s := fun h => heq ((List.idxOf_inj hid).1 h)
      rw [Frame.memory_store_of_ne hne, Frame.memory_store_of_ne heq, hfr.memory id hid]
  cases i with
  | alloca d => exact ⟨hfr.values, hstore d (hdest d rfl)⟩
  | store v s => exact ⟨hfr.values, hstore s (hreads s (Instr.mem_reads_of_slot rfl))⟩
  | load d s | binary op l r d | call callee os d => exact ⟨hset d (hdest d rfl), hfr.memory⟩
  | ret v => exact hfr

/-- **Instructions run alike after renumbering.** -/
theorem Frame.Renumbers.instrs {is : List Instr} (hfr : fr'.Renumbers ids fr)
    (hname : f'.name = f.name) (hnames : f'.names.length = ids.length)
    (hvalue : ∀ id ∈ ids, f'.valueName (ids.idxOf id) = f.valueName id)
    (hreads : ∀ i ∈ is, ∀ id ∈ i.reads, id ∈ ids)
    (hdest : ∀ i ∈ is, ∀ d, i.dest? = some d → d ∈ ids ∧ d < f.names.length) :
    Execution.instrs inv f' args fr' (is.map (Instr.renumber ids.idxOf)) =
      Execution.instrs inv f args fr is := by
  induction is generalizing fr fr' with
  | nil => rfl
  | cons i is ih =>
    rw [List.forall_mem_cons] at hreads hdest
    have hout := hfr.outcome inv args hname hvalue hreads.1
    cases ht : i.isTerminator with
    | true =>
      cases i with
      | ret v =>
        rw [List.map_cons, Instr.renumber, instrs_ret, instrs_ret]
        rw [Instr.renumber] at hout
        rw [hout]
      | _ => cases ht
    | false =>
      have ht' : (i.renumber ids.idxOf).isTerminator = false := by
        rwa [Instr.isTerminator_renumber]
      have hlt : ∀ d, (i.renumber ids.idxOf).dest? = some d → d < f'.names.length := by
        rw [Instr.dest?_renumber]
        intro d' hd'
        obtain ⟨d, hd, rfl⟩ := Option.map_eq_some_iff.1 hd'
        rw [hnames]
        exact List.idxOf_lt_length_of_mem (hdest.1 d hd).1
      rw [List.map_cons, instrs_step ht' hlt, instrs_step ht fun d hd => (hdest.1 d hd).2, hout]
      congr 1
      funext n
      exact ih (hfr.after n hreads.1 fun d hd => (hdest.1 d hd).1) hreads.2 hdest.2

end Execution

/-- **A renumbered function stands for the function.** -/
theorem Function.runsLike_renumbered {f : Function} (hf : f.Closed) : f.renumbered.RunsLike f := by
  refine ⟨rfl, rfl, fun inv args _ => ?_⟩
  have hstart : Execution.Frame.empty.Renumbers f.dests .empty := ⟨fun _ _ => rfl, fun _ _ => rfl⟩
  rw [instrs_renumbered]
  refine hstart.instrs rfl (List.length_map _) (fun id hid => valueName_renumbered hid) hf.reads ?_
  intro i hi d hd
  have hmem := mem_dests hi hd
  exact ⟨hmem, hf.named d hmem⟩

/-! ### Reading only what stands above -/

/-- Instructions after those that define the values `above`: each of them reads values above it and
parameters that are found by their name, and defines what is not defined above. -/
inductive Ordered (f : Function) : List Nat → List Instr → Prop
  | nil {above : List Nat} : Ordered f above []
  | cons {above : List Nat} {i : Instr} {is : List Instr} (hreads : ∀ id ∈ i.reads, id ∈ above)
    (hparams : ∀ k, .param k ∈ i.operands → f.params.idxOf? (f.paramName k) = some k)
    (hnew : ∀ d, i.dest? = some d → d ∉ above ∧ d < f.names.length)
    (his : Ordered f (above ++ i.dest?.toList) is) : Ordered f above (i :: is)

namespace Ordered

variable {f : Function} {above : List Nat} {is : List Instr}

/-- Values are defined once. -/
theorem nodup (h : Ordered f above is) (habove : above.Nodup) : (above ++ dests is).Nodup := by
  induction h with
  | nil => simpa [dests] using habove
  | @cons above i is _ _ hnew _ ih =>
    rw [dests_cons, ← List.append_assoc]
    refine ih ?_
    cases hd : i.dest? with
    | none => simpa using habove
    | some d =>
      rw [Option.toList_some, List.nodup_append]
      refine ⟨habove, List.nodup_singleton d, fun a ha b hb => ?_⟩
      rintro rfl
      obtain rfl := List.mem_singleton.1 hb
      exact (hnew a hd).1 ha

/-- Values that are read are defined above. -/
theorem reads (h : Ordered f above is) : ∀ i ∈ is, ∀ id ∈ i.reads, id ∈ above ++ dests is := by
  induction h with
  | nil => exact fun i hi => absurd hi List.not_mem_nil
  | @cons above i is hreads _ _ _ ih =>
    rw [List.forall_mem_cons]
    refine ⟨fun id hid => List.mem_append_left _ (hreads id hid), fun j hj id hid => ?_⟩
    rw [dests_cons, ← List.append_assoc]
    exact ih j hj id hid

/-- Parameters that are read are found by their names. -/
theorem params (h : Ordered f above is) :
    ∀ i ∈ is, ∀ k, .param k ∈ i.operands → f.params.idxOf? (f.paramName k) = some k := by
  induction h with
  | nil => exact fun i hi => absurd hi List.not_mem_nil
  | cons _ hparams _ _ ih =>
    rw [List.forall_mem_cons]
    exact ⟨hparams, ih⟩

/-- Values that are defined have names. -/
theorem named (h : Ordered f above is) : ∀ d ∈ dests is, d < f.names.length := by
  induction h with
  | nil => exact fun d hd => absurd hd List.not_mem_nil
  | @cons above i is _ _ hnew _ ih =>
    rw [dests_cons]
    intro d hd
    rcases List.mem_append.1 hd with hd | hd
    · exact (hnew d (Option.mem_toList.1 hd)).2
    · exact ih d hd

/-- Instructions in order are in order in two pieces. -/
theorem of_append {js : List Instr} (h : Ordered f above (is ++ js)) :
    Ordered f above is ∧ Ordered f (above ++ dests is) js := by
  induction is generalizing above with
  | nil => exact ⟨.nil, by simpa [dests] using h⟩
  | cons i is ih =>
    rw [List.cons_append] at h
    obtain _ | ⟨hreads, hparams, hnew, hrest⟩ := h
    obtain ⟨his, hjs⟩ := ih hrest
    rw [dests_cons, ← List.append_assoc]
    exact ⟨.cons hreads hparams hnew his, hjs⟩

/-- Two pieces in order are in order together. -/
theorem append {js : List Instr} (h : Ordered f above is) (hjs : Ordered f (above ++ dests is) js) :
    Ordered f above (is ++ js) := by
  induction h with
  | nil => simpa [dests] using hjs
  | cons hreads hparams hnew _ ih =>
    rw [dests_cons, ← List.append_assoc] at hjs
    exact .cons hreads hparams hnew (ih hjs)

/-- More names do no harm. -/
theorem mono {f' : Function} (h : Ordered f above is) (hparams : f'.params = f.params)
    (hnames : f.names.length ≤ f'.names.length) : Ordered f' above is := by
  induction h with
  | nil => exact .nil
  | cons hreads hfound hnew _ ih =>
    refine .cons hreads (fun k hk => ?_) (fun d hd => ?_) ih
    · rw [Function.paramName, hparams]
      exact hfound k hk
    · exact ⟨(hnew d hd).1, Nat.lt_of_lt_of_le (hnew d hd).2 hnames⟩

/-- A parameter that is found by its name is there. -/
theorem lt_of_param {k : Nat} (h : f.params.idxOf? (f.paramName k) = some k) : k < f.arity := by
  obtain ⟨hlt, -⟩ := List.idxOf?_eq_some_iff.1 h
  exact hlt

/-- What an instruction reads is defined above it. -/
theorem reads_above {js ks : List Instr} {i : Instr} (h : Ordered f [] is) (his : is = js ++ i :: ks) :
    (∀ id ∈ i.reads, id ∈ dests js) ∧ ∀ k, .param k ∈ i.operands → k < f.arity := by
  subst his
  obtain ⟨-, hrest⟩ := h.of_append
  obtain _ | ⟨hreads, hparams, -, -⟩ := hrest
  exact ⟨hreads, fun k hk => lt_of_param (hparams k hk)⟩

/-- A function whose instructions are in order reads nothing that it does not define. -/
theorem closed (h : Ordered f [] f.instrs) : f.Closed :=
  ⟨h.reads, h.named⟩

end Ordered

/-- After an instruction the table knows its result and the values above. -/
theorem Table.mem_append_dest_iff {defined : Table ValueKind} {above : List Nat} {i : Instr}
    (habove : ∀ id, id ∈ above ↔ defined.get id ≠ none) (id : Nat) :
    id ∈ above ++ i.dest?.toList ↔ (defined.after i).get id ≠ none := by
  rw [List.mem_append, habove id, Option.mem_toList]
  by_cases hd : i.dest? = some id
  · simp [hd, Table.get_after_dest hd]
  · simp [hd, Table.get_after_of_ne hd]

/-- In a list without repetition a parameter is found by its name. -/
theorem Function.idxOf?_paramName {f : Function} (hparams : f.params.Nodup) {k : Nat}
    (hk : k < f.arity) : f.params.idxOf? (f.paramName k) = some k := by
  have hk' : k < f.params.length := hk
  have hname : f.paramName k = f.params[k] := by
    rw [paramName, List.getElem?_eq_getElem hk', Option.getD_some]
  rw [hname, List.idxOf?_eq_some_iff]
  refine ⟨hk', rfl, fun j hj heq => ?_⟩
  have := (List.Nodup.getElem_inj_iff hparams).1 heq
  omega

/-- **A valid body is in order,** if the parameters have different names. -/
theorem ValidBody.ordered {m : Module} {f : Function} {defined : Table ValueKind} {above : List Nat}
    {is : List Instr} (h : ValidBody m f defined is) (hparams : f.params.Nodup)
    (habove : ∀ id, id ∈ above ↔ defined.get id ≠ none) : Ordered f above is := by
  have hread : ∀ {defined : Table ValueKind} {o : Operand}, o.Readable f defined →
      (∀ id, o = .value id → defined.get id ≠ none) ∧
        ∀ k, o = .param k → f.params.idxOf? (f.paramName k) = some k := by
    intro defined o ho
    refine ⟨?_, ?_⟩
    · rintro id rfl
      have hid : defined.get id = some .integer := ho
      simp [hid]
    · rintro k rfl
      exact f.idxOf?_paramName hparams ho
  induction h generalizing above with
  | @ret defined v hv =>
    refine .cons ?_ ?_ (fun d hd => by cases hd) .nil
    · intro id hid
      rcases Instr.mem_reads_iff.1 hid with hop | hslot
      · exact (habove id).2 ((hread hv).1 id (List.mem_singleton.1 hop).symm)
      · cases hslot
    · intro k hk
      exact (hread hv).2 k (List.mem_singleton.1 hk).symm
  | @step defined i is ht hi _ ih =>
    refine .cons ?_ ?_ ?_ (ih ?_)
    · intro id hid
      rcases Instr.mem_reads_iff.1 hid with hop | hslot
      · exact (habove id).2 ((hread (hi.operands _ hop)).1 id rfl)
      · exact (habove id).2 (by simp [hi.slot id hslot])
    · intro k hk
      exact (hread (hi.operands _ hk)).2 k rfl
    · intro d hd
      obtain ⟨hlt, hnone⟩ := hi.result d hd
      exact ⟨fun hmem => (habove d).1 hmem hnone, hlt⟩
    · exact Table.mem_append_dest_iff habove

end IR
end Straightline
