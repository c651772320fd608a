/-
# A module is read back from its text

The names of a definition are told apart in its text if they are words that differ where they have to
(`Function.Legible`).  Its instructions are then read back one after the other (`reads_instrs`): the
values above an instruction are those whose names the reader knows, and a value that it defines gets
the next number.  So a definition is read back with its values renumbered, and a declaration with
new names for its parameters (`Function.reread`, `Function.Readable.reads`).

For a module this gives the module that is read from its text (`Module.read_text`).  That module has the
same text, is as valid, and runs alike, because renumbering keeps all of this.
-/

import Straightline.Proofs.LineReading
import Straightline.Proofs.Safety

namespace Straightline
namespace IR

open Text (IsWord IsItem trim)

/-! ### Definitions -/

/-- A definition whose names can be told apart in its text: they are words, no label looks like a line
about the source, and values have names of their own. -/
structure Function.Legible (f : Function) : Prop where
  params : ∀ p ∈ f.params, IsWord p
  values : ∀ n ∈ f.names, IsWord n
  labels : ∀ b ∈ f.blocks, IsWord b.label ∧ ¬ "source_filename".toList <+: b.label.toList
  names : f.names.Nodup
  apart : ∀ n ∈ f.names, n ∉ f.params

instance (f : Function) : Decidable f.Legible :=
  decidable_of_iff ((∀ p ∈ f.params, IsWord p) ∧ (∀ n ∈ f.names, IsWord n) ∧
      (∀ b ∈ f.blocks, IsWord b.label ∧ ¬ "source_filename".toList <+: b.label.toList) ∧
      f.names.Nodup ∧ ∀ n ∈ f.names, n ∉ f.params)
    ⟨fun ⟨hp, hv, hl, hn, ha⟩ => ⟨hp, hv, hl, hn, ha⟩,
      fun h => ⟨h.params, h.values, h.labels, h.names, h.apart⟩⟩

namespace Function

variable {f : Function}

/-- The name of a value is that in the table of names. -/
theorem valueName_eq_getElem {id : Nat} (h : id < f.names.length) : f.valueName id = f.names[id] := by
  rw [valueName, List.getElem?_eq_getElem h, Option.getD_some]

theorem valueName_mem {id : Nat} (h : id < f.names.length) : f.valueName id ∈ f.names := by
  rw [valueName_eq_getElem h]
  exact List.getElem_mem h

/-- In a legible function, values are told apart by their names. -/
theorem Legible.valueName_inj (hf : f.Legible) {a b : Nat} (ha : a < f.names.length)
    (hb : b < f.names.length) (h : f.valueName a = f.valueName b) : a = b := by
  rw [valueName_eq_getElem ha, valueName_eq_getElem hb] at h
  exact (List.Nodup.getElem_inj_iff hf.names).1 h

/-- **Values are found by their names:** the place of a name is the place of the value. -/
theorem Legible.idxOf?_valueName (hf : f.Legible) {ids : List Nat} (hnodup : ids.Nodup)
    (hnamed : ∀ d ∈ ids, d < f.names.length) {id : Nat} (hid : id ∈ ids) :
    (ids.map f.valueName).idxOf? (f.valueName id) = some (ids.idxOf id) := by
  have hlt : ids.idxOf id < ids.length := List.idxOf_lt_length_of_mem hid
  rw [List.idxOf?_eq_some_iff]
  refine ⟨by rwa [List.length_map], ?_, fun j hj heq => ?_⟩
  · rw [List.getElem_map, List.getElem_idxOf hlt]
  · have hj' : j < ids.length := by omega
    rw [List.getElem_map] at heq
    have hsame := hf.valueName_inj (hnamed _ (List.getElem_mem hj')) (hnamed id hid) heq
    have hplace := hnodup.idxOf_getElem j hj'
    rw [hsame] at hplace
    omega

/-- **The names in a legible function that is in order are words,** if those of its callees are. -/
theorem Legible.spellsInstr (hf : f.Legible) (hord : Ordered f [] f.instrs) {i : Instr}
    (hi : i ∈ f.instrs) (hcallee : ∀ name args d, i = .call name args d → IsWord name) :
    f.SpellsInstr i := by
  have hvalue : ∀ id ∈ f.dests, IsWord (f.valueName id) := fun id hid =>
    hf.values _ (valueName_mem (hord.named id hid))
  refine ⟨fun o ho => ?_, fun s hs => ?_, fun d hd => ?_, hcallee⟩
  · cases o with
    | const n | undef => trivial
    | value id => exact hvalue id (hord.reads i hi id (Instr.mem_reads_of_operand ho))
    | param k =>
      obtain ⟨hlt, hget, -⟩ := List.idxOf?_eq_some_iff.1 (hord.params i hi k ho)
      show IsWord (f.paramName k)
      rw [← hget]
      exact hf.params _ (List.getElem_mem hlt)
  · exact hvalue s (hord.reads i hi s (Instr.mem_reads_of_slot hs))
  · exact hvalue d (mem_dests hi hd)

/-- What the reader knows of a function after the values `above`, with the blocks read so far. -/
def upTo (f : Function) (above : List Nat) (blocks : List Block) : Function :=
  ⟨f.name, f.params, above.map f.valueName, blocks⟩

end Function

namespace Reader

section Blocks

variable {f : Function} (hf : f.Legible) {all : List Nat} (hnodup : all.Nodup)
  (hnamed : ∀ d ∈ all, d < f.names.length)
include hf hnodup hnamed

/-- A value above is found among the names read so far. -/
theorem finds_value {above : List Nat} (hall : above <+: all) (bs : List Block) {id : Nat}
    (hid : id ∈ above) : Finds (f.upTo above bs) f all.idxOf (.value id) := by
  have habove : above.Nodup := hnodup.sublist hall.sublist
  have hnamed' : ∀ d ∈ above, d < f.names.length := fun d hd => hnamed d (hall.subset hd)
  have hidx : all.idxOf id = above.idxOf id := by
    obtain ⟨rest, rfl⟩ := hall
    exact List.idxOf_append_of_mem hid
  refine ⟨hf.apart _ (Function.valueName_mem (hnamed' id hid)), ?_⟩
  show (above.map f.valueName).idxOf? (f.valueName id) = some (all.idxOf id)
  rw [hidx]
  exact hf.idxOf?_valueName habove hnamed' hid

/-- A new value gets the next number, and its name is not taken. -/
theorem place_of_new {above : List Nat} {d : Nat} (hall : above ++ [d] <+: all)
    (bs : List Block) :
    f.valueName d ∉ (f.upTo above bs).takenNames ∧
      all.idxOf d = (f.upTo above bs).names.length := by
  have hnew : d ∉ above := by
    have h := hnodup.sublist hall.sublist
    exact not_mem_of_nodup_append h
  have hd : d < f.names.length := hnamed d (hall.subset (by simp))
  refine ⟨?_, ?_⟩
  · rw [Function.takenNames, List.mem_append, not_or]
    refine ⟨hf.apart _ (Function.valueName_mem hd), fun hmem => ?_⟩
    obtain ⟨id, hid, heq⟩ := List.mem_map.1 hmem
    have hid' : id < f.names.length := hnamed id (hall.subset (by simp [hid]))
    obtain rfl := hf.valueName_inj hid' hd heq
    exact hnew hid
  · obtain ⟨rest, rfl⟩ := hall
    rw [List.append_assoc, List.idxOf_append_of_notMem hnew, List.singleton_append,
      List.idxOf_cons_self]
    simp [Function.upTo]

/-- **The instructions of a block are read back one by one.**  The number of a value is its place in
`all`, which begins with the values above the block and those that it defines. -/
theorem reads_instrs {above : List Nat} {is : List Instr} (hord : Ordered f above is)
    (hall : above ++ dests is <+: all) (hspells : ∀ i ∈ is, f.SpellsInstr i)
    (closed : List Function) (bs : List Block) (label : String) (js : List Instr) :
    Reads ⟨closed, some (f.upTo above (bs ++ [⟨label, js⟩]))⟩
      (is.map fun i => ("  " ++ f.instrText i).toList)
      ⟨closed, some (f.upTo (above ++ dests is)
        (bs ++ [⟨label, js ++ is.map (Instr.renumber all.idxOf)⟩]))⟩ := by
  induction hord generalizing js with
  | nil =>
    simp only [dests, List.filterMap_nil, List.append_nil, List.map_nil]
    exact .nil
  | @cons above i is hreads hparams _ _ ih =>
    rw [List.forall_mem_cons] at hspells
    rw [dests_cons, ← List.append_assoc] at hall ⊢
    have hnext : above ++ i.dest?.toList <+: all := (List.prefix_append _ _).trans hall
    have habove : above <+: all := (List.prefix_append _ _).trans hnext
    have hvalue : ∀ id ∈ above,
        Finds (f.upTo above (bs ++ [⟨label, js⟩])) f all.idxOf (.value id) := fun id hid =>
      finds_value hf hnodup hnamed habove _ hid
    have hread : instruction (f.upTo above (bs ++ [⟨label, js⟩])) (f.instrText i).toList =
        .ok (i.renumber all.idxOf, f.upTo (above ++ i.dest?.toList) (bs ++ [⟨label, js⟩])) := by
      have hafter : named (f.upTo above (bs ++ [⟨label, js⟩])) f i =
          f.upTo (above ++ i.dest?.toList) (bs ++ [⟨label, js⟩]) := by
        simp [named, Function.upTo]
      rw [← hafter]
      refine instruction_instrText hspells.1 (fun o ho => ?_) ?_ fun d hd => ?_
      · cases o with
        | const n | undef => trivial
        | param k => exact hparams k ho
        | value id => exact hvalue id (hreads id (Instr.mem_reads_of_operand ho))
      · exact fun s hs => hvalue s (hreads s (Instr.mem_reads_of_slot hs))
      · rw [hd] at hnext
        exact place_of_new hf hnodup hnamed hnext _
    have hrest := ih hall hspells.2 (js ++ [i.renumber all.idxOf])
    rw [List.append_assoc js, List.singleton_append] at hrest
    exact .cons (line_instrText hspells.1 hread rfl) hrest

/-- The lines of a block. -/
def blockLines (f : Function) (b : Block) : List String :=
  (b.label ++ ":") :: b.instrs.map ("  " ++ f.instrText ·)

/-- **A block is read back from its lines.** -/
theorem reads_block {above : List Nat} {b : Block} (hord : Ordered f above b.instrs)
    (hall : above ++ dests b.instrs <+: all) (hspells : ∀ i ∈ b.instrs, f.SpellsInstr i)
    (hlabel : IsWord b.label ∧ ¬ "source_filename".toList <+: b.label.toList)
    (closed : List Function) (bs : List Block) :
    Reads ⟨closed, some (f.upTo above bs)⟩ ((blockLines f b).map String.toList)
      ⟨closed, some (f.upTo (above ++ dests b.instrs)
        (bs ++ [b.renumber all.idxOf]))⟩ := by
  have hbody := reads_instrs hf hnodup hnamed hord hall hspells closed bs b.label []
  rw [blockLines, List.map_cons, List.map_map]
  exact .cons (line_label hlabel.1 hlabel.2 closed) hbody

/-- **Blocks are read back from their lines,** with an empty line between them. -/
theorem reads_blocks {above : List Nat} {bs : List Block}
    (hord : Ordered f above (bs.flatMap Block.instrs))
    (hall : above ++ dests (bs.flatMap Block.instrs) <+: all)
    (hspells : ∀ i ∈ bs.flatMap Block.instrs, f.SpellsInstr i)
    (hlabel : ∀ b ∈ bs, IsWord b.label ∧ ¬ "source_filename".toList <+: b.label.toList)
    (closed : List Function) (done : List Block) :
    Reads ⟨closed, some (f.upTo above done)⟩
      (([""].intercalate (bs.map (blockLines f))).map String.toList)
      ⟨closed, some (f.upTo (above ++ dests (bs.flatMap Block.instrs))
        (done ++ bs.map (Block.renumber all.idxOf)))⟩ := by
  induction bs generalizing above done with
  | nil =>
    simp only [List.flatMap_nil, dests, List.filterMap_nil, List.append_nil, List.map_nil]
    exact .nil
  | cons b bs ih =>
    rw [List.flatMap_cons] at hord hall hspells
    rw [List.flatMap_cons, dests_append, ← List.append_assoc]
    rw [dests_append, ← List.append_assoc] at hall
    rw [List.forall_mem_append] at hspells
    rw [List.forall_mem_cons] at hlabel
    obtain ⟨hb, hbs⟩ := hord.of_append
    have hfirst := reads_block hf hnodup hnamed hb ((List.prefix_append _ _).trans hall)
      hspells.1 hlabel.1 closed done
    have hrest := ih hbs hall hspells.2 hlabel.2 (done ++ [b.renumber all.idxOf])
    rw [List.append_assoc done] at hrest
    cases bs with
    | nil =>
      rw [List.map_singleton, List.intercalate_singleton]
      simpa [dests] using hfirst
    | cons b' bs =>
      rw [List.map_cons, List.map_cons, List.intercalate_cons_cons, List.append_assoc, List.map_append,
        List.map_append, ← List.map_cons]
      exact hfirst.append (Reads.empty.append hrest)

end Blocks

end Reader

/-! ### Functions and modules -/

namespace Function

/-- What a function is read back as: the parameters of a declaration get new names, the values of a
definition new numbers. -/
def reread (f : Function) : Function :=
  if f.isDeclaration then declare f.name ((List.range f.arity).map Reader.defaultParam)
  else f.renumbered

/-- A function that is read back from its text: all names are words, and a definition is in order. -/
structure Readable (f : Function) : Prop where
  name : IsWord f.name
  legible : f.isDeclaration = false → f.Legible
  ordered : f.isDeclaration = false → Ordered f [] f.instrs
  callees : ∀ i ∈ f.instrs, ∀ name args d, i = .call name args d → IsWord name

/-- The lines of the text of a function. -/
def textLines (f : Function) : List String :=
  if f.isDeclaration then ["declare " ++ Reader.signatureText f.name (f.params.map fun _ => "i32")]
  else ("define " ++ Reader.signatureText f.name (f.params.map ("i32 %" ++ ·)) ++ r" {") ::
    ([""].intercalate (f.blocks.map (Reader.blockLines f)) ++ [r"}"])

variable {f : Function}

/-- The text of a block is that of its lines. -/
theorem blockText_eq_unlines (f : Function) (b : Block) :
    f.blockText b = Text.unlines (Reader.blockLines f b) := by
  have hlabel : b.label ++ ":\n" = b.label ++ ":" ++ "\n" := by
    rw [String.append_assoc]
    rfl
  rw [blockText, Reader.blockLines, Text.unlines_cons, Text.unlines, List.map_map, hlabel]
  rfl

/-- **The text of a function is that of its lines.** -/
theorem text_eq_unlines (f : Function) : f.text = Text.unlines f.textLines := by
  rw [text, textLines]
  split
  · rw [Text.unlines_cons, ← String.toList_inj]
    simp [Reader.signatureText, Text.unlines]
  · have hblocks : f.blocks.map f.blockText =
        (f.blocks.map (Reader.blockLines f)).map Text.unlines := by
      rw [List.map_map]
      exact List.map_congr_left fun b _ => f.blockText_eq_unlines b
    rw [Text.unlines_cons, Text.unlines_append, hblocks, Text.intercalate_unlines,
      ← String.toList_inj]
    simp [Reader.signatureText, Text.unlines]

/-- **A function is read back from its lines.** -/
theorem Readable.reads (hf : f.Readable) {closed : List Function}
    (hnew : f.name ∉ closed.map Function.name) :
    Reader.Reads ⟨closed, none⟩ (f.textLines.map String.toList) ⟨closed ++ [f.reread], none⟩ := by
  cases hdef : f.isDeclaration with
  | true =>
    have hitems : ∀ p ∈ f.params.map fun _ => "i32", IsItem p.toList := by
      rw [List.forall_mem_map]
      exact fun _ _ => ⟨by decide, by decide, by decide⟩
    obtain ⟨hne, hlast⟩ := Reader.signatureText_last f.name (f.params.map fun _ => "i32")
    have hline := Reader.line_declare (Reader.signature_signatureText hf.name hitems) hne hlast hnew
    rw [List.length_map, List.length_map] at hline
    rw [textLines, reread, hdef, if_pos rfl, if_pos rfl]
    exact .single hline
  | false =>
    have hlegible := hf.legible hdef
    have hord := hf.ordered hdef
    have hitems : ∀ p ∈ f.params.map ("i32 %" ++ ·), IsItem p.toList := by
      rw [List.forall_mem_map]
      intro p hp
      rw [String.toList_append]
      exact (hlegible.params p hp).isSolid.isItem_append rfl (by decide) (by decide)
    obtain ⟨-, hlast⟩ := Reader.signatureText_last f.name (f.params.map ("i32 %" ++ ·))
    have hopen : Reader.line ⟨closed, none⟩ (trim ("define " ++
        Reader.signatureText f.name (f.params.map ("i32 %" ++ ·)) ++ r" {").toList) =
        .ok ⟨closed, some (f.upTo [] [])⟩ :=
      Reader.line_define (Reader.signature_signatureText hf.name hitems) hlast
        (Reader.paramNames_text hlegible.params 0)
    have hblocks : Reader.Reads ⟨closed, some (f.upTo [] [])⟩
        (([""].intercalate (f.blocks.map (Reader.blockLines f))).map String.toList)
        ⟨closed, some f.renumbered⟩ :=
      Reader.reads_blocks hlegible (hord.nodup List.nodup_nil) hord.named hord (List.prefix_refl _)
        (fun i hi => hlegible.spellsInstr hord hi (hf.callees i hi)) hlegible.labels closed []
    have hclose : Reader.line ⟨closed, some f.renumbered⟩ (trim r"}".toList) =
        .ok ⟨closed ++ [f.renumbered], none⟩ :=
      Reader.line_close (by rw [isDeclaration_renumbered, hdef]) hnew
    rw [textLines, reread, hdef, if_neg (by decide), if_neg (by decide), List.map_cons,
      List.map_append]
    exact .cons hopen (hblocks.append (.single hclose))

/-- **No line of a function has a newline in it.** -/
theorem Readable.newline_not_mem (hf : f.Readable) : ∀ l ∈ f.textLines, '\n' ∉ l.toList := by
  cases hdef : f.isDeclaration with
  | true =>
    have hparams : ∀ p ∈ f.params.map fun _ => "i32", Spelled p.toList := by
      rw [List.forall_mem_map]
      intro _ _
      decide
    rw [textLines, hdef, if_pos rfl, List.forall_mem_singleton, String.toList_append, List.mem_append,
      not_or]
    exact ⟨by decide, (Reader.spelled_signatureText hf.name hparams).not_mem (by decide)⟩
  | false =>
    have hlegible := hf.legible hdef
    have hord := hf.ordered hdef
    have hparams : ∀ p ∈ f.params.map ("i32 %" ++ ·), Spelled p.toList := by
      rw [List.forall_mem_map]
      intro p hp
      rw [String.toList_append]
      exact Spelled.append (by decide) (spelled_word (hlegible.params p hp))
    have hblock : ∀ b ∈ f.blocks, ∀ l ∈ Reader.blockLines f b, '\n' ∉ l.toList := by
      intro b hb
      rw [Reader.blockLines, List.forall_mem_cons, List.forall_mem_map]
      refine ⟨?_, fun i hi => ?_⟩
      · rw [String.toList_append, List.mem_append, not_or]
        exact ⟨(hlegible.labels b hb).1.not_mem (by decide), by decide⟩
      · have hmem : i ∈ f.instrs := List.mem_flatMap.2 ⟨b, hb, hi⟩
        have hspells := hlegible.spellsInstr hord hmem (hf.callees i hmem)
        rw [String.toList_append, List.mem_append, not_or]
        exact ⟨by decide, hspells.spelled_instrText.not_mem (by decide)⟩
    rw [textLines, hdef, if_neg (by decide), List.forall_mem_cons, List.forall_mem_append,
      List.forall_mem_singleton]
    refine ⟨?_, ?_, by decide⟩
    · simp only [String.toList_append, List.mem_append, not_or]
      have hsig := (Reader.spelled_signatureText hf.name hparams).not_mem (c := '\n') (by decide)
      exact ⟨⟨by decide, hsig⟩, by decide⟩
    · refine Text.forall_mem_intercalate (by decide) ?_
      rw [List.forall_mem_map]
      exact hblock

/-! ### What is read back -/

@[simp] theorem name_reread (f : Function) : f.reread.name = f.name := by
  unfold reread
  split <;> rfl

/-- No parameter is lost. -/
@[simp] theorem arity_reread (f : Function) : f.reread.arity = f.arity := by
  unfold reread
  split
  · simp [declare, arity]
  · rfl

@[simp] theorem isDeclaration_reread (f : Function) : f.reread.isDeclaration = f.isDeclaration := by
  unfold reread
  split
  · rename_i hdef
    rw [hdef]
    rfl
  · exact f.isDeclaration_renumbered

/-- A definition is read back with its values in order. -/
theorem reread_of_definition (hdef : f.isDeclaration = false) : f.reread = f.renumbered := by
  rw [reread, hdef, if_neg (by decide)]

/-- **What is read back has the same text.** -/
theorem text_reread (hf : f.isDeclaration = false → f.Closed) : f.reread.text = f.text := by
  cases hdef : f.isDeclaration with
  | false => rw [reread_of_definition hdef, text_renumbered (hf hdef)]
  | true =>
    have hparams : f.reread.params.map (fun _ => "i32") = f.params.map fun _ => "i32" := by
      rw [List.map_const', List.map_const']
      exact congrArg (List.replicate · "i32") f.arity_reread
    rw [text, text, isDeclaration_reread, hdef, if_pos rfl, if_pos rfl, name_reread, hparams]

end Function

namespace Module

/-- The module that is read back, under a name. -/
def reread (m : Module) (name : String) : Module :=
  ⟨name, m.functions.map Function.reread⟩

/-- The lines of the text of a module. -/
def textLines (m : Module) : List String :=
  ("; ModuleID = '" ++ m.name ++ "'") :: ("source_filename = \"" ++ m.name ++ "\"") ::
    m.functions.flatMap fun f => "" :: f.textLines

variable {m : Module}

/-- The text of a module is that of its lines. -/
theorem text_eq_unlines (m : Module) : m.text = Text.unlines m.textLines := by
  have hfunctions : ∀ fs : List Function, String.join (fs.map fun f => "\n" ++ f.text) =
      Text.unlines (fs.flatMap fun f => "" :: f.textLines) := by
    intro fs
    induction fs with
    | nil => rfl
    | cons f fs ih =>
      rw [List.map_cons, String.join_cons, ih, List.flatMap_cons, Text.unlines_append,
        Text.unlines_cons, f.text_eq_unlines, String.empty_append]
  have hheader : "'\nsource_filename = \"" = "'" ++ "\n" ++ "source_filename = \"" := rfl
  have hend : "\"\n" = "\"" ++ "\n" := rfl
  unfold text textLines
  simp only [Text.unlines_cons, hfunctions, hheader, hend, String.append_assoc]

/-- Functions are read back one after the other: `closed` are those before them. -/
theorem reads_functions {fs closed : List Function} (hfs : ∀ f ∈ fs, f.Readable)
    (hnodup : (closed.map Function.name ++ fs.map Function.name).Nodup) :
    Reader.Reads ⟨closed, none⟩ ((fs.flatMap fun f => "" :: f.textLines).map String.toList)
      ⟨closed ++ fs.map Function.reread, none⟩ := by
  induction fs generalizing closed with
  | nil =>
    rw [List.map_nil, List.append_nil]
    exact .nil
  | cons f fs ih =>
    rw [List.forall_mem_cons] at hfs
    rw [List.map_cons] at hnodup
    have hfirst := hfs.1.reads (not_mem_of_nodup_append hnodup)
    have hnodup' : ((closed ++ [f.reread]).map Function.name ++ fs.map Function.name).Nodup := by
      simpa using hnodup
    have hrest := ih hfs.2 hnodup'
    rw [List.append_assoc, List.singleton_append] at hrest
    rw [List.flatMap_cons, List.cons_append, List.map_cons, List.map_append]
    exact Reader.Reads.empty.append (hfirst.append hrest)

/-- **A module is read back from its text.** -/
theorem read_text (hname : '\n' ∉ m.name.toList) (hfs : ∀ f ∈ m.functions, f.Readable)
    (hnodup : (m.functions.map Function.name).Nodup) (name : String) :
    read name m.text = .ok (m.reread name) := by
  have hnewline : ∀ l ∈ m.textLines, '\n' ∉ l.toList := by
    rw [textLines, List.forall_mem_cons, List.forall_mem_cons]
    simp only [String.toList_append, List.mem_append, not_or]
    refine ⟨⟨⟨by decide, hname⟩, by decide⟩, ⟨⟨by decide, hname⟩, by decide⟩, fun l hl => ?_⟩
    obtain ⟨f, hf, hl⟩ := List.mem_flatMap.1 hl
    rcases List.mem_cons.1 hl with rfl | hl
    · decide
    · exact (hfs f hf).newline_not_mem l hl
  have hreads : Reader.Reads ⟨[], none⟩ (m.textLines.map String.toList)
      ⟨m.functions.map Function.reread, none⟩ := by
    have hid := Reader.line_skipped ⟨[], none⟩ "; ModuleID = '" m.name "'" (fun _ => rfl) rfl
      (by decide) rfl (by decide)
    have hsource := Reader.line_skipped ⟨[], none⟩ "source_filename = \"" m.name "\""
      (fun _ => rfl) rfl (by decide) rfl (by decide)
    rw [textLines, List.map_cons, List.map_cons]
    exact .cons hid (.cons hsource (reads_functions hfs hnodup))
  have hlines := hreads.lines_eq 1
  rw [← Text.lines_unlines hnewline, ← m.text_eq_unlines] at hlines
  rw [read, hlines]
  rfl

/-! ### Validity and runs -/

/-- Functions are found as before. -/
theorem function?_reread (m : Module) (name name' : String) :
    (m.reread name').function? name = (m.function? name).map Function.reread :=
  m.function?_mapFunctions Function.name_reread name

/-- Functions have as many parameters as before. -/
theorem map_arity_reread (m : Module) (name name' : String) :
    ((m.reread name').function? name).map Function.arity = (m.function? name).map Function.arity :=
  m.map_arity_mapFunctions Function.name_reread Function.arity_reread name

/-- **What is read back has the same text.** -/
theorem text_reread (hfs : ∀ f ∈ m.functions, f.isDeclaration = false → f.Closed) :
    (m.reread m.name).text = m.text := by
  have hfunctions : (m.functions.map Function.reread).map (fun f => "\n" ++ f.text) =
      m.functions.map fun f => "\n" ++ f.text := by
    rw [List.map_map]
    refine List.map_congr_left fun f hf => ?_
    rw [Function.comp_apply, Function.text_reread (hfs f hf)]
  unfold text
  rw [reread, hfunctions]

/-- **What is read back is valid.** -/
theorem Valid.reread (hm : m.Valid) (name : String) : (m.reread name).Valid := by
  constructor
  · have hnames : (m.functions.map Function.reread).map Function.name =
        m.functions.map Function.name := by
      simp
    rw [Module.reread, hnames]
    exact hm.names
  · intro f' hf' hdef
    obtain ⟨f, hf, rfl⟩ := List.mem_map.1 hf'
    rw [Function.isDeclaration_reread] at hdef
    obtain ⟨b, hb, hbody⟩ := hm.bodies f hf hdef
    have harity : f.renumbered.arity = f.arity := rfl
    have hids : ∀ d ∈ dests b.instrs, d ∈ f.dests := by
      simp [Function.dests, Function.instrs, hb]
    have hvalid : ValidBody m f.renumbered .empty (b.instrs.map (Instr.renumber f.dests.idxOf)) :=
      hbody.renumber harity (List.length_map _) hids
        ⟨fun id k hid => absurd hid (by simp), fun _ _ => rfl⟩
    rw [Function.reread_of_definition hdef]
    refine ⟨b.renumber f.dests.idxOf, ?_, hvalid.mono (fun callee k hk => ?_) rfl rfl⟩
    · rw [Function.renumbered, hb, List.map_singleton]
    · rw [map_arity_reread, hk]

/-- **What is read back runs alike.** -/
theorem runsLike_reread (hfs : ∀ f ∈ m.functions, f.isDeclaration = false → f.Closed)
    (name : String) : (m.reread name).RunsLike m := by
  intro callee
  rw [definition?, definition?, function?_reread]
  cases hfind : m.function? callee with
  | none => exact .none
  | some f =>
    cases hdef : f.isDeclaration with
    | true => simp [Option.filter, hdef]
    | false =>
      have hf := List.mem_of_find?_eq_some hfind
      have hlike := Function.runsLike_renumbered (hfs f hf hdef)
      simp only [Option.map_some, Option.filter, Function.isDeclaration_reread, hdef]
      rw [Function.reread_of_definition hdef]
      exact .some hlike

/-- A module whose text can be read back: names are words, and in each definition parameters and
values have names of their own. -/
structure Legible (m : Module) : Prop where
  name : '\n' ∉ m.name.toList
  functions : ∀ f ∈ m.functions, IsWord f.name
  definitions : ∀ f ∈ m.functions, f.isDeclaration = false → f.Legible ∧ f.params.Nodup

instance (m : Module) : Decidable m.Legible :=
  decidable_of_iff ('\n' ∉ m.name.toList ∧ (∀ f ∈ m.functions, IsWord f.name) ∧
      ∀ f ∈ m.functions, f.isDeclaration = false → f.Legible ∧ f.params.Nodup)
    ⟨fun ⟨hn, hf, hd⟩ => ⟨hn, hf, hd⟩, fun h => ⟨h.name, h.functions, h.definitions⟩⟩

/-- A valid definition is in order. -/
theorem Valid.ordered (hm : m.Valid) {f : Function} (hf : f ∈ m.functions)
    (hdef : f.isDeclaration = false) (hparams : f.params.Nodup) : Ordered f [] f.instrs := by
  refine (hm.bodies f hf hdef).validBody.ordered hparams fun id => ?_
  simp

/-- Every function of a legible and valid module can be read back. -/
theorem Legible.readable (hl : m.Legible) (hm : m.Valid) : ∀ f ∈ m.functions, f.Readable := by
  intro f hf
  refine ⟨hl.functions f hf, fun hdef => (hl.definitions f hf hdef).1,
    fun hdef => hm.ordered hf hdef (hl.definitions f hf hdef).2, fun i hi name args d hcall => ?_⟩
  cases hdef : f.isDeclaration with
  | true =>
    have hblocks : f.blocks = [] := List.isEmpty_iff.1 hdef
    simp [Function.instrs, hblocks] at hi
  | false =>
    obtain ⟨g, hg, -⟩ := (hm.bodies f hf hdef).validBody.callee i hi name args d hcall
    have hname : g.name = name := by simpa using List.find?_some hg
    rw [← hname]
    exact hl.functions g (List.mem_of_find?_eq_some hg)

/-- Every definition of a legible and valid module reads what it defines. -/
theorem Legible.closed (hl : m.Legible) (hm : m.Valid) :
    ∀ f ∈ m.functions, f.isDeclaration = false → f.Closed := fun f hf hdef =>
  (hm.ordered hf hdef (hl.definitions f hf hdef).2).closed

end Module

/-- **A module is read back from its text.**  A module that verification accepts and whose names can be
told apart has a text, from which a module is read that has the same text, is accepted too, and runs
alike, also after it was prepared.  Its values may be numbered in another way. -/
theorem read_text_of_verify (m : Module) (hm : m.verify = .ok ()) (hl : m.Legible) :
    ∃ text m', m.text? = some text ∧ Module.read m.name text = .ok m' ∧ m'.text? = some text ∧
      m'.verify = .ok () ∧ (∀ sink name args, m'.run sink name args = m.run sink name args) ∧
      ∃ p, m'.prepare = .ok p ∧ ∀ sink name args, p.run sink name args = m.run sink name args := by
  have hvalid := m.verify_eq_ok_iff.1 hm
  have hclosed := hl.closed hvalid
  have hvalid' : (m.reread m.name).Valid := hvalid.reread m.name
  have hrun := (Module.runsLike_reread hclosed m.name).run
  refine ⟨m.text, m.reread m.name, hvalid.text?_eq, ?_, ?_, ?_, hrun, (m.reread m.name).promote,
    hvalid'.prepare, ?_⟩
  · exact Module.read_text hl.name (hl.readable hvalid) hvalid.names m.name
  · rw [hvalid'.text?_eq, Module.text_reread hclosed]
  · exact (Module.verify_eq_ok_iff _).2 hvalid'
  · intro sink name args
    rw [hvalid'.run_promote, hrun]

/-- A folded program: of five values three are left, with gaps between their numbers. -/
def gapped : Module :=
  ⟨"unit one", [.declare "printnum" ["i"],
    ⟨"main", ["aArg"], ["a", "a1", "subtmp", "call_tmp", "divtmp"],
      [⟨"entry", [.binary .sub (.param 0) (.const (-7)) 2, .call "printnum" [.value 2] 3,
        .binary .sdiv .undef (.value 3) 4, .ret (.value 4)]⟩]⟩]⟩

/-- The hypotheses are satisfiable: `gapped` is accepted and its names can be told apart; what is read
back prints the difference and divides by the printed number. -/
theorem read_text_gapped : gapped.verify = .ok () ∧ gapped.Legible ∧
    ∃ text m', gapped.text? = some text ∧ Module.read "unit one" text = .ok m' ∧
      m'.text? = some text ∧
      m'.run .accepting "main" [-7] = (.error (.divisionByZero "main"), "0\n") := by
  have hl : gapped.Legible := by decide
  obtain ⟨text, m', htext, hread, htext', -, hrun, -⟩ := read_text_of_verify gapped rfl hl
  exact ⟨rfl, hl, text, m', htext, hread, htext', (hrun _ _ _).trans rfl⟩

end IR
end Straightline
