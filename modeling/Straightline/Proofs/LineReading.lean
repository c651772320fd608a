/-
# Lines of a module text

The text of an instruction is made of names, numbers and a few signs (`Spelled`), and no blank stands at
its ends, so a line with an instruction is neither a label nor a brace and says what it says
(`line_instrText`).  Each part of it is read back: operands, for which it is enough that the reader
finds the same value under a name (`Finds`), slots, arguments and signatures, and from these the right
side of each kind of instruction (`instruction_instrText`).  The reader may number values in a way of
its own; what it reads is the instruction with these numbers (`Instr.renumber`).

The other lines follow: labels (`line_label`), declarations and the first and last lines of definitions
(`line_declare`, `line_define`, `line_close`), and the lines that say nothing (`line_skipped`).
-/

import Straightline.IR.Reader
import Straightline.Proofs.Renumbering
import Straightline.Proofs.Text

namespace Straightline
namespace IR

open Text (IsWord IsSolid IsItem IsTight isWordChar stripFront? stripBack? cutAt? items trim)

/-! ### What the text of an instruction is made of -/

/-- The characters of an instruction: those of names, and a few signs. -/
def isLineChar (c : Char) : Bool :=
  isWordChar c || " %=,()@-".toList.contains c

/-- A text of such characters: there is no newline, colon or brace in it. -/
def Spelled (s : List Char) : Prop :=
  ∀ c ∈ s, isLineChar c = true

instance (s : List Char) : Decidable (Spelled s) :=
  decidable_of_iff (s.all isLineChar = true) List.all_eq_true

/-- What is spelled from characters of a line can be put together. -/
theorem Spelled.append {s t : List Char} (hs : Spelled s) (ht : Spelled t) : Spelled (s ++ t) :=
  List.forall_mem_append.2 ⟨hs, ht⟩

/-- A character that no line has does not occur. -/
theorem Spelled.not_mem {s : List Char} (hs : Spelled s) {c : Char} (hc : isLineChar c = false) :
    c ∉ s := by
  intro hmem
  rw [hs c hmem] at hc
  cases hc

/-- A word has characters of a line only. -/
theorem spelled_word {w : String} (hw : IsWord w) : Spelled w.toList := by
  intro c hc
  rw [isLineChar, hw.2 c hc, Bool.true_or]

/-- Commas and blanks are characters of a line. -/
theorem spelled_intercalate {ws : List (List Char)} (hws : ∀ w ∈ ws, Spelled w) :
    Spelled (", ".toList.intercalate ws) :=
  Text.forall_mem_intercalate (show Spelled ", ".toList by decide) hws

namespace Function

/-- An operand whose name, if it needs one, is a word. -/
def Spells (f : Function) : Operand → Prop
  | .const _ | .undef => True
  | .param k => IsWord (f.paramName k)
  | .value id => IsWord (f.valueName id)

/-- An instruction in which all names are words. -/
structure SpellsInstr (f : Function) (i : Instr) : Prop where
  operands : ∀ o ∈ i.operands, f.Spells o
  slot : ∀ s, i.slot? = some s → IsWord (f.valueName s)
  dest : ∀ d, i.dest? = some d → IsWord (f.valueName d)
  callee : ∀ name args d, i = .call name args d → IsWord name

variable {f : Function} {i : Instr} {o : Operand}

/-- The name of a value has no blanks in it. -/
theorem isSolid_percent {w : String} (hw : IsWord w) : IsSolid ("%" ++ w).toList := by
  rw [String.toList_append]
  have hpercent : IsSolid "%".toList := by decide
  exact hpercent.append hw.isSolid

/-- The text of an operand has no blanks in it. -/
theorem Spells.isSolid (ho : f.Spells o) : IsSolid (f.operandText o).toList := by
  cases o with
  | const n => exact Text.isSolid_ofInt32 n
  | undef =>
    have hundef : IsSolid "undef".toList := by decide
    exact hundef
  | param k => exact isSolid_percent ho
  | value id => exact isSolid_percent ho

/-- The name of a value has characters of a line only. -/
theorem spelled_percent {w : String} (hw : IsWord w) : Spelled ("%" ++ w).toList := by
  rw [String.toList_append]
  exact Spelled.append (by decide) (spelled_word hw)

/-- The text of an operand has characters of a line only. -/
theorem Spells.spelled (ho : f.Spells o) : Spelled (f.operandText o).toList := by
  cases o with
  | const n =>
    intro c hc
    rcases Text.mem_ofInt32 hc with rfl | hdigit
    · decide
    · simp [isLineChar, isWordChar, Char.isAlphanum, hdigit]
  | undef =>
    have hundef : Spelled "undef".toList := by decide
    exact hundef
  | param k => exact spelled_percent ho
  | value id => exact spelled_percent ho

/-- What stands right of the equals sign in an instruction that defines a value. -/
def rightText (f : Function) : Instr → String
  | .alloca _ => "alloca i32, align 4"
  | .load _ s => "load i32, ptr " ++ f.valueText s ++ ", align 4"
  | .binary op l r _ => op.text ++ " i32 " ++ f.operandText l ++ ", " ++ f.operandText r
  | .call callee args _ =>
    "call i32 @" ++ callee ++ "(" ++ ", ".intercalate (args.map f.argText) ++ ")"
  | .store .. | .ret _ => ""

/-- The text of an instruction with a result: the name of the value, and the right side. -/
theorem toList_instrText_of_dest {d : Nat} (hd : i.dest? = some d) :
    (f.instrText i).toList = "%".toList ++ ((f.valueName d).toList ++
      (" = ".toList ++ (f.rightText i).toList)) := by
  cases i with
  | store v s | ret v => cases hd
  | alloca d' | load d' s | binary op l r d' | call callee args d' =>
    obtain rfl := Option.some.inj hd
    simp [instrText, valueText, rightText]

/-- The text of a store, in the pieces that are read. -/
theorem toList_instrText_store (v : Operand) (s : Nat) :
    (f.instrText (.store v s)).toList = "store i32 ".toList ++ ((f.operandText v).toList ++
      (", ".toList ++ (("ptr ".toList ++ (f.valueText s).toList) ++
        (", ".toList ++ "align 4".toList)))) := by
  simp [instrText]

/-- The text of a return, in the pieces that are read. -/
theorem toList_instrText_ret (v : Operand) :
    (f.instrText (.ret v)).toList = "ret i32 ".toList ++ (f.operandText v).toList := by
  rw [instrText, String.toList_append]

namespace SpellsInstr

/-- The arguments of a call have characters of a line only. -/
theorem spelled_argText {callee : String} {args : List Operand} {d : Nat}
    (h : f.SpellsInstr (.call callee args d)) :
    Spelled (", ".intercalate (args.map f.argText)).toList := by
  rw [String.toList_intercalate]
  refine spelled_intercalate fun w hw => ?_
  rw [List.map_map] at hw
  obtain ⟨o, ho, rfl⟩ := List.mem_map.1 hw
  rw [Function.comp_apply, argText, String.toList_append]
  exact Spelled.append (by decide) (h.operands o ho).spelled

/-- The right side of an instruction has characters of a line only. -/
theorem spelled_rightText (h : f.SpellsInstr i) : Spelled (f.rightText i).toList := by
  cases i with
  | store v s | ret v => exact fun c hc => absurd hc List.not_mem_nil
  | alloca d =>
    rw [rightText]
    decide
  | load d s =>
    simp only [rightText, valueText, String.toList_append]
    refine Spelled.append (Spelled.append (by decide) ?_) (by decide)
    exact Spelled.append (by decide) (spelled_word (h.slot s rfl))
  | binary op l r d =>
    simp only [rightText, String.toList_append]
    have hop : Spelled op.text.toList := by cases op <;> decide
    have hl := (h.operands l (by simp [Instr.operands])).spelled
    have hr := (h.operands r (by simp [Instr.operands])).spelled
    refine Spelled.append (Spelled.append ?_ (by decide)) hr
    exact Spelled.append (Spelled.append hop (by decide)) hl
  | call callee args d =>
    simp only [rightText, String.toList_append]
    have hcallee := spelled_word (h.callee callee args d rfl)
    refine Spelled.append (Spelled.append ?_ h.spelled_argText) (by decide)
    exact Spelled.append (Spelled.append (by decide) hcallee) (by decide)

/-- **The text of an instruction has no newline, colon or brace in it.** -/
theorem spelled_instrText (h : f.SpellsInstr i) : Spelled (f.instrText i).toList := by
  cases hd : i.dest? with
  | some d =>
    rw [toList_instrText_of_dest hd]
    refine Spelled.append (by decide) ?_
    refine Spelled.append (spelled_word (h.dest d hd)) ?_
    exact Spelled.append (by decide) h.spelled_rightText
  | none =>
    cases i with
    | store v s =>
      simp only [instrText, valueText, String.toList_append]
      have hv := (h.operands v (by simp [Instr.operands])).spelled
      have hs := spelled_word (h.slot s rfl)
      refine Spelled.append (Spelled.append ?_ ?_) (by decide)
      · exact Spelled.append (Spelled.append (by decide) hv) (by decide)
      · exact Spelled.append (by decide) hs
    | ret v =>
      rw [toList_instrText_ret]
      have hv := (h.operands v (by simp [Instr.operands])).spelled
      exact Spelled.append (by decide) hv
    | _ => cases hd

/-- The right side of an instruction does not end in a blank. -/
theorem rightText_last (h : f.SpellsInstr i) {d : Nat} (hd : i.dest? = some d) :
    (f.rightText i).toList ≠ [] ∧ (f.rightText i).toList.getLast?.all (!Text.isBlank ·) = true := by
  cases i with
  | store v s | ret v => cases hd
  | alloca d =>
    rw [rightText]
    decide
  | load d s | call callee args d =>
    rw [rightText, String.toList_append]
    refine ⟨List.append_ne_nil_of_right_ne_nil _ (by decide), ?_⟩
    rw [List.getLast?_append_of_ne_nil _ (by decide)]
    rfl
  | binary op l r d =>
    have hr := (h.operands r (by simp [Instr.operands])).isSolid
    rw [rightText, String.toList_append]
    refine ⟨List.append_ne_nil_of_right_ne_nil _ hr.ne_nil, ?_⟩
    rw [List.getLast?_append_of_ne_nil _ hr.ne_nil]
    exact hr.last

/-- The right side of an instruction neither starts nor ends with a blank. -/
theorem isTight_rightText (h : f.SpellsInstr i) : IsTight (f.rightText i).toList := by
  cases hd : i.dest? with
  | none =>
    cases i with
    | store v s | ret v => exact ⟨rfl, rfl⟩
    | _ => cases hd
  | some d =>
    refine ⟨?_, (h.rightText_last hd).2⟩
    cases i with
    | store v s | ret v => cases hd
    | alloca d =>
      rw [rightText]
      decide
    | load d s | call callee args d =>
      simp only [rightText, String.toList_append, List.append_assoc]
      rfl
    | binary op l r d =>
      simp only [rightText, String.toList_append, List.append_assoc]
      cases op <;> rfl

/-- The text of an instruction starts and ends without a blank. -/
theorem isTight_instrText (h : f.SpellsInstr i) : IsTight (f.instrText i).toList := by
  cases hd : i.dest? with
  | some d =>
    obtain ⟨hne, hlast⟩ := h.rightText_last hd
    rw [toList_instrText_of_dest hd, ← List.append_assoc (f.valueName d).toList]
    exact Text.isTight_append rfl (by decide) hlast hne _
  | none =>
    cases i with
    | store v s =>
      have htight := Text.isTight_append (s := "store i32 ".toList) (t := "align 4".toList) rfl
        (by decide) rfl (by decide) ((f.operandText v).toList ++ (", ".toList ++
          (("ptr ".toList ++ (f.valueText s).toList) ++ ", ".toList)))
      rw [toList_instrText_store]
      simpa only [List.append_assoc] using htight
    | ret v =>
      have hv := (h.operands v (by simp [Instr.operands])).isSolid
      rw [toList_instrText_ret]
      exact Text.isTight_append rfl (by decide) hv.last hv.ne_nil []
    | _ => cases hd

end SpellsInstr
end Function

namespace Reader

/-! ### Reading operands and instructions -/

/-- An operand of `f` that the reader finds by its name in `g`, the function read so far, with values
numbered by `ρ`. -/
def Finds (g f : Function) (ρ : Nat → Nat) : Operand → Prop
  | .const _ | .undef => True
  | .param k => g.params.idxOf? (f.paramName k) = some k
  | .value id => f.valueName id ∉ g.params ∧ g.names.idxOf? (f.valueName id) = some (ρ id)

variable {g f : Function} {ρ : Nat → Nat}

/-- A name after a percent sign is looked up among the parameters, then among the values. -/
theorem operand_percent {w : String} (hw : IsWord w) {o : Operand}
    (h : (∃ k, g.params.idxOf? w = some k ∧ o = .param k) ∨
      ∃ id, g.params.idxOf? w = none ∧ g.names.idxOf? w = some id ∧ o = .value id) :
    operand g ("%" ++ w).toList = .ok o := by
  have hne : ("%" ++ w).toList ≠ "undef".toList := by
    rw [String.toList_append]
    intro heq
    have hhead : some '%' = some 'u' := congrArg List.head? heq
    exact absurd hhead (by decide)
  have hstrip : stripFront? "%" ("%" ++ w).toList = some w.toList := by
    rw [String.toList_append, Text.stripFront?_append]
  rw [operand, Text.trim_of_isTight (Function.isSolid_percent hw).isTight, if_neg hne, hstrip]
  rcases h with ⟨k, hk, rfl⟩ | ⟨id, hnone, hid, rfl⟩
  · simp only [String.ofList_toList, hk]
  · simp only [String.ofList_toList, hnone, hid]

/-- **An operand is read back from its text.** -/
theorem operand_operandText {o : Operand} (ho : f.Spells o) (hfind : Finds g f ρ o) :
    operand g (f.operandText o).toList = .ok (o.renumber ρ) := by
  cases o with
  | const n =>
    have hne : (Text.ofInt32 n).toList ≠ "undef".toList := by
      intro h
      have hu : 'u' ∈ (Text.ofInt32 n).toList := by rw [h]; decide
      exact Text.not_mem_ofInt32 (by decide) (by decide) hu
    have hstrip : stripFront? "%" (Text.ofInt32 n).toList = none :=
      Text.stripFront?_of_not_mem (List.mem_singleton_self '%')
        (Text.not_mem_ofInt32 (by decide) (by decide))
    show operand g (Text.ofInt32 n).toList = _
    rw [operand, Text.trim_of_isTight (Text.isSolid_ofInt32 n).isTight, if_neg hne, hstrip]
    simp only [Text.readInt32_ofInt32]
    rfl
  | undef =>
    have htrim : trim "undef".toList = "undef".toList := by decide
    show operand g "undef".toList = _
    rw [operand, htrim, if_pos rfl]
    rfl
  | param k =>
    have hparam : g.params.idxOf? (f.paramName k) = some k := hfind
    exact operand_percent ho (.inl ⟨k, hparam, rfl⟩)
  | value id =>
    have hnone : g.params.idxOf? (f.valueName id) = none := List.idxOf?_eq_none_iff.2 hfind.1
    exact operand_percent ho (.inr ⟨ρ id, hnone, hfind.2, rfl⟩)

/-- A slot is found by its name. -/
theorem slot_valueText {s : Nat} (hs : IsWord (f.valueName s)) (hfind : Finds g f ρ (.value s)) :
    slot g (f.valueText s).toList = .ok (ρ s) := by
  have hop := operand_operandText (o := .value s) hs hfind
  rw [Function.operandText] at hop
  rw [slot, hop]
  rfl

/-- The arguments of a call are read one by one. -/
theorem arguments_argText {os : List Operand} (hos : ∀ o ∈ os, f.Spells o)
    (hfind : ∀ o ∈ os, Finds g f ρ o) :
    arguments g ((os.map f.argText).map String.toList) = .ok (os.map (Operand.renumber ρ)) := by
  induction os with
  | nil => rfl
  | cons o os ih =>
    rw [List.forall_mem_cons] at hos hfind
    have hstrip : stripFront? "i32 " (f.argText o).toList = some (f.operandText o).toList := by
      rw [Function.argText, String.toList_append, Text.stripFront?_append]
    rw [List.map_cons, List.map_cons, arguments, hstrip]
    simp only [operand_operandText hos.1 hfind.1, ih hos.2 hfind.2]
    rfl

/-! ### Signatures -/

/-- **A signature is read back from its text.** -/
theorem signature_text {name : String} (hname : IsWord name) {ws : List (List Char)}
    (hws : ∀ w ∈ ws, IsItem w) :
    signature ("i32 @".toList ++ (name.toList ++ ("(".toList ++
      (", ".toList.intercalate ws ++ ")".toList)))) = .ok (name, ws) := by
  have htight : IsTight ("i32 @".toList ++ (name.toList ++ ("(".toList ++
      (", ".toList.intercalate ws ++ ")".toList)))) := by
    have h := Text.isTight_append (s := "i32 @".toList) (t := ")".toList) rfl (by decide) rfl
      (by decide) (name.toList ++ ("(".toList ++ ", ".toList.intercalate ws))
    simpa only [List.append_assoc] using h
  have hend : (", ".toList.intercalate ws ++ ")".toList).getLast?.all (!Text.isBlank ·) = true := by
    rw [List.getLast?_append_of_ne_nil _ (by decide)]
    rfl
  have hcut := Text.cutAt?_append "(" rfl (hname.not_mem (c := '(') (by decide))
    (", ".toList.intercalate ws ++ ")".toList)
  rw [signature, Text.trim_of_isTight htight, Text.stripFront?_append]
  simp only [hcut, Text.trimEnd_of_last hend, Text.stripBack?_append, String.ofList_toList,
    Text.items_intercalate hws]

/-- What the right side of an instruction is read as: the instruction, with the number of its result
left open. -/
def pending (ρ : Nat → Nat) : Instr → Nat → Instr
  | .alloca _ => .alloca
  | .load _ s => fun d => .load d (ρ s)
  | .binary op l r _ => .binary op (l.renumber ρ) (r.renumber ρ)
  | .call callee args _ => .call callee (args.map (Operand.renumber ρ))
  | .store v s => fun _ => .store (v.renumber ρ) (ρ s)
  | .ret v => fun _ => .ret (v.renumber ρ)

/-- The value that was pending gets its new number. -/
theorem pending_dest {i : Instr} {d : Nat} (hd : i.dest? = some d) :
    pending ρ i (ρ d) = i.renumber ρ := by
  cases i with
  | store v s | ret v => cases hd
  | alloca d' | load d' s | binary op l r d' | call callee args d' =>
    obtain rfl := Option.some.inj hd
    rfl

/-- A load is read from its text. -/
theorem rightSide_load {rest w : List Char} {s : Nat}
    (hitem : (items rest)[1]? = some ("ptr ".toList ++ w)) (hs : slot g w = .ok s) :
    rightSide g ("load".toList ++ (" ".toList ++ rest)) = .ok fun d => .load d s := by
  have hcut := Text.cutAt?_append " " rfl (s := "load".toList) (by decide) rest
  rw [rightSide, hcut]
  dsimp only [Option.getD_some]
  rw [if_neg (by decide), if_pos rfl, hitem, Option.bind_some, Text.stripFront?_append]
  dsimp only
  rw [hs]
  rfl

/-- A call is read from its text. -/
theorem rightSide_call {rest : List Char} {callee : String} {ws : List (List Char)}
    {os : List Operand} (hsig : signature rest = .ok (callee, ws))
    (hargs : arguments g ws = .ok os) :
    rightSide g ("call".toList ++ (" ".toList ++ rest)) = .ok (.call callee os) := by
  have hcut := Text.cutAt?_append " " rfl (s := "call".toList) (by decide) rest
  rw [rightSide, hcut]
  dsimp only [Option.getD_some]
  rw [if_neg (by decide), if_neg (by decide), if_pos rfl, hsig]
  show (arguments g ws >>= _) = _
  rw [hargs]
  rfl

/-- An operation is read from its text. -/
theorem rightSide_arith (op : Arith) {l r : List Char} {lhs rhs : Operand} (hl : IsItem l)
    (hr : IsItem r) (hlhs : operand g l = .ok lhs) (hrhs : operand g r = .ok rhs) :
    rightSide g (op.text.toList ++ (" ".toList ++ ("i32 ".toList ++ (l ++ (", ".toList ++ r))))) =
      .ok (.binary op lhs rhs) := by
  have hblank : ' ' ∉ op.text.toList := by cases op <;> decide
  have hcut := Text.cutAt?_append " " rfl hblank ("i32 ".toList ++ (l ++ (", ".toList ++ r)))
  have harith : arith? op.text.toList = some op := by cases op <;> rfl
  have hitems : items (l ++ (", ".toList ++ r)) = [l, r] := by
    rw [Text.items_cons_item hl, Text.items_singleton hr]
  rw [rightSide, hcut]
  dsimp only [Option.getD_some]
  rw [if_neg (by cases op <;> decide), if_neg (by cases op <;> decide),
    if_neg (by cases op <;> decide), harith]
  dsimp only
  rw [arithmetic, Text.stripAll_of_none "nsw " rfl, Text.stripAll_of_none "nuw " rfl,
    Text.stripAll_of_none "exact " rfl, Text.stripFront?_append]
  dsimp only
  rw [hitems]
  dsimp only
  rw [hlhs, hrhs]
  rfl

/-- **The right side of an instruction is read back from its text.** -/
theorem rightSide_rightText {i : Instr} {d : Nat} (hd : i.dest? = some d) (h : f.SpellsInstr i)
    (hops : ∀ o ∈ i.operands, Finds g f ρ o)
    (hslot : ∀ s, i.slot? = some s → Finds g f ρ (.value s)) :
    rightSide g (f.rightText i).toList = .ok (pending ρ i) := by
  cases i with
  | store v s | ret v => cases hd
  | alloca d =>
    rw [Function.rightText]
    rfl
  | load d s =>
    have htext : (f.rightText (.load d s)).toList = "load".toList ++ (" ".toList ++
        ("i32".toList ++ (", ".toList ++ (("ptr ".toList ++ (f.valueText s).toList) ++
          (", ".toList ++ "align 4".toList))))) := by
      simp [Function.rightText]
    have hname : IsSolid (f.valueText s).toList := Function.isSolid_percent (h.slot s rfl)
    rw [htext]
    refine rightSide_load ?_ (slot_valueText (h.slot s rfl) (hslot s rfl))
    rw [Text.items_cons_item ⟨by decide, by decide, by decide⟩,
      Text.items_cons_item (hname.isItem_append rfl (by decide) (by decide))]
    rfl
  | binary op l r d =>
    have hl := h.operands l (by simp [Instr.operands])
    have hr := h.operands r (by simp [Instr.operands])
    have htext : (f.rightText (.binary op l r d)).toList = op.text.toList ++ (" ".toList ++
        ("i32 ".toList ++ ((f.operandText l).toList ++
          (", ".toList ++ (f.operandText r).toList)))) := by
      simp [Function.rightText]
    rw [htext]
    exact rightSide_arith op hl.isSolid.isItem hr.isSolid.isItem
      (operand_operandText hl (hops l (by simp [Instr.operands])))
      (operand_operandText hr (hops r (by simp [Instr.operands])))
  | call callee args d =>
    have htext : (f.rightText (.call callee args d)).toList = "call".toList ++ (" ".toList ++
        ("i32 @".toList ++ (callee.toList ++ ("(".toList ++
          (", ".toList.intercalate ((args.map f.argText).map String.toList) ++ ")".toList))))) := by
      simp [Function.rightText]
    rw [htext]
    refine rightSide_call (signature_text (h.callee callee args d rfl) fun w hw => ?_)
      (arguments_argText h.operands hops)
    rw [List.map_map] at hw
    obtain ⟨o, ho, rfl⟩ := List.mem_map.1 hw
    rw [Function.comp_apply, Function.argText, String.toList_append]
    exact (h.operands o ho).isSolid.isItem_append rfl (by decide) (by decide)

/-- The names that the reader knows after an instruction. -/
def named (g f : Function) (i : Instr) : Function :=
  { g with names := g.names ++ i.dest?.toList.map f.valueName }

/-- An instruction that defines a value is read in two parts. -/
theorem definition_text {name : String} (hname : IsWord name) (hnew : name ∉ g.takenNames)
    {right : List Char} (htight : IsTight right) {waiting : Nat → Instr}
    (hright : rightSide g right = .ok waiting) :
    definition g ("%".toList ++ (name.toList ++ (" = ".toList ++ right))) =
      .ok (waiting g.names.length, { g with names := g.names ++ [name] }) := by
  have hblank : ' ' ∉ "%".toList ++ name.toList := by
    rw [List.mem_append, not_or]
    exact ⟨by decide, hname.not_mem (by decide)⟩
  have hcut := Text.cutAt?_append " = " rfl hblank right
  rw [List.append_assoc] at hcut
  rw [definition, hcut]
  dsimp only
  rw [Text.stripFront?_append]
  dsimp only
  rw [Text.trim_of_isTight htight, hright, String.ofList_toList, define, if_neg hnew]
  rfl

/-- A store is read from its text. -/
theorem storeInstr_text {v w : List Char} {value : Operand} {s : Nat} (hv : IsItem v)
    (hw : IsSolid w) (hvalue : operand g v = .ok value) (hs : slot g w = .ok s) :
    storeInstr g (v ++ (", ".toList ++ (("ptr ".toList ++ w) ++
      (", ".toList ++ "align 4".toList)))) = .ok (.store value s) := by
  rw [storeInstr, Text.items_cons_item hv,
    Text.items_cons_item (hw.isItem_append rfl (by decide) (by decide))]
  dsimp only [List.head?_cons, Option.bind_some]
  rw [Text.stripFront?_append]
  dsimp only
  rw [hvalue, hs]
  rfl

/-- **An instruction is read back from its text.** -/
theorem instruction_instrText {i : Instr} (h : f.SpellsInstr i)
    (hops : ∀ o ∈ i.operands, Finds g f ρ o)
    (hslot : ∀ s, i.slot? = some s → Finds g f ρ (.value s))
    (hdest : ∀ d, i.dest? = some d → f.valueName d ∉ g.takenNames ∧ ρ d = g.names.length) :
    instruction g (f.instrText i).toList = .ok (i.renumber ρ, named g f i) := by
  cases hd : i.dest? with
  | some d =>
    obtain ⟨hnew, hnumber⟩ := hdest d hd
    have hdef := definition_text (h.dest d hd) hnew h.isTight_rightText
      (rightSide_rightText hd h hops hslot)
    rw [← hnumber, pending_dest hd] at hdef
    have hnamed : named g f i = { g with names := g.names ++ [f.valueName d] } := by
      rw [named, hd]
      rfl
    rw [Function.toList_instrText_of_dest hd, hnamed]
    exact hdef
  | none =>
    have hnamed : named g f i = g := by
      rw [named, hd, Option.toList_none, List.map_nil, List.append_nil]
    rw [hnamed]
    cases i with
    | store v s =>
      have hv : v ∈ (Instr.store v s).operands := List.mem_singleton_self v
      have hs : IsSolid (f.valueText s).toList := Function.isSolid_percent (h.slot s rfl)
      have hstore := storeInstr_text (h.operands v hv).isSolid.isItem hs
        (operand_operandText (h.operands v hv) (hops v hv))
        (slot_valueText (h.slot s rfl) (hslot s rfl))
      rw [Function.toList_instrText_store, instruction, Text.stripFront?_append]
      dsimp only
      rw [hstore]
      rfl
    | ret v =>
      have hv : v ∈ (Instr.ret v).operands := List.mem_singleton_self v
      have hread := operand_operandText (h.operands v hv) (hops v hv)
      have hnone : stripFront? "store i32 " ("ret i32 ".toList ++ (f.operandText v).toList) = none :=
        rfl
      rw [Function.toList_instrText_ret, instruction, hnone, Text.stripFront?_append]
      dsimp only
      rw [hread]
      rfl
    | _ => cases hd

/-! ### Reading lines -/

/-- Lines that the reader goes over without a fault, from a state to a state. -/
inductive Reads : State → List (List Char) → State → Prop
  | nil {st : State} : Reads st [] st
  | cons {st st' st'' : State} {l : List Char} {ls : List (List Char)}
    (h : line st (trim l) = .ok st') (hs : Reads st' ls st'') : Reads st (l :: ls) st''

namespace Reads

variable {st st' st'' : State} {ls ls' : List (List Char)}

/-- Lines that are read from a state lead to the other state, whatever the number of the first is. -/
theorem lines_eq (h : Reads st ls st') (number : Nat) : lines number st ls = .ok st' := by
  induction h generalizing number with
  | nil => rfl
  | cons h _ ih =>
    rw [lines, h]
    exact ih (number + 1)

/-- Lines are read piece by piece. -/
theorem append (h : Reads st ls st') (h' : Reads st' ls' st'') : Reads st (ls ++ ls') st'' := by
  induction h with
  | nil => exact h'
  | cons h _ ih => exact .cons h (ih h')

/-- One line is read by itself. -/
theorem single {l : List Char} (h : line st (trim l) = .ok st') : Reads st [l] st' :=
  .cons h .nil

/-- An empty line says nothing. -/
theorem empty : Reads st [[]] st :=
  single rfl

end Reads

/-- A line that says nothing about the module. -/
theorem line_skipped (st : State) (first mid last : String)
    (hskip : ∀ s, isSkipped (first.toList ++ s) = true)
    (hfirst : first.toList.head?.all (!Text.isBlank ·) = true) (hne : first.toList ≠ [])
    (hlast : last.toList.getLast?.all (!Text.isBlank ·) = true) (hne' : last.toList ≠ []) :
    line st (trim (first ++ mid ++ last).toList) = .ok st := by
  have htight : IsTight (first.toList ++ (mid.toList ++ last.toList)) :=
    Text.isTight_append hfirst hne hlast hne' mid.toList
  rw [String.toList_append, String.toList_append, List.append_assoc, Text.trim_of_isTight htight,
    line, if_pos (hskip _)]

/-- An instruction goes to the last block. -/
theorem pushInstr_concat (i : Instr) (bs : List Block) (b : Block) :
    pushInstr i (bs ++ [b]) = some (bs ++ [{ b with instrs := b.instrs ++ [i] }]) := by
  induction bs with
  | nil => rfl
  | cons b' bs ih =>
    obtain ⟨c, cs, hc⟩ := List.exists_cons_of_ne_nil (List.concat_ne_nil b bs)
    rw [List.cons_append, hc, pushInstr, ← hc, ih]
    · rfl
    · simp

/-- The line of an instruction is not skipped. -/
theorem isSkipped_instrText {i : Instr} : isSkipped (f.instrText i).toList = false := by
  cases hd : i.dest? with
  | some d =>
    rw [Function.toList_instrText_of_dest hd]
    rfl
  | none =>
    cases i with
    | store v s =>
      rw [Function.toList_instrText_store]
      rfl
    | ret v =>
      rw [Function.toList_instrText_ret]
      rfl
    | _ => cases hd

/-- **A line with an instruction adds it to the last block.** -/
theorem line_instrText {closed : List Function} {i i' : Instr} {g' : Function} {bs : List Block}
    {b : Block} (h : f.SpellsInstr i)
    (hread : instruction g (f.instrText i).toList = .ok (i', g')) (hblocks : g'.blocks = bs ++ [b]) :
    line ⟨closed, some g⟩ (trim ("  " ++ f.instrText i).toList) =
      .ok ⟨closed, some { g' with blocks := bs ++ [{ b with instrs := b.instrs ++ [i'] }] }⟩ := by
  have htrim : trim ("  " ++ f.instrText i).toList = (f.instrText i).toList := by
    rw [String.toList_append]
    show trim (' ' :: ' ' :: (f.instrText i).toList) = _
    rw [Text.trim_cons_blank (by decide), Text.trim_cons_blank (by decide),
      Text.trim_of_isTight h.isTight_instrText]
  have hbrace : (f.instrText i).toList ≠ r"}".toList := by
    intro heq
    refine h.spelled_instrText.not_mem (c := '}') (by decide) ?_
    rw [heq]
    decide
  have hlabel : stripBack? ":" (f.instrText i).toList = none :=
    Text.stripBack?_of_not_mem (List.mem_singleton_self ':') (h.spelled_instrText.not_mem (by decide))
  rw [htrim, line, isSkipped_instrText, if_neg (by decide)]
  dsimp only
  rw [insideLine, if_neg hbrace, hlabel]
  dsimp only
  rw [hread]
  simp only [bind, Except.bind, hblocks, pushInstr_concat]
  rfl

/-- **A label opens a block.** -/
theorem line_label {g : Function} {label : String} (hlabel : IsWord label)
    (hheader : ¬ "source_filename".toList <+: label.toList) (closed : List Function) :
    line ⟨closed, some g⟩ (trim (label ++ ":").toList) =
      .ok ⟨closed, some { g with blocks := g.blocks ++ [⟨label, []⟩] }⟩ := by
  have htight : IsTight (label.toList ++ ":".toList) :=
    Text.isTight_append hlabel.isSolid.head hlabel.isSolid.ne_nil rfl (by decide) []
  have hmem : ∀ c, isWordChar c = false → c ≠ ':' → c ∉ label.toList ++ ":".toList := by
    intro c hc hne hmem
    rcases List.mem_append.1 hmem with hmem | hmem
    · exact hlabel.not_mem hc hmem
    · exact hne (List.mem_singleton.1 hmem)
  have hsource : stripFront? "source_filename" (label.toList ++ ":".toList) = none := by
    rw [Text.stripFront?_eq_none_iff]
    intro hfront
    have hfront' : "source_filename".toList <+: label.toList ++ [':'] := hfront
    rcases List.prefix_concat_iff.1 hfront' with heq | hfront'
    · have hcolon : ':' ∈ "source_filename".toList := by
        rw [heq]
        exact List.mem_append_right _ (List.mem_singleton_self _)
      exact absurd hcolon (by decide)
    · exact hheader hfront'
  have hskip : isSkipped (label.toList ++ ":".toList) = false := by
    have hcomment : stripFront? ";" (label.toList ++ ":".toList) = none :=
      Text.stripFront?_of_not_mem (c := ';') (by decide) (hmem _ (by decide) (by decide))
    have htarget : stripFront? "target " (label.toList ++ ":".toList) = none :=
      Text.stripFront?_of_not_mem (c := ' ') (by decide) (hmem _ (by decide) (by decide))
    have hattributes : stripFront? "attributes " (label.toList ++ ":".toList) = none :=
      Text.stripFront?_of_not_mem (c := ' ') (by decide) (hmem _ (by decide) (by decide))
    simp only [isSkipped, List.any_cons, List.any_nil, hcomment, hsource, htarget, hattributes]
    simp
  have hbrace : label.toList ++ ":".toList ≠ r"}".toList := by
    intro heq
    refine hmem '}' (by decide) (by decide) ?_
    rw [heq]
    decide
  rw [String.toList_append, Text.trim_of_isTight htight, line, hskip, if_neg (by decide)]
  dsimp only
  rw [insideLine, if_neg hbrace, Text.stripBack?_append]
  dsimp only
  rw [String.ofList_toList]

/-! ### The first and last lines of functions -/

/-- The text of a signature with the given texts of parameters. -/
def signatureText (name : String) (ps : List String) : String :=
  "i32 @" ++ name ++ "(" ++ ", ".intercalate ps ++ ")"

/-- A signature is read from its text. -/
theorem signature_signatureText {name : String} (hname : IsWord name) {ps : List String}
    (hps : ∀ p ∈ ps, IsItem p.toList) :
    signature (signatureText name ps).toList = .ok (name, ps.map String.toList) := by
  have htext : (signatureText name ps).toList = "i32 @".toList ++ (name.toList ++ ("(".toList ++
      (", ".toList.intercalate (ps.map String.toList) ++ ")".toList))) := by
    simp [signatureText]
  rw [htext]
  refine signature_text hname ?_
  rw [List.forall_mem_map]
  exact hps

/-- The text of a signature ends in no blank. -/
theorem signatureText_last (name : String) (ps : List String) :
    (signatureText name ps).toList ≠ [] ∧
      (signatureText name ps).toList.getLast?.all (!Text.isBlank ·) = true := by
  rw [signatureText, String.toList_append]
  refine ⟨List.append_ne_nil_of_right_ne_nil _ (by decide), ?_⟩
  rw [List.getLast?_append_of_ne_nil _ (by decide)]
  rfl

/-- The text of a signature has characters of a line only. -/
theorem spelled_signatureText {name : String} (hname : IsWord name) {ps : List String}
    (hps : ∀ p ∈ ps, Spelled p.toList) : Spelled (signatureText name ps).toList := by
  have hparams : Spelled (", ".intercalate ps).toList := by
    rw [String.toList_intercalate]
    refine spelled_intercalate ?_
    rw [List.forall_mem_map]
    exact hps
  simp only [signatureText, String.toList_append]
  refine Spelled.append (Spelled.append ?_ hparams) (by decide)
  exact Spelled.append (Spelled.append (by decide) (spelled_word hname)) (by decide)

/-- The names of parameters are read from their texts. -/
theorem paramNames_text {ps : List String} (hps : ∀ p ∈ ps, IsWord p) (index : Nat) :
    paramNames index ((ps.map ("i32 %" ++ ·)).map String.toList) = .ok ps := by
  induction ps generalizing index with
  | nil => rfl
  | cons p ps ih =>
    rw [List.forall_mem_cons] at hps
    have htext : ("i32 %" ++ p).toList = "i32".toList ++ ' ' :: ("%" ++ p).toList := by simp
    have hword : Text.secondWord? ("i32 %" ++ p).toList = some ("%" ++ p).toList := by
      have hi32 : IsSolid "i32".toList := by decide
      rw [htext, Text.secondWord?_append hi32 (Function.isSolid_percent hps.1)]
    have hstrip : stripFront? "%" ("%" ++ p).toList = some p.toList := by
      rw [String.toList_append, Text.stripFront?_append]
    have hname : paramName index ("i32 %" ++ p).toList = .ok p := by
      rw [paramName, hword]
      dsimp only
      rw [hstrip]
      dsimp only
      rw [String.ofList_toList]
    rw [List.map_cons, List.map_cons, paramNames, hname, ih hps.2]
    rfl

/-- A function with a new name is added. -/
theorem addFunction_of_new {closed : List Function} {f : Function}
    (h : f.name ∉ closed.map Function.name) : addFunction closed f = .ok (closed ++ [f]) := by
  have hany : closed.any (·.name == f.name) = false := by
    rw [List.any_eq_false]
    intro g hg heq
    exact h (eq_of_beq heq ▸ List.mem_map_of_mem hg)
  rw [addFunction, hany, if_neg (by decide)]

/-- A line that declares a function adds it, with parameters that are named by their places. -/
theorem line_declare {closed : List Function} {sig name : String} {ws : List (List Char)}
    (hsig : signature sig.toList = .ok (name, ws)) (hne : sig.toList ≠ [])
    (hlast : sig.toList.getLast?.all (!Text.isBlank ·) = true)
    (hnew : name ∉ closed.map Function.name) :
    line ⟨closed, none⟩ (trim ("declare " ++ sig).toList) =
      .ok ⟨closed ++ [Function.declare name ((List.range ws.length).map defaultParam)], none⟩ := by
  have htight : IsTight ("declare ".toList ++ sig.toList) :=
    Text.isTight_append rfl (by decide) hlast hne []
  have hskip : isSkipped ("declare ".toList ++ sig.toList) = false := rfl
  have hadd := addFunction_of_new
    (f := Function.declare name ((List.range ws.length).map defaultParam)) hnew
  rw [String.toList_append, Text.trim_of_isTight htight, line, hskip, if_neg (by decide)]
  dsimp only
  rw [outsideLine, Text.stripFront?_append]
  dsimp only
  rw [hsig]
  show (addFunction closed (Function.declare name _) >>= _) = _
  rw [hadd]
  rfl

/-- A line that starts a definition leaves it open. -/
theorem line_define {closed : List Function} {sig name : String} {ws : List (List Char)}
    {params : List String} (hsig : signature sig.toList = .ok (name, ws))
    (hlast : sig.toList.getLast?.all (!Text.isBlank ·) = true)
    (hparams : paramNames 0 ws = .ok params) :
    line ⟨closed, none⟩ (trim ("define " ++ sig ++ r" {").toList) =
      .ok ⟨closed, some (Function.declare name params)⟩ := by
  have htext : ("define " ++ sig ++ r" {").toList =
      "define ".toList ++ ((sig.toList ++ [' ']) ++ r"{".toList) := by
    simp
  have htight : IsTight ("define ".toList ++ ((sig.toList ++ [' ']) ++ r"{".toList)) :=
    Text.isTight_append rfl (by decide) rfl (by decide) _
  have hskip : isSkipped ("define ".toList ++ ((sig.toList ++ [' ']) ++ r"{".toList)) = false := rfl
  have hdeclare : stripFront? "declare "
      ("define ".toList ++ ((sig.toList ++ [' ']) ++ r"{".toList)) = none := rfl
  rw [htext, Text.trim_of_isTight htight, line, hskip, if_neg (by decide)]
  dsimp only
  rw [outsideLine, hdeclare, Text.stripFront?_append]
  dsimp only
  rw [Text.stripBack?_append]
  dsimp only
  rw [Text.trimEnd_concat_blank (by decide), Text.trimEnd_of_last hlast, hsig]
  show (paramNames 0 ws >>= _) = _
  rw [hparams]
  rfl

/-- A brace closes the definition that is open. -/
theorem line_close {closed : List Function} {g : Function} (hdef : g.isDeclaration = false)
    (hnew : g.name ∉ closed.map Function.name) :
    line ⟨closed, some g⟩ (trim r"}".toList) = .ok ⟨closed ++ [g], none⟩ := by
  have htrim : trim r"}".toList = r"}".toList := by decide
  have hskip : isSkipped r"}".toList = false := by decide
  rw [htrim, line, hskip, if_neg (by decide)]
  dsimp only
  rw [insideLine, if_pos rfl, hdef, if_neg (by decide), addFunction_of_new hnew]
  rfl

end Reader
end IR
end Straightline
