/-
# What was read is read back as it was

The reader accepts many texts for one module: marks such as `nsw`, parameters without names, empty places
in lists, blanks and comments leave no trace in what is read.  So the text of a module that was read is in
general not the text that it was read from.  But it leads back to the same module, number by number and
name by name, if all names are words.

The text of a module is read back with values numbered in the order of their definitions, and with new
names for the parameters of declarations (`Module.read_text`).  In a module that was read both are so
already: its values have these numbers (`Function.renumbered_of_numbered`), and its declarations have no
other names (`Function.reread_of_read`).  That its definitions can be told apart in the text
(`Module.InWords.readable`) needs nothing of verification: it is enough that instructions are in order, that
value names are used once, and that a parameter is mentioned by the first place of its name.
-/

import Straightline.Proofs.ReadModules
import Straightline.Proofs.RoundTrip

namespace Straightline
namespace IR

open Text (IsWord)

/-! ### Numbers that stay -/

section Renumber

variable {ρ : Nat → Nat}

/-- An operand whose number stays is left as it is. -/
theorem Operand.renumber_eq_self {o : Operand} (h : ∀ id, o = .value id → ρ id = id) :
    o.renumber ρ = o := by
  cases o with
  | value id => exact congrArg Operand.value (h id rfl)
  | _ => rfl

/-- An instruction whose values and slots keep their numbers is not changed. -/
theorem Instr.renumber_eq_self {i : Instr} (hreads : ∀ id ∈ i.reads, ρ id = id)
    (hdest : ∀ d, i.dest? = some d → ρ d = d) : i.renumber ρ = i := by
  have hop : ∀ o ∈ i.operands, o.renumber ρ = o := by
    intro o ho
    refine Operand.renumber_eq_self ?_
    rintro id rfl
    exact hreads id (mem_reads_of_operand ho)
  have hslot : ∀ s, i.slot? = some s → ρ s = s := fun s hs => hreads s (mem_reads_of_slot hs)
  cases i with
  | alloca d => rw [renumber, hdest d rfl]
  | load d s => rw [renumber, hdest d rfl, hslot s rfl]
  | store v s => rw [renumber, hop v (by simp [operands]), hslot s rfl]
  | binary op l r d =>
    rw [renumber, hop l (by simp [operands]), hop r (by simp [operands]), hdest d rfl]
  | call callee args d =>
    have hargs : args.map (Operand.renumber ρ) = args := map_eq_self hop
    rw [renumber, hargs, hdest d rfl]
  | ret v => rw [renumber, hop v (by simp [operands])]

end Renumber

namespace Function

variable {f : Function}

/-- **Values that are numbered in order keep their numbers.** -/
theorem renumbered_of_numbered (hf : f.Numbered) (hclosed : f.Closed) : f.renumbered = f := by
  have hplace : ∀ id ∈ f.dests, f.dests.idxOf id = id := by
    rw [hf.dests]
    intro id hid
    have hlt : id < (List.range f.names.length).length := by simpa using hid
    have hidx := List.nodup_range.idxOf_getElem id hlt
    rwa [List.getElem_range] at hidx
  have hnames : f.dests.map f.valueName = f.names := by
    rw [hf.dests]
    refine List.ext_getElem (by simp) fun k hk hk' => ?_
    rw [List.getElem_map, List.getElem_range, valueName_eq_getElem hk']
  have hblock : ∀ b ∈ f.blocks, b.renumber f.dests.idxOf = b := by
    intro b hb
    rw [Block.renumber, map_eq_self fun i hi => ?_]
    have hmem : i ∈ f.instrs := List.mem_flatMap.2 ⟨b, hb, hi⟩
    exact Instr.renumber_eq_self (fun id hid => hplace id (hclosed.reads i hmem id hid))
      fun d hd => hplace d (mem_dests hmem hd)
  rw [renumbered, hnames, map_eq_self hblock]

/-- **A function that was read is read back as it was.** -/
theorem reread_of_read {m : Module} {name text : String} (h : Module.read name text = .ok m)
    (hf : f ∈ m.functions) : f.reread = f := by
  cases hdef : f.isDeclaration with
  | false =>
    rw [reread_of_definition hdef]
    exact renumbered_of_numbered (Module.numbered_of_read h f hf) (Module.ordered_of_read h f hf).closed
  | true =>
    have hblocks : f.blocks = [] := List.isEmpty_iff.1 hdef
    rcases Module.declared_of_read h f hf with hne | ⟨line, -, -, params, -, -, heq⟩
    · exact absurd hblocks hne
    · have harity : f.arity = params.length := by
        rw [heq]
        simp [arity, declare]
      rw [reread, if_pos hdef, harity]
      exact heq.symm

end Function

/-- The name of the function that an instruction calls. -/
def Instr.callee? : Instr → Option String
  | .call callee _ _ => some callee
  | _ => none

namespace Module

/-- A module in which all names are words: those of functions, parameters, values, labels and callees. -/
structure InWords (m : Module) : Prop where
  functions : ∀ f ∈ m.functions, IsWord f.name
  params : ∀ f ∈ m.functions, ∀ p ∈ f.params, IsWord p
  values : ∀ f ∈ m.functions, ∀ n ∈ f.names, IsWord n
  labels : ∀ f ∈ m.functions, ∀ b ∈ f.blocks, IsWord b.label
  callees : ∀ f ∈ m.functions, ∀ i ∈ f.instrs, ∀ callee ∈ i.callee?, IsWord callee

instance (m : Module) : Decidable m.InWords :=
  decidable_of_iff ((∀ f ∈ m.functions, IsWord f.name) ∧ (∀ f ∈ m.functions, ∀ p ∈ f.params, IsWord p) ∧
      (∀ f ∈ m.functions, ∀ n ∈ f.names, IsWord n) ∧
      (∀ f ∈ m.functions, ∀ b ∈ f.blocks, IsWord b.label) ∧
      ∀ f ∈ m.functions, ∀ i ∈ f.instrs, ∀ callee ∈ i.callee?, IsWord callee)
    ⟨fun ⟨hf, hp, hv, hl, hc⟩ => ⟨hf, hp, hv, hl, hc⟩,
      fun h => ⟨h.functions, h.params, h.values, h.labels, h.callees⟩⟩

variable {m : Module} {name text : String}

/-- A module that was read, and whose names are words, can be read back. -/
theorem InWords.readable (hw : m.InWords) (h : read name text = .ok m) :
    ∀ f ∈ m.functions, f.Readable := by
  intro f hf
  have hnumbered := numbered_of_read h f hf
  have hlabels : ∀ b ∈ f.blocks, IsWord b.label ∧ ¬ "source_filename".toList <+: b.label.toList :=
    fun b hb => ⟨hw.labels f hf b hb, labels_of_read h f hf b.label (List.mem_map_of_mem hb)⟩
  have hlegible : f.Legible :=
    ⟨hw.params f hf, hw.values f hf, hlabels, hnumbered.names, hnumbered.apart⟩
  refine ⟨hw.functions f hf, fun _ => hlegible, fun _ => ordered_of_read h f hf, ?_⟩
  rintro i hi callee args d rfl
  exact hw.callees f hf _ hi callee rfl

/-- A module that was read has its values in order already, so it is the one that is read back. -/
theorem reread_of_read (h : read name text = .ok m) : m.reread name = m := by
  rw [reread, map_eq_self fun f hf => Function.reread_of_read h hf, ← name_of_read h]

end Module

/-- **What was read is read back as it was.**  If all names in a module that was read are words, it has a
text, and from that text the very same module is read. -/
theorem read_text_of_read (name text : String) (m : Module) (hname : '\n' ∉ name.toList)
    (h : Module.read name text = .ok m) (hw : m.InWords) :
    ∃ printed, m.text? = some printed ∧ Module.read name printed = .ok m := by
  have hname' : '\n' ∉ m.name.toList := by rwa [Module.name_of_read h]
  refine ⟨m.text, if_pos (Module.nameable_of_read h), ?_⟩
  rw [Module.read_text hname' (hw.readable h) (Module.nodup_of_read h) name, Module.reread_of_read h]

/-- A text that no module has: parameters without names or twice of one name, marks, empty places, and a
definition with three blocks, one of them empty and one with two ends. -/
def untidyText : String :=
  "\n".intercalate ["declare i32 @lib(i32, , i8 %ignored)", r"  define i32 @f(i32, i32 %a, i32 %a) { ",
    " first:", "%x = alloca i8, align 1", "\tstore i32 -7,ptr %x", "%y = sdiv exact i32 undef , %a",
    "ret i32 %y", "ret i32 +4", "empty:", "; nothing", "last:",
    "%z = call  i32 @lib( i32 %x,, i32 %arg0 ) ", r"}"]

/-- What is read from `untidyText`. -/
def untidyModule : Module :=
  ⟨"a b", [.declare "lib" ["arg0", "arg1"],
    ⟨"f", ["arg0", "a", "a"], ["x", "y", "z"],
      [⟨"first", [.alloca 0, .store (.const (-7)) 0, .binary .sdiv .undef (.param 1) 1, .ret (.value 1),
          .ret (.const 4)]⟩,
        ⟨"empty", []⟩, ⟨"last", [.call "lib" [.value 0, .param 0] 2]⟩]⟩]⟩

/-- The hypotheses are satisfiable: `untidyModule` is read from another text than its own, all its names
are words, verification refuses it, and it is read back. -/
theorem read_text_untidy : Module.read "a b" untidyText = .ok untidyModule ∧ untidyModule.InWords ∧
    untidyModule.verify = .error (.blockCount "f" 3) ∧
    ∃ printed, untidyModule.text? = some printed ∧ Module.read "a b" printed = .ok untidyModule := by
  have h : Module.read "a b" untidyText = .ok untidyModule := by decide +kernel
  have hw : untidyModule.InWords := by decide
  exact ⟨h, hw, rfl, read_text_of_read "a b" untidyText untidyModule (by decide) h hw⟩

end IR
end Straightline
