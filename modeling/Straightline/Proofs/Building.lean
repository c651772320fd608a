/-
# Modules under construction stay in order

A builder is in order (`Builder.Sound`) if its functions have different names, their values are numbered
in the order of their definitions, and the place for the next instruction is the last block of a
function.  The last point is what makes the others last: an instruction that is added where the next one
goes is then the last of its function, so its result has the next number (`Builder.gains_pushTo`).

Every step keeps a builder in order.  Most steps change one function and leave its name
(`Builder.Sound.modify`).  Linking puts whole functions in the place of others, and may stop on the way;
but it replaces declarations only, and the function in which the next instruction goes has a block
(`Linking.getElem?_of_place`).

A step that adds a value has two halves: a name is added, and then an instruction.  No step ever fails
between them (`Builder.valueInHalves_eq`), so a step that fails has changed nothing.
-/

import Straightline.IR.Builder
import Straightline.Proofs.Linking
import Straightline.Proofs.ReadModules

namespace Straightline
namespace IR

/-! ### Linking as far as it goes -/

namespace Linking

variable {new f : Function} {dest src fs : List Function}

/-- A definition that is placed without an error is placed as `placed` says. -/
theorem eq_placed_of_place (h : place new dest = .ok fs) : fs = placed new dest := by
  induction dest generalizing fs with
  | nil => exact (Except.ok.inj h).symm
  | cons old rest ih =>
    rw [place] at h
    rw [placed]
    split at h
    · rename_i hname
      obtain ⟨merged, hmerge, rfl⟩ := Except.map_eq_ok_iff.1 h
      have hpick := (fits_of_merge hmerge).merge_eq_ok
      rw [if_pos hname, Except.ok.inj (hmerge.symm.trans hpick)]
    · rename_i hname
      obtain ⟨fs', hplace, rfl⟩ := Except.map_eq_ok_iff.1 h
      rw [if_neg hname, ih hplace]

/-- **A definition stays where it is** when another function is placed. -/
theorem getElem?_of_place {k : Nat} (h : place new dest = .ok fs) (hk : dest[k]? = some f)
    (hf : f.isDeclaration = false) : fs[k]? = some f := by
  induction dest generalizing fs k with
  | nil => cases hk
  | cons old rest ih =>
    rw [place] at h
    split at h
    · obtain ⟨merged, hmerge, rfl⟩ := Except.map_eq_ok_iff.1 h
      cases k with
      | succ k => exact hk
      | zero =>
        obtain rfl := Option.some.inj hk
        have hfits := fits_of_merge hmerge
        have hnew : new.isDeclaration = true := hfits.once.resolve_left (by simp [hf])
        have hmerged : merged = old := by
          rw [Except.ok.inj (hmerge.symm.trans hfits.merge_eq_ok), pick, if_pos hnew]
        rw [hmerged]
        rfl
    · obtain ⟨fs', hplace, rfl⟩ := Except.map_eq_ok_iff.1 h
      cases k with
      | zero => exact hk
      | succ k =>
        show fs'[k]? = some f
        exact ih hplace hk

/-- **What every function keeps that is placed, all that are placed keep,** also if a later one cannot
be. -/
theorem functions_keep {P : List Function → Prop}
    (hplace : ∀ dest fs, ∀ new ∈ src, place new dest = .ok fs → P dest → P fs) (h : P dest) :
    P (functions dest src).2 := by
  induction src generalizing dest with
  | nil => exact h
  | cons new rest ih =>
    rw [functions]
    split
    · exact h
    · rename_i fs hfs
      exact ih (fun dest fs new hnew => hplace dest fs new (List.mem_cons_of_mem _ hnew))
        (hplace dest fs new List.mem_cons_self hfs h)

/-- What all functions on both sides have, all have that are there in the end. -/
theorem forall_mem_functions {P : Function → Prop} (hdest : ∀ f ∈ dest, P f) (hsrc : ∀ f ∈ src, P f) :
    ∀ f ∈ (functions dest src).2, P f := by
  refine functions_keep (P := fun fs => ∀ f ∈ fs, P f) ?_ hdest
  intro dest fs new hnew hplace hdest f hf
  rw [eq_placed_of_place hplace] at hf
  rcases mem_placed hf with hmem | rfl
  · exact hdest f hmem
  · exact hsrc f hnew

end Linking

/-! ### Builders in order -/

namespace Builder

/-- A builder in order. -/
structure Sound (b : Builder) : Prop where
  names : (b.module.functions.map Function.name).Nodup
  numbered : ∀ f ∈ b.module.functions, f.Numbered
  point : ∀ p, b.point = some p →
    ∃ f, b.module.functions[p.function]? = some f ∧ f.blocks.length = p.block + 1

variable {b b' : Builder} {f : Function} {i : Instr}

/-- A builder starts from any module in which names are distinct and values are numbered. -/
theorem sound_ofModule {m : Module} (hnames : (m.functions.map Function.name).Nodup)
    (hnumbered : ∀ f ∈ m.functions, f.Numbered) : (ofModule m).Sound :=
  ⟨hnames, hnumbered, fun p hp => (by cases hp)⟩

/-- A function that is added keeps the builder sound. -/
theorem Sound.addFunction (hb : b.Sound) {name : String} {params : List String} {k : Nat}
    (h : b.addFunction name params = .ok (k, b')) : b'.Sound := by
  unfold Builder.addFunction at h
  split at h
  · cases h
  · rename_i hindex
    obtain ⟨-, rfl⟩ := Prod.mk.inj (Except.ok.inj h)
    have hnew : name ∉ b.module.functions.map Function.name := by
      intro hmem
      obtain ⟨f, hf, rfl⟩ := List.mem_map.1 hmem
      have hne := List.findIdx?_eq_none_iff.1 hindex f hf
      simp at hne
    refine ⟨?_, fun f hf => ?_, fun p hp => ?_⟩
    · rw [List.map_append]
      exact nodup_append_singleton_iff.2 ⟨hb.names, hnew⟩
    · rcases List.mem_append.1 hf with hf | hf
      · exact hb.numbered f hf
      · rw [List.mem_singleton.1 hf]
        exact Function.numbered_declare name params
    · obtain ⟨f, hf, hlen⟩ := hb.point p hp
      obtain ⟨hlt, -⟩ := List.getElem?_eq_some_iff.1 hf
      exact ⟨f, (List.getElem?_append_left hlt).trans hf, hlen⟩

/-- **A change to one function keeps a builder in order** if the function keeps its name, its values are
numbered afterwards, and the next instruction goes to its last block or to where it went before. -/
theorem Sound.modify (hb : b.Sound) {k : Nat} {g : Function → Function} {point : Option InsertPoint}
    (hk : b.module.functions[k]? = some f) (hname : (g f).name = f.name)
    (hnumbered : (g f).Numbered)
    (hpoint : ∀ p, point = some p → p.function = k ∧ (g f).blocks.length = p.block + 1) :
    Sound { b.modifyFunction k g with point := point } := by
  have hfind : ∀ j, (b.module.functions.modify k g)[j]? =
      if k = j then some (g f) else b.module.functions[j]? := by
    intro j
    rw [List.getElem?_modify]
    by_cases hj : k = j
    · subst hj
      simp [hk]
    · simp [hj]
  refine ⟨?_, fun f' hf' => ?_, fun p hp => ?_⟩
  · have hnames : (b.module.functions.modify k g).map Function.name =
        b.module.functions.map Function.name := by
      refine List.ext_getElem? fun j => ?_
      rw [List.getElem?_map, List.getElem?_map, hfind]
      by_cases hj : k = j
      · subst hj
        simp [hk, hname]
      · rw [if_neg hj]
    exact hnames ▸ hb.names
  · obtain ⟨j, hj⟩ := List.mem_iff_getElem?.1 hf'
    have hfound := (hfind j).symm.trans hj
    split at hfound
    · obtain rfl := Option.some.inj hfound
      exact hnumbered
    · exact hb.numbered f' (List.mem_of_getElem? hfound)
  · obtain ⟨rfl, hlen⟩ := hpoint p hp
    exact ⟨g f, (hfind _).trans (if_pos rfl), hlen⟩

/-- A function is found exactly at the index it has in the module. -/
theorem function_eq_ok_iff {k : Nat} :
    b.function k = .ok f ↔ b.module.functions[k]? = some f := by
  unfold Builder.function
  cases b.module.functions[k]? <;> simp

/-- A block that is added keeps the builder sound. -/
theorem Sound.appendBlock (hb : b.Sound) {k : Nat} {label : String}
    (h : b.appendBlock k label = .ok b') : b'.Sound := by
  obtain ⟨f, hf, h⟩ := Except.bind_eq_ok_iff.1 h
  obtain rfl := Except.ok.inj h
  rw [function_eq_ok_iff] at hf
  refine hb.modify hf rfl ?_ fun p hp => ?_
  · exact (hb.numbered f (List.mem_of_getElem? hf)).congr rfl rfl (by simp [Function.instrs])
  · obtain rfl := Option.some.inj hp
    exact ⟨rfl, by simp⟩

/-! ### Instructions at the end -/

/-- An instruction that goes to the last block is the function's last one. -/
theorem instrs_pushTo {k : Nat} (h : f.blocks.length = k + 1) :
    (pushTo k i f).instrs = f.instrs ++ [i] := by
  have hpush : ∀ (blocks : List Block) (k : Nat), blocks.length = k + 1 →
      (blocks.modify k fun b => { b with instrs := b.instrs ++ [i] }).flatMap Block.instrs =
        blocks.flatMap Block.instrs ++ [i] := by
    intro blocks
    induction blocks with
    | nil =>
      intro k h
      cases h
    | cons b bs ih =>
      intro k h
      cases k with
      | zero =>
        obtain rfl : bs = [] := List.length_eq_zero_iff.1 (Nat.succ.inj h)
        simp
      | succ k =>
        rw [List.modify_succ_cons, List.flatMap_cons, List.flatMap_cons, ih k (Nat.succ.inj h),
          List.append_assoc]
  exact hpush f.blocks k h

/-- An instruction without a result is gained as it is. -/
theorem gains_pushTo {k : Nat} (h : f.blocks.length = k + 1) (hi : i.dest? = none) :
    f.Gains i (pushTo k i f) :=
  ⟨rfl, instrs_pushTo h, .inl ⟨hi, rfl⟩⟩

/-- An instruction with a result is gained with the next number for it. -/
theorem gains_pushTo_addValue {k : Nat} (h : f.blocks.length = k + 1) (base : String)
    (hi : i.dest? = some f.names.length) : f.Gains i (pushTo k i (f.addValue base)) :=
  ⟨rfl, instrs_pushTo (f := f.addValue base) h, .inr ⟨_, Names.fresh_not_mem _ _, hi, rfl⟩⟩

/-- No block comes or goes when an instruction is added. -/
theorem length_blocks_pushTo (k : Nat) (i : Instr) (f : Function) :
    (pushTo k i f).blocks.length = f.blocks.length :=
  List.length_modify ..

/-- **An instruction without a result keeps a builder in order.** -/
theorem Sound.push (hb : b.Sound) (hi : i.dest? = none) (h : b.push i = .ok b') : b'.Sound := by
  unfold Builder.push at h
  split at h
  · cases h
  · rename_i p hp
    obtain rfl := Except.ok.inj h
    obtain ⟨f, hf, hlen⟩ := hb.point p hp
    refine hb.modify hf rfl ?_ fun p' hp' => ?_
    · exact (hb.numbered f (List.mem_of_getElem? hf)).gains (gains_pushTo hlen hi)
    · obtain rfl := Option.some.inj (hp.symm.trans hp')
      exact ⟨rfl, (length_blocks_pushTo ..).trans hlen⟩

/-- **An instruction with a result keeps a builder in order.** -/
theorem Sound.pushValue (hb : b.Sound) {base : String} {i : Nat → Instr} {d : Nat}
    (hi : ∀ d, (i d).dest? = some d) (h : b.pushValue base i = .ok (d, b')) : b'.Sound := by
  unfold Builder.pushValue at h
  split at h
  · cases h
  · rename_i p hp
    obtain ⟨f, hf, h⟩ := Except.bind_eq_ok_iff.1 h
    obtain ⟨-, rfl⟩ := Prod.mk.inj (Except.ok.inj h)
    rw [function_eq_ok_iff] at hf
    obtain ⟨f', hf', hlen⟩ := hb.point p hp
    obtain rfl := Option.some.inj (hf.symm.trans hf')
    refine hb.modify hf rfl ?_ fun p' hp' => ?_
    · exact (hb.numbered f (List.mem_of_getElem? hf)).gains (gains_pushTo_addValue hlen base (hi _))
    · obtain rfl := Option.some.inj (hp.symm.trans hp')
      exact ⟨rfl, (length_blocks_pushTo ..).trans hlen⟩

/-- **Linking keeps a builder in order, also if it fails.** -/
theorem Sound.link (hb : b.Sound) {src : Module}
    (hnumbered : ∀ f ∈ src.functions, f.Numbered) :
    Sound { b with module := (b.module.link src).2 } := by
  refine ⟨?_, Linking.forall_mem_functions hb.numbered hnumbered, fun p hp => ?_⟩
  · refine Linking.functions_keep (P := fun fs => (fs.map Function.name).Nodup) ?_ hb.names
    intro dest fs new _ hplace hdest
    rw [Linking.eq_placed_of_place hplace]
    exact Linking.nodup_placed hdest
  · obtain ⟨f, hf, hlen⟩ := hb.point p hp
    have hdef : f.isDeclaration = false := by
      rw [Function.isDeclaration, List.isEmpty_eq_false_iff, ← List.length_pos_iff]
      omega
    refine ⟨f, ?_, hlen⟩
    refine Linking.functions_keep (P := fun fs => fs[p.function]? = some f) ?_ hf
    intro dest fs new _ hplace hdest
    exact Linking.getElem?_of_place hplace hdest hdef

/-! ### Steps -/

/-- A step of the builder. -/
inductive Step
  | addFunction (name : String) (params : List String)
  | appendBlock (index : Nat) (label : String)
  | param (index place : Nat)
  | alloca (name : String)
  | load (slot : Nat) (name : String)
  | store (value : Operand) (slot : Nat)
  | binary (op : Arith) (lhs rhs : Operand) (name : String)
  | call (index : Nat) (args : List Operand) (name : String)
  | ret (value : Operand)

/-- The builder after a step. -/
def Step.next (b : Builder) : Step → Except Error Builder
  | addFunction name params => (b.addFunction name params).map Prod.snd
  | appendBlock index label => b.appendBlock index label
  | param index place => (b.param index place).map fun _ => b
  | alloca name => (b.alloca name).map Prod.snd
  | load slot name => (b.load slot name).map Prod.snd
  | store value slot => b.store value slot
  | binary op lhs rhs name => (b.binary op lhs rhs name).map Prod.snd
  | call index args name => (b.call index args name).map Prod.snd
  | ret value => b.ret value

/-- The numbers of functions that a step mentions are those of functions. -/
def Step.Allowed (b : Builder) : Step → Prop
  | appendBlock index _ | param index _ | call index _ _ => index < b.module.functions.length
  | _ => True

/-- **Every step keeps a builder in order.** -/
theorem Sound.next (hb : b.Sound) {s : Step} (h : s.next b = .ok b') : b'.Sound := by
  cases s with
  | addFunction name params =>
    obtain ⟨⟨k, _⟩, hstep, rfl⟩ := Except.map_eq_ok_iff.1 h
    exact hb.addFunction hstep
  | appendBlock index label => exact hb.appendBlock h
  | param index place =>
    obtain ⟨-, -, rfl⟩ := Except.map_eq_ok_iff.1 h
    exact hb
  | alloca name | load slot name | binary op lhs rhs name =>
    obtain ⟨⟨d, _⟩, hstep, rfl⟩ := Except.map_eq_ok_iff.1 h
    exact hb.pushValue (fun _ => rfl) hstep
  | call index args name =>
    obtain ⟨⟨d, _⟩, hstep, rfl⟩ := Except.map_eq_ok_iff.1 h
    obtain ⟨callee, -, hpush⟩ := Except.bind_eq_ok_iff.1 hstep
    exact hb.pushValue (fun _ => rfl) hpush
  | store value slot | ret value => exact hb.push rfl h

/-! ### Steps that fail -/

/-- An index below the number of functions finds one. -/
theorem exists_function_eq_ok {k : Nat} (h : k < b.module.functions.length) :
    ∃ f, b.function k = .ok f :=
  ⟨_, function_eq_ok_iff.2 (List.getElem?_eq_getElem h)⟩

/-- A sound builder has the function in which it adds values. -/
theorem Sound.pushValue_ne (hb : b.Sound) (base : String) (i : Nat → Instr) (k : Nat) :
    b.pushValue base i ≠ .error (.noSuchFunction k) := by
  unfold Builder.pushValue
  split
  · simp
  · rename_i p hp
    obtain ⟨f, hf, -⟩ := hb.point p hp
    rw [function_eq_ok_iff.2 hf]
    exact nofun

/-- **No step asks for a function that does not exist,** if the numbers in it are those of functions. -/
theorem Sound.next_ne (hb : b.Sound) {s : Step} (hs : s.Allowed b) (k : Nat) :
    s.next b ≠ .error (.noSuchFunction k) := by
  have hvalue : ∀ base i, (b.pushValue base i).map Prod.snd ≠ .error (.noSuchFunction k) := by
    intro base i
    have hne := hb.pushValue_ne base i k
    cases hpush : b.pushValue base i with
    | ok r => exact nofun
    | error e =>
      rw [hpush] at hne
      exact fun h => hne (congrArg Except.error (Except.error.inj h))
  cases s with
  | addFunction name params =>
    rw [Step.next, Builder.addFunction]
    split <;> exact nofun
  | appendBlock index label =>
    obtain ⟨f, hf⟩ := exists_function_eq_ok hs
    rw [Step.next, Builder.appendBlock, hf]
    exact nofun
  | param index place =>
    obtain ⟨f, hf⟩ := exists_function_eq_ok hs
    rw [Step.next, Builder.param, hf]
    show Except.map _ (if place < f.arity then _ else _) ≠ _
    split <;> exact nofun
  | alloca name | load slot name | binary op lhs rhs name => exact hvalue _ _
  | call index args name =>
    obtain ⟨f, hf⟩ := exists_function_eq_ok hs
    rw [Step.next, Builder.call, hf]
    exact hvalue _ _
  | store value slot | ret value =>
    rw [Step.next]
    show Builder.push b _ ≠ _
    unfold Builder.push
    split <;> exact nofun

/-- What a step leaves behind that changes all or nothing. -/
def settle (b : Builder) : Except Error Builder → Except Error Unit × Builder
  | .ok b' => (.ok (), b')
  | .error e => (.error e, b)

/-- Adds the name of a value to the function in which the next instruction goes. -/
def nameValue (b : Builder) (base : String) : Except Error (Nat × Builder) :=
  match b.point with
  | none => .error .noInsertPoint
  | some p => do
    let f ← b.function p.function
    return (f.names.length, b.modifyFunction p.function (·.addValue base))

/-- Adds a value in two halves, first its name and then its instruction.  If the second half fails,
the first one stays. -/
def valueInHalves (b : Builder) (base : String) (i : Nat → Instr) : Except Error Unit × Builder :=
  match b.nameValue base with
  | .error e => (.error e, b)
  | .ok (d, b') => b'.settle (b'.push (i d))

/-- **The two halves of a value are one step,** all of which is done or nothing: there is a place for
the instruction if there was one for the name. -/
theorem valueInHalves_eq (b : Builder) (base : String) (i : Nat → Instr) :
    b.valueInHalves base i = b.settle ((b.pushValue base i).map Prod.snd) := by
  unfold valueInHalves nameValue Builder.pushValue
  cases hp : b.point with
  | none => rfl
  | some p =>
    cases hf : b.function p.function with
    | error e => simp only [hf]; rfl
    | ok f =>
      have hpush : (b.modifyFunction p.function (·.addValue base)).push (i f.names.length) =
          .ok (b.modifyFunction p.function fun f' =>
            pushTo p.block (i f.names.length) (f'.addValue base)) := by
        simp only [Builder.push, modifyFunction, hp, List.modify_modify_eq]
        rfl
      simp only [hf]
      show settle _ (Builder.push (b.modifyFunction _ _) _) = _
      rw [hpush]
      rfl

/-- A step as it is made, with what it has changed by the time it fails. -/
def Step.perform (b : Builder) : Step → Except Error Unit × Builder
  | alloca name => b.valueInHalves name .alloca
  | load slot name => b.valueInHalves name (.load · slot)
  | binary op lhs rhs name => b.valueInHalves name (.binary op lhs rhs)
  | call index args name =>
    match b.function index with
    | .error e => (.error e, b)
    | .ok callee => b.valueInHalves name (.call callee.name args)
  | s => b.settle (s.next b)

/-- **A step is made as a whole or not at all.** -/
theorem Step.perform_eq (b : Builder) (s : Step) : s.perform b = b.settle (s.next b) := by
  cases s with
  | alloca name | load slot name | binary op lhs rhs name => exact valueInHalves_eq b name _
  | call index args name =>
    rw [Step.perform, Step.next, Builder.call]
    cases b.function index with
    | error e => rfl
    | ok callee => exact valueInHalves_eq b name _
  | _ => rfl

/-- The builders that come up: from nothing or from a module that was read, by steps, and by linking
modules that were read, as far as they can be linked. -/
inductive Built : Builder → Prop
  | empty (name : String) : Built (.empty name)
  | ofModule {m : Module} {name text : String} (h : Module.read name text = .ok m) :
    Built (.ofModule m)
  | step {b : Builder} {s : Step} (hb : Built b) (hs : s.Allowed b) : Built (s.perform b).2
  | link {b : Builder} {src : Module} {name text : String} (hb : Built b)
    (h : Module.read name text = .ok src) : Built { b with module := (b.module.link src).2 }

/-- **Every builder that comes up is in order.** -/
theorem Built.sound (h : Built b) : b.Sound := by
  induction h with
  | empty name => exact sound_ofModule List.nodup_nil fun f hf => (by cases hf)
  | ofModule h => exact sound_ofModule (Module.nodup_of_read h) (Module.numbered_of_read h)
  | @step b s _ _ ih =>
    rw [s.perform_eq b]
    cases hnext : s.next b with
    | ok b' => exact ih.next hnext
    | error e => exact ih
  | link _ h ih => exact ih.link (Module.numbered_of_read h)

end Builder

/-- **Building keeps modules in order.**  In every builder that comes up, the next instruction goes to the
last block of a function, function names differ, and in each function values are numbered in the order of
their definitions, with names that differ from each other and from the parameters.  No step, if the
numbers in it are those of functions, goes to a function that does not exist.  And a step that fails has
changed nothing. -/
theorem builder_in_order (b : Builder) (h : b.Built) :
    (∀ p, b.point = some p → ∃ f block, b.module.functions[p.function]? = some f ∧
      f.blocks[p.block]? = some block ∧ p.block + 1 = f.blocks.length) ∧
    (b.module.functions.map Function.name).Nodup ∧
    (∀ f ∈ b.module.functions, f.instrs.filterMap Instr.dest? = List.range f.names.length ∧
      f.names.Nodup ∧ ∀ x ∈ f.names, x ∉ f.params) ∧
    ∀ s : Builder.Step, s.perform b = b.settle (s.next b) ∧
      (s.Allowed b → ∀ k, (s.perform b).1 ≠ .error (.noSuchFunction k)) ∧
      ∀ e, (s.perform b).1 = .error e → (s.perform b).2 = b := by
  have hb := h.sound
  refine ⟨fun p hp => ?_, hb.names, fun f hf => ?_, fun s => ⟨s.perform_eq b, ?_, ?_⟩⟩
  · obtain ⟨f, hf, hlen⟩ := hb.point p hp
    have hlt : p.block < f.blocks.length := by omega
    exact ⟨f, f.blocks[p.block], hf, List.getElem?_eq_getElem hlt, hlen.symm⟩
  · have hnumbered := hb.numbered f hf
    exact ⟨hnumbered.dests, hnumbered.names, hnumbered.apart⟩
  · intro hs k hk
    have hne := hb.next_ne hs k
    rw [s.perform_eq b] at hk
    cases hnext : s.next b with
    | ok b' =>
      rw [hnext] at hk
      cases hk
    | error e =>
      rw [hnext] at hk hne
      exact hne (congrArg Except.error (Except.error.inj hk))
  · intro e he
    rw [s.perform_eq b] at he ⊢
    cases hnext : s.next b with
    | ok b' =>
      rw [hnext] at he
      cases he
    | error e => rfl

/-- The text of a module that declares `main`, and defines `twice` with two blocks. -/
def draftText : String :=
  "\n".intercalate ["declare i32 @main(i32)",
    r"define i32 @twice(i32 %n) {", "first:", "%x = alloca i32", "last:", "ret i32 %n", r"}"]

/-- The text of a module that defines both. -/
def rivalText : String :=
  "\n".intercalate [r"define i32 @main(i32 %a) {", "entry:", "ret i32 %a", r"}",
    r"define i32 @twice(i32 %b) {", "entry:", r"}"]

/-- What is read from `draftText`. -/
def draftModule : Module :=
  ⟨"draft", [.declare "main" ["arg0"],
    ⟨"twice", ["n"], ["x"], [⟨"first", [.alloca 0]⟩, ⟨"last", [.ret (.param 0)]⟩]⟩]⟩

/-- What is read from `rivalText`. -/
def rivalModule : Module :=
  ⟨"rival", [⟨"main", ["a"], [], [⟨"entry", [.ret (.param 0)]⟩]⟩,
    ⟨"twice", ["b"], [], [⟨"entry", []⟩]⟩]⟩

/-- The builder in which `twice` of `draftModule` got a third block, before `rivalModule` was linked as
far as it can be, and then a value that was to be called like the parameter. -/
def rivalBuilder : Builder :=
  let b := ((Builder.Step.appendBlock 1 "more").perform (.ofModule draftModule)).2
  ((Builder.Step.alloca "n").perform { b with module := (b.module.link rivalModule).2 }).2

/-- The hypothesis is satisfiable: in `rivalBuilder` the definition of `main` was linked before that of
`twice` was refused, the value went to the block that was opened before, and a second `main` is refused
without a change. -/
theorem builder_in_order_rival : rivalBuilder.Built ∧ rivalBuilder.point = some ⟨1, 2⟩ ∧
    rivalBuilder.module.functions.map (fun f => (f.name, f.blocks.length, f.names)) =
      [("main", 1, []), ("twice", 3, ["x", "n1"])] ∧
    (∀ f ∈ rivalBuilder.module.functions,
      f.instrs.filterMap Instr.dest? = List.range f.names.length) ∧
    ((Builder.Step.addFunction "main" []).perform rivalBuilder).2 = rivalBuilder := by
  have hdraft : Module.read "draft" draftText = .ok draftModule := by decide +kernel
  have hrival : Module.read "rival" rivalText = .ok rivalModule := by decide +kernel
  have h : rivalBuilder.Built :=
    .step (.link (.step (.ofModule hdraft) (show 1 < 2 by decide)) hrival) trivial
  obtain ⟨-, -, hnumbered, hsteps⟩ := builder_in_order rivalBuilder h
  obtain ⟨-, -, hfails⟩ := hsteps (.addFunction "main" [])
  exact ⟨h, rfl, rfl, fun f hf => (hnumbered f hf).1, hfails (.duplicateFunction "main") rfl⟩

end IR
end Straightline
