/-
# What folding leaves

Where an instruction stands, some values are known without a run: those of the arithmetic above it that
could be evaluated (`Instr.constant?`, `Table.learn`).  The forward walk of folding keeps the instructions
that cannot be evaluated where they stand, with the known values put in (`Folding.unevaluated`,
`Folding.instrs_eq`).  The backward walk leaves out some of these, but none that acts
(`Folding.filter_live`).

After both walks a block is in normal form (`Folding.Normal`): nothing in it can be evaluated, and what
does nothing but define a value is read further down.  That makes both walks stand still
(`Function.fold_eq_self`), for the first finds no value to learn and the second nothing to leave out.
None of this asks for a valid body: values may be defined twice, or read before they are defined.
-/

import Straightline.Proofs.Folding

namespace Straightline
namespace IR

/-! ### What is known without a run -/

/-- The number that an operand is known to be. -/
def Operand.constant? (known : Table Int32) : Operand → Option Int32
  | .const n => some n
  | .value id => known.get id
  | .param _ | .undef => none

/-- An operand with its number put in, if that is known. -/
def Operand.resolve (known : Table Int32) (o : Operand) : Operand :=
  (o.constant? known).elim o .const

/-- An operand becomes a constant exactly if it is known. -/
theorem Operand.resolve_eq_const_iff {known : Table Int32} {o : Operand} {n : Int32} :
    o.resolve known = .const n ↔ o.constant? known = some n := by
  cases o with
  | value id => cases h : known.get id <;> simp [resolve, constant?, h]
  | const k | param index | undef => simp [resolve, constant?]

/-- The value that an arithmetic instruction defines, and its number, if the operands are known and there
is a result. -/
def Instr.constant? (known : Table Int32) : Instr → Option (Nat × Int32)
  | .binary op l r d => do
    let lhs ← l.constant? known
    let rhs ← r.constant? known
    let n ← op.eval? lhs rhs
    return (d, n)
  | _ => none

/-- Where both operands are known, an operation is known if it has a result. -/
theorem Instr.constant?_binary {known : Table Int32} {op : Arith} {lhs rhs : Operand} {l r : Int32}
    (hl : lhs.constant? known = some l) (hr : rhs.constant? known = some r) (d : Nat) :
    (Instr.binary op lhs rhs d).constant? known = (op.eval? l r).map fun n => (d, n) := by
  rw [Instr.constant?, hl, hr]
  show (op.eval? l r).bind _ = _
  cases op.eval? l r <;> rfl

/-- What is known below an instruction.  If it can be evaluated, its number is; else a number that was
known of the value that it defines stays known. -/
def Table.learn (known : Table Int32) (i : Instr) : Table Int32 :=
  (i.constant? known).elim known fun (d, n) => known.set d n

/-- What is known below instructions. -/
def Table.learnAll (known : Table Int32) (is : List Instr) : Table Int32 :=
  is.foldl Table.learn known

namespace Folding

variable {known : Table Int32} {is : List Instr} {i : Instr} {d : Nat}

/-- Each instruction with what is known where it stands. -/
def inContext (known : Table Int32) : List Instr → List (Table Int32 × Instr)
  | [] => []
  | i :: is => (known, i) :: inContext (known.learn i) is

/-- No instruction is lost on the way. -/
theorem map_snd_inContext (known : Table Int32) (is : List Instr) :
    (inContext known is).map Prod.snd = is := by
  induction is generalizing known with
  | nil => rfl
  | cons i is ih => rw [inContext, List.map_cons, ih]

/-- The instructions that cannot be evaluated where they stand, with known operands put in. -/
def unevaluated (known : Table Int32) (is : List Instr) : List Instr :=
  ((inContext known is).filter fun (known, i) => (i.constant? known).isNone).map
    fun (known, i) => i.mapOperands (Operand.resolve known)

/-! ### The forward walk -/

/-- The forward walk puts in what is known. -/
theorem operand_eq_resolve (known : Table Int32) : operand known = Operand.resolve known := by
  funext o
  cases o with
  | value id =>
    rw [operand, Operand.resolve, Operand.constant?]
    cases known.get id <;> rfl
  | const k | param index | undef => rfl

/-- An operation on something unknown is not evaluated. -/
theorem result?_eq_none_of_left {op : Arith} {l r : Operand} (h : ∀ n, l ≠ .const n) :
    result? (.binary op l r d) = none := by
  cases l with
  | const n => exact absurd rfl (h n)
  | _ => rfl

/-- An operation on something unknown is not evaluated. -/
theorem result?_eq_none_of_right {op : Arith} {l r : Operand} (h : ∀ n, r ≠ .const n) :
    result? (.binary op l r d) = none := by
  cases r with
  | const n => exact absurd rfl (h n)
  | _ => cases l <;> rfl

/-- **The walk evaluates what is known.** -/
theorem result?_mapOperands (known : Table Int32) (i : Instr) :
    result? (i.mapOperands (Operand.resolve known)) = i.constant? known := by
  cases i with
  | binary op l r d =>
    rw [Instr.mapOperands]
    cases hl : l.constant? known with
    | none =>
      rw [Instr.constant?, hl]
      refine result?_eq_none_of_left fun n hn => ?_
      rw [Operand.resolve_eq_const_iff, hl] at hn
      cases hn
    | some lhs =>
      cases hr : r.constant? known with
      | none =>
        rw [Instr.constant?, hl, hr]
        refine result?_eq_none_of_right fun n hn => ?_
        rw [Operand.resolve_eq_const_iff, hr] at hn
        cases hn
      | some rhs =>
        rw [Operand.resolve_eq_const_iff.2 hl, Operand.resolve_eq_const_iff.2 hr,
          Instr.constant?_binary hl hr]
        rfl
  | _ => rfl

/-- What can be evaluated goes, and is known from there on. -/
theorem unevaluated_of_some {n : Int32} (h : i.constant? known = some (d, n)) :
    unevaluated known (i :: is) = unevaluated (known.set d n) is := by
  simp [unevaluated, inContext, Table.learn, h]

/-- What cannot be evaluated stays, with known operands put in. -/
theorem unevaluated_of_none (h : i.constant? known = none) :
    unevaluated known (i :: is) = i.mapOperands (Operand.resolve known) :: unevaluated known is := by
  simp [unevaluated, inContext, Table.learn, h]

/-- **The forward walk keeps what cannot be evaluated,** and knows at its end what is known there. -/
theorem instrs_eq (known : Table Int32) (is : List Instr) :
    instrs known is = (unevaluated known is, known.learnAll is) := by
  induction is generalizing known with
  | nil => rfl
  | cons i is ih =>
    rw [instrs, operand_eq_resolve, result?_mapOperands, Table.learnAll, List.foldl_cons,
      ← Table.learnAll, Table.learn]
    cases h : i.constant? known with
    | some dn =>
      obtain ⟨d, n⟩ := dn
      rw [unevaluated_of_some h]
      exact ih _
    | none =>
      rw [unevaluated_of_none h]
      show (_ :: (instrs known is).1, (instrs known is).2) = _
      rw [ih]
      rfl

/-- Each block goes on with what is known at the end of the blocks above it. -/
theorem getElem?_blocks (known : Table Int32) (bs : List Block) (k : Nat) :
    (blocks known bs)[k]? = bs[k]?.map fun b =>
      { b with instrs := unevaluated (known.learnAll ((bs.take k).flatMap Block.instrs)) b.instrs } := by
  induction bs generalizing known k with
  | nil => rfl
  | cons b bs ih =>
    rw [blocks, instrs_eq]
    cases k with
    | zero => rfl
    | succ k =>
      rw [List.getElem?_cons_succ, List.getElem?_cons_succ, ih, List.take_succ_cons, List.flatMap_cons,
        Table.learnAll, Table.learnAll, Table.learnAll, List.foldl_append]

/-- What the forward walk keeps are instructions of the block, up to their operands. -/
theorem exists_of_mem_unevaluated (h : i ∈ unevaluated known is) : ∃ j ∈ is, ∃ g, i = j.mapOperands g := by
  obtain ⟨⟨known', j⟩, hj, rfl⟩ := List.mem_map.1 h
  refine ⟨j, ?_, Operand.resolve known', rfl⟩
  rw [← map_snd_inContext known is]
  exact List.mem_map_of_mem (List.mem_filter.1 hj).1

/-- What the forward walk keeps cannot be evaluated. -/
theorem result?_of_mem_unevaluated (h : i ∈ unevaluated known is) : result? i = none := by
  obtain ⟨⟨known', j⟩, hj, rfl⟩ := List.mem_map.1 h
  rw [result?_mapOperands]
  exact Option.isNone_iff_eq_none.1 (List.mem_filter.1 hj).2

/-! ### The backward walk -/

/-- A value or slot that one of the instructions reads. -/
def ReadIn (d : Nat) (is : List Instr) : Prop :=
  ∃ j ∈ is, .value d ∈ j.operands ∨ j.slot? = some d

/-- The instructions that do nothing but define a value. -/
inductive Defines (d : Nat) : Instr → Prop
  | alloca : Defines d (.alloca d)
  | load (slot : Nat) : Defines d (.load d slot)
  | binary {op : Arith} (lhs rhs : Operand) (h : op ≠ .sdiv) : Defines d (.binary op lhs rhs d)

/-- Whether an instruction does more than to define a value, or may fail. -/
def acts : Instr → Bool
  | .store .. | .call .. | .ret _ => true
  | .binary op .. => op == .sdiv
  | .alloca _ | .load .. => false

/-- What is not pure is what acts. -/
theorem isPure_eq (i : Instr) : isPure i = !acts i := by
  cases i <;> rfl

/-- What defines a value and nothing else defines that value. -/
theorem Defines.dest? (h : Defines d i) : i.dest? = some d := by
  cases h <;> rfl

/-- What defines a value and nothing else is pure. -/
theorem Defines.isPure (h : Defines d i) : isPure i = true := by
  cases h with
  | alloca | load s => rfl
  | binary l r hop => exact bne_iff_ne.2 hop

/-- A pure instruction defines a value and nothing else. -/
theorem defines_of_isPure (hpure : isPure i = true) (hd : i.dest? = some d) : Defines d i := by
  cases i with
  | alloca d' =>
    obtain rfl := Option.some.inj hd
    exact .alloca
  | load d' s =>
    obtain rfl := Option.some.inj hd
    exact .load s
  | binary op l r d' =>
    obtain rfl := Option.some.inj hd
    exact .binary l r (bne_iff_ne.1 hpure)
  | store v s | call callee os d' | ret v => cases hpure

/-- **Left out is what does nothing but define a value that nothing reads.** -/
theorem isDead_iff : isDead i is = true ↔ ∃ d, Defines d i ∧ ¬ ReadIn d is := by
  constructor
  · intro h
    obtain ⟨hpure, d, hd, hunread⟩ := Live.of_isDead h
    refine ⟨d, defines_of_isPure hpure hd, ?_⟩
    rintro ⟨j, hj, hread⟩
    exact hunread j hj (Instr.mem_reads_iff.2 hread)
  · rintro ⟨d, hi, hunread⟩
    have hall : ∀ j ∈ is, d ∉ j.reads := fun j hj hread =>
      hunread ⟨j, hj, Instr.mem_reads_iff.1 hread⟩
    simpa [isDead, hi.isPure, hi.dest?] using hall

/-- What is dead is left out. -/
theorem live_of_isDead (h : isDead i (live is) = true) : live (i :: is) = live is := by
  rw [live]
  exact if_pos h

/-- What is not dead is kept. -/
theorem live_of_not_isDead (h : ¬ isDead i (live is) = true) : live (i :: is) = i :: live is := by
  rw [live]
  exact if_neg h

/-- Nothing that acts is dead. -/
theorem acts_of_isDead (h : isDead i is = true) : acts i = false := by
  have hpure := (Live.of_isDead h).1
  rwa [isPure_eq, Bool.not_eq_true'] at hpure

/-- What acts is kept. -/
theorem live_of_acts (h : acts i = true) : live (i :: is) = i :: live is := by
  refine live_of_not_isDead fun hdead => ?_
  rw [acts_of_isDead hdead] at h
  cases h

/-- Instructions are left out, never moved. -/
theorem live_sublist (is : List Instr) : (live is).Sublist is := by
  induction is with
  | nil => exact .slnil
  | cons i is ih =>
    by_cases h : isDead i (live is) = true
    · rw [live_of_isDead h]
      exact ih.cons i
    · rw [live_of_not_isDead h]
      exact ih.cons_cons i

/-- **What acts is kept.** -/
theorem filter_live (is : List Instr) : (live is).filter acts = is.filter acts := by
  induction is with
  | nil => rfl
  | cons i is ih =>
    by_cases h : isDead i (live is) = true
    · rw [live_of_isDead h, ih, List.filter_cons_of_neg (by simp [acts_of_isDead h])]
    · rw [live_of_not_isDead h, List.filter_cons, List.filter_cons, ih]

/-! ### Normal form -/

/-- Instructions of which none is arithmetic on constants that has a result, and each that does nothing but
define a value defines one that is read below it. -/
structure Normal (is : List Instr) : Prop where
  stuck : ∀ op l r d, .binary op (.const l) (.const r) d ∈ is → op.eval? l r = none
  read : ∀ above i below d, is = above ++ i :: below → Defines d i → ReadIn d below

/-- **What is left of a block is in normal form.** -/
theorem normal_live (h : ∀ i ∈ is, result? i = none) : Normal (live is) := by
  constructor
  · intro op l r d hmem
    have hnone : (op.eval? l r).map (fun n => (d, n)) = none := h _ ((live_sublist is).subset hmem)
    exact Option.map_eq_none_iff.1 hnone
  · clear h
    induction is with
    | nil =>
      intro above i below d hsplit
      simp [live] at hsplit
    | cons j is ih =>
      intro above i below d hsplit hi
      by_cases hdead : isDead j (live is) = true
      · rw [live_of_isDead hdead] at hsplit
        exact ih above i below d hsplit hi
      · rw [live_of_not_isDead hdead] at hsplit
        rcases List.cons_eq_append_iff.1 hsplit with ⟨rfl, heq⟩ | ⟨above, rfl, heq⟩
        · -- the instruction is the first one, which was kept because something reads its value
          obtain ⟨rfl, rfl⟩ := List.cons.inj heq
          exact Classical.not_not.1 fun hunread => hdead (isDead_iff.2 ⟨d, hi, hunread⟩)
        · exact ih above i below d heq hi

/-- A normal form has a normal form below each instruction. -/
theorem Normal.tail (h : Normal (i :: is)) : Normal is := by
  refine ⟨fun op l r d hmem => h.stuck op l r d (List.mem_cons_of_mem i hmem), ?_⟩
  rintro above j below d rfl hj
  exact h.read (i :: above) j below d rfl hj

/-- Nothing in a normal form can be evaluated. -/
theorem Normal.result?_eq_none (h : Normal is) : ∀ i ∈ is, result? i = none := by
  intro i hi
  cases hres : result? i with
  | none => rfl
  | some dn =>
    obtain ⟨op, l, r, rfl, hn⟩ := eq_binary_of_result? hres
    rw [h.stuck op l r _ hi] at hn
    cases hn

/-- Where nothing is known, nothing is put in. -/
theorem operand_empty : operand .empty = id := by
  funext o
  cases o <;> rfl

/-- Where nothing can be evaluated, the forward walk learns nothing and changes nothing. -/
theorem instrs_eq_self (h : ∀ i ∈ is, result? i = none) : instrs .empty is = (is, .empty) := by
  induction is with
  | nil => rfl
  | cons i is ih =>
    rw [List.forall_mem_cons] at h
    rw [instrs, operand_empty, Instr.mapOperands_id, h.1, ih h.2]

/-- Where every value is read, the backward walk leaves nothing out. -/
theorem Normal.live_eq_self (h : Normal is) : live is = is := by
  induction is with
  | nil => rfl
  | cons i is ih =>
    have hlive := ih h.tail
    rw [live_of_not_isDead, hlive]
    rw [hlive, isDead_iff]
    rintro ⟨d, hi, hunread⟩
    exact hunread (h.read [] i is d rfl hi)

/-- Blocks in normal form are left as they are. -/
theorem blocks_eq_self {bs : List Block} (h : ∀ b ∈ bs, Normal b.instrs) : blocks .empty bs = bs := by
  induction bs with
  | nil => rfl
  | cons b bs ih =>
    rw [List.forall_mem_cons] at h
    rw [blocks, instrs_eq_self h.1.result?_eq_none]
    exact congrArg (b :: ·) (ih h.2)

end Folding

open Folding

namespace Function

variable {f : Function}

/-- What is known at the start of the block with a number. -/
def knownAt (f : Function) (k : Nat) : Table Int32 :=
  Table.empty.learnAll ((f.blocks.take k).flatMap Block.instrs)

/-- **Each block is folded with what is known at its start.** -/
theorem getElem?_blocks_fold (f : Function) (k : Nat) :
    f.fold.blocks[k]? =
      f.blocks[k]?.map fun b => { b with instrs := live (unevaluated (f.knownAt k) b.instrs) } := by
  rw [fold, mapBlocks, List.getElem?_map, getElem?_blocks, Option.map_map]
  rfl

/-- **A function is folded to normal form.** -/
theorem normal_fold (f : Function) : ∀ b ∈ f.fold.blocks, Normal b.instrs := by
  intro b hb
  obtain ⟨k, hk⟩ := List.mem_iff_getElem?.1 hb
  rw [getElem?_blocks_fold] at hk
  obtain ⟨b, -, rfl⟩ := Option.map_eq_some_iff.1 hk
  exact normal_live fun i hi => result?_of_mem_unevaluated hi

/-- **In normal form, folding changes nothing.** -/
theorem fold_eq_self (h : ∀ b ∈ f.blocks, Normal b.instrs) : f.fold = f := by
  rw [fold, mapBlocks, blocks_eq_self h, map_eq_self fun b hb => ?_]
  rw [(h b hb).live_eq_self]

/-- To fold twice is to fold once. -/
theorem fold_fold (f : Function) : f.fold.fold = f.fold :=
  fold_eq_self f.normal_fold

end Function

/-- **Folding reaches its normal form in one call.**  In every module, valid or not, each block is then in
normal form.  It consists of instructions of the block that it was, in their order: those that could not be
evaluated where they stood, with known values put in.  Of these none is missing that is a `store`, a
`call`, a `ret` or a division.  And folding again changes nothing. -/
theorem fold_reaches_normal_form (m : Module) :
    (∀ f ∈ m.fold.functions, ∀ b ∈ f.blocks, Normal b.instrs) ∧
    (∀ (n : Nat) (f : Function), m.functions[n]? = some f →
      ∀ (k : Nat) (b : Block), f.blocks[k]? = some b →
        ∃ f' b', m.fold.functions[n]? = some f' ∧ f'.blocks[k]? = some b' ∧
          b'.instrs.Sublist (unevaluated (f.knownAt k) b.instrs) ∧
          b'.instrs.filter acts = (unevaluated (f.knownAt k) b.instrs).filter acts) ∧
    m.fold.fold = m.fold := by
  refine ⟨fun f' hf' => ?_, fun n f hf k b hb => ?_, ?_⟩
  · obtain ⟨f, -, rfl⟩ := List.mem_map.1 hf'
    exact f.normal_fold
  · refine ⟨f.fold, { b with instrs := live (unevaluated (f.knownAt k) b.instrs) }, ?_, ?_,
      live_sublist _, filter_live _⟩
    · exact List.getElem?_map.trans (congrArg (Option.map Function.fold) hf)
    · rw [f.getElem?_blocks_fold, hb]
      rfl
  · rw [Module.fold, Module.fold, Module.mapFunctions, Module.mapFunctions, List.map_map]
    exact congrArg (Module.mk m.name) (List.map_congr_left fun f _ => f.fold_fold)

/-- A module that breaks the rules: its function has two blocks, the second reads what the first defines,
a slot that nothing allocates and a value that nothing defines, and a value is defined twice. -/
def twoBlocks : Module :=
  ⟨"m", [⟨"f", [], ["a"],
    [⟨"first", [.binary .add (.const 2) (.const 3) 0, .store (.value 0) 9, .alloca 4,
      .binary .mul (.value 7) (.const 1) 5]⟩,
    ⟨"second", [.load 6 9, .binary .sub (.value 0) (.const 5) 1, .binary .sdiv (.value 0) (.value 1) 2,
      .call "g" [.value 6, .value 0] 0, .binary .mul (.value 7) (.const 1) 5, .ret (.value 0)]⟩]⟩]⟩

/-- `twoBlocks` is not accepted.  Its first block keeps the `store`; the second keeps the load that the call
reads, the division by what is known to be zero, the call and the `ret`. -/
theorem fold_reaches_normal_form_twoBlocks : twoBlocks.verify = .error (.blockCount "f" 2) ∧
    ∃ b', twoBlocks.fold.functions.flatMap Function.blocks = [⟨"first", [.store (.const 5) 9]⟩, b'] ∧
      b'.instrs = [.load 6 9, .binary .sdiv (.const 5) (.const 0) 2,
        .call "g" [.value 6, .const 5] 0, .ret (.const 5)] ∧
      Normal b'.instrs ∧
      b'.instrs.filter acts = [.binary .sdiv (.const 5) (.const 0) 2,
        .call "g" [.value 6, .const 5] 0, .ret (.const 5)] ∧
      twoBlocks.fold.fold = twoBlocks.fold := by
  obtain ⟨hnormal, hkept, hfold⟩ := fold_reaches_normal_form twoBlocks
  obtain ⟨f', b', hf', hb', -, hacts⟩ := hkept 0 _ rfl 1 _ rfl
  obtain rfl := Option.some.inj hf'
  obtain rfl := Option.some.inj hb'
  exact ⟨rfl, _, rfl, rfl, hnormal _ (List.mem_singleton_self _) _ (List.mem_of_getElem? hb'),
    hacts.trans rfl, hfold⟩

end IR
end Straightline
