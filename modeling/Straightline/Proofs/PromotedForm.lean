/-
# What promoted programs look like

Preparing a module fails only where its check does, since what promotion keeps of a valid module is valid.
A prepared program has no slots, and folding brings none back: promotion keeps no `alloca`, folding adds no
instruction, and a valid body without `alloca` has no slot to load from or store to
(`ValidBody.usesSlot_eq_false`).  Both passes keep all but the instructions (`Function.shape`).

Without slots, calls, parameters and undefined operands, all that a body reads is known where it reads it:
the frame of a run and the table of the forward walk are then the same, instruction by instruction
(`Execution.ends_or_stops`).  So folding leaves either the `ret` of the result, or the division at which a
run stops and what comes after it.
-/

import Mathlib.Logic.Function.Iterate
import Straightline.Proofs.FoldedForm

namespace Straightline
namespace IR

/-! ### Code without slots -/

/-- Whether an instruction allocates, reads or writes a slot. -/
def Instr.usesSlot : Instr → Bool
  | .alloca _ | .load .. | .store .. => true
  | .binary .. | .call .. | .ret _ => false

/-- **A valid body without `alloca` has no slots.** -/
theorem ValidBody.usesSlot_eq_false {m : Module} {f : Function} {defined : Table ValueKind}
    {is : List Instr} (h : ValidBody m f defined is) (hslots : ∀ s, defined.get s ≠ some .slot)
    (hallocas : ∀ d, .alloca d ∉ is) : ∀ i ∈ is, i.usesSlot = false := by
  induction h with
  | ret hv =>
    rw [List.forall_mem_singleton]
    rfl
  | @step defined i is ht hi _ ih =>
    rw [List.forall_mem_cons]
    have hi' : i.usesSlot = false ∧ i.kind = .integer := by
      cases i with
      | alloca d => exact absurd List.mem_cons_self (hallocas d)
      | load d s | store v s => exact absurd (hi.slot s rfl) (hslots s)
      | binary op l r d | call callee os d | ret v => exact ⟨rfl, rfl⟩
    refine ⟨hi'.1, ih (fun s => ?_) fun d hd => hallocas d (List.mem_cons_of_mem i hd)⟩
    by_cases hd : i.dest? = some s
    · rw [Table.get_after_dest hd, hi'.2]
      nofun
    · rw [Table.get_after_of_ne hd]
      exact hslots s

/-- To rewrite operands makes no `alloca` and takes none away. -/
theorem Instr.mapOperands_eq_alloca_iff {g : Operand → Operand} {i : Instr} {d : Nat} :
    i.mapOperands g = .alloca d ↔ i = .alloca d := by
  cases i <;> simp [Instr.mapOperands]

/-- **Promotion keeps no `alloca`.** -/
theorem Promotion.alloca_not_mem_instrs (d : Nat) (st : State) (is : List Instr) :
    .alloca d ∉ instrs st is := by
  induction is generalizing st with
  | nil => exact List.not_mem_nil
  | cons i is ih =>
    rw [instrs, List.mem_append, not_or]
    refine ⟨?_, ih _⟩
    rw [Option.mem_toList]
    cases i with
    | alloca d' =>
      intro h
      cases h
    | store v s | load d' s =>
      rw [Instr.mapOperands, State.step]
      cases st.memory.get s <;> simp
    | binary op l r d' | call callee os d' | ret v => simp [Instr.mapOperands, State.step]

/-- No slot is left in a promoted function. -/
theorem Function.alloca_not_mem_promote (d : Nat) (f : Function) : .alloca d ∉ f.promote.instrs := by
  simp only [Function.instrs, Function.promote, Function.mapBlocks, List.mem_flatMap, List.mem_map]
  rintro ⟨_, ⟨b, -, rfl⟩, hmem⟩
  exact Promotion.alloca_not_mem_instrs d .empty b.instrs hmem

/-- **Folding adds no instruction.** -/
theorem Function.exists_of_mem_fold {f : Function} {i : Instr} (h : i ∈ f.fold.instrs) :
    ∃ j ∈ f.instrs, ∃ g, i = j.mapOperands g := by
  obtain ⟨b', hb', hi⟩ := List.mem_flatMap.1 h
  obtain ⟨k, hk⟩ := List.mem_iff_getElem?.1 hb'
  rw [getElem?_blocks_fold] at hk
  obtain ⟨b, hb, rfl⟩ := Option.map_eq_some_iff.1 hk
  obtain ⟨j, hj, hg⟩ := Folding.exists_of_mem_unevaluated ((Folding.live_sublist _).subset hi)
  exact ⟨j, List.mem_flatMap.2 ⟨b, List.mem_of_getElem? hb, hj⟩, hg⟩

/-- No slot is left in a promoted module. -/
theorem Module.Promoted.alloca_not_mem {p : Module} (h : p.Promoted) :
    ∀ f ∈ p.functions, ∀ d, .alloca d ∉ f.instrs := by
  induction h with
  | @prepare m p h =>
    obtain ⟨-, rfl⟩ := Module.prepare_eq_ok_iff.1 h
    intro f' hf' d
    obtain ⟨f, -, rfl⟩ := List.mem_map.1 hf'
    exact f.alloca_not_mem_promote d
  | fold _ ih =>
    intro f' hf' d hmem
    obtain ⟨f, hf, rfl⟩ := List.mem_map.1 hf'
    obtain ⟨j, hj, g, hg⟩ := Function.exists_of_mem_fold hmem
    rw [Instr.mapOperands_eq_alloca_iff.1 hg.symm] at hj
    exact ih f hf d hj

/-- **A promoted program has no slots.** -/
theorem Module.Promoted.usesSlot_eq_false {p : Module} (h : p.Promoted) :
    ∀ f ∈ p.functions, ∀ i ∈ f.instrs, i.usesSlot = false := by
  intro f hf
  cases hdef : f.isDeclaration with
  | true =>
    have hblocks : f.blocks = [] := List.isEmpty_iff.1 hdef
    simp [Function.instrs, hblocks]
  | false =>
    exact (h.valid.bodies f hf hdef).validBody.usesSlot_eq_false (fun s hs => by cases hs)
      (h.alloca_not_mem f hf)

/-! ### The guarantee -/

/-- What a function has besides instructions: its name, its parameters, the names of its values and the
labels of its blocks. -/
def Function.shape (f : Function) : String × List String × List String × List String :=
  (f.name, f.params, f.names, f.blocks.map Block.label)

/-- A pass that keeps the shape of each function keeps the shapes of all. -/
theorem KeepsShape.map_shape {g : Function → Function} (hg : KeepsShape g) (m : Module) :
    (m.mapFunctions g).functions.map Function.shape = m.functions.map Function.shape := by
  rw [Module.mapFunctions, List.map_map]
  refine List.map_congr_left fun f _ => ?_
  rw [Function.comp_apply, Function.shape, hg.name, hg.params, hg.names, hg.labels, Function.shape]

/-- However often it is folded, a promoted module stays one. -/
theorem Module.Promoted.iterate_fold {p : Module} (h : p.Promoted) (k : Nat) :
    (Module.fold^[k] p).Promoted := by
  induction k with
  | zero => exact h
  | succ k ih =>
    rw [Function.iterate_succ_apply']
    exact ih.fold

/-- However often it is folded, a module keeps its name and the shapes of its functions. -/
theorem Module.shape_iterate_fold (p : Module) (k : Nat) :
    (Module.fold^[k] p).name = p.name ∧
      (Module.fold^[k] p).functions.map Function.shape = p.functions.map Function.shape := by
  induction k with
  | zero => exact ⟨rfl, rfl⟩
  | succ k ih =>
    rw [Function.iterate_succ_apply']
    exact ⟨ih.1, (keepsShape_fold.map_shape _).trans ih.2⟩

/-- Preparing a module fails as its check does. -/
theorem Module.prepare_eq_error_iff {m : Module} {e : Verification.Error} :
    m.prepare = .error e ↔ m.verify = .error e := by
  constructor
  · intro h
    cases hm : m.verify with
    | error e' =>
      rw [Module.prepare, hm] at h
      exact congrArg Except.error (Except.error.inj h)
    | ok u =>
      rw [(m.verify_eq_ok_iff.1 hm).prepare] at h
      cases h
  · intro h
    rw [Module.prepare, h]
    rfl

/-- **What a prepared program is.**  Preparing a module fails exactly if its check does, with the same error;
after promotion the check does not fail.  Otherwise the check accepts the program, also after its
constants were folded any number of times.  It then has no slots, and nothing but instructions has
changed: the name of the module, and in order the names, parameters, value names and labels of its
functions. -/
theorem prepare_guarantee (m : Module) :
    (∀ e, m.prepare = .error e ↔ m.verify = .error e) ∧
    (m.verify = .ok () → m.promote.verify = .ok ()) ∧
    ∀ p, m.prepare = .ok p → ∀ k,
      (Module.fold^[k] p).verify = .ok () ∧
      (∀ f ∈ (Module.fold^[k] p).functions, ∀ i ∈ f.instrs, i.usesSlot = false) ∧
      (Module.fold^[k] p).name = m.name ∧
      (Module.fold^[k] p).functions.map Function.shape = m.functions.map Function.shape := by
  refine ⟨fun e => Module.prepare_eq_error_iff, fun h => ?_, fun p h k => ?_⟩
  · rw [Module.verify_eq_ok_iff] at h ⊢
    exact h.promote
  · have hp : (Module.fold^[k] p).Promoted := (Module.Promoted.prepare h).iterate_fold k
    obtain ⟨hname, hshape⟩ := p.shape_iterate_fold k
    obtain ⟨-, rfl⟩ := Module.prepare_eq_ok_iff.1 h
    refine ⟨(Module.verify_eq_ok_iff _).2 hp.valid, hp.usesSlot_eq_false, hname, ?_⟩
    exact hshape.trans (keepsShape_promote.map_shape m)

/-- The hypotheses are satisfiable: `storedLoad` is accepted, and twice folded it has no slots left, while its
functions still have the names of the values that the slots and loads had. -/
theorem prepare_guarantee_storedLoad : storedLoad.verify = .ok () ∧
    ∃ p, storedLoad.prepare = .ok p ∧ (Module.fold^[2] p).verify = .ok () ∧
      (∀ f ∈ (Module.fold^[2] p).functions, ∀ i ∈ f.instrs, i.usesSlot = false) ∧
      (Module.fold^[2] p).functions.map Function.shape = [("printnum", ["i"], [], []),
        ("main", ["aArg"], ["a", "x", "a1", "x1", "call_tmp", "a2"], ["entry"])] := by
  obtain ⟨-, -, hp⟩ := prepare_guarantee storedLoad
  obtain ⟨hverify, hslots, -, hshape⟩ := hp _ rfl 2
  exact ⟨rfl, _, rfl, hverify, hslots, hshape⟩

/-! ### Code on constants -/

/-- Whether an operand is a constant or a value, neither a parameter nor undefined. -/
def Operand.isClosed : Operand → Bool
  | .const _ | .value _ => true
  | .param _ | .undef => false

/-- Whether an instruction calls nothing and reads neither a parameter nor an undefined operand. -/
def Instr.isClosed : Instr → Bool
  | .call .. => false
  | i => i.operands.all Operand.isClosed

/-- All operands of a closed instruction are closed. -/
theorem Instr.isClosed_of_mem {i : Instr} (h : i.isClosed = true) :
    ∀ o ∈ i.operands, o.isClosed = true := by
  cases i with
  | call callee os d => cases h
  | _ => exact List.all_eq_true.1 h

namespace Execution

/-- A run of `f` that goes from a frame through instructions which do not fail, up to the division that
defines `d`.  It is to divide `l` by `r`, and fails with `e`. -/
inductive StopsAt (f : Function) (args : List Int32) (d : Nat) (l r : Int32) (e : Error) :
    Frame → List Instr → Prop
  | here {fr : Frame} {lhs rhs : Operand} {below : List Instr} (hl : fr.read f args lhs = .ok l)
    (hr : fr.read f args rhs = .ok r) (he : arith f.name .sdiv l r = .error e) :
    StopsAt f args d l r e fr (.binary .sdiv lhs rhs d :: below)
  | further {fr fr' : Frame} {i : Instr} {is : List Instr} (ht : i.isTerminator = false)
    (hi : ∀ inv, instr inv f args fr i = pure fr') (h : StopsAt f args d l r e fr' is) :
    StopsAt f args d l r e fr (i :: is)

variable {f : Function} {args : List Int32} {fr : Frame} {is : List Instr} {d : Nat} {l r n : Int32}
  {e : Error} {op : Arith} {lhs rhs : Operand}

/-- Where execution stops, the division has no result. -/
theorem StopsAt.arith_eq (h : StopsAt f args d l r e fr is) : arith f.name .sdiv l r = .error e := by
  induction h with
  | here _ _ he => exact he
  | further _ _ _ ih => exact ih

/-- Arithmetic fails only as a division, by zero or out of range. -/
theorem arith_eq_error {name : String} (h : arith name op l r = .error e) :
    op = .sdiv ∧ ((r = 0 ∧ e = .divisionByZero name) ∨
      (l = Int32.minValue ∧ r = -1 ∧ e = .divisionOverflow name)) := by
  unfold arith at h
  cases op with
  | add | sub | mul => cases h
  | sdiv =>
    refine ⟨rfl, ?_⟩
    by_cases hr : r = 0
    · subst hr
      exact .inl ⟨rfl, (Except.error.inj h).symm⟩
    · by_cases hover : l = Int32.minValue ∧ r = -1
      · obtain ⟨rfl, rfl⟩ := hover
        exact .inr ⟨rfl, rfl, (Except.error.inj h).symm⟩
      · rw [Decidable.not_and_iff_or_not] at hover
        have hdivides : divides l r = true := by simpa [divides, hr] using hover
        rw [Arith.eval?, if_pos hdivides] at h
        cases h

/-- What can be read without a parameter and an undefined operand is known from the values of the frame. -/
theorem Frame.Covers.read_known {defined : Table ValueKind} {o : Operand} (hfr : fr.Covers defined)
    (ho : o.Readable f defined) (hclosed : o.isClosed = true) :
    ∃ n, fr.read f args o = .ok n ∧ o.constant? fr.values = some n := by
  cases o with
  | const n => exact ⟨n, rfl, rfl⟩
  | param index | undef => cases hclosed
  | value id =>
    obtain ⟨n, hn⟩ := hfr id ho
    exact ⟨n, by rw [Frame.read, hn], hn⟩

/-- An operation with a result defines its value and goes on. -/
theorem instr_binary (inv : String → List Int32 → Execution Int32) (hl : fr.read f args lhs = .ok l)
    (hr : fr.read f args rhs = .ok r) (hn : op.eval? l r = some n) (hd : d < f.names.length) :
    instr inv f args fr (.binary op lhs rhs d) = pure (fr.after n (.binary op lhs rhs d)) := by
  simp [instr, hl, hr, arith, hn, Frame.define, hd, Frame.after]

/-- **Code on constants ends as folding says.**  The walk starts with what the frame holds and learns what a
run puts into it, so it comes to the end with the result, or to the division that fails. -/
theorem ends_or_stops (inv : String → List Int32 → Execution Int32) {m : Module}
    {defined : Table ValueKind} (hbody : ValidBody m f defined is) (hfr : fr.Covers defined)
    (hclosed : ∀ i ∈ is, i.isClosed = true) (hslots : ∀ i ∈ is, i.usesSlot = false) :
    (∃ n, instrs inv f args fr is = pure (some n) ∧
      Folding.unevaluated fr.values is = [.ret (.const n)]) ∨
    ∃ d l r e below, instrs inv f args fr is = throw e ∧ StopsAt f args d l r e fr is ∧
      Folding.unevaluated fr.values is = .binary .sdiv (.const l) (.const r) d :: below := by
  induction hbody generalizing fr with
  | @ret defined v hv =>
    rw [List.forall_mem_singleton] at hclosed
    obtain ⟨n, hn, hknown⟩ :=
      hfr.read_known hv (Instr.isClosed_of_mem hclosed v (List.mem_singleton_self v))
    refine .inl ⟨n, ?_, ?_⟩
    · rw [instrs_ret, outcome, hn, ofExcept_ok, pure_bind]
    · rw [Folding.unevaluated_of_none rfl, Instr.mapOperands, Operand.resolve_eq_const_iff.2 hknown]
      rfl
  | @step defined i is ht hi _ ih =>
    rw [List.forall_mem_cons] at hclosed hslots
    cases i with
    | alloca d | load d s | store v s => cases hslots.1
    | call callee os d => cases hclosed.1
    | ret v => cases ht
    | binary op lhs rhs d =>
      have hread : ∀ o ∈ [lhs, rhs], ∃ n, fr.read f args o = .ok n ∧ o.constant? fr.values = some n :=
        fun o ho => hfr.read_known (hi.operands o ho) (Instr.isClosed_of_mem hclosed.1 o ho)
      obtain ⟨l, hl, hl'⟩ := hread lhs (by simp)
      obtain ⟨r, hr, hr'⟩ := hread rhs (by simp)
      have hd := (hi.result d rfl).1
      rw [instrs_step ht fun d' hd' => (hi.result d' hd').1, outcome, hl, hr, ofExcept_ok, ofExcept_ok,
        pure_bind, pure_bind]
      have hconst := @Instr.constant?_binary _ op _ _ _ _ hl' hr' d
      cases hn : op.eval? l r with
      | some n =>
        rw [hn] at hconst
        rw [Folding.unevaluated_of_some hconst, arith, hn]
        have hstep := fun inv => instr_binary inv hl hr hn hd
        rcases ih (hfr.after n _) hclosed.2 hslots.2 with
          ⟨k, hk⟩ | ⟨d', l', r', e, below, hthrow, hstops, hbelow⟩
        · exact .inl ⟨k, hk⟩
        · exact .inr ⟨d', l', r', e, below, hthrow, .further ht hstep hstops, hbelow⟩
      | none =>
        rw [hn] at hconst
        obtain ⟨e, he⟩ : ∃ e, arith f.name op l r = .error e := ⟨_, by rw [arith, hn]⟩
        obtain ⟨rfl, -⟩ := arith_eq_error he
        refine .inr ⟨d, l, r, e, Folding.unevaluated fr.values is, ?_, ?_, ?_⟩
        · rw [he]
          rfl
        · exact .here hl hr he
        · rw [Folding.unevaluated_of_none hconst, Instr.mapOperands, Operand.resolve_eq_const_iff.2 hl',
            Operand.resolve_eq_const_iff.2 hr']

end Execution

open Execution

/-- To run a definition of a valid module is to run its body. -/
theorem Module.Valid.run_eq {m : Module} (hm : m.Valid) {f : Function} (hf : f ∈ m.functions)
    (hdef : f.isDeclaration = false) {args : List Int32} (hargs : args.length = f.arity) (sink : Sink) :
    m.run sink f.name args = (do
      let n ← instrs (invoke m sink (enter m sink (maxCallDepth - 1))) f args .empty f.instrs
      return n.getD 0 : Execution Int32) "" := by
  rw [Module.run, Module.runAt]
  unfold invoke
  rw [Module.definition?_of_mem hm.names hf hdef]
  simp only [if_pos hargs.symm]
  rfl

/-- The body of a definition with one block, after folding. -/
theorem Function.Valid.instrs_blocks_fold {m : Module} {f : Function} (hf : f.Valid m) :
    f.fold.blocks.map Block.instrs = [Folding.live (Folding.unevaluated .empty f.instrs)] := by
  obtain ⟨b, hb, -⟩ := hf
  have hinstrs : f.instrs = b.instrs := by simp [Function.instrs, hb]
  rw [Function.blocks_fold hb, Folding.instrs_eq, hinstrs]
  rfl

/-- **Folding evaluates all that is constant.**  Take a definition of a promoted program that calls nothing
and reads neither a parameter nor an undefined operand, and run it with as many arguments as it takes.  If
it returns a number, then folding leaves nothing but the `ret` of that number.  If it fails, then at the
first division that has no result, with the error of that division; folding leaves that division, with
the numbers that it was to divide, and nothing above it. -/
theorem fold_evaluates_constants (p : Module) (hp : p.Promoted) (f : Function) (hf : f ∈ p.functions)
    (hdef : f.isDeclaration = false) (hclosed : ∀ i ∈ f.instrs, i.isClosed = true) (args : List Int32)
    (hargs : args.length = f.arity) (sink : Sink) :
    p.fold.definition? f.name = some f.fold ∧
    (∀ n, (p.run sink f.name args).1 = .ok n → f.fold.blocks.map Block.instrs = [[.ret (.const n)]]) ∧
    ∀ e, (p.run sink f.name args).1 = .error e →
      ∃ d l r below, StopsAt f args d l r e .empty f.instrs ∧
        ((r = 0 ∧ e = .divisionByZero f.name) ∨
          (l = Int32.minValue ∧ r = -1 ∧ e = .divisionOverflow f.name)) ∧
        f.fold.blocks.map Block.instrs = [.binary .sdiv (.const l) (.const r) d :: below] := by
  have hvalid := hp.valid.bodies f hf hdef
  have hfound : p.fold.definition? f.name = some f.fold := by
    rw [Module.fold, keepsShape_fold.definition?, Module.definition?_of_mem hp.valid.names hf hdef,
      Option.map_some]
  refine ⟨hfound, ?_⟩
  rw [hp.valid.run_eq hf hdef hargs, hvalid.instrs_blocks_fold]
  rcases ends_or_stops (invoke p sink (enter p sink (maxCallDepth - 1))) hvalid.validBody
    Frame.covers_empty hclosed (hp.usesSlot_eq_false f hf) with
    ⟨n, hrun, hleft⟩ | ⟨d, l, r, e, below, hrun, hstops, hleft⟩
  · rw [hrun]
    refine ⟨fun n' hn' => ?_, fun e he => (by cases he)⟩
    obtain rfl : n = n' := Except.ok.inj hn'
    exact congrArg (fun is => [Folding.live is]) hleft
  · rw [hrun]
    refine ⟨fun n hn => (by cases hn), fun e' he' => ?_⟩
    obtain rfl : e = e' := Except.error.inj he'
    refine ⟨d, l, r, Folding.live below, hstops, (arith_eq_error hstops.arith_eq).2, ?_⟩
    rw [← Folding.live_of_acts (by rfl)]
    exact congrArg (fun is => [Folding.live is]) hleft

/-- A definition on constants that has a result. -/
def areaFunction : Function :=
  ⟨"area", ["aArg"], ["mul_tmp", "div_tmp", "sub_tmp"],
    [⟨"entry", [.binary .mul (.const 6) (.const 7) 0, .binary .sdiv (.value 0) (.const 5) 1,
      .binary .sub (.value 1) (.value 0) 2, .ret (.value 2)]⟩]⟩

/-- A definition on constants that comes to a quotient which does not fit, before it would divide by
zero. -/
def crashFunction : Function :=
  ⟨"crash", [], ["add_tmp", "sub_tmp", "div_tmp", "div_tmp1", "div_tmp2"],
    [⟨"entry", [.binary .add (.const 2147483647) (.const 1) 0, .binary .sub (.const 1) (.const 2) 1,
      .binary .sdiv (.const 9) (.value 1) 2, .binary .sdiv (.value 0) (.value 1) 3,
      .binary .sdiv (.value 2) (.const 0) 4, .ret (.value 4)]⟩]⟩

/-- The hypotheses are satisfiable: the two definitions make a promoted program.  Of the first, folding leaves
the result; of the second, it leaves the division at which a run stops, and what is below. -/
theorem fold_evaluates_constants_area_crash : ∃ p : Module, p.Promoted ∧
    p.functions = [areaFunction, crashFunction] ∧
    p.run .accepting "area" [5] = (.ok (-34), "") ∧
    areaFunction.fold.blocks.map Block.instrs = [[.ret (.const (-34))]] ∧
    p.run .accepting "crash" [] = (.error (.divisionOverflow "crash"), "") ∧
    ∃ d l r, StopsAt crashFunction [] d l r (.divisionOverflow "crash") .empty crashFunction.instrs ∧
      l = Int32.minValue ∧ r = -1 ∧ crashFunction.fold.blocks.map Block.instrs =
        [[.binary .sdiv (.const l) (.const r) d, .binary .sdiv (.const (-9)) (.const 0) 4,
          .ret (.value 4)]] := by
  have hp : (Module.mk "m" [areaFunction, crashFunction]).Promoted :=
    .prepare (m := Module.mk "m" [areaFunction, crashFunction]) rfl
  obtain ⟨-, hresult, -⟩ := fold_evaluates_constants _ hp areaFunction (by simp) rfl (by decide)
    [5] rfl .accepting
  obtain ⟨-, -, herror⟩ := fold_evaluates_constants _ hp crashFunction (by simp) rfl (by decide)
    [] rfl .accepting
  obtain ⟨d, l, r, below, hstops, ⟨-, herr⟩ | ⟨hl, hr, -⟩, hleft⟩ := herror _ rfl
  · cases herr
  · have hfold : crashFunction.fold.blocks.map Block.instrs = [[.binary .sdiv (.const Int32.minValue)
        (.const (-1)) 3, .binary .sdiv (.const (-9)) (.const 0) 4, .ret (.value 4)]] := rfl
    rw [hfold] at hleft
    obtain ⟨hhead, rfl⟩ := List.cons.inj (List.singleton_inj.1 hleft)
    exact ⟨_, hp, rfl, rfl, hresult (-34) rfl, rfl, d, l, r, hstops, hl, hr, hfold.trans (by rw [hhead])⟩

end IR
end Straightline
