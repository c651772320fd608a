/-
# What verification accepts

The rules of `Module.verify`, said as propositions.  An operand is readable where the values it needs
are defined (`Operand.Readable`), an instruction is valid if it reads what is readable and defines
what is new (`Instr.Valid`), and a body is valid if its instructions are, each after those above it,
and only the last one is a `ret` (`ValidBody`).  `Module.verify_eq_ok_iff` says that the check
accepts exactly the modules whose function names differ and whose definitions have one valid block.

A pass that changes nothing but the instructions of bodies (`KeepsShape`) keeps a module valid
if it keeps each body valid (`Module.Valid.mapFunctions`): the other functions of a module matter to
a body only through their names and arities (`ValidBody.mono`).
-/

import Straightline.IR.Verification
import Straightline.Proofs.Basic

namespace Straightline
namespace IR

/-- An operand that can be read where the given values are defined. -/
def Operand.Readable (f : Function) (defined : Table ValueKind) : Operand → Prop
  | .const _ | .undef => True
  | .param index => index < f.arity
  | .value id => defined.get id = some .integer

/-- An instruction that keeps the rules where the given values are defined. -/
structure Instr.Valid (m : Module) (f : Function) (defined : Table ValueKind) (i : Instr) : Prop where
  operands : ∀ o ∈ i.operands, o.Readable f defined
  slot : ∀ s, i.slot? = some s → defined.get s = some .slot
  callee : ∀ name args d, i = .call name args d →
    ∃ g, m.function? name = some g ∧ g.arity = args.length
  result : ∀ d, i.dest? = some d → d < f.names.length ∧ defined.get d = none

/-- The values that are defined after an instruction. -/
def Table.after (defined : Table ValueKind) (i : Instr) : Table ValueKind :=
  i.dest?.elim defined fun d => defined.set d i.kind

/-- Instructions that keep the rules one after the other; the last one, and only that, is a `ret`. -/
inductive ValidBody (m : Module) (f : Function) : Table ValueKind → List Instr → Prop
  | ret {defined : Table ValueKind} {v : Operand} (hv : v.Readable f defined) :
    ValidBody m f defined [.ret v]
  | step {defined : Table ValueKind} {i : Instr} {is : List Instr} (ht : i.isTerminator = false)
    (hi : i.Valid m f defined) (his : ValidBody m f (defined.after i) is) :
    ValidBody m f defined (i :: is)

/-- A definition with one block, which is valid. -/
def Function.Valid (m : Module) (f : Function) : Prop :=
  ∃ b, f.blocks = [b] ∧ ValidBody m f .empty b.instrs

/-- A module whose function names differ and whose definitions are valid. -/
structure Module.Valid (m : Module) : Prop where
  names : (m.functions.map Function.name).Nodup
  bodies : ∀ f ∈ m.functions, f.isDeclaration = false → f.Valid m

/-! ### The check and the rules -/

namespace Verification

variable {m : Module} {f : Function} {defined : Table ValueKind}

/-- An operand passes exactly if it is readable. -/
theorem operand_eq_ok_iff {o : Operand} :
    operand f defined o = .ok () ↔ o.Readable f defined := by
  cases o with
  | const n => simp [operand, Operand.Readable]
  | param index => by_cases h : index < f.arity <;> simp [operand, Operand.Readable, h]
  | undef => simp [operand, Operand.Readable]
  | value id =>
    rw [operand, Operand.Readable]
    cases h : defined.get id with
    | none => simp
    | some k => cases k <;> simp

/-- Operands pass exactly if each is readable. -/
theorem operands_eq_ok_iff {os : List Operand} :
    operands f defined os = .ok () ↔ ∀ o ∈ os, o.Readable f defined := by
  induction os with
  | nil => simp [operands]
  | cons o os ih =>
    rw [operands, Except.bind_eq_ok_iff, List.forall_mem_cons]
    constructor
    · rintro ⟨_, ho, hos⟩
      exact ⟨operand_eq_ok_iff.1 ho, ih.1 hos⟩
    · rintro ⟨ho, hos⟩
      exact ⟨(), operand_eq_ok_iff.2 ho, ih.2 hos⟩

/-- A slot passes exactly if it is defined as one. -/
theorem slot_eq_ok_iff {s : Option Nat} :
    slot f defined s = .ok () ↔ ∀ s', s = some s' → defined.get s' = some .slot := by
  cases s with
  | none => simp [slot]
  | some s => by_cases h : defined.get s = some .slot <;> simp [slot, h]

/-- A call passes exactly if the function is there and takes as many arguments. -/
theorem callee_eq_ok_iff {i : Instr} :
    callee m f i = .ok () ↔ ∀ name args d, i = .call name args d →
      ∃ g, m.function? name = some g ∧ g.arity = args.length := by
  cases i with
  | call name args d =>
    rw [callee]
    cases h : m.function? name with
    | none => simp [h]
    | some g => by_cases hg : g.arity = args.length <;> simp [h, hg]
  | _ => simp [callee]

/-- A result passes exactly if it has a name and is new. -/
theorem result_eq_ok_iff {i : Instr} {defined' : Table ValueKind} :
    result f defined i = .ok defined' ↔
      (∀ d, i.dest? = some d → d < f.names.length ∧ defined.get d = none) ∧
        defined' = defined.after i := by
  unfold result Table.after
  cases hd : i.dest? with
  | none => simp [eq_comm]
  | some d =>
    by_cases h : d < f.names.length ∧ defined.get d = none
    · simp [h, eq_comm]
    · simp only [Option.some.injEq, forall_eq', h, false_and, if_false, reduceCtorEq]

/-- **One instruction is accepted exactly if it is valid,** and then its result is defined. -/
theorem instr_eq_ok_iff {i : Instr} {defined' : Table ValueKind} :
    instr m f defined i = .ok defined' ↔ i.Valid m f defined ∧ defined' = defined.after i := by
  unfold instr
  simp only [Except.bind_eq_ok_iff]
  constructor
  · rintro ⟨_, ho, _, hs, _, hc, h⟩
    obtain ⟨hr, rfl⟩ := result_eq_ok_iff.1 h
    exact ⟨⟨operands_eq_ok_iff.1 ho, slot_eq_ok_iff.1 hs, callee_eq_ok_iff.1 hc, hr⟩, rfl⟩
  · rintro ⟨hi, rfl⟩
    exact ⟨(), operands_eq_ok_iff.2 hi.operands, (), slot_eq_ok_iff.2 hi.slot, (),
      callee_eq_ok_iff.2 hi.callee, result_eq_ok_iff.2 ⟨hi.result, rfl⟩⟩

/-- **The two checks of a body accept exactly the valid bodies.** -/
theorem terminator_and_instrs_eq_ok_iff {is : List Instr} :
    terminator f is = .ok () ∧ instrs m f defined is = .ok () ↔ ValidBody m f defined is := by
  induction is generalizing defined with
  | nil =>
    constructor
    · rintro ⟨h, _⟩
      exact absurd h (by simp [terminator])
    · intro h
      cases h
  | cons i is ih =>
    rw [instrs, Except.bind_eq_ok_iff, terminator]
    cases ht : i.isTerminator with
    | false =>
      rw [if_neg (by simp)]
      constructor
      · rintro ⟨h, defined', hok, his⟩
        obtain ⟨hi, rfl⟩ := instr_eq_ok_iff.1 hok
        exact .step ht hi (ih.1 ⟨h, his⟩)
      · intro h
        cases h with
        | ret => simp [Instr.isTerminator] at ht
        | step _ hi his =>
          obtain ⟨h, his⟩ := ih.2 his
          exact ⟨h, _, instr_eq_ok_iff.2 ⟨hi, rfl⟩, his⟩
    | true =>
      rw [if_pos rfl]
      constructor
      · rintro ⟨h, defined', hok, _⟩
        obtain ⟨hi, -⟩ := instr_eq_ok_iff.1 hok
        cases is with
        | cons j is => exact absurd h (by simp)
        | nil =>
          cases i with
          | ret v => exact .ret (hi.operands v (by simp [Instr.operands]))
          | _ => simp [Instr.isTerminator] at ht
      · intro h
        cases h with
        | step ht' => rw [ht] at ht'; cases ht'
        | @ret _ v hv =>
          have hi : (Instr.ret v).Valid m f defined := by
            constructor <;> simp [Instr.operands, Instr.slot?, Instr.dest?, hv]
          exact ⟨rfl, _, instr_eq_ok_iff.2 ⟨hi, rfl⟩, rfl⟩

/-- A body passes exactly if the function is valid. -/
theorem body_eq_ok_iff : body m f = .ok () ↔ f.Valid m := by
  unfold body Function.Valid
  split
  · rename_i b hb
    rw [Except.bind_eq_ok_iff]
    constructor
    · rintro ⟨_, ht, hi⟩
      exact ⟨b, hb, terminator_and_instrs_eq_ok_iff.1 ⟨ht, hi⟩⟩
    · rintro ⟨b', hb', h⟩
      obtain rfl : b = b' := by simpa [hb] using hb'
      obtain ⟨ht, hi⟩ := terminator_and_instrs_eq_ok_iff.2 h
      exact ⟨(), ht, hi⟩
  · rename_i hb
    constructor
    · intro h
      exact absurd h (by simp)
    · rintro ⟨b, hb', _⟩
      exact absurd hb' (hb b)

/-- Functions pass exactly if each definition is valid. -/
theorem functions_eq_ok_iff {fs : List Function} :
    functions m fs = .ok () ↔ ∀ f ∈ fs, f.isDeclaration = false → f.Valid m := by
  induction fs with
  | nil => simp [functions]
  | cons f fs ih =>
    rw [functions, List.forall_mem_cons]
    cases hf : f.isDeclaration with
    | true => simpa using ih
    | false =>
      rw [if_pos (by simp), Except.bind_eq_ok_iff]
      constructor
      · rintro ⟨_, hbody, hfs⟩
        exact ⟨fun _ => body_eq_ok_iff.1 hbody, ih.1 hfs⟩
      · rintro ⟨hbody, hfs⟩
        exact ⟨(), body_eq_ok_iff.2 (hbody rfl), ih.2 hfs⟩

end Verification

/-- **The check accepts exactly the valid modules.** -/
theorem Module.verify_eq_ok_iff (m : Module) : m.verify = .ok () ↔ m.Valid := by
  unfold Module.verify
  split
  · rename_i name h
    constructor
    · intro h'
      exact absurd h' (by simp)
    · rintro ⟨hnames, _⟩
      rw [(Names.firstRepeated_eq_none_iff _).2 hnames] at h
      cases h
  · rename_i h
    rw [Verification.functions_eq_ok_iff]
    have hnames := (Names.firstRepeated_eq_none_iff _).1 h
    exact ⟨fun hbodies => ⟨hnames, hbodies⟩, fun hm => hm.bodies⟩

/-- In a valid function, the instructions are valid from the first one on. -/
theorem Function.Valid.validBody {m : Module} {f : Function} (hf : f.Valid m) :
    ValidBody m f .empty f.instrs := by
  obtain ⟨b, hb, hbody⟩ := hf
  have hinstrs : f.instrs = b.instrs := by simp [Function.instrs, hb]
  rw [hinstrs]
  exact hbody

/-- The calls in a valid body name functions of the module, and pass as many arguments as these
take. -/
theorem ValidBody.callee {m : Module} {f : Function} {defined : Table ValueKind} {is : List Instr}
    (h : ValidBody m f defined is) : ∀ i ∈ is, ∀ name args d, i = .call name args d →
      ∃ g, m.function? name = some g ∧ g.arity = args.length := by
  induction h with
  | ret => exact fun i hi name args d hcall => (by simp [List.mem_singleton.1 hi] at hcall)
  | step _ hi _ ih =>
    rw [List.forall_mem_cons]
    exact ⟨hi.callee, ih⟩

/-! ### What is defined after an instruction -/

/-- The value that is defined has the kind of the instruction. -/
theorem Table.get_after_dest {defined : Table ValueKind} {i : Instr} {d : Nat}
    (h : i.dest? = some d) : (defined.after i).get d = some i.kind := by
  simp [Table.after, h]

/-- No other value changes. -/
theorem Table.get_after_of_ne {defined : Table ValueKind} {i : Instr} {id : Nat}
    (h : i.dest? ≠ some id) : (defined.after i).get id = defined.get id := by
  unfold Table.after
  cases hd : i.dest? with
  | none => rfl
  | some d =>
    have hne : id ≠ d := by
      rintro rfl
      exact h hd
    exact Table.get_set_of_ne _ _ hne

/-- What was defined before is not new, so a valid instruction leaves it as it is. -/
theorem Instr.Valid.get_after {m : Module} {f : Function} {defined : Table ValueKind} {i : Instr}
    {id : Nat} (hi : i.Valid m f defined) (hid : defined.get id ≠ none) :
    (defined.after i).get id = defined.get id := by
  refine Table.get_after_of_ne fun h => ?_
  exact hid (hi.result id h).2

/-! ### Passes that rewrite bodies -/

@[simp] theorem Instr.kind_mapOperands (g : Operand → Operand) (i : Instr) :
    (i.mapOperands g).kind = i.kind := by
  cases i <;> rfl

/-- What is defined does not depend on the operands. -/
@[simp] theorem Table.after_mapOperands (defined : Table ValueKind) (g : Operand → Operand)
    (i : Instr) : defined.after (i.mapOperands g) = defined.after i := by
  simp [Table.after]

/-- An instruction with other operands is valid where these are readable, its slot is allocated and
its result is new. -/
theorem Instr.Valid.mapOperands {m : Module} {f : Function} {defined defined' : Table ValueKind}
    {i : Instr} {g : Operand → Operand} (hi : i.Valid m f defined)
    (hread : ∀ o ∈ i.operands, (g o).Readable f defined')
    (hslot : ∀ s, i.slot? = some s → defined'.get s = some .slot)
    (hnew : ∀ d, i.dest? = some d → defined'.get d = none) :
    (i.mapOperands g).Valid m f defined' := by
  refine ⟨?_, ?_, ?_, ?_⟩
  · rw [operands_mapOperands]
    intro o' ho'
    obtain ⟨o, ho, rfl⟩ := List.mem_map.1 ho'
    exact hread o ho
  · rw [slot?_mapOperands]
    exact hslot
  · intro name args d h
    cases i with
    | call callee os d' =>
      obtain ⟨rfl, rfl, -⟩ : callee = name ∧ os.map g = args ∧ d' = d := by
        simpa [Instr.mapOperands] using h
      rw [List.length_map]
      exact hi.callee callee os d' rfl
    | _ => simp [Instr.mapOperands] at h
  · rw [dest?_mapOperands]
    exact fun d hd => ⟨(hi.result d hd).1, hnew d hd⟩

/-- A change to functions that keeps their names is found under the names. -/
theorem Module.function?_mapFunctions {g : Function → Function} (hname : ∀ f, (g f).name = f.name)
    (m : Module) (name : String) : (m.mapFunctions g).function? name = (m.function? name).map g := by
  have h : (fun f : Function => f.name == name) ∘ g = fun f => f.name == name := by
    funext f
    simp [hname f]
  rw [Module.function?, Module.function?, Module.mapFunctions, List.find?_map, h]

/-- A pass that keeps names and arities keeps what callers see of a module. -/
theorem Module.map_arity_mapFunctions {g : Function → Function} (hname : ∀ f, (g f).name = f.name)
    (harity : ∀ f, (g f).arity = f.arity) (m : Module) (name : String) :
    ((m.mapFunctions g).function? name).map Function.arity =
      (m.function? name).map Function.arity := by
  have hcomp : Function.arity ∘ g = Function.arity := funext harity
  rw [m.function?_mapFunctions hname, Option.map_map, hcomp]

/-- A change to functions that touches nothing but the instructions in their blocks. -/
structure KeepsShape (g : Function → Function) : Prop where
  name : ∀ f, (g f).name = f.name
  params : ∀ f, (g f).params = f.params
  names : ∀ f, (g f).names = f.names
  labels : ∀ f, (g f).blocks.map Block.label = f.blocks.map Block.label

namespace KeepsShape

variable {g : Function → Function} (hg : KeepsShape g)
include hg

/-- Arities stay. -/
theorem arity (f : Function) : (g f).arity = f.arity :=
  congrArg List.length (hg.params f)

/-- Declarations stay declarations. -/
theorem isDeclaration (f : Function) : (g f).isDeclaration = f.isDeclaration := by
  have h := congrArg List.isEmpty (hg.labels f)
  rwa [List.isEmpty_map, List.isEmpty_map] at h

/-- Functions are found under their names, changed. -/
theorem function? (m : Module) (name : String) :
    (m.mapFunctions g).function? name = (m.function? name).map g :=
  m.function?_mapFunctions hg.name name

end KeepsShape

/-- A body is valid in another module and function too, if calls find the same arities there, and
parameters and values are as many. -/
theorem ValidBody.mono {m m' : Module} {f f' : Function} {defined : Table ValueKind}
    {is : List Instr}
    (hm : ∀ name k, (m.function? name).map Function.arity = some k →
      (m'.function? name).map Function.arity = some k)
    (harity : f'.arity = f.arity) (hnames : f'.names.length = f.names.length)
    (h : ValidBody m f defined is) : ValidBody m' f' defined is := by
  have hread : ∀ (defined : Table ValueKind) (o : Operand), o.Readable f defined →
      o.Readable f' defined := by
    intro defined o ho
    cases o with
    | param index =>
      rw [Operand.Readable, harity]
      exact ho
    | _ => exact ho
  induction h with
  | ret hv => exact .ret (hread _ _ hv)
  | step ht hi _ ih =>
    refine .step ht ⟨fun o ho => hread _ _ (hi.operands o ho), hi.slot, ?_, ?_⟩ ih
    · intro name args d hcall
      obtain ⟨callee, hcallee, hargs⟩ := hi.callee name args d hcall
      have hfound := hm name callee.arity (by rw [hcallee, Option.map_some])
      obtain ⟨callee', hcallee', heq⟩ := Option.map_eq_some_iff.1 hfound
      exact ⟨callee', hcallee', heq.trans hargs⟩
    · intro d hd
      rw [hnames]
      exact hi.result d hd

/-- **A pass that keeps bodies valid keeps modules valid.** -/
theorem Module.Valid.mapFunctions {m : Module} {g : Function → Function} (hm : m.Valid)
    (hg : KeepsShape g)
    (hbody : ∀ f b, f ∈ m.functions → f.blocks = [b] → ValidBody m f .empty b.instrs →
      ∃ b', (g f).blocks = [b'] ∧ ValidBody m f .empty b'.instrs) :
    (m.mapFunctions g).Valid := by
  constructor
  · have hnames : (m.functions.map g).map Function.name = m.functions.map Function.name := by
      simp [hg.name]
    rw [Module.mapFunctions, hnames]
    exact hm.names
  · intro f' hf' hdef
    obtain ⟨f, hf, rfl⟩ := List.mem_map.1 hf'
    rw [hg.isDeclaration] at hdef
    obtain ⟨b, hb, hvalid⟩ := hm.bodies f hf hdef
    obtain ⟨b', hb', hvalid'⟩ := hbody f b hf hb hvalid
    refine ⟨b', hb', hvalid'.mono (fun name k hk => ?_) (hg.arity f) (by rw [hg.names])⟩
    rw [m.map_arity_mapFunctions hg.name hg.arity, hk]

end IR
end Straightline
