/-
# The rules of a module, place by place

Verification goes over a body once, and keeps a table of what was defined so far.  The rules that it
checks can be said without such a table.  They speak of an instruction and of those that stand above it:
a value that is read is the result of one of them, a slot was allocated by one of them (`Instr.Grounded`).
No two instructions have the same result (`Lawful`), and a body has one `ret`, its last instruction
(`EndsOnce`).

The two checks of a body are the two halves of this.  The search for the first `ret` accepts the bodies
that end once (`Verification.terminator_eq_ok_iff`).  The pass over the instructions accepts the lawful
ones: its table after some instructions is determined by them (`Table.get_ofInstrs_eq_some_iff`), and where
the instructions above are lawful, one more keeps them so exactly if the check accepts it
(`lawful_concat_iff`, `Lawful.valid_iff`).
-/

import Mathlib.Data.List.Induction
import Straightline.Proofs.Renumbering

namespace Straightline
namespace IR

/-- An instruction that reads only what there is, given the instructions above it: values that one of
them computed, a slot that one of them allocated, and parameters of its function.  If it is a call, then
of a function of the module, with as many arguments as that has parameters. -/
structure Instr.Grounded (m : Module) (f : Function) (above : List Instr) (i : Instr) : Prop where
  values : ∀ id, .value id ∈ i.operands → ∃ j ∈ above, j.dest? = some id ∧ j ≠ .alloca id
  slot : ∀ s, i.slot? = some s → .alloca s ∈ above
  params : ∀ k, .param k ∈ i.operands → k < f.arity
  callee : ∀ name args d, i = .call name args d →
    ∃ g ∈ m.functions, g.name = name ∧ g.arity = args.length

/-- Instructions that read only what there is, and whose results are different and have names. -/
structure Lawful (m : Module) (f : Function) (is : List Instr) : Prop where
  grounded : ∀ above i below, is = above ++ i :: below → i.Grounded m f above
  nodup : (dests is).Nodup
  named : ∀ d ∈ dests is, d < f.names.length

/-- Instructions of which one is a `ret`, the last. -/
def EndsOnce (is : List Instr) : Prop :=
  is.countP Instr.isTerminator = 1 ∧ ∃ v, is.getLast? = some (.ret v)

/-! ### The end of a body -/

/-- A block that starts with its end has nothing else. -/
theorem endsOnce_ret_cons {v : Operand} {is : List Instr} : EndsOnce (.ret v :: is) ↔ is = [] := by
  constructor
  · rintro ⟨hone, w, hlast⟩
    cases is with
    | nil => rfl
    | cons i is =>
      have hmem : Instr.ret w ∈ i :: is := List.mem_of_getLast? (by rwa [List.getLast?_cons_cons] at hlast)
      have hpos : 0 < (i :: is).countP Instr.isTerminator := List.countP_pos_iff.2 ⟨_, hmem, rfl⟩
      rw [List.countP_cons_of_pos rfl] at hone
      omega
  · rintro rfl
    exact ⟨rfl, v, rfl⟩

/-- An instruction that does not end the block can stand in front. -/
theorem endsOnce_cons {i : Instr} {is : List Instr} (ht : i.isTerminator = false) :
    EndsOnce (i :: is) ↔ EndsOnce is := by
  unfold EndsOnce
  rw [List.countP_cons_of_neg (by simp [ht])]
  refine and_congr_right fun hone => ?_
  cases is with
  | nil => cases hone
  | cons j is => rw [List.getLast?_cons_cons]

/-- **The search for the first `ret` accepts the bodies that end once.** -/
theorem Verification.terminator_eq_ok_iff {f : Function} {is : List Instr} :
    terminator f is = .ok () ↔ EndsOnce is := by
  induction is with
  | nil => exact ⟨nofun, fun h => nomatch h.1⟩
  | cons i is ih =>
    rw [terminator]
    cases ht : i.isTerminator with
    | false => rw [if_neg (by decide), ih, endsOnce_cons ht]
    | true =>
      cases i with
      | ret v => cases is <;> simp [endsOnce_ret_cons]
      | _ => cases ht

/-! ### The table after some instructions -/

namespace Table

/-- What is defined after instructions. -/
def ofInstrs (is : List Instr) : Table ValueKind :=
  is.foldl Table.after .empty

/-- The last instruction defines the last value. -/
theorem ofInstrs_concat (is : List Instr) (i : Instr) :
    ofInstrs (is ++ [i]) = (ofInstrs is).after i := by
  rw [ofInstrs, List.foldl_concat, ofInstrs]

/-- What no instruction defines is not defined. -/
theorem get_ofInstrs_eq_none_iff {is : List Instr} {id : Nat} :
    (ofInstrs is).get id = none ↔ id ∉ dests is := by
  induction is using List.reverseRecOn with
  | nil => exact ⟨fun _ => List.not_mem_nil, fun _ => rfl⟩
  | append_singleton is i ih =>
    rw [ofInstrs_concat, dests_append, List.mem_append, not_or, ← ih, dests_cons]
    by_cases hd : i.dest? = some id
    · simp [get_after_dest hd, hd]
    · simp [get_after_of_ne hd, hd, dests]

/-- **The table knows the results of the instructions, and what they are.** -/
theorem get_ofInstrs_eq_some_iff {is : List Instr} (hnodup : (dests is).Nodup) {id : Nat}
    {k : ValueKind} :
    (ofInstrs is).get id = some k ↔ ∃ j ∈ is, j.dest? = some id ∧ j.kind = k := by
  induction is using List.reverseRecOn with
  | nil => simp [ofInstrs]
  | append_singleton is i ih =>
    rw [dests_append] at hnodup
    rw [ofInstrs_concat]
    by_cases hd : i.dest? = some id
    · have hnew : id ∉ dests is := by
        simp only [dests_cons, hd] at hnodup
        exact not_mem_of_nodup_append hnodup
      rw [get_after_dest hd]
      constructor
      · intro hk
        exact ⟨i, by simp, hd, Option.some.inj hk⟩
      · rintro ⟨j, hj, hid, rfl⟩
        rcases List.mem_append.1 hj with hj | hj
        · exact absurd (mem_dests hj hid) hnew
        · rw [List.mem_singleton.1 hj]
    · rw [get_after_of_ne hd, ih (List.nodup_append.1 hnodup).1]
      simp [hd]

end Table

/-! ### Lawful instructions -/

/-- Slots are what `alloca` defines. -/
theorem Instr.kind_eq_slot_iff {i : Instr} {d : Nat} (hd : i.dest? = some d) :
    i.kind = .slot ↔ i = .alloca d := by
  cases i with
  | alloca d' =>
    obtain rfl := Option.some.inj hd
    exact iff_of_true rfl rfl
  | _ => exact iff_of_false nofun nofun

/-- Integers are what any other instruction defines. -/
theorem Instr.kind_eq_integer_iff {i : Instr} {d : Nat} (hd : i.dest? = some d) :
    i.kind = .integer ↔ i ≠ .alloca d := by
  rw [ne_eq, ← kind_eq_slot_iff hd]
  cases i.kind <;> simp

/-- Nothing breaks no rule. -/
theorem lawful_nil (m : Module) (f : Function) : Lawful m f [] := by
  refine ⟨fun above i below h => ?_, List.nodup_nil, fun d hd => ?_⟩
  · simp at h
  · cases hd

section Lawful

variable {m : Module} {f : Function} {is : List Instr} {i : Instr}

/-- Lawful instructions are lawful without those at their end. -/
theorem Lawful.of_append {js : List Instr} (h : Lawful m f (is ++ js)) : Lawful m f is := by
  have hnodup := h.nodup
  have hnamed := h.named
  rw [dests_append] at hnodup hnamed
  refine ⟨fun above i below hsplit => ?_, (List.nodup_append.1 hnodup).1, fun d hd => ?_⟩
  · exact h.grounded above i (below ++ js) (by simp [hsplit])
  · exact hnamed d (List.mem_append_left _ hd)

/-- **One more instruction stays lawful exactly if it reads only what there is and its result is new.** -/
theorem lawful_concat_iff :
    Lawful m f (is ++ [i]) ↔ Lawful m f is ∧ i.Grounded m f is ∧
      ∀ d, i.dest? = some d → d < f.names.length ∧ d ∉ dests is := by
  have hdests : dests (is ++ [i]) = dests is ++ i.dest?.toList := by
    rw [dests_append, dests_cons]
    exact congrArg _ (List.append_nil _)
  constructor
  · intro h
    refine ⟨h.of_append, h.grounded is i [] rfl, fun d hd => ?_⟩
    have hnodup := h.nodup
    rw [hdests, hd] at hnodup
    exact ⟨h.named d (by simp [hdests, hd]), not_mem_of_nodup_append hnodup⟩
  · rintro ⟨h, hi, hnew⟩
    refine ⟨fun above j below hsplit => ?_, ?_, ?_⟩
    · rcases List.eq_nil_or_concat below with rfl | ⟨below, k, rfl⟩
      · obtain ⟨rfl, hij⟩ := List.append_inj' hsplit rfl
        obtain rfl : i = j := by simpa using hij
        exact hi
      · have hsplit' : is ++ [i] = (above ++ j :: below) ++ [k] := by simpa using hsplit
        exact h.grounded above j below (List.append_inj' hsplit' rfl).1
    · rw [hdests]
      cases hd : i.dest? with
      | none => simpa using h.nodup
      | some d => exact nodup_append_singleton_iff.2 ⟨h.nodup, (hnew d hd).2⟩
    · rw [hdests, List.forall_mem_append]
      exact ⟨h.named, fun d hd => (hnew d (Option.mem_toList.1 hd)).1⟩

/-- After lawful instructions the check of one more asks for what the rules ask for. -/
theorem Lawful.valid_iff (h : Lawful m f is) (hm : (m.functions.map Function.name).Nodup) :
    i.Valid m f (Table.ofInstrs is) ↔
      i.Grounded m f is ∧ ∀ d, i.dest? = some d → d < f.names.length ∧ d ∉ dests is := by
  constructor
  · intro hi
    refine ⟨⟨fun id hid => ?_, fun s hs => ?_, fun k hk => hi.operands _ hk, ?_⟩, fun d hd => ?_⟩
    · obtain ⟨j, hj, hd, hkind⟩ := (Table.get_ofInstrs_eq_some_iff h.nodup).1 (hi.operands _ hid)
      exact ⟨j, hj, hd, (Instr.kind_eq_integer_iff hd).1 hkind⟩
    · obtain ⟨j, hj, hd, hkind⟩ := (Table.get_ofInstrs_eq_some_iff h.nodup).1 (hi.slot s hs)
      exact (Instr.kind_eq_slot_iff hd).1 hkind ▸ hj
    · intro name args d hcall
      obtain ⟨g, hg, hargs⟩ := hi.callee name args d hcall
      exact ⟨g, List.mem_of_find?_eq_some hg, by simpa using List.find?_some hg, hargs⟩
    · obtain ⟨hlt, hnone⟩ := hi.result d hd
      exact ⟨hlt, Table.get_ofInstrs_eq_none_iff.1 hnone⟩
  · rintro ⟨hi, hnew⟩
    refine ⟨fun o ho => ?_, fun s hs => ?_, ?_, fun d hd => ?_⟩
    · cases o with
      | const n | undef => trivial
      | param k => exact hi.params k ho
      | value id =>
        obtain ⟨j, hj, hd, hne⟩ := hi.values id ho
        exact (Table.get_ofInstrs_eq_some_iff h.nodup).2
          ⟨j, hj, hd, (Instr.kind_eq_integer_iff hd).2 hne⟩
    · exact (Table.get_ofInstrs_eq_some_iff h.nodup).2 ⟨_, hi.slot s hs, rfl, rfl⟩
    · intro name args d hcall
      obtain ⟨g, hg, rfl, hargs⟩ := hi.callee name args d hcall
      exact ⟨g, find?_eq_some_of_mem hm hg, hargs⟩
    · exact ⟨(hnew d hd).1, Table.get_ofInstrs_eq_none_iff.2 (hnew d hd).2⟩

/-- **The pass over the instructions of a body accepts the lawful ones.** -/
theorem Verification.instrs_eq_ok_iff (hm : (m.functions.map Function.name).Nodup)
    {above : List Instr} (habove : Lawful m f above) :
    instrs m f (Table.ofInstrs above) is = .ok () ↔ Lawful m f (above ++ is) := by
  induction is generalizing above with
  | nil =>
    rw [List.append_nil]
    exact iff_of_true rfl habove
  | cons i is ih =>
    have hsplit : above ++ i :: is = (above ++ [i]) ++ is := by simp
    rw [instrs, Except.bind_eq_ok_iff, hsplit]
    constructor
    · rintro ⟨defined, hi, his⟩
      obtain ⟨hvalid, rfl⟩ := instr_eq_ok_iff.1 hi
      rw [← Table.ofInstrs_concat] at his
      exact (ih (lawful_concat_iff.2 ⟨habove, (habove.valid_iff hm).1 hvalid⟩)).1 his
    · intro h
      have hconcat : Lawful m f (above ++ [i]) := h.of_append
      refine ⟨_, instr_eq_ok_iff.2 ⟨(habove.valid_iff hm).2 (lawful_concat_iff.1 hconcat).2, rfl⟩, ?_⟩
      rw [← Table.ofInstrs_concat]
      exact (ih hconcat).2 h

/-- **A valid body is a lawful one that ends once.** -/
theorem validBody_iff (hm : (m.functions.map Function.name).Nodup) :
    ValidBody m f .empty is ↔ EndsOnce is ∧ Lawful m f is := by
  rw [← Verification.terminator_and_instrs_eq_ok_iff, Verification.terminator_eq_ok_iff]
  exact and_congr_right fun _ => Verification.instrs_eq_ok_iff hm (lawful_nil m f)

end Lawful

/-- **Verification accepts exactly the modules that keep the rules.**  Function names differ, and every
function with blocks has one, with one `ret` at its end, in which each instruction reads values computed,
slots allocated and parameters given, calls functions of the module with the right number of arguments, and
has a result of its own that has a name. -/
theorem verify_iff_lawful (m : Module) :
    m.verify = .ok () ↔ (m.functions.map Function.name).Nodup ∧ ∀ f ∈ m.functions, f.blocks ≠ [] →
      ∃ b, f.blocks = [b] ∧ EndsOnce b.instrs ∧ Lawful m f b.instrs := by
  have hdef : ∀ f : Function, f.isDeclaration = false ↔ f.blocks ≠ [] := fun f =>
    List.isEmpty_eq_false_iff
  rw [m.verify_eq_ok_iff]
  constructor
  · rintro ⟨hm, hbodies⟩
    refine ⟨hm, fun f hf hblocks => ?_⟩
    obtain ⟨b, hb, hbody⟩ := hbodies f hf ((hdef f).2 hblocks)
    exact ⟨b, hb, (validBody_iff hm).1 hbody⟩
  · rintro ⟨hm, hbodies⟩
    refine ⟨hm, fun f hf hf' => ?_⟩
    obtain ⟨b, hb, hbody⟩ := hbodies f hf ((hdef f).1 hf')
    exact ⟨b, hb, (validBody_iff hm).2 hbody⟩

/-- An instruction does not stand above itself, so it cannot read its own result. -/
example : (⟨"m", [⟨"f", [], ["x"], [⟨"entry", [.binary .add (.value 0) (.const 1) 0, .ret (.value 0)]⟩]⟩]⟩ :
    Module).verify = .error (.undefinedValue "f" "x") := rfl

end IR
end Straightline
