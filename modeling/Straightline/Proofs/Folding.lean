/-
# Folding constants keeps what modules do

Folding goes over a body twice.  The first time, forward, it leaves out arithmetic on constants and
writes the results where the values were read.  A value that is left out is known, and no later
instruction reads it any more (`Known.Tracks`); as it is defined only once, it holds in every frame
what is known of it (`Known.Agrees`).  The second time, backward, it leaves out instructions that do
nothing but define a value which no kept instruction reads.  The frames then differ, but not in
what is read (`Live.Agrees`).  An instruction may only be left out if it would not have failed: that is so
of arithmetic with a result, and of pure instructions in a valid body (`Live.outcome_of_isPure`), while
a division is kept unless its result is known.

Both times a valid body stays valid and runs as before, so the same holds of modules
(`Module.Valid.fold`, `Module.Valid.run_fold`).  A promoted program is what `Module.prepare` returns,
folded any number of times (`Module.Promoted`).
-/

import Straightline.IR.Folding
import Straightline.Proofs.Promotion

namespace Straightline
namespace IR

variable {m : Module} {f : Function} {args : List Int32} {known : Table Int32}
  {defined defined' : Table ValueKind} {fr fr' : Execution.Frame} {i : Instr} {is : List Instr}
  {d : Nat} {n : Int32}

namespace Folding

/-! ### Arithmetic on constants -/

/-- What is left out is arithmetic on two constants that has a result. -/
theorem eq_binary_of_result? (h : result? i = some (d, n)) :
    ∃ op l r, i = .binary op (.const l) (.const r) d ∧ op.eval? l r = some n := by
  unfold result? at h
  split at h
  · rename_i op l r d'
    obtain ⟨k, hk, heq⟩ := Option.map_eq_some_iff.1 h
    obtain ⟨rfl, rfl⟩ := Prod.mk.inj heq
    exact ⟨op, l, r, rfl, hk⟩
  · cases h

/-- An instruction with a known result goes, and the result is known below it. -/
theorem instrs_of_result? (h : result? (i.mapOperands (operand known)) = some (d, n)) :
    (instrs known (i :: is)).1 = (instrs (known.set d n) is).1 := by
  simp [instrs, h]

/-- Any other instruction stays, with known operands put in. -/
theorem instrs_of_result?_eq_none (h : result? (i.mapOperands (operand known)) = none) :
    (instrs known (i :: is)).1 = i.mapOperands (operand known) :: (instrs known is).1 := by
  simp [instrs, h]

/-- Such an instruction defines an integer, and its number is the result. -/
theorem dest?_of_result? {g : Operand → Operand} (h : result? (i.mapOperands g) = some (d, n)) :
    i.dest? = some d ∧ i.kind = .integer := by
  obtain ⟨op, l, r, heq, -⟩ := eq_binary_of_result? h
  rw [← Instr.dest?_mapOperands g, ← Instr.kind_mapOperands g, heq]
  exact ⟨rfl, rfl⟩

/-- An instruction that is evaluated would have had that result. -/
theorem outcome_of_result? (inv : String → List Int32 → Execution Int32)
    (h : result? i = some (d, n)) : Execution.outcome inv f args fr i = pure n := by
  obtain ⟨op, l, r, rfl, hn⟩ := eq_binary_of_result? h
  simp [Execution.outcome, Execution.Frame.read, Execution.arith, hn]

end Folding

namespace Known

open Folding

/-- What the forward walk knows after instructions that defined the values of `defined`, of which it
kept those that define the values of `defined'`. -/
structure Tracks (known : Table Int32) (defined defined' : Table ValueKind) : Prop where
  integer : ∀ id n, known.get id = some n → defined.get id = some .integer
  others : ∀ id, known.get id = none → defined'.get id = defined.get id

namespace Tracks

/-- At the start nothing is known and nothing defined. -/
theorem empty : Tracks .empty .empty .empty :=
  ⟨fun _ _ h => (by cases h), fun _ _ => rfl⟩

/-- A value that is no integer, or not defined, is not known. -/
theorem get_eq_none (h : Tracks known defined defined') {id : Nat} {k : Option ValueKind}
    (hid : defined.get id = k) (hk : k ≠ some .integer) : known.get id = none := by
  cases hknown : known.get id with
  | none => rfl
  | some n => exact absurd (hid.symm.trans (h.integer id n hknown)) hk

/-- An operand that was readable still is when known values are put in. -/
theorem operand (h : Tracks known defined defined') {o : Operand} (ho : o.Readable f defined) :
    (operand known o).Readable f defined' := by
  cases o with
  | value id =>
    cases hknown : known.get id with
    | some n => simp [Folding.operand, hknown, Operand.Readable]
    | none =>
      have hid : defined'.get id = some .integer := (h.others id hknown).trans ho
      simpa [Folding.operand, hknown, Operand.Readable] using hid
  | _ => exact ho

/-- An instruction that is evaluated is defined in the one table and known. -/
theorem learn (h : Tracks known defined defined') (hi : i.dest? = some d)
    (hkind : i.kind = .integer) : Tracks (known.set d n) (defined.after i) defined' := by
  have hafter : defined.after i = defined.set d .integer := by rw [Table.after, hi, hkind]; rfl
  rw [hafter]
  refine ⟨fun id k hid => ?_, fun id hid => ?_⟩
  · obtain ⟨rfl, -⟩ | ⟨hne, hid⟩ := Table.get_set_eq_some_iff.1 hid
    · exact Table.get_set_self _ _ _
    · exact (Table.get_set_of_ne _ _ hne).trans (h.integer id k hid)
  · obtain ⟨hne, hid⟩ := Table.get_set_eq_none_iff.1 hid
    exact (h.others id hid).trans (Table.get_set_of_ne _ _ hne).symm

/-- An instruction that stays is defined in both tables. -/
theorem keep (h : Tracks known defined defined') (hi : i.Valid m f defined) :
    Tracks known (defined.after i) (defined'.after i) := by
  refine ⟨fun id k hid => ?_, fun id hid => ?_⟩
  · have hint := h.integer id k hid
    rw [hi.get_after (by simp [hint])]
    exact hint
  · by_cases hd : i.dest? = some id
    · rw [Table.get_after_dest hd, Table.get_after_dest hd]
    · rw [Table.get_after_of_ne hd, Table.get_after_of_ne hd]
      exact h.others id hid

end Tracks

/-- **What the forward walk keeps of a valid body is valid.** -/
theorem validBody_instrs (hbody : ValidBody m f defined is) (h : Tracks known defined defined') :
    ValidBody m f defined' (instrs known is).1 := by
  induction hbody generalizing known defined' with
  | ret hv => exact .ret (h.operand hv)
  | @step defined i is ht hi _ ih =>
    cases hres : result? (i.mapOperands (operand known)) with
    | some dn =>
      obtain ⟨d, n⟩ := dn
      obtain ⟨hd, hkind⟩ := dest?_of_result? hres
      rw [instrs_of_result? hres]
      exact ih (h.learn hd hkind)
    | none =>
      rw [instrs_of_result?_eq_none hres]
      refine .step (by simpa using ht) ?_ (ih ?_)
      · refine hi.mapOperands (fun o ho => h.operand (hi.operands o ho)) (fun s hs => ?_)
          (fun d hd => ?_)
        · have hslot := hi.slot s hs
          rw [h.others s (h.get_eq_none hslot (by simp))]
          exact hslot
        · have hnew := (hi.result d hd).2
          rw [h.others d (h.get_eq_none hnew (by simp))]
          exact hnew
      · rw [Table.after_mapOperands]
        exact h.keep hi

/-- Two frames in which the forward walk is right: known values are held by the one, all others by
both. -/
structure Agrees (known : Table Int32) (fr fr' : Execution.Frame) : Prop where
  held : ∀ id n, known.get id = some n → fr.values.get id = some n
  others : ∀ id, known.get id = none → fr'.values.get id = fr.values.get id
  memory : fr'.memory = fr.memory

namespace Agrees

/-- Every operand reads the same when known values are put in. -/
theorem read (h : Agrees known fr fr') (o : Operand) :
    fr'.read f args (operand known o) = fr.read f args o := by
  cases o with
  | value id =>
    cases hknown : known.get id with
    | some n => simp [operand, hknown, Execution.Frame.read, h.held id n hknown]
    | none => simp [operand, hknown, Execution.Frame.read, h.others id hknown]
  | _ => rfl

/-- After an instruction that is evaluated, the frames agree with its result known. -/
theorem learn (h : Agrees known fr fr') (hi : i.dest? = some d) (hkind : i.kind = .integer) :
    Agrees (known.set d n) (fr.after n i) fr' := by
  refine ⟨fun id k hid => ?_, fun id hid => ?_, ?_⟩
  · obtain ⟨rfl, rfl⟩ | ⟨hne, hid⟩ := Table.get_set_eq_some_iff.1 hid
    · exact Execution.Frame.values_after_dest hi hkind
    · rw [Execution.Frame.values_after_of_ne (by rw [hi]; simpa using Ne.symm hne)]
      exact h.held id k hid
  · obtain ⟨hne, hid⟩ := Table.get_set_eq_none_iff.1 hid
    rw [Execution.Frame.values_after_of_ne (by rw [hi]; simpa using Ne.symm hne)]
    exact h.others id hid
  · rw [Execution.Frame.memory_after_dest hi hkind]
    exact h.memory

/-- After an instruction that stays, the frames agree on as much as before. -/
theorem keep (h : Agrees known fr fr') (hnew : ∀ d, i.dest? = some d → known.get d = none)
    (n : Int32) : Agrees known (fr.after n i) (fr'.after n i) := by
  refine ⟨fun id k hid => ?_, fun id hid => ?_, ?_⟩
  · have hd : i.dest? ≠ some id := by
      intro hd
      rw [hnew id hd] at hid
      cases hid
    rw [Execution.Frame.values_after_of_ne hd]
    exact h.held id k hid
  · exact Execution.Frame.values_after_congr (h.others id hid)
  · funext s
    exact Execution.Frame.memory_after_congr (congrFun h.memory s)

end Agrees

/-- **What the forward walk keeps of a valid body runs like the body.** -/
theorem run_instrs {inv : String → List Int32 → Execution Int32}
    (hbody : ValidBody m f defined is) (ht : Tracks known defined defined')
    (h : Agrees known fr fr') :
    Execution.instrs inv f args fr' (instrs known is).1 = Execution.instrs inv f args fr is := by
  induction hbody generalizing known defined' fr fr' with
  | @ret defined v hv =>
    show Execution.instrs inv f args fr' [.ret (operand known v)] = _
    rw [Execution.instrs_ret, Execution.instrs_ret, Execution.outcome, Execution.outcome, h.read]
  | @step defined i is hterm hi _ ih =>
    have hlt : ∀ d, i.dest? = some d → d < f.names.length := fun d hd => (hi.result d hd).1
    have hout : Execution.outcome inv f args fr' (i.mapOperands (operand known)) =
        Execution.outcome inv f args fr i :=
      Execution.outcome_mapOperands inv rfl (fun o _ => h.read o) fun s _ => congrFun h.memory s
    rw [Execution.instrs_step hterm hlt, ← hout]
    cases hres : result? (i.mapOperands (operand known)) with
    | some dn =>
      obtain ⟨d, n⟩ := dn
      obtain ⟨hd, hkind⟩ := dest?_of_result? hres
      rw [instrs_of_result? hres, outcome_of_result? inv hres, pure_bind]
      exact ih (ht.learn hd hkind) (h.learn hd hkind)
    | none =>
      rw [instrs_of_result?_eq_none hres, Execution.instrs_step (by simpa using hterm) (by simpa using hlt)]
      refine bind_congr fun n => ?_
      rw [Execution.Frame.after_mapOperands]
      exact ih (ht.keep hi) (h.keep (fun d hd => ht.get_eq_none (hi.result d hd).2 (by simp)) n)

end Known

/-! ### Instructions that nothing reads -/

/-- Nothing changes if no operand does. -/
@[simp] theorem Instr.mapOperands_id (i : Instr) : i.mapOperands id = i := by
  cases i <;> simp [Instr.mapOperands]

namespace Live

open Folding

/-- What is left out is pure and defines a value that nothing kept reads. -/
theorem of_isDead {kept : List Instr} (h : isDead i kept = true) :
    isPure i = true ∧ ∃ d, i.dest? = some d ∧ ∀ j ∈ kept, d ∉ j.reads := by
  simp only [isDead, Bool.and_eq_true] at h
  refine ⟨h.1, ?_⟩
  cases hd : i.dest? with
  | none => cases i <;> simp [isPure, Instr.dest?] at h hd
  | some d =>
    refine ⟨d, rfl, fun j hj => ?_⟩
    have hall := h.2
    rw [hd, Option.all_some, List.all_eq_true] at hall
    simpa using hall j hj

/-- The tables after the instructions so far, of which some were left out: they agree on all that is
read further on. -/
structure Tracks (kept : List Instr) (defined defined' : Table ValueKind) : Prop where
  read : ∀ j ∈ kept, ∀ id ∈ j.reads, defined'.get id = defined.get id
  new : ∀ id, defined.get id = none → defined'.get id = none

namespace Tracks

/-- A dead instruction defines nothing that is read further on. -/
theorem drop (h : Tracks (live is) defined defined') (hi : i.dest? = some d)
    (hdead : ∀ j ∈ live is, d ∉ j.reads) : Tracks (live is) (defined.after i) defined' := by
  refine ⟨fun j hj id hid => ?_, fun id hid => ?_⟩
  · have hne : i.dest? ≠ some id := by
      rw [hi]
      rintro heq
      obtain rfl := Option.some.inj heq
      exact hdead j hj hid
    rw [Table.get_after_of_ne hne]
    exact h.read j hj id hid
  · have hne : i.dest? ≠ some id := by
      intro hd
      rw [Table.get_after_dest hd] at hid
      cases hid
    rw [Table.get_after_of_ne hne] at hid
    exact h.new id hid

/-- An instruction that stays is defined in both tables. -/
theorem keep {kept : List Instr} (h : Tracks (i :: kept) defined defined') :
    Tracks kept (defined.after i) (defined'.after i) := by
  refine ⟨fun j hj id hid => ?_, fun id hid => ?_⟩
  · by_cases hd : i.dest? = some id
    · rw [Table.get_after_dest hd, Table.get_after_dest hd]
    · rw [Table.get_after_of_ne hd, Table.get_after_of_ne hd]
      exact h.read j (List.mem_cons_of_mem i hj) id hid
  · have hne : i.dest? ≠ some id := by
      intro hd
      rw [Table.get_after_dest hd] at hid
      cases hid
    rw [Table.get_after_of_ne hne] at hid ⊢
    exact h.new id hid

/-- What an instruction reads is readable in both tables. -/
theorem readable {kept : List Instr} (h : Tracks (i :: kept) defined defined') {o : Operand}
    (ho : o ∈ i.operands) (hread : o.Readable f defined) : o.Readable f defined' := by
  cases o with
  | value id =>
    have hid := h.read i List.mem_cons_self id (Instr.mem_reads_of_operand ho)
    exact hid.trans hread
  | _ => exact hread

end Tracks

/-- **What the backward walk keeps of a valid body is valid.** -/
theorem validBody_live (hbody : ValidBody m f defined is)
    (h : Tracks (live is) defined defined') : ValidBody m f defined' (live is) := by
  induction hbody generalizing defined' with
  | ret hv => exact .ret (h.readable (List.mem_singleton_self _) hv)
  | @step defined i is ht hi _ ih =>
    rw [live] at h ⊢
    by_cases hdead : isDead i (live is) = true
    · rw [if_pos hdead] at h ⊢
      obtain ⟨-, d, hd, hunread⟩ := of_isDead hdead
      exact ih (h.drop hd hunread)
    · rw [if_neg hdead] at h ⊢
      refine .step ht ?_ (ih h.keep)
      rw [← Instr.mapOperands_id i]
      refine hi.mapOperands (fun o ho => h.readable ho (hi.operands o ho)) (fun s hs => ?_)
        (fun d hd => h.new d (hi.result d hd).2)
      rw [h.read i List.mem_cons_self s (Instr.mem_reads_of_slot hs)]
      exact hi.slot s hs

/-- **A pure instruction of a valid body does not fail.** -/
theorem outcome_of_isPure (inv : String → List Int32 → Execution Int32)
    (hargs : args.length = f.arity) (hpure : isPure i = true) (hi : i.Valid m f defined)
    (hfr : fr.Covers defined) : ∃ n, Execution.outcome inv f args fr i = pure n := by
  cases i with
  | alloca d => exact ⟨0, rfl⟩
  | load d s => exact ⟨fr.memory s, rfl⟩
  | store v s | call callee os d | ret v => cases hpure
  | binary op l r d =>
    obtain ⟨lhs, hl⟩ := hfr.read hargs (hi.operands l (by simp [Instr.operands]))
    obtain ⟨rhs, hr⟩ := hfr.read hargs (hi.operands r (by simp [Instr.operands]))
    cases op with
    | sdiv => cases hpure
    | add => exact ⟨lhs + rhs, by rw [Execution.outcome, hl, hr]; rfl⟩
    | sub => exact ⟨lhs - rhs, by rw [Execution.outcome, hl, hr]; rfl⟩
    | mul => exact ⟨lhs * rhs, by rw [Execution.outcome, hl, hr]; rfl⟩

/-- Two frames that agree on all that is read further on. -/
def Agrees (kept : List Instr) (fr fr' : Execution.Frame) : Prop :=
  ∀ j ∈ kept, ∀ id ∈ j.reads,
    fr'.values.get id = fr.values.get id ∧ fr'.memory id = fr.memory id

namespace Agrees

/-- What an instruction reads is the same in both frames. -/
theorem read {kept : List Instr} (h : Agrees (i :: kept) fr fr') {o : Operand}
    (ho : o ∈ i.operands) : fr'.read f args o = fr.read f args o := by
  cases o with
  | value id =>
    have hid := (h i List.mem_cons_self id (Instr.mem_reads_of_operand ho)).1
    rw [Execution.Frame.read, Execution.Frame.read, hid]
  | _ => rfl

/-- An instruction that stays has the same result in both frames. -/
theorem outcome (inv : String → List Int32 → Execution Int32) {kept : List Instr}
    (h : Agrees (i :: kept) fr fr') :
    Execution.outcome inv f args fr' i = Execution.outcome inv f args fr i := by
  have hout : Execution.outcome inv f args fr' (i.mapOperands id) =
      Execution.outcome inv f args fr i :=
    Execution.outcome_mapOperands inv rfl (fun o ho => h.read ho) fun s hs =>
      (h i List.mem_cons_self s (Instr.mem_reads_of_slot hs)).2
  rwa [Instr.mapOperands_id] at hout

/-- A dead instruction changes nothing that is read further on. -/
theorem drop {kept : List Instr} (h : Agrees kept fr fr') (hi : i.dest? = some d)
    (hpure : isPure i = true) (hdead : ∀ j ∈ kept, d ∉ j.reads) (n : Int32) :
    Agrees kept (fr.after n i) fr' := by
  intro j hj id hid
  have hne : id ≠ d := by
    rintro rfl
    exact hdead j hj hid
  obtain ⟨hval, hmem⟩ := h j hj id hid
  refine ⟨?_, ?_⟩
  · rw [Execution.Frame.values_after_of_ne (by rw [hi]; simpa using Ne.symm hne)]
    exact hval
  · cases i with
    | alloca d' =>
      obtain rfl := Option.some.inj hi
      rw [Execution.Frame.after, Execution.Frame.memory_store_of_ne hne]
      exact hmem
    | load d' s | binary op l r d' => exact hmem
    | store v s | call callee os d' | ret v => cases hpure

/-- An instruction that stays changes both frames alike. -/
theorem keep {kept : List Instr} (h : Agrees (i :: kept) fr fr') (n : Int32) :
    Agrees kept (fr.after n i) (fr'.after n i) := by
  intro j hj id hid
  obtain ⟨hval, hmem⟩ := h j (List.mem_cons_of_mem i hj) id hid
  exact ⟨Execution.Frame.values_after_congr hval, Execution.Frame.memory_after_congr hmem⟩

end Agrees

/-- **What the backward walk keeps of a valid body runs like the body.** -/
theorem run_live {inv : String → List Int32 → Execution Int32} (hargs : args.length = f.arity)
    (hbody : ValidBody m f defined is) (hfr : fr.Covers defined)
    (h : Agrees (live is) fr fr') :
    Execution.instrs inv f args fr' (live is) = Execution.instrs inv f args fr is := by
  induction hbody generalizing fr fr' with
  | @ret defined v hv =>
    show Execution.instrs inv f args fr' [.ret v] = _
    rw [Execution.instrs_ret, Execution.instrs_ret, Agrees.outcome inv h]
  | @step defined i is ht hi _ ih =>
    have hlt : ∀ d, i.dest? = some d → d < f.names.length := fun d hd => (hi.result d hd).1
    rw [Execution.instrs_step ht hlt]
    rw [live] at h ⊢
    by_cases hdead : isDead i (live is) = true
    · rw [if_pos hdead] at h ⊢
      obtain ⟨hpure, d, hd, hunread⟩ := of_isDead hdead
      obtain ⟨n, hn⟩ := outcome_of_isPure inv hargs hpure hi hfr
      rw [hn, pure_bind]
      exact ih (hfr.after n i) (h.drop hd hpure hunread n)
    · rw [if_neg hdead] at h ⊢
      rw [Execution.instrs_step ht hlt, h.outcome inv]
      exact bind_congr fun n => ih (hfr.after n i) (h.keep n)

end Live

/-! ### Functions and modules -/

/-- Blocks keep their labels. -/
theorem Folding.map_label_blocks (known : Table Int32) (bs : List Block) :
    (Folding.blocks known bs).map Block.label = bs.map Block.label := by
  induction bs generalizing known with
  | nil => rfl
  | cons b bs ih => simp [Folding.blocks, ih]

/-- Folding changes nothing of a function that a caller sees. -/
theorem keepsShape_fold : KeepsShape Function.fold := by
  refine ⟨fun _ => rfl, fun _ => rfl, fun _ => rfl, fun f => ?_⟩
  simpa [Function.fold, Function.mapBlocks, Function.comp_def] using
    Folding.map_label_blocks .empty f.blocks

/-- To fold a function with one block is to walk its block forward and then backward. -/
theorem Function.blocks_fold {b : Block} (hb : f.blocks = [b]) :
    f.fold.blocks = [{ b with instrs := Folding.live (Folding.instrs .empty b.instrs).1 }] := by
  simp [Function.fold, Function.mapBlocks, Folding.blocks, hb]

/-- **A valid module stays valid.** -/
theorem Module.Valid.fold (hm : m.Valid) : m.fold.Valid := by
  refine hm.mapFunctions keepsShape_fold fun f b _ hb hbody => ⟨_, Function.blocks_fold hb, ?_⟩
  have hknown := Known.validBody_instrs hbody .empty
  exact Live.validBody_live hknown ⟨fun _ _ _ _ => rfl, fun _ h => h⟩

/-- What is kept of the body of a valid definition runs like the body. -/
theorem Function.Valid.instrs_fold (hf : f.Valid m)
    (inv : String → List Int32 → Execution Int32) (hargs : args.length = f.arity) :
    Execution.instrs inv f args .empty f.fold.instrs =
      Execution.instrs inv f args .empty f.instrs := by
  obtain ⟨b, hb, hbody⟩ := hf
  have hinstrs : f.instrs = b.instrs := by simp [Function.instrs, hb]
  have hkept : f.fold.instrs = Folding.live (Folding.instrs .empty b.instrs).1 := by
    simp [Function.instrs, Function.blocks_fold hb]
  have hknown := Known.validBody_instrs hbody .empty
  rw [hinstrs, hkept]
  calc Execution.instrs inv f args .empty (Folding.live (Folding.instrs .empty b.instrs).1)
      = Execution.instrs inv f args .empty (Folding.instrs .empty b.instrs).1 :=
        Live.run_live hargs hknown Execution.Frame.covers_empty fun _ _ _ _ => ⟨rfl, rfl⟩
    _ = Execution.instrs inv f args .empty b.instrs :=
        Known.run_instrs hbody .empty ⟨fun _ _ h => (by cases h), fun _ _ => rfl, rfl⟩

/-- A valid module runs as before when it is folded. -/
theorem Module.Valid.runsLike_fold (hm : m.Valid) : m.fold.RunsLike m :=
  Module.runsLike_mapFunctions keepsShape_fold fun f hf hdef inv _ hargs =>
    (hm.bodies f hf hdef).instrs_fold inv hargs

/-- A valid module gives the same result and the same output when it is folded. -/
theorem Module.Valid.run_fold (hm : m.Valid) (sink : Sink) (name : String) (args : List Int32) :
    m.fold.run sink name args = m.run sink name args :=
  hm.runsLike_fold.run sink name args

/-- A program that may be executed: a module that `Module.prepare` has accepted, with its constants
folded any number of times. -/
inductive Module.Promoted : Module → Prop
  | prepare {m p : Module} (h : m.prepare = .ok p) : Promoted p
  | fold {p : Module} (h : Promoted p) : Promoted p.fold

/-- A module that was promoted is valid. -/
theorem Module.Promoted.valid {p : Module} (h : p.Promoted) : p.Valid := by
  induction h with
  | @prepare m p h =>
    obtain ⟨hm, rfl⟩ := Module.prepare_eq_ok_iff.1 h
    exact hm.promote
  | fold _ ih => exact ih.fold

/-- **Folding constants keeps what a program does.**  For every promoted program, every call has the
same outcome, result or error, and the same output before and after. -/
theorem run_fold_of_promoted (p : Module) (h : p.Promoted) (sink : Sink) (name : String)
    (args : List Int32) : p.fold.run sink name args = p.run sink name args :=
  h.valid.run_fold sink name args

/-- A program that prints a known value, and then divides by zero to define a value that nothing
reads. -/
def unreadDivision : Module :=
  ⟨"m", [.declare "printnum" ["i"],
    ⟨"main", ["aArg"], ["sum", "call_tmp", "zero", "div_tmp", "add_tmp"],
      [⟨"entry", [.binary .add (.const 2) (.const 3) 0, .call "printnum" [.value 0] 1,
        .binary .sub (.value 0) (.const 5) 2, .binary .sdiv (.value 0) (.value 2) 3,
        .binary .add (.param 0) (.const 1) 4, .ret (.value 0)]⟩]⟩]⟩

/-- The hypothesis is satisfiable: `unreadDivision` is promoted, folding leaves the call and the
division, and the program still prints and then fails. -/
theorem run_fold_unreadDivision : unreadDivision.Promoted ∧
    unreadDivision.fold.functions.flatMap Function.instrs =
      [.call "printnum" [.const 5] 1, .binary .sdiv (.const 5) (.const 0) 3, .ret (.const 5)] ∧
    unreadDivision.fold.run .accepting "main" [3] = unreadDivision.run .accepting "main" [3] :=
  have h : unreadDivision.Promoted := .prepare (m := unreadDivision) rfl
  ⟨h, rfl, run_fold_of_promoted unreadDivision h .accepting "main" [3]⟩

end IR
end Straightline
