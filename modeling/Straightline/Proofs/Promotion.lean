/-
# Replacing slots by values keeps what modules do

A walk over a block leaves out the traffic with slots.  That is right because of what the walk knows
(`Tracks`): each integer that the block has defined is stood for by an operand that the code kept so
far can read, and so is the content of each slot.  Values are defined once, so such an operand still
denotes at a later load what it denoted at the store (`Operand.Readable.set`, `Frame.read_after`).

From that follow the two results on bodies, by induction along a valid body: what is kept is valid
(`validBody_instrs`), and it runs like the whole (`run_instrs`).  A slot that nothing was stored to
is stood for by `undef`, which reads as zero like the slot.  For modules this gives
`Module.Valid.promote` and `Module.Valid.run_promote`.
-/

import Straightline.IR.Promotion
import Straightline.Proofs.Execution

namespace Straightline
namespace IR

/-- What is readable stays readable when a new value is defined. -/
theorem Operand.Readable.set {f : Function} {defined : Table ValueKind} {o : Operand} {d : Nat}
    {k : ValueKind} (ho : o.Readable f defined) (hd : defined.get d = none) :
    o.Readable f (defined.set d k) := by
  cases o with
  | value id =>
    have hne : id ≠ d := by
      rintro rfl
      have hid : defined.get id = some .integer := ho
      rw [hd] at hid
      cases hid
    exact (Table.get_set_of_ne _ _ hne).trans ho
  | _ => exact ho

namespace Promotion

variable {m : Module} {f : Function} {args : List Int32} {st : State}
  {defined defined' : Table ValueKind} {fr fr' : Execution.Frame} {is : List Instr}

/-- What a walk knows after instructions that defined the values of `defined`, of which it kept those
that define the values of `defined'`. -/
structure Tracks (f : Function) (st : State) (defined defined' : Table ValueKind) : Prop where
  integer : ∀ id, defined.get id = some .integer → (st.operand (.value id)).Readable f defined'
  slot : ∀ s, defined.get s = some .slot → ∃ o, st.memory.get s = some o ∧ o.Readable f defined'
  unused : ∀ id, defined.get id = none →
    st.memory.get id = none ∧ st.replaced.get id = none ∧ defined'.get id = none

namespace Tracks

/-- At the start nothing is defined. -/
theorem empty : Tracks f .empty .empty .empty :=
  ⟨fun _ h => (by cases h), fun _ h => (by cases h), fun _ _ => ⟨rfl, rfl, rfl⟩⟩

/-- An operand that was readable still is when values are put in for loads. -/
theorem operand (h : Tracks f st defined defined') {o : Operand} (ho : o.Readable f defined) :
    (st.operand o).Readable f defined' := by
  cases o with
  | value id => exact h.integer id ho
  | _ => exact ho

/-- A new slot is stood for by an operand of its own. -/
theorem alloca (h : Tracks f st defined defined') {d : Nat} (hd : defined.get d = none) :
    Tracks f { st with memory := st.memory.set d .undef } (defined.set d .slot) defined' := by
  refine ⟨fun id hid => ?_, fun s hs => ?_, fun id hid => ?_⟩
  · obtain ⟨rfl, hkind⟩ | ⟨-, hid⟩ := Table.get_set_eq_some_iff.1 hid
    · cases hkind
    · exact h.integer id hid
  · obtain ⟨rfl, -⟩ | ⟨hne, hs⟩ := Table.get_set_eq_some_iff.1 hs
    · exact ⟨.undef, Table.get_set_self _ _ _, trivial⟩
    · obtain ⟨o, ho, hread⟩ := h.slot s hs
      exact ⟨o, (Table.get_set_of_ne _ _ hne).trans ho, hread⟩
  · obtain ⟨hne, hid⟩ := Table.get_set_eq_none_iff.1 hid
    obtain ⟨hmem, hrest⟩ := h.unused id hid
    exact ⟨(Table.get_set_of_ne _ _ hne).trans hmem, hrest⟩

/-- A stored operand stands for its slot. -/
theorem store (h : Tracks f st defined defined') {s : Nat} {o : Operand}
    (hs : defined.get s = some .slot) (ho : o.Readable f defined') :
    Tracks f { st with memory := st.memory.set s o } defined defined' := by
  refine ⟨h.integer, fun s' hs' => ?_, fun id hid => ?_⟩
  · by_cases hne : s' = s
    · subst hne
      exact ⟨o, Table.get_set_self _ _ _, ho⟩
    · obtain ⟨o', ho', hread⟩ := h.slot s' hs'
      exact ⟨o', (Table.get_set_of_ne _ _ hne).trans ho', hread⟩
  · have hne : id ≠ s := by
      rintro rfl
      rw [hs] at hid
      cases hid
    obtain ⟨hmem, hrest⟩ := h.unused id hid
    exact ⟨(Table.get_set_of_ne _ _ hne).trans hmem, hrest⟩

/-- What stands for a slot stands for a value that is loaded from it. -/
theorem load (h : Tracks f st defined defined') {d : Nat} {o : Operand}
    (ho : o.Readable f defined') :
    Tracks f { st with replaced := st.replaced.set d o } (defined.set d .integer) defined' := by
  refine ⟨fun id hid => ?_, fun s hs => ?_, fun id hid => ?_⟩
  · obtain ⟨rfl, -⟩ | ⟨hne, hid⟩ := Table.get_set_eq_some_iff.1 hid
    · simpa [State.operand] using ho
    · simpa [State.operand, hne] using h.integer id hid
  · obtain ⟨rfl, hkind⟩ | ⟨-, hs⟩ := Table.get_set_eq_some_iff.1 hs
    · cases hkind
    · exact h.slot s hs
  · obtain ⟨hne, hid⟩ := Table.get_set_eq_none_iff.1 hid
    obtain ⟨hmem, hrep, hnew⟩ := h.unused id hid
    exact ⟨hmem, (Table.get_set_of_ne _ _ hne).trans hrep, hnew⟩

/-- A value that is kept stands for itself. -/
theorem keep (h : Tracks f st defined defined') {d : Nat} (hd : defined.get d = none) :
    Tracks f st (defined.set d .integer) (defined'.set d .integer) := by
  obtain ⟨-, hrep, hnew⟩ := h.unused d hd
  refine ⟨fun id hid => ?_, fun s hs => ?_, fun id hid => ?_⟩
  · obtain ⟨rfl, -⟩ | ⟨-, hid⟩ := Table.get_set_eq_some_iff.1 hid
    · simp [State.operand, hrep, Operand.Readable]
    · exact (h.integer id hid).set hnew
  · obtain ⟨rfl, hkind⟩ | ⟨-, hs⟩ := Table.get_set_eq_some_iff.1 hs
    · cases hkind
    · obtain ⟨o, ho, hread⟩ := h.slot s hs
      exact ⟨o, ho, hread.set hnew⟩
  · obtain ⟨hne, hid⟩ := Table.get_set_eq_none_iff.1 hid
    obtain ⟨hmem, hrep, hnew⟩ := h.unused id hid
    exact ⟨hmem, hrep, (Table.get_set_of_ne _ _ hne).trans hnew⟩

end Tracks

/-! ### What is kept of a body -/

/-- A new slot holds nothing yet, and its `alloca` goes. -/
theorem instrs_alloca {d : Nat} (h : st.memory.get d = none) :
    instrs st (.alloca d :: is) = instrs { st with memory := st.memory.set d .undef } is := by
  simp [instrs, Instr.mapOperands, State.step, h]

/-- A store goes, and the slot holds what was stored. -/
theorem instrs_store {v o : Operand} {s : Nat} (h : st.memory.get s = some o) :
    instrs st (.store v s :: is) =
      instrs { st with memory := st.memory.set s (st.operand v) } is := by
  simp [instrs, Instr.mapOperands, State.step, h]

/-- A load goes, and its value is what the slot holds. -/
theorem instrs_load {o : Operand} {d s : Nat} (h : st.memory.get s = some o) :
    instrs st (.load d s :: is) = instrs { st with replaced := st.replaced.set d o } is := by
  simp [instrs, Instr.mapOperands, State.step, h]

/-- **What the walk keeps of a valid body is valid.** -/
theorem validBody_instrs (hbody : ValidBody m f defined is) (h : Tracks f st defined defined') :
    ValidBody m f defined' (instrs st is) := by
  induction hbody generalizing st defined' with
  | ret hv => exact .ret (h.operand hv)
  | @step defined i is ht hi _ ih =>
    cases i with
    | ret v => cases ht
    | alloca d =>
      obtain ⟨-, hd⟩ := hi.result d rfl
      rw [instrs_alloca (h.unused d hd).1]
      exact ih (h.alloca hd)
    | store v s =>
      have hs := hi.slot s rfl
      have hv := h.operand (hi.operands v (List.mem_singleton_self v))
      obtain ⟨o, ho, -⟩ := h.slot s hs
      rw [instrs_store ho]
      exact ih (h.store hs hv)
    | load d s =>
      obtain ⟨o, ho, hread⟩ := h.slot s (hi.slot s rfl)
      rw [instrs_load ho]
      exact ih (h.load hread)
    | binary op l r d | call callee os d =>
      obtain ⟨-, hd⟩ := hi.result d rfl
      have hvalid := hi.mapOperands (fun o ho => h.operand (hi.operands o ho)) (fun s hs => by cases hs)
        (fun d hd => (h.unused d (hi.result d hd).2).2.2)
      exact .step rfl hvalid (ih (h.keep hd))

/-! ### How it runs -/

/-- Two frames in which the walk is right: what stands for a value or a slot reads in the frame of the
kept code as the value or the slot does in the other. -/
structure Agrees (f : Function) (args : List Int32) (st : State)
    (defined defined' : Table ValueKind) (fr fr' : Execution.Frame) : Prop where
  tracks : Tracks f st defined defined'
  covers : fr'.Covers defined'
  values : ∀ id, defined.get id = some .integer →
    fr'.read f args (st.operand (.value id)) = fr.read f args (.value id)
  slots : ∀ s o, defined.get s = some .slot → st.memory.get s = some o →
    fr'.read f args o = .ok (fr.memory s)

namespace Agrees

/-- Every operand reads the same when values are put in for loads. -/
theorem read (h : Agrees f args st defined defined' fr fr') {o : Operand}
    (ho : o.Readable f defined) : fr'.read f args (st.operand o) = fr.read f args o := by
  cases o with
  | value id => exact h.values id ho
  | _ => rfl

/-- After an `alloca`, the slot reads as zero on both sides. -/
theorem alloca (h : Agrees f args st defined defined' fr fr') {d : Nat}
    (hd : defined.get d = none) :
    Agrees f args { st with memory := st.memory.set d .undef } (defined.set d .slot) defined'
      (fr.after 0 (.alloca d)) fr' := by
  refine ⟨h.tracks.alloca hd, h.covers, fun id hid => ?_, fun s o hs ho => ?_⟩
  · obtain ⟨rfl, hkind⟩ | ⟨-, hid⟩ := Table.get_set_eq_some_iff.1 hid
    · cases hkind
    · exact h.values id hid
  · obtain ⟨rfl, rfl⟩ | ⟨hne, ho⟩ := Table.get_set_eq_some_iff.1 ho
    · rw [Execution.Frame.after, Execution.Frame.memory_store_self]
      rfl
    · rw [Table.get_set_of_ne _ _ hne] at hs
      rw [Execution.Frame.after, Execution.Frame.memory_store_of_ne hne]
      exact h.slots s o hs ho

/-- After a store, the slot holds what it is known to hold. -/
theorem store (h : Agrees f args st defined defined' fr fr') {v o : Operand} {s : Nat} {n : Int32}
    (hs : defined.get s = some .slot) (ho : o.Readable f defined')
    (hn : fr'.read f args o = .ok n) :
    Agrees f args { st with memory := st.memory.set s o } defined defined'
      (fr.after n (.store v s)) fr' := by
  refine ⟨h.tracks.store hs ho, h.covers, h.values, fun s' o' hs' ho' => ?_⟩
  obtain ⟨rfl, rfl⟩ | ⟨hne, ho'⟩ := Table.get_set_eq_some_iff.1 ho'
  · rw [Execution.Frame.after, Execution.Frame.memory_store_self]
    exact hn
  · rw [Execution.Frame.after, Execution.Frame.memory_store_of_ne hne]
    exact h.slots s' o' hs' ho'

/-- After a load, the value is what the slot is known to hold. -/
theorem load (h : Agrees f args st defined defined' fr fr') {o : Operand} {d s : Nat}
    (ho : o.Readable f defined') (hn : fr'.read f args o = .ok (fr.memory s)) :
    Agrees f args { st with replaced := st.replaced.set d o } (defined.set d .integer) defined'
      (fr.after (fr.memory s) (.load d s)) fr' := by
  refine ⟨h.tracks.load ho, h.covers, fun id hid => ?_, fun s' o' hs' ho' => ?_⟩
  · obtain ⟨rfl, -⟩ | ⟨hne, hid⟩ := Table.get_set_eq_some_iff.1 hid
    · simpa [State.operand, Execution.Frame.read, Execution.Frame.after] using hn
    · have hread := h.values id hid
      simpa [State.operand, Execution.Frame.read, Execution.Frame.after, hne] using hread
  · obtain ⟨rfl, hkind⟩ | ⟨-, hs'⟩ := Table.get_set_eq_some_iff.1 hs'
    · cases hkind
    · exact h.slots s' o' hs' ho'

/-- A kept instruction puts the same number into both frames; what stands for the values and slots
before it does not read that number, because its place is new. -/
theorem keep (h : Agrees f args st defined defined' fr fr') {i : Instr} {d : Nat}
    (hi : i.dest? = some d) (hkind : i.kind = .integer) (hd : defined.get d = none) (n : Int32) :
    Agrees f args st (defined.set d .integer) (defined'.set d .integer) (fr.after n i)
      (fr'.after n i) := by
  obtain ⟨-, hrep, hnew⟩ := h.tracks.unused d hd
  have hkeep : ∀ o : Operand, o.Readable f defined' →
      (fr'.after n i).read f args o = fr'.read f args o := by
    intro o ho
    refine Execution.Frame.read_after fun id hid hdest => ?_
    obtain rfl := Option.some.inj (hi.symm.trans hdest)
    subst hid
    exact absurd (hnew.symm.trans ho) (by simp)
  refine ⟨h.tracks.keep hd, ?_, fun id hid => ?_, fun s o hs ho => ?_⟩
  · have hcovers := h.covers.after n i
    rwa [Table.after, hi, hkind] at hcovers
  · obtain ⟨rfl, -⟩ | ⟨hne, hid⟩ := Table.get_set_eq_some_iff.1 hid
    · simp [State.operand, hrep, Execution.Frame.read, Execution.Frame.values_after_dest hi hkind]
    · have hid' : (Operand.value id).Readable f defined := hid
      rw [hkeep _ (h.tracks.operand hid'), h.read hid', Execution.Frame.read_after]
      rintro id' hid' hdest
      obtain rfl := Operand.value.inj hid'
      exact hne (Option.some.inj (hdest.symm.trans hi))
  · obtain ⟨rfl, hkind⟩ | ⟨-, hs⟩ := Table.get_set_eq_some_iff.1 hs
    · cases hkind
    · obtain ⟨o', ho', hread⟩ := h.tracks.slot s hs
      obtain rfl := Option.some.inj (ho.symm.trans ho')
      rw [hkeep o hread, Execution.Frame.memory_after_dest hi hkind]
      exact h.slots s o hs ho

end Agrees

/-- **What the walk keeps of a valid body runs like the body.** -/
theorem run_instrs {inv : String → List Int32 → Execution Int32} (hargs : args.length = f.arity)
    (hbody : ValidBody m f defined is) (h : Agrees f args st defined defined' fr fr') :
    Execution.instrs inv f args fr' (instrs st is) = Execution.instrs inv f args fr is := by
  induction hbody generalizing st defined' fr fr' with
  | @ret defined v hv =>
    show Execution.instrs inv f args fr' [.ret (st.operand v)] = _
    rw [Execution.instrs_ret, Execution.instrs_ret, Execution.outcome, Execution.outcome, h.read hv]
  | @step defined i is ht hi _ ih =>
    have hlt : ∀ d, i.dest? = some d → d < f.names.length := fun d hd => (hi.result d hd).1
    rw [Execution.instrs_step ht hlt]
    cases i with
    | ret v => cases ht
    | alloca d =>
      obtain ⟨-, hd⟩ := hi.result d rfl
      rw [instrs_alloca (h.tracks.unused d hd).1, Execution.outcome, pure_bind]
      exact ih (h.alloca hd)
    | store v s =>
      have hs := hi.slot s rfl
      have hv := hi.operands v (List.mem_singleton_self v)
      obtain ⟨o, ho, -⟩ := h.tracks.slot s hs
      obtain ⟨n, hn⟩ := h.covers.read hargs (h.tracks.operand hv)
      rw [instrs_store ho, Execution.outcome, ← h.read hv, hn, Execution.ofExcept_ok, pure_bind]
      exact ih (h.store hs (h.tracks.operand hv) hn)
    | load d s =>
      have hs := hi.slot s rfl
      obtain ⟨o, ho, hread⟩ := h.tracks.slot s hs
      rw [instrs_load ho, Execution.outcome, pure_bind]
      exact ih (h.load hread (h.slots s o hs ho))
    | binary op l r d | call callee os d =>
      obtain ⟨-, hd⟩ := hi.result d rfl
      have hout := Execution.outcome_mapOperands inv rfl (fun o ho => h.read (hi.operands o ho))
        (fun s hs => by cases hs)
      rw [← hout]
      show Execution.instrs inv f args fr' (_ :: instrs st is) = _
      rw [Execution.instrs_step rfl (by simpa using hlt)]
      refine bind_congr fun n => ?_
      rw [Execution.Frame.after_mapOperands]
      exact ih (h.keep rfl rfl hd n)

end Promotion

/-! ### Functions and modules -/

/-- Promotion changes nothing of a function that a caller sees. -/
theorem keepsShape_promote : KeepsShape Function.promote :=
  ⟨fun _ => rfl, fun _ => rfl, fun _ => rfl, fun f => by simp [Function.promote, Function.mapBlocks]⟩

/-- **A valid module stays valid.** -/
theorem Module.Valid.promote {m : Module} (hm : m.Valid) : m.promote.Valid := by
  refine hm.mapFunctions keepsShape_promote fun f b _ hb hbody => ?_
  refine ⟨{ b with instrs := Promotion.instrs .empty b.instrs }, ?_, ?_⟩
  · simp [Function.promote, Function.mapBlocks, hb]
  · exact Promotion.validBody_instrs hbody .empty

/-- A valid module is accepted, with its slots replaced. -/
theorem Module.Valid.prepare {m : Module} (hm : m.Valid) : m.prepare = .ok m.promote := by
  rw [Module.prepare, m.verify_eq_ok_iff.2 hm, m.promote.verify_eq_ok_iff.2 hm.promote]
  rfl

/-- **Exactly the valid modules are accepted.** -/
theorem Module.prepare_eq_ok_iff {m p : Module} : m.prepare = .ok p ↔ m.Valid ∧ p = m.promote := by
  constructor
  · intro h
    obtain ⟨_, hm, -⟩ := Except.bind_eq_ok_iff.1 h
    have hvalid := m.verify_eq_ok_iff.1 hm
    exact ⟨hvalid, Except.ok.inj (h.symm.trans hvalid.prepare)⟩
  · rintro ⟨hm, rfl⟩
    exact hm.prepare

/-- What is kept of the body of a valid definition runs like the body. -/
theorem Function.Valid.instrs_promote {m : Module} {f : Function} (hf : f.Valid m)
    (inv : String → List Int32 → Execution Int32) {args : List Int32}
    (hargs : args.length = f.arity) :
    Execution.instrs inv f args .empty f.promote.instrs =
      Execution.instrs inv f args .empty f.instrs := by
  obtain ⟨b, hb, hbody⟩ := hf
  have hinstrs : f.instrs = b.instrs := by simp [Function.instrs, hb]
  have hkept : f.promote.instrs = Promotion.instrs .empty b.instrs := by
    simp [Function.instrs, Function.promote, Function.mapBlocks, hb]
  rw [hinstrs, hkept]
  refine Promotion.run_instrs hargs hbody ⟨.empty, Execution.Frame.covers_empty, ?_, ?_⟩
  · intro id h
    cases h
  · intro s o h
    cases h

/-- A valid module runs as before when it is promoted. -/
theorem Module.Valid.runsLike_promote {m : Module} (hm : m.Valid) : m.promote.RunsLike m :=
  Module.runsLike_mapFunctions keepsShape_promote fun f hf hdef inv _ hargs =>
    (hm.bodies f hf hdef).instrs_promote inv hargs

/-- A valid module gives the same result and the same output when it is promoted. -/
theorem Module.Valid.run_promote {m : Module} (hm : m.Valid) (sink : Sink) (name : String)
    (args : List Int32) : m.promote.run sink name args = m.run sink name args :=
  hm.runsLike_promote.run sink name args

/-- **Replacing slots by values keeps what a module does.**  For every module that verification
accepts, every call has the same outcome, result or error, and the same output before and after. -/
theorem run_promote_of_verify (m : Module) (h : m.verify = .ok ()) (sink : Sink) (name : String)
    (args : List Int32) : m.promote.run sink name args = m.run sink name args :=
  (m.verify_eq_ok_iff.1 h).run_promote sink name args

/-- A module in which a loaded value is stored into a second slot, and the first slot changes before
the second is read. -/
def storedLoad : Module :=
  ⟨"m", [.declare "printnum" ["i"],
    ⟨"main", ["aArg"], ["a", "x", "a1", "x1", "call_tmp", "a2"],
      [⟨"entry", [.alloca 0, .store (.param 0) 0, .alloca 1, .load 2 0, .store (.value 2) 1,
        .store (.const 7) 0, .load 3 1, .call "printnum" [.value 3] 4, .load 5 0,
        .ret (.value 5)]⟩]⟩]⟩

/-- The hypothesis is satisfiable: `storedLoad` is accepted, its slots are replaced, and it still
prints its argument and returns seven. -/
theorem run_promote_storedLoad : storedLoad.verify = .ok () ∧
    storedLoad.promote.functions.flatMap Function.instrs =
      [.call "printnum" [.param 0] 4, .ret (.const 7)] ∧
    storedLoad.promote.run .accepting "main" [3] = storedLoad.run .accepting "main" [3] :=
  ⟨rfl, rfl, run_promote_of_verify storedLoad rfl .accepting "main" [3]⟩

end IR
end Straightline
