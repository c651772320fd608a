/-
# Laws of linking

Two modules are linked into a third one in either order, or in neither: what is asked for is that any
two of the three fit together (`Module.exists_linksTo_iff`), and that does not depend on an order.  The two
results have the same names, arities and definitions (`Module.Agrees`), for a name is defined in one
of the three modules at most, and takes as many arguments in all of them.  All that may differ is the
order of the functions, and which of several declarations of one name was kept
(`Module.Agrees.perm_outline`).  Such declarations differ in the names of their parameters and, where they
have any, of values.  Modules that agree run alike.

Linking adds definitions and replaces none (`Module.Fits.extends_linked`).  An execution in the larger
module therefore goes as it did before, up to the first call of a name that was not defined
(`Execution.Extends`); so a run that does not end with such a call ends as before.

A pass that keeps the shape of functions can be made before linking or after it (`KeepsShape.link`).  Names,
arities and whether there is a body are all that linking looks at, so it takes the same functions and
stops at the same mistake.
-/

import Mathlib.Data.List.Nodup
import Straightline.Proofs.Folding
import Straightline.Proofs.Linking
import Straightline.Proofs.Promotion

namespace Straightline
namespace IR

/-! ### Functions of one name -/

namespace Linking

variable {old new f : Function}

/-- Whether two functions fit does not depend on their order. -/
theorem Fits.symm (h : Fits old new) : Fits new old :=
  ⟨h.arity.symm, h.once.symm⟩

/-- The result is a declaration only if both are. -/
theorem isDeclaration_pick (old new : Function) :
    (pick old new).isDeclaration = (old.isDeclaration && new.isDeclaration) := by
  unfold pick
  cases hnew : new.isDeclaration with
  | true => simp
  | false => simp [hnew]

/-- **What two functions become fits a third one exactly if both of them do.** -/
theorem Fits.fits_pick_iff (h : Fits old new) : Fits (pick old new) f ↔ Fits old f ∧ Fits new f := by
  constructor
  · intro hf
    have harity : new.arity = f.arity := h.arity_pick.symm.trans hf.arity
    have honce := hf.once
    rw [isDeclaration_pick, Bool.and_eq_true] at honce
    exact ⟨⟨h.arity.trans harity, honce.imp_left And.left⟩, ⟨harity, honce.imp_left And.right⟩⟩
  · rintro ⟨hold, hnew⟩
    refine ⟨h.arity_pick.trans hnew.arity, ?_⟩
    rw [isDeclaration_pick, Bool.and_eq_true]
    rcases hold.once with hdecl | hf
    · exact hnew.once.imp_left fun hdecl' => ⟨hdecl, hdecl'⟩
    · exact .inr hf

end Linking

/-- What counts of a function: of a declaration, its name and how many parameters it has. -/
def Function.outline (f : Function) : Function :=
  if f.isDeclaration then .declare f.name (List.replicate f.arity "") else f

/-- A function without the names of its parameters, if it is a declaration. -/
def Function.anonymous (f : Function) : Function :=
  if f.isDeclaration then { f with params := List.replicate f.arity "" } else f

/-- Of a declaration without values nothing counts but what is left without the names of its parameters. -/
theorem Function.anonymous_eq_outline {f : Function} (h : f.isDeclaration = true → f.names = []) :
    f.anonymous = f.outline := by
  unfold Function.anonymous Function.outline
  split
  · rename_i hdecl
    have hblocks : f.blocks = [] := by simpa [Function.isDeclaration] using hdecl
    rw [Function.declare, h hdecl, hblocks]
  · rfl

@[simp] theorem Function.name_outline (f : Function) : f.outline.name = f.name := by
  unfold Function.outline
  split <;> rfl

namespace Module

/-! ### Modules that agree -/

/-- Two modules with the same names, arities and definitions. -/
structure Agrees (m m' : Module) : Prop where
  arity : ∀ name, (m.function? name).map Function.arity = (m'.function? name).map Function.arity
  definition : ∀ name, m.definition? name = m'.definition? name

namespace Agrees

variable {m m' : Module}

/-- Agreement does not depend on the order. -/
theorem symm (h : m.Agrees m') : m'.Agrees m :=
  ⟨fun name => (h.arity name).symm, fun name => (h.definition name).symm⟩

/-- **Modules that agree run alike.** -/
theorem run (h : m.Agrees m') (sink : Sink) (name : String) (args : List Int32) :
    m.run sink name args = m'.run sink name args := by
  have hlike : m.RunsLike m' := by
    intro name
    rw [h.definition name]
    cases m'.definition? name with
    | none => exact .none
    | some f => exact .some ⟨rfl, rfl, fun _ _ _ => rfl⟩
  exact hlike.run sink name args

/-- A body matters to validity, and of the other functions their names and arities. -/
theorem valid (h : m.Agrees m') (hnames : (m'.functions.map Function.name).Nodup) (hm : m.Valid) :
    m'.Valid := by
  refine ⟨hnames, fun f hf hdef => ?_⟩
  have hfound := definition?_of_mem hnames hf hdef
  rw [← h.definition] at hfound
  obtain ⟨hmem, -, -⟩ := mem_of_definition? hfound
  obtain ⟨b, hb, hbody⟩ := hm.bodies f hmem hdef
  refine ⟨b, hb, hbody.mono (fun name k hk => ?_) rfl rfl⟩
  rw [← h.arity, hk]

/-- Modules that agree have the same functions, up to the names in declarations. -/
theorem map_outline (h : m.Agrees m') (name : String) :
    (m.function? name).map Function.outline = (m'.function? name).map Function.outline := by
  have harity := h.arity name
  have hdef := h.definition name
  unfold definition? at hdef
  cases hf : m.function? name with
  | none =>
    rw [hf, Option.map_none, eq_comm, Option.map_eq_none_iff] at harity
    rw [harity]
  | some f =>
    cases hf' : m'.function? name with
    | none =>
      rw [hf, hf'] at harity
      cases harity
    | some f' =>
      rw [hf, hf'] at harity hdef
      have hname : f.name = name := by simpa using List.find?_some hf
      have hname' : f'.name = name := by simpa using List.find?_some hf'
      have harity' : f.arity = f'.arity := Option.some.inj harity
      -- both are declarations, or both are the same definition
      cases hdecl : f.isDeclaration with
      | true =>
        have hdecl' : f'.isDeclaration = true := by simpa [Option.filter, hdecl] using hdef.symm
        simp [Function.outline, hdecl, hdecl', hname, hname', harity']
      | false =>
        have hsome : some f = Option.filter (fun g => !g.isDeclaration) (some f') := by
          simpa [Option.filter, hdecl] using hdef
        obtain ⟨heq, -⟩ := Option.filter_eq_some_iff.1 hsome.symm
        rw [heq]

/-- What is found under a name is what the list holds, outline by outline. -/
theorem mem_map_outline_iff (hnames : (m.functions.map Function.name).Nodup) {g : Function} :
    g ∈ m.functions.map Function.outline ↔ (m.function? g.name).map Function.outline = some g := by
  constructor
  · intro hg
    obtain ⟨f, hf, rfl⟩ := List.mem_map.1 hg
    rw [Function.name_outline, function?, find?_eq_some_of_mem hnames hf, Option.map_some]
  · intro hg
    obtain ⟨f, hf, rfl⟩ := Option.map_eq_some_iff.1 hg
    exact List.mem_map_of_mem (List.mem_of_find?_eq_some hf)

/-- **Modules that agree differ in the order of functions,** and in what does not count of
declarations. -/
theorem perm_outline (h : m.Agrees m') (hnames : (m.functions.map Function.name).Nodup)
    (hnames' : (m'.functions.map Function.name).Nodup) :
    (m.functions.map Function.outline).Perm (m'.functions.map Function.outline) := by
  have hnodup : ∀ fs : List Function, (fs.map Function.name).Nodup →
      (fs.map Function.outline).Nodup := by
    intro fs hfs
    refine List.Nodup.of_map Function.name ?_
    rwa [List.map_map, show Function.name ∘ Function.outline = Function.name from
      funext Function.name_outline]
  rw [List.perm_ext_iff_of_nodup (hnodup _ hnames) (hnodup _ hnames')]
  intro g
  rw [mem_map_outline_iff hnames, mem_map_outline_iff hnames', h.map_outline]

end Agrees

/-! ### Two modules into a third one -/

variable {d a b s r : Module}

/-- Two modules can be linked into another, one after the other, which is then the last one. -/
def LinksTo (d a b r : Module) : Prop :=
  ∃ da, d.link a = (.ok (), da) ∧ da.link b = (.ok (), r)

/-- Whether two modules fit does not depend on their order. -/
theorem Fits.symm (h : d.Fits s) : s.Fits d :=
  fun new hnew old hold hname => (h old hold new hnew hname.symm).symm

/-- Modules fit if what they have under one name does. -/
theorem fits_iff (hd : (d.functions.map Function.name).Nodup)
    (hs : (s.functions.map Function.name).Nodup) :
    d.Fits s ↔ ∀ name old new, d.function? name = some old → s.function? name = some new →
      Linking.Fits old new := by
  constructor
  · intro h name old new
    exact h.of_function?
  · intro h old hold new hnew hname
    refine h new.name old new ?_ (find?_eq_some_of_mem hs hnew)
    rw [← hname]
    exact find?_eq_some_of_mem hd hold

/-- **What two modules are linked to fits a third one exactly if both of them do.** -/
theorem Fits.fits_linked_iff (h : d.Fits a) (hd : (d.functions.map Function.name).Nodup)
    (ha : (a.functions.map Function.name).Nodup) (hb : (b.functions.map Function.name).Nodup) :
    (d.linked a).Fits b ↔ d.Fits b ∧ a.Fits b := by
  have hda : ((d.linked a).functions.map Function.name).Nodup :=
    Linking.nodup_linked a.functions hd
  rw [fits_iff hda hb, fits_iff hd hb, fits_iff ha hb, ← forall_and]
  refine forall_congr' fun name => ?_
  rw [function?_linked ha]
  cases hold : d.function? name with
  | none => simp
  | some old =>
    cases hnew : a.function? name with
    | none => simp
    | some new =>
      have hfits := h.of_function? hold hnew
      simp only [Option.merge_some_some, Option.some.injEq]
      constructor
      · intro hpick
        constructor
        · rintro _ g rfl hg
          exact (hfits.fits_pick_iff.1 (hpick _ g rfl hg)).1
        · rintro _ g rfl hg
          exact (hfits.fits_pick_iff.1 (hpick _ g rfl hg)).2
      · rintro ⟨hd', ha'⟩ _ g rfl hg
        exact hfits.fits_pick_iff.2 ⟨hd' old g rfl hg, ha' new g rfl hg⟩

/-- **Two modules can be linked into a third one exactly if any two of the three fit together.** -/
theorem linksTo_iff (hd : (d.functions.map Function.name).Nodup)
    (ha : (a.functions.map Function.name).Nodup) (hb : (b.functions.map Function.name).Nodup) :
    d.LinksTo a b r ↔
      d.Fits a ∧ d.Fits b ∧ a.Fits b ∧ r = (d.linked a).linked b := by
  constructor
  · rintro ⟨da, hda, hr⟩
    have hfits := fits_of_link hd ha hda
    obtain rfl : d.linked a = da := congrArg Prod.snd ((hfits.link ha).symm.trans hda)
    have hfits' := fits_of_link (Linking.nodup_linked a.functions hd) hb hr
    obtain ⟨hdb, hab⟩ := (hfits.fits_linked_iff hd ha hb).1 hfits'
    exact ⟨hfits, hdb, hab, congrArg Prod.snd (hr.symm.trans (hfits'.link hb))⟩
  · rintro ⟨hda, hdb, hab, rfl⟩
    have hfits' := (hda.fits_linked_iff hd ha hb).2 ⟨hdb, hab⟩
    exact ⟨d.linked a, hda.link ha, hfits'.link hb⟩

/-- Two modules can be linked into a third, one after the other, exactly if the three fit pairwise. -/
theorem exists_linksTo_iff (hd : (d.functions.map Function.name).Nodup)
    (ha : (a.functions.map Function.name).Nodup) (hb : (b.functions.map Function.name).Nodup) :
    (∃ r, d.LinksTo a b r) ↔ d.Fits a ∧ d.Fits b ∧ a.Fits b := by
  constructor
  · rintro ⟨r, hr⟩
    obtain ⟨hda, hdb, hab, -⟩ := (linksTo_iff hd ha hb).1 hr
    exact ⟨hda, hdb, hab⟩
  · rintro ⟨hda, hdb, hab⟩
    exact ⟨_, (linksTo_iff hd ha hb).2 ⟨hda, hdb, hab, rfl⟩⟩

/-- What one of two functions of a name takes, both do. -/
theorem Fits.map_arity_linked (h : d.Fits s) (hs : (s.functions.map Function.name).Nodup)
    (name : String) : ((d.linked s).function? name).map Function.arity =
      ((d.function? name).map Function.arity).or ((s.function? name).map Function.arity) := by
  cases hold : (d.function? name).map Function.arity with
  | some k => exact h.map_arity_function? hs (.inl hold)
  | none =>
    rw [Option.map_eq_none_iff] at hold
    rw [function?_linked hs, hold]
    simp

/-- Of two results that are the same if both are there, it does not matter which comes first. -/
theorem or_comm_of_eq {α : Type} {x y : Option α} (h : ∀ u v, x = some u → y = some v → u = v) :
    x.or y = y.or x := by
  cases x with
  | none => simp
  | some u =>
    cases y with
    | none => rfl
    | some v => rw [Option.some_or, Option.some_or, h u v rfl rfl]

/-- **The order in which two modules are linked into a third one does not matter** to names, arities
and definitions. -/
theorem agrees_linked_linked (hda : d.Fits a) (hdb : d.Fits b) (hab : a.Fits b)
    (hd : (d.functions.map Function.name).Nodup) (ha : (a.functions.map Function.name).Nodup)
    (hb : (b.functions.map Function.name).Nodup) :
    ((d.linked a).linked b).Agrees ((d.linked b).linked a) := by
  have hda_b := (hda.fits_linked_iff hd ha hb).2 ⟨hdb, hab⟩
  have hdb_a := (hdb.fits_linked_iff hd hb ha).2 ⟨hda, hab.symm⟩
  constructor
  · intro name
    rw [hda_b.map_arity_linked hb, hda.map_arity_linked ha, hdb_a.map_arity_linked ha,
      hdb.map_arity_linked hb, Option.or_assoc, Option.or_assoc]
    refine congrArg _ (or_comm_of_eq fun k k' hk hk' => ?_)
    obtain ⟨f, hf, rfl⟩ := Option.map_eq_some_iff.1 hk
    obtain ⟨g, hg, rfl⟩ := Option.map_eq_some_iff.1 hk'
    exact (hab.of_function? hf hg).arity
  · intro name
    rw [hda_b.definition?_linked hb, hda.definition?_linked ha, hdb_a.definition?_linked ha,
      hdb.definition?_linked hb, Option.or_assoc, Option.or_assoc]
    refine congrArg _ (or_comm_of_eq fun f g hf hg => ?_)
    -- a name is not defined twice
    obtain ⟨hf, hdef⟩ := Option.filter_eq_some_iff.1 hf
    obtain ⟨hg, hdef'⟩ := Option.filter_eq_some_iff.1 hg
    rcases (hab.of_function? hf hg).once with hdecl | hdecl
    · simp [hdecl] at hdef
    · simp [hdecl] at hdef'

/-- A module whose declarations have no values. -/
def PlainDeclarations (m : Module) : Prop :=
  ∀ f ∈ m.functions, f.isDeclaration = true → f.names = []

instance (m : Module) : Decidable m.PlainDeclarations :=
  inferInstanceAs (Decidable (∀ f ∈ m.functions, f.isDeclaration = true → f.names = []))

/-- Linking keeps declarations plain. -/
theorem PlainDeclarations.linked (hd : d.PlainDeclarations) (hs : s.PlainDeclarations) :
    (d.linked s).PlainDeclarations := by
  intro f hf
  rcases Linking.mem_linked hf with hmem | hmem
  · exact hd f hmem
  · exact hs f hmem

/-- Where declarations are plain, the names of their parameters are all that an outline leaves out. -/
theorem PlainDeclarations.map_anonymous {m : Module} (h : m.PlainDeclarations) :
    m.functions.map Function.anonymous = m.functions.map Function.outline :=
  List.map_congr_left fun f hf => Function.anonymous_eq_outline (h f hf)

end Module

/-- **Link order does not matter.**  Two modules can be linked into a third one in one order if they can
in the other.  Both results have the same names, arities and definitions; they differ in the order of
functions and, of declarations, in the names of parameters and of values, and if no declaration has values,
in the names of parameters only.  One can be prepared if the other can, and then they run alike. -/
theorem link_comm (d a b : Module) (hd : (d.functions.map Function.name).Nodup)
    (ha : (a.functions.map Function.name).Nodup) (hb : (b.functions.map Function.name).Nodup) :
    ((∃ r, d.LinksTo a b r) ↔ ∃ r, d.LinksTo b a r) ∧
      ∀ r r', d.LinksTo a b r → d.LinksTo b a r' →
        r.name = r'.name ∧
        (∀ name, (r.function? name).map Function.arity = (r'.function? name).map Function.arity ∧
          r.definition? name = r'.definition? name) ∧
        (r.functions.map Function.outline).Perm (r'.functions.map Function.outline) ∧
        (d.PlainDeclarations → a.PlainDeclarations → b.PlainDeclarations →
          (r.functions.map Function.anonymous).Perm (r'.functions.map Function.anonymous)) ∧
        ((∃ p, r.prepare = .ok p) ↔ ∃ p, r'.prepare = .ok p) ∧
        ∀ p p', r.prepare = .ok p → r'.prepare = .ok p' →
          ∀ sink function args, p.run sink function args = p'.run sink function args := by
  constructor
  · rw [Module.exists_linksTo_iff hd ha hb, Module.exists_linksTo_iff hd hb ha]
    exact ⟨fun ⟨hda, hdb, hab⟩ => ⟨hdb, hda, hab.symm⟩, fun ⟨hdb, hda, hba⟩ => ⟨hda, hdb, hba.symm⟩⟩
  · intro r r' hr hr'
    obtain ⟨hda, hdb, hab, rfl⟩ := (Module.linksTo_iff hd ha hb).1 hr
    obtain ⟨-, -, -, rfl⟩ := (Module.linksTo_iff hd hb ha).1 hr'
    have hagrees := Module.agrees_linked_linked hda hdb hab hd ha hb
    have hnames := Linking.nodup_linked b.functions (Linking.nodup_linked a.functions hd)
    have hnames' := Linking.nodup_linked a.functions (Linking.nodup_linked b.functions hd)
    have hperm := hagrees.perm_outline hnames hnames'
    refine ⟨rfl, fun name => ⟨hagrees.arity name, hagrees.definition name⟩, hperm, ?_, ?_, ?_⟩
    · intro hd ha hb
      rw [((hd.linked ha).linked hb).map_anonymous, ((hd.linked hb).linked ha).map_anonymous]
      exact hperm
    · simp only [Module.prepare_eq_ok_iff, exists_and_left, exists_eq, and_true]
      exact ⟨hagrees.valid hnames', hagrees.symm.valid hnames⟩
    · intro p p' hp hp' sink function args
      obtain ⟨hvalid, rfl⟩ := Module.prepare_eq_ok_iff.1 hp
      obtain ⟨hvalid', rfl⟩ := Module.prepare_eq_ok_iff.1 hp'
      rw [hvalid.run_promote, hvalid'.run_promote, hagrees.run]

/-- A module that defines what `callingModule` calls, after a declaration. -/
def doublingModule : Module :=
  ⟨"double", [.declare "log" ["x"],
    ⟨"twice", ["n"], ["add_tmp"], [⟨"entry", [.binary .add (.param 0) (.param 0) 0,
      .ret (.value 0)]⟩]⟩]⟩

/-- A module that calls what `doublingModule` defines, and has another name for the parameter of what
both declare. -/
def triplingModule : Module :=
  ⟨"triple", [.declare "twice" ["k"],
    ⟨"thrice", ["n"], ["call_tmp", "add_tmp"], [⟨"entry", [.call "twice" [.param 0] 0,
      .binary .add (.value 0) (.param 0) 1, .ret (.value 1)]⟩]⟩,
    .declare "log" ["y"]]⟩

/-- The hypotheses are satisfiable: the two modules are linked into `callingModule` in both orders.  The
results differ, but only in the order of functions and in names of parameters of declarations, and `thrice`
gives the same in both. -/
theorem link_comm_doubling_tripling :
    ∃ r r', callingModule.LinksTo doublingModule triplingModule r ∧
      callingModule.LinksTo triplingModule doublingModule r' ∧ r ≠ r' ∧
      (r.functions.map Function.anonymous).Perm (r'.functions.map Function.anonymous) ∧
      ∃ p p', r.prepare = .ok p ∧ r'.prepare = .ok p' ∧ p.run .accepting "thrice" [5] = (.ok 15, "") ∧
        p'.run .accepting "thrice" [5] = (.ok 15, "") := by
  obtain ⟨-, h⟩ := link_comm callingModule doublingModule triplingModule (by decide) (by decide)
    (by decide)
  obtain ⟨-, -, -, hperm, -, hrun⟩ := h _ _ ⟨_, rfl, rfl⟩ ⟨_, rfl, rfl⟩
  have hthrice := hrun _ _ rfl rfl .accepting "thrice" [5]
  exact ⟨_, _, ⟨_, rfl, rfl⟩, ⟨_, rfl, rfl⟩, by decide, hperm (by decide) (by decide) (by decide),
    _, _, rfl, rfl, rfl, hthrice.symm.trans rfl⟩

/-- Without the condition on values more than names of parameters can differ: two declarations of `f`, one
with the name of a value, are linked into an empty module in both orders, and the first one stays. -/
theorem link_comm_not_perm_anonymous :
    ∃ r r', Module.LinksTo ⟨"d", []⟩ ⟨"a", [⟨"f", [], ["x"], []⟩]⟩ ⟨"b", [.declare "f" []]⟩ r ∧
      Module.LinksTo ⟨"d", []⟩ ⟨"b", [.declare "f" []]⟩ ⟨"a", [⟨"f", [], ["x"], []⟩]⟩ r' ∧
      ¬ (r.functions.map Function.anonymous).Perm (r'.functions.map Function.anonymous) :=
  ⟨_, _, ⟨_, rfl, rfl⟩, ⟨_, rfl, rfl⟩, by decide⟩

/-! ### Linking as an extension -/

namespace Execution

/-- An execution that goes like another one, unless that one comes to a name which is not defined. -/
def Extends {α : Type} (x' x : Execution α) : Prop :=
  ∀ out, (∃ symbol, (x out).1 = .error (.unresolvedSymbol symbol)) ∨ x' out = x out

section Extends

variable {α β : Type} {x x' : Execution α}

/-- Every execution extends itself. -/
theorem Extends.refl (x : Execution α) : Extends x x :=
  fun _ => .inr rfl

/-- **What goes on after an execution that extends another extends it too.** -/
theorem Extends.bind {g g' : α → Execution β} (hx : Extends x' x) (hg : ∀ a, Extends (g' a) (g a)) :
    Extends (x' >>= g') (x >>= g) := by
  intro out
  rw [bind_apply, bind_apply]
  rcases hx out with ⟨symbol, hsymbol⟩ | heq
  · left
    refine ⟨symbol, ?_⟩
    rcases hr : x out with ⟨e | a, out'⟩
    · rw [hr] at hsymbol
      obtain rfl := Except.error.inj hsymbol
      rfl
    · rw [hr] at hsymbol
      cases hsymbol
  · rw [heq]
    rcases x out with ⟨e | a, out'⟩
    · exact .inr rfl
    · exact hg a out'

/-- That one execution extends another follows from their parts. -/
theorem compositional_extends : Compositional fun _ x' x => Extends x' x :=
  ⟨fun r => .refl (ofExcept r), Extends.bind⟩

end Extends
end Execution

open Execution

/-- A module that has the definitions of another, and the print routine from where that one has it. -/
structure Module.Extends (m' m : Module) : Prop where
  definition : ∀ name f, m.definition? name = some f → m'.definition? name = some f
  builtin : m.definition? printnum = none → m'.definition? printnum = none

namespace Module.Extends

variable {m' m : Module} {sink : Sink} (h : m'.Extends m)
include h

/-- A call finds the definition that it found before, or the built-in print routine; or it is a call
of what was not defined. -/
theorem invoke {enter enter' : Function → List Int32 → Execution Int32}
    (henter : ∀ f args, Execution.Extends (enter' f args) (enter f args)) (name : String)
    (args : List Int32) :
    Execution.Extends (Execution.invoke m' sink enter' name args)
      (Execution.invoke m sink enter name args) := by
  unfold Execution.invoke
  cases hdef : m.definition? name with
  | some f =>
    rw [h.definition name f hdef]
    by_cases harity : f.arity = args.length
    · simp only [if_pos harity]
      exact henter f args
    · simp only [if_neg harity]
      exact .refl _
  | none =>
    by_cases hname : name = printnum
    · subst hname
      rw [h.builtin hdef]
      exact .refl _
    · simp only [if_neg hname]
      exact fun out => .inl ⟨name, rfl⟩

/-- **A definition is entered as before.**  The induction is on the number of calls that may still be
nested. -/
theorem enter (budget : Nat) (f : Function) (args : List Int32) :
    Execution.Extends (Execution.enter m' sink budget f args)
      (Execution.enter m sink budget f args) := by
  induction budget generalizing f args with
  | zero => exact .refl _
  | succ budget ih =>
    exact (compositional_extends.instrs (h.invoke ih)).bind fun n => .refl _

/-- **A run that finds all names goes the same way in a larger module.** -/
theorem run_eq (sink : Sink) (name : String) (args : List Int32)
    (hfound : ∀ symbol, (m.run sink name args).1 ≠ .error (.unresolvedSymbol symbol)) :
    m'.run sink name args = m.run sink name args := by
  rcases h.invoke (h.enter _) name args "" with ⟨symbol, hsymbol⟩ | heq
  · exact absurd hsymbol (hfound symbol)
  · exact heq

end Module.Extends

/-- **Linking replaces no definition.** -/
theorem Module.Fits.extends_linked {d s : Module} (h : d.Fits s)
    (hs : (s.functions.map Function.name).Nodup) (hprint : s.definition? printnum = none) :
    (d.linked s).Extends d := by
  constructor
  · intro name f hf
    rw [h.definition?_linked hs, hf, Option.some_or]
  · intro hnone
    rw [h.definition?_linked hs, hnone, hprint, Option.none_or]

/-- **Linking is a conservative extension.**  If a module that does not define the print routine is
linked into another one, then both that one and the result can be prepared, and each run of the first
that does not end because a name is not defined is, with its outcome and its output, a run of the
second. -/
theorem run_linked_of_resolved (d s r : Module) (hd : d.verify = .ok ()) (hs : s.verify = .ok ())
    (hprint : s.definition? printnum = none) (h : d.link s = (.ok (), r)) :
    ∃ p q, d.prepare = .ok p ∧ r.prepare = .ok q ∧ ∀ sink name args,
      (∀ symbol, (p.run sink name args).1 ≠ .error (.unresolvedSymbol symbol)) →
        q.run sink name args = p.run sink name args := by
  rw [Module.verify_eq_ok_iff] at hd hs
  have hfits := Module.fits_of_link hd.names hs.names h
  obtain rfl : d.linked s = r := congrArg Prod.snd ((hfits.link hs.names).symm.trans h)
  have hvalid := hd.linked hs hfits
  refine ⟨d.promote, (d.linked s).promote, hd.prepare, hvalid.prepare, ?_⟩
  intro sink name args
  rw [hd.run_promote, hvalid.run_promote]
  exact (hfits.extends_linked hs.names hprint).run_eq sink name args

/-- A module that calls a function of its own, the print routine, and a function that it declares
only. -/
def reportingModule : Module :=
  ⟨"report", [.declare "printnum" ["i"], .declare "twice" ["i"],
    ⟨"half", ["nArg"], ["div_tmp", "call_tmp"], [⟨"entry", [.binary .sdiv (.param 0) (.const 2) 0,
      .call "printnum" [.value 0] 1, .ret (.value 1)]⟩]⟩,
    ⟨"main", [], ["call_tmp", "div_tmp"], [⟨"entry", [.call "half" [.const 9] 0,
      .binary .sdiv (.value 0) (.const 0) 1, .ret (.value 1)]⟩]⟩,
    ⟨"other", [], ["call_tmp"], [⟨"entry", [.call "twice" [.const 4] 0, .ret (.value 0)]⟩]⟩]⟩

/-- The hypotheses are satisfiable: `main` of `reportingModule` prints a number and fails at a division,
before and after `doublingModule` is linked, while `other` only then finds what it calls. -/
theorem run_linked_reporting_doubling : reportingModule.verify = .ok () ∧
    doublingModule.verify = .ok () ∧ doublingModule.definition? printnum = none ∧
    ∃ r p q, reportingModule.link doublingModule = (.ok (), r) ∧
      reportingModule.prepare = .ok p ∧ r.prepare = .ok q ∧
      p.run .accepting "main" [] = (.error (.divisionByZero "main"), "4\n") ∧
      q.run .accepting "main" [] = (.error (.divisionByZero "main"), "4\n") ∧
      p.run .accepting "other" [] = (.error (.unresolvedSymbol "twice"), "") ∧
      q.run .accepting "other" [] = (.ok 8, "") := by
  obtain ⟨p, q, hp, hq, hrun⟩ :=
    run_linked_of_resolved reportingModule doublingModule _ rfl rfl rfl rfl
  obtain rfl := Except.ok.inj hp
  obtain rfl := Except.ok.inj hq
  refine ⟨rfl, rfl, rfl, _, _, _, rfl, rfl, rfl, rfl, ?_, rfl, rfl⟩
  exact (hrun .accepting "main" [] (fun symbol => nofun)).trans rfl

/-! ### Linking and passes -/

namespace KeepsShape

variable {g : Function → Function} (hg : KeepsShape g)
include hg

/-- Which of two functions of one name is kept, and why none is, can be told from their shapes. -/
theorem merge (old new : Function) : Linking.merge (g old) (g new) = (Linking.merge old new).map g := by
  simp only [Linking.merge, hg.arity, hg.isDeclaration, hg.name]
  split
  · rfl
  · split
    · rfl
    · split <;> rfl

/-- A map that respects merging respects the place of a function. -/
theorem place (new : Function) (dest : List Function) :
    Linking.place (g new) (dest.map g) = (Linking.place new dest).map (List.map g) := by
  induction dest with
  | nil => rfl
  | cons old fs ih =>
    rw [List.map_cons, Linking.place, Linking.place, hg.name, hg.name]
    by_cases hname : old.name = new.name
    · rw [if_pos hname, if_pos hname, hg.merge]
      cases Linking.merge old new <;> rfl
    · rw [if_neg hname, if_neg hname, ih]
      cases Linking.place new fs <;> rfl

/-- **Functions are placed alike before and after a pass,** up to the same mistake. -/
theorem functions (dest src : List Function) : Linking.functions (dest.map g) (src.map g) =
    ((Linking.functions dest src).1, (Linking.functions dest src).2.map g) := by
  induction src generalizing dest with
  | nil => rfl
  | cons new fs ih =>
    rw [List.map_cons, Linking.functions, Linking.functions, hg.place]
    cases Linking.place new dest with
    | error e => rfl
    | ok placed => exact ih placed

/-- **A pass that keeps shapes commutes with linking.** -/
theorem link (d s : Module) : (d.mapFunctions g).link (s.mapFunctions g) =
    ((d.link s).1, (d.link s).2.mapFunctions g) := by
  simp only [Module.link, Module.mapFunctions, hg.functions]

end KeepsShape

/-- **Passes commute with linking.**  If slots are promoted in two modules, or constants folded, then these
are linked or fail to be linked as before, with the same error; and what is left of the first one, after
an error as well, is what the pass makes of what was left of it before. -/
theorem link_passes (d s : Module) :
    d.promote.link s.promote = ((d.link s).1, (d.link s).2.promote) ∧
      d.fold.link s.fold = ((d.link s).1, (d.link s).2.fold) :=
  ⟨keepsShape_promote.link d s, keepsShape_fold.link d s⟩

/-- A module is linked up to a function that the other one defines, too; what came before stays. -/
example : (doublingModule.fold.link
    ⟨"late", [.declare "first" [], ⟨"twice", ["n"], [], [⟨"entry", [.ret (.param 0)]⟩]⟩,
      .declare "last" []]⟩).2.functions.map Function.name = ["log", "twice", "first"] := by
  decide

end IR
end Straightline
