/-
# The exact outcome of linking

Functions are placed one after the other among functions that change by that.  But each name occurs once
on either side, so a function meets what stood under its name at the start
(`Linking.mem_placed_iff`).  Whether linking goes well, and which error it ends with, can therefore be
said of the two modules as they are given: it ends with the first function that conflicts with one of the
other module (`Linking.FirstConflict`, `Linking.functions_eq_error_iff`).

If it goes well, the names of the one module stay in their places and the new names of the other follow
(`Linking.map_name_linked`).  Under each name stands a definition if one of the modules has one, else a
declaration, of the module that was linked into if it has one (`Module.Fits.function?_linked_eq_or`).
-/

import Straightline.Proofs.Linking

namespace Straightline
namespace IR
namespace Linking

variable {old new f g : Function} {dest src : List Function} {e : Error}

/-- Two functions of one name that cannot be linked, and the error of that. -/
inductive Conflict (old new : Function) : Error → Prop
  | arity (h : old.arity ≠ new.arity) : Conflict old new (.arityMismatch new.name old.arity new.arity)
  | definitions (harity : old.arity = new.arity) (hold : old.isDeclaration = false)
    (hnew : new.isDeclaration = false) : Conflict old new (.duplicateDefinition new.name)

/-- Functions of which the first one that cannot be linked with one of `dest` conflicts with that as `e`
says. -/
inductive FirstConflict (dest : List Function) (e : Error) : List Function → Prop
  | here {old new : Function} {below : List Function} (hold : old ∈ dest) (hname : old.name = new.name)
    (h : Conflict old new e) : FirstConflict dest e (new :: below)
  | further {new : Function} {below : List Function}
    (hnew : ∀ old ∈ dest, old.name = new.name → Fits old new) (h : FirstConflict dest e below) :
    FirstConflict dest e (new :: below)

/-- Functions in conflict do not fit. -/
theorem Conflict.not_fits (h : Conflict old new e) : ¬ Fits old new := by
  cases h with
  | arity hne => exact fun hfits => hne hfits.arity
  | definitions _ hold hnew =>
    rintro ⟨-, hdecl | hdecl⟩
    · rw [hold] at hdecl
      cases hdecl
    · rw [hnew] at hdecl
      cases hdecl

/-! ### The errors of one function -/

/-- **Two functions are merged unless they conflict.** -/
theorem merge_eq_error_iff : merge old new = .error e ↔ Conflict old new e := by
  unfold merge
  by_cases harity : old.arity = new.arity
  · rw [if_neg (not_not_intro harity)]
    cases hnew : new.isDeclaration with
    | true =>
      refine ⟨fun h => (by cases h), fun h => ?_⟩
      exact absurd ⟨harity, .inr hnew⟩ h.not_fits
    | false =>
      cases hold : old.isDeclaration with
      | true =>
        refine ⟨fun h => (by cases h), fun h => ?_⟩
        exact absurd ⟨harity, .inl hold⟩ h.not_fits
      | false =>
        constructor
        · intro h
          obtain rfl := Except.error.inj h
          exact .definitions harity hold hnew
        · intro h
          cases h with
          | arity hne => exact absurd harity hne
          | definitions => rfl
  · rw [if_pos harity]
    constructor
    · intro h
      obtain rfl := Except.error.inj h
      exact .arity harity
    · intro h
      cases h with
      | arity => rfl
      | definitions heq => exact absurd heq harity

/-- **A function is placed unless it conflicts with the one of its name.** -/
theorem place_eq_error_iff (hdest : (dest.map Function.name).Nodup) :
    place new dest = .error e ↔ ∃ old ∈ dest, old.name = new.name ∧ Conflict old new e := by
  induction dest with
  | nil => exact ⟨fun h => (by cases h), fun ⟨old, hold, _⟩ => (by cases hold)⟩
  | cons first rest ih =>
    rw [List.map_cons, List.nodup_cons] at hdest
    rw [place]
    by_cases hfirst : first.name = new.name
    · rw [if_pos hfirst, Except.map_eq_error_iff, merge_eq_error_iff]
      constructor
      · intro h
        exact ⟨first, List.mem_cons_self, hfirst, h⟩
      · rintro ⟨old, hold, hname, h⟩
        rcases List.mem_cons.1 hold with rfl | hrest
        · exact h
        · exact absurd (List.mem_map.2 ⟨old, hrest, hname.trans hfirst.symm⟩) hdest.1
    · rw [if_neg hfirst, Except.map_eq_error_iff, ih hdest.2]
      constructor
      · rintro ⟨old, hold, h⟩
        exact ⟨old, List.mem_cons_of_mem first hold, h⟩
      · rintro ⟨old, hold, hname, h⟩
        rcases List.mem_cons.1 hold with rfl | hrest
        · exact absurd hname hfirst
        · exact ⟨old, hrest, hname, h⟩

/-! ### The errors of functions one after the other -/

/-- Placing a function changes nothing under other names. -/
theorem mem_placed_iff (hname : f.name ≠ new.name) : f ∈ placed new dest ↔ f ∈ dest := by
  constructor
  · intro h
    rcases mem_placed h with hdest | rfl
    · exact hdest
    · exact absurd rfl hname
  · intro h
    exact mem_placed_of_ne h hname

/-- What comes first does not depend on functions of other names. -/
theorem FirstConflict.congr {dest' : List Function}
    (hdest : ∀ new ∈ src, ∀ old, old.name = new.name → (old ∈ dest' ↔ old ∈ dest))
    (h : FirstConflict dest e src) : FirstConflict dest' e src := by
  induction h with
  | here hold hname h =>
    exact .here ((hdest _ List.mem_cons_self _ hname).2 hold) hname h
  | further hnew _ ih =>
    rw [List.forall_mem_cons] at hdest
    refine .further (fun old hold hname => ?_) (ih hdest.2)
    exact hnew old ((hdest.1 old hname).1 hold) hname

/-- **Placing functions ends with the first conflict.** -/
theorem functions_eq_error_iff (hdest : (dest.map Function.name).Nodup)
    (hsrc : (src.map Function.name).Nodup) :
    (functions dest src).1 = .error e ↔ FirstConflict dest e src := by
  induction src generalizing dest with
  | nil => exact ⟨fun h => (by cases h), fun h => (by cases h)⟩
  | cons new below ih =>
    rw [List.map_cons, List.nodup_cons] at hsrc
    rw [functions]
    cases hplace : place new dest with
    | error e' =>
      obtain ⟨old, hold, hname, hconflict⟩ := (place_eq_error_iff hdest).1 hplace
      constructor
      · intro h
        obtain rfl : e' = e := Except.error.inj h
        exact .here hold hname hconflict
      · intro h
        cases h with
        | here hold' hname' h =>
          have herror := (place_eq_error_iff hdest).2 ⟨_, hold', hname', h⟩
          obtain rfl : e' = e := Except.error.inj (hplace.symm.trans herror)
          rfl
        | further hnew => exact absurd (hnew old hold hname) hconflict.not_fits
    | ok dest' =>
      have hfits := fits_of_place hdest hplace
      obtain rfl : placed new dest = dest' := Except.ok.inj ((place_eq_ok hfits).symm.trans hplace)
      -- the functions below have other names
      have hothers : ∀ next ∈ below, ∀ f : Function, f.name = next.name →
          (f ∈ placed new dest ↔ f ∈ dest) := by
        intro next hnext f hname
        refine mem_placed_iff fun heq => hsrc.1 ?_
        rw [← heq, hname]
        exact List.mem_map_of_mem hnext
      show (functions (placed new dest) below).1 = .error e ↔ _
      rw [ih (nodup_placed hdest) hsrc.2]
      constructor
      · intro h
        exact .further hfits (h.congr fun next hnext f hname => (hothers next hnext f hname).symm)
      · intro h
        cases h with
        | here hold hname h => exact absurd (hfits _ hold hname) h.not_fits
        | further _ h => exact h.congr hothers

/-! ### What linking gives, name by name -/

/-- **Names stay in their places, and new ones follow in their order.** -/
theorem map_name_linked (hsrc : (src.map Function.name).Nodup) :
    (linked dest src).map Function.name = dest.map Function.name ++
      (src.map Function.name).filter (fun name => name ∉ dest.map Function.name) := by
  induction src generalizing dest with
  | nil => simp [linked]
  | cons new below ih =>
    rw [List.map_cons, List.nodup_cons] at hsrc
    rw [linked, ih hsrc.2, map_name_placed, List.map_cons]
    by_cases hnew : new.name ∈ dest.map Function.name
    · rw [if_pos hnew, List.filter_cons_of_neg (by simpa using hnew)]
    · rw [if_neg hnew, List.filter_cons_of_pos (by simpa using hnew), List.append_assoc,
        List.singleton_append]
      -- the name that was added is none of those below
      refine congrArg (fun names => _ ++ new.name :: names) (List.filter_congr fun name hname => ?_)
      have hne : name ≠ new.name := by
        rintro rfl
        exact hsrc.1 hname
      simp [hne]

end Linking

namespace Module

variable {d s : Module}

/-- **Under a name stands its definition, or else a declaration,** first that of the module that was linked
into. -/
theorem Fits.function?_linked_eq_or (h : d.Fits s) (hs : (s.functions.map Function.name).Nodup)
    (name : String) : (d.linked s).function? name =
      (d.definition? name).or ((s.definition? name).or ((d.function? name).or (s.function? name))) := by
  rw [function?_linked hs, definition?, definition?]
  cases hold : d.function? name with
  | none =>
    cases hnew : s.function? name with
    | none => rfl
    | some new => cases hdecl : new.isDeclaration <;> simp [Option.filter, hdecl]
  | some old =>
    cases hnew : s.function? name with
    | none => cases hdecl : old.isDeclaration <;> simp [Option.filter, hdecl]
    | some new =>
      have hfits := h.of_function? hold hnew
      cases hdef : new.isDeclaration with
      | true => cases hdecl : old.isDeclaration <;> simp [Linking.pick, Option.filter, hdef, hdecl]
      | false =>
        have hdecl : old.isDeclaration = true := hfits.once.resolve_right (by simp [hdef])
        simp [Linking.pick, Option.filter, hdef, hdecl]

end Module

/-- **The exact outcome of linking.**  Two modules, in each of which names occur once, are linked if what they
have under the same name takes as many arguments and is not defined in both.  Else linking ends with the
error of the first function of the second module that breaks this: that of the numbers of parameters if
these differ.  The result has the name of the first module, its names in their places and then the new
names of the second, each once; under a name it has the definition that one of the modules has, else the
declaration of the first, else that of the second. -/
theorem link_outcome (d s : Module) (hd : (d.functions.map Function.name).Nodup)
    (hs : (s.functions.map Function.name).Nodup) :
    ((d.link s).1 = .ok () ↔ ∀ old ∈ d.functions, ∀ new ∈ s.functions, old.name = new.name →
      old.arity = new.arity ∧ (old.isDeclaration = true ∨ new.isDeclaration = true)) ∧
    (∀ e, (d.link s).1 = .error e ↔ Linking.FirstConflict d.functions e s.functions) ∧
    ∀ r, d.link s = (.ok (), r) →
      r.name = d.name ∧
      r.functions.map Function.name = d.functions.map Function.name ++
        (s.functions.map Function.name).filter (fun name => name ∉ d.functions.map Function.name) ∧
      (r.functions.map Function.name).Nodup ∧
      ∀ name, r.function? name =
        (d.definition? name).or ((s.definition? name).or ((d.function? name).or (s.function? name))) := by
  refine ⟨⟨fun h => ?_, fun h => ?_⟩, fun e => Linking.functions_eq_error_iff hd hs, fun r h => ?_⟩
  · have hfits : d.Fits s := Module.fits_of_link hd hs (Prod.ext h rfl)
    intro old hold new hnew hname
    have hpair := hfits old hold new hnew hname
    exact ⟨hpair.arity, hpair.once⟩
  · have hfits : d.Fits s := fun old hold new hnew hname =>
      ⟨(h old hold new hnew hname).1, (h old hold new hnew hname).2⟩
    rw [hfits.link hs]
  · have hfits := Module.fits_of_link hd hs h
    obtain rfl : d.linked s = r := congrArg Prod.snd ((hfits.link hs).symm.trans h)
    exact ⟨rfl, Linking.map_name_linked hs, Linking.nodup_linked s.functions hd,
      hfits.function?_linked_eq_or hs⟩

/-- A module with two functions that cannot be linked into `callingModule`: a second definition of `main` with
another number of parameters, and a declaration of `twice` with another one. -/
def clashingModule : Module :=
  ⟨"clash", [.declare "log" ["x"], ⟨"main", ["x"], [], [⟨"entry", [.ret (.param 0)]⟩]⟩,
    .declare "twice" ["i", "j"]]⟩

/-- The hypotheses are satisfiable: `calledModule` is linked into `callingModule`, and the definition of `twice`
stands in the place of its declaration; of the conflicts of `clashingModule`, the first is told, by its
numbers of parameters. -/
theorem link_outcome_calling : (callingModule.functions.map Function.name).Nodup ∧
    (calledModule.functions.map Function.name).Nodup ∧
    (∃ r, callingModule.link calledModule = (.ok (), r) ∧
      r.functions.map Function.name = ["twice", "main", "printnum", "again"] ∧
      r.function? "twice" = calledModule.function? "twice" ∧
      r.function? "main" = callingModule.function? "main") ∧
    (clashingModule.functions.map Function.name).Nodup ∧
    Linking.FirstConflict callingModule.functions (.arityMismatch "main" 0 1) clashingModule.functions := by
  obtain ⟨-, -, hlinked⟩ := link_outcome callingModule calledModule (by decide) (by decide)
  obtain ⟨-, hnames, -, hfunction⟩ := hlinked _ rfl
  obtain ⟨-, herror, -⟩ := link_outcome callingModule clashingModule (by decide) (by decide)
  refine ⟨by decide, by decide, ⟨_, rfl, hnames.trans ?_, ?_, ?_⟩, by decide, (herror _).1 rfl⟩
  · decide
  · rw [hfunction]
    rfl
  · rw [hfunction]
    rfl

end IR
end Straightline
