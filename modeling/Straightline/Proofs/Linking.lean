/-
# What linking gives

Two functions of one name fit together if they take as many arguments and at most one of them is a
definition (`Linking.Fits`); they become the definition, or the first of two declarations
(`Linking.pick`).  To place a function changes what is found under its name, and nothing else
(`Linking.find?_placed`), so two modules that fit together are linked to one that has under each name
what the two have, merged (`Module.Fits.link`, `Module.function?_linked`).  No other modules are
linked, if names occur once in each (`Module.fits_of_link`).

That module defines what one of the two defines (`Module.Fits.definition?_linked`).  It is valid if
they are (`Module.Valid.linked`): what a call found in its own module is found there with the same
arity.
-/

import Straightline.IR.Linking
import Straightline.Proofs.Execution

namespace Straightline
namespace IR
namespace Linking

variable {old new f : Function} {dest src : List Function}

/-- Two functions of one name that can be linked. -/
structure Fits (old new : Function) : Prop where
  arity : old.arity = new.arity
  once : old.isDeclaration = true ∨ new.isDeclaration = true

/-- The function that two functions of one name become if they can be linked. -/
def pick (old new : Function) : Function :=
  if new.isDeclaration then old else new

/-- One of the two functions is taken. -/
theorem pick_eq_or (old new : Function) : pick old new = old ∨ pick old new = new := by
  unfold pick
  split
  · exact .inl rfl
  · exact .inr rfl

/-- The name stays. -/
theorem name_pick (h : old.name = new.name) : (pick old new).name = new.name := by
  rcases pick_eq_or old new with hpick | hpick
  · rw [hpick, h]
  · rw [hpick]

/-- The number of parameters stays. -/
theorem Fits.arity_pick (h : Fits old new) : (pick old new).arity = new.arity := by
  rcases pick_eq_or old new with hpick | hpick
  · rw [hpick, h.arity]
  · rw [hpick]

/-- Functions that fit are merged to the one that is picked. -/
theorem Fits.merge_eq_ok (h : Fits old new) : merge old new = .ok (pick old new) := by
  rw [merge, if_neg (not_not_intro h.arity), pick]
  rcases h.once with hold | hnew
  · rw [if_pos hold]
    split <;> rfl
  · rw [if_pos hnew, if_pos hnew]

/-- Functions that are merged fit. -/
theorem fits_of_merge (h : merge old new = .ok f) : Fits old new := by
  unfold merge at h
  split at h
  · cases h
  · rename_i harity
    refine ⟨Decidable.not_not.1 harity, ?_⟩
    split at h
    · rename_i hnew
      exact .inr hnew
    · split at h
      · rename_i hold
        exact .inl hold
      · cases h

/-! ### One function -/

/-- The functions after one more was placed among them, if it fits. -/
def placed (new : Function) : List Function → List Function
  | [] => [new]
  | old :: fs => if old.name = new.name then pick old new :: fs else old :: placed new fs

/-- A function is placed if it fits the one that has its name. -/
theorem place_eq_ok (h : ∀ old ∈ dest, old.name = new.name → Fits old new) :
    place new dest = .ok (placed new dest) := by
  induction dest with
  | nil => rfl
  | cons old fs ih =>
    rw [List.forall_mem_cons] at h
    rw [place, placed]
    split
    · rename_i hname
      rw [(h.1 hname).merge_eq_ok]
      rfl
    · rw [ih h.2]
      rfl

/-- A function that was placed fits the one of its name.  There is only one: placing looks no further
than the first. -/
theorem fits_of_place {fs : List Function} (hdest : (dest.map Function.name).Nodup)
    (h : place new dest = .ok fs) : ∀ old ∈ dest, old.name = new.name → Fits old new := by
  induction dest generalizing fs with
  | nil =>
    intro old hold
    cases hold
  | cons first rest ih =>
    rw [List.map_cons, List.nodup_cons] at hdest
    rw [place] at h
    rw [List.forall_mem_cons]
    split at h
    · rename_i hname
      obtain ⟨merged, hmerge, -⟩ := Except.map_eq_ok_iff.1 h
      refine ⟨fun _ => fits_of_merge hmerge, fun old hold heq => ?_⟩
      exact absurd (List.mem_map.2 ⟨old, hold, heq.trans hname.symm⟩) hdest.1
    · rename_i hname
      obtain ⟨fs', hplace, -⟩ := Except.map_eq_ok_iff.1 h
      exact ⟨fun heq => absurd heq hname, ih hdest.2 hplace⟩

/-- Nothing else comes in when a function is placed. -/
theorem mem_placed (h : f ∈ placed new dest) : f ∈ dest ∨ f = new := by
  induction dest with
  | nil => exact .inr (List.mem_singleton.1 h)
  | cons old fs ih =>
    rw [placed] at h
    split at h
    · rcases List.mem_cons.1 h with rfl | hfs
      · rcases pick_eq_or old new with hpick | hpick
        · exact .inl (by simp [hpick])
        · exact .inr hpick
      · exact .inl (List.mem_cons_of_mem _ hfs)
    · rcases List.mem_cons.1 h with rfl | hfs
      · exact .inl List.mem_cons_self
      · rcases ih hfs with hmem | hnew
        · exact .inl (List.mem_cons_of_mem _ hmem)
        · exact .inr hnew

/-- Functions of other names stay. -/
theorem mem_placed_of_ne (hf : f ∈ dest) (hname : f.name ≠ new.name) : f ∈ placed new dest := by
  induction dest with
  | nil => cases hf
  | cons old fs ih =>
    rw [placed]
    rcases List.mem_cons.1 hf with rfl | hfs
    · rw [if_neg hname]
      exact List.mem_cons_self
    · split
      · exact List.mem_cons_of_mem _ hfs
      · exact List.mem_cons_of_mem _ (ih hfs)

/-- **Placing a function changes what is found under its name,** and nothing else. -/
theorem find?_placed (name : String) : (placed new dest).find? (·.name == name) =
    if name = new.name then (dest.find? (·.name == name)).merge pick (some new)
    else dest.find? (·.name == name) := by
  induction dest with
  | nil =>
    by_cases hname : name = new.name
    · simp [placed, hname]
    · simp [placed, hname, Ne.symm hname]
  | cons old fs ih =>
    rw [placed]
    by_cases hold : old.name = new.name
    · rw [if_pos hold]
      by_cases hname : name = new.name
      · simp [hname, hold, name_pick hold]
      · simp [hname, Ne.symm hname, hold, name_pick hold]
    · rw [if_neg hold, List.find?_cons, List.find?_cons, ih]
      by_cases hname : name = new.name
      · rw [if_pos hname, if_pos hname, hname, beq_false_of_ne hold]
      · rw [if_neg hname, if_neg hname]

/-- Names stay in their places, and a new one comes last. -/
theorem map_name_placed : (placed new dest).map Function.name =
    if new.name ∈ dest.map Function.name then dest.map Function.name
    else dest.map Function.name ++ [new.name] := by
  induction dest with
  | nil => rfl
  | cons old fs ih =>
    rw [placed]
    by_cases hold : old.name = new.name
    · simp [hold, name_pick hold]
    · rw [if_neg hold, List.map_cons, ih]
      by_cases hmem : new.name ∈ fs.map Function.name
      · rw [if_pos hmem, if_pos (by simp [hmem]), List.map_cons]
      · rw [if_neg hmem, if_neg (by simpa [Ne.symm hold] using hmem)]
        rfl

/-- A function is placed under its name, so names stay distinct. -/
theorem nodup_placed (h : (dest.map Function.name).Nodup) :
    ((placed new dest).map Function.name).Nodup := by
  rw [map_name_placed]
  split
  · exact h
  · rename_i hnew
    exact nodup_append_singleton_iff.2 ⟨h, hnew⟩

/-! ### Functions one after the other -/

/-- The functions after others were placed among them in order, if they fit. -/
def linked (dest : List Function) : List Function → List Function
  | [] => dest
  | new :: fs => linked (placed new dest) fs

/-- Nothing comes in that was on neither side. -/
theorem mem_linked (h : f ∈ linked dest src) : f ∈ dest ∨ f ∈ src := by
  induction src generalizing dest with
  | nil => exact .inl h
  | cons new fs ih =>
    rcases ih h with hplaced | hfs
    · rcases mem_placed hplaced with hdest | rfl
      · exact .inl hdest
      · exact .inr List.mem_cons_self
    · exact .inr (List.mem_cons_of_mem _ hfs)

/-- Names stay distinct, however many functions are placed. -/
theorem nodup_linked (src : List Function) (h : (dest.map Function.name).Nodup) :
    ((linked dest src).map Function.name).Nodup := by
  induction src generalizing dest with
  | nil => exact h
  | cons new fs ih => exact ih (nodup_placed h)

/-- **Functions that fit are placed.**  Those that come later have other names, so they find among the
functions what they would have found at the start. -/
theorem functions_eq_ok (hsrc : (src.map Function.name).Nodup)
    (hfits : ∀ old ∈ dest, ∀ new ∈ src, old.name = new.name → Fits old new) :
    functions dest src = (.ok (), linked dest src) := by
  induction src generalizing dest with
  | nil => rfl
  | cons new fs ih =>
    rw [List.map_cons, List.nodup_cons] at hsrc
    rw [functions, place_eq_ok fun old hold => hfits old hold new List.mem_cons_self]
    refine ih hsrc.2 fun old hold next hnext hname => ?_
    rcases mem_placed hold with hdest | rfl
    · exact hfits old hdest next (List.mem_cons_of_mem _ hnext) hname
    · exact absurd (hname ▸ List.mem_map_of_mem hnext) hsrc.1

/-- **Only functions that fit are placed.**  One that stood there at the start still stands there when
a later one of its name comes, since the functions before that one have other names. -/
theorem fits_of_functions {fs : List Function} (hdest : (dest.map Function.name).Nodup)
    (hsrc : (src.map Function.name).Nodup) (h : functions dest src = (.ok (), fs)) :
    ∀ old ∈ dest, ∀ new ∈ src, old.name = new.name → Fits old new := by
  induction src generalizing dest with
  | nil =>
    intro old _ new hnew
    cases hnew
  | cons first rest ih =>
    rw [List.map_cons, List.nodup_cons] at hsrc
    rw [functions] at h
    split at h
    · cases h
    · rename_i dest' hplace
      have hfirst := fits_of_place hdest hplace
      obtain rfl : placed first dest = dest' :=
        Except.ok.inj ((place_eq_ok hfirst).symm.trans hplace)
      intro old hold new hnew hname
      rcases List.mem_cons.1 hnew with rfl | hrest
      · exact hfirst old hold hname
      · have hne : old.name ≠ first.name := fun heq =>
          hsrc.1 (heq ▸ hname ▸ List.mem_map_of_mem hrest)
        exact ih (nodup_placed hdest) hsrc.2 h old (mem_placed_of_ne hold hne) new hrest hname

/-- **Under each name is found what was found on the two sides, merged.** -/
theorem find?_linked (hsrc : (src.map Function.name).Nodup) (name : String) :
    (linked dest src).find? (·.name == name) =
      (dest.find? (·.name == name)).merge pick (src.find? (·.name == name)) := by
  induction src generalizing dest with
  | nil => cases h : dest.find? (·.name == name) <;> simp [linked, h]
  | cons new fs ih =>
    rw [List.map_cons, List.nodup_cons] at hsrc
    rw [linked, ih hsrc.2, find?_placed, List.find?_cons]
    by_cases hname : name = new.name
    · have hfs : fs.find? (·.name == name) = none := by
        rw [hname]
        exact find?_key_eq_none_iff.2 hsrc.1
      rw [if_pos hname, hfs, hname, beq_self_eq_true]
      cases dest.find? (·.name == new.name) <;> rfl
    · rw [if_neg hname, beq_false_of_ne (Ne.symm hname)]

end Linking

/-! ### Modules -/

namespace Module

/-- Two modules whose functions of the same names can be linked. -/
def Fits (d s : Module) : Prop :=
  ∀ old ∈ d.functions, ∀ new ∈ s.functions, old.name = new.name → Linking.Fits old new

/-- The module that two modules that fit together are linked to. -/
def linked (d s : Module) : Module :=
  { d with functions := Linking.linked d.functions s.functions }

variable {d s : Module}

/-- **Modules that fit together are linked.** -/
theorem Fits.link (h : d.Fits s) (hs : (s.functions.map Function.name).Nodup) :
    d.link s = (.ok (), d.linked s) := by
  rw [Module.link, Linking.functions_eq_ok hs h]
  rfl

/-- **Only modules that fit together are linked.** -/
theorem fits_of_link {r : Module} (hd : (d.functions.map Function.name).Nodup)
    (hs : (s.functions.map Function.name).Nodup) (h : d.link s = (.ok (), r)) : d.Fits s := by
  have hstatus : (Linking.functions d.functions s.functions).1 = .ok () := congrArg Prod.fst h
  exact Linking.fits_of_functions hd hs (Prod.ext hstatus rfl)

/-- The function of a name in a linked module is picked from those of the two modules. -/
theorem function?_linked (hs : (s.functions.map Function.name).Nodup) (name : String) :
    (d.linked s).function? name =
      (d.function? name).merge Linking.pick (s.function? name) :=
  Linking.find?_linked hs name

/-- What is found in both modules fits. -/
theorem Fits.of_function? (h : d.Fits s) {name : String} {old new : Function}
    (hold : d.function? name = some old) (hnew : s.function? name = some new) :
    Linking.Fits old new := by
  have hold' : old.name = name := by simpa using List.find?_some hold
  have hnew' : new.name = name := by simpa using List.find?_some hnew
  exact h old (List.mem_of_find?_eq_some hold) new (List.mem_of_find?_eq_some hnew)
    (hold'.trans hnew'.symm)

/-- **Linked modules define what one of them defines.** -/
theorem Fits.definition?_linked (h : d.Fits s) (hs : (s.functions.map Function.name).Nodup)
    (name : String) :
    (d.linked s).definition? name = (d.definition? name).or (s.definition? name) := by
  unfold definition?
  rw [function?_linked hs]
  cases hold : d.function? name with
  | none => simp
  | some old =>
    cases hnew : s.function? name with
    | none => simp
    | some new =>
      have hfits := h.of_function? hold hnew
      cases hdef : new.isDeclaration with
      | true => simp [Linking.pick, Option.filter, hdef]
      | false =>
        have hdecl : old.isDeclaration = true := hfits.once.resolve_right (by simp [hdef])
        simp [Linking.pick, Option.filter, hdef, hdecl]

/-- What a name takes on one side, it takes in the linked module. -/
theorem Fits.map_arity_function? (h : d.Fits s) (hs : (s.functions.map Function.name).Nodup)
    {name : String} {k : Nat} (hk : (d.function? name).map Function.arity = some k ∨
      (s.function? name).map Function.arity = some k) :
    ((d.linked s).function? name).map Function.arity = some k := by
  rw [function?_linked hs]
  cases hold : d.function? name with
  | none => simpa [hold] using hk
  | some old =>
    cases hnew : s.function? name with
    | none => simpa [hold, hnew] using hk
    | some new =>
      have hfits := h.of_function? hold hnew
      simpa [hold, hnew, hfits.arity, hfits.arity_pick] using hk

/-- **Linked modules are valid if both are.** -/
theorem Valid.linked (hd : d.Valid) (hs : s.Valid) (h : d.Fits s) : (d.linked s).Valid := by
  refine ⟨Linking.nodup_linked s.functions hd.names, fun f hf hdef => ?_⟩
  rcases Linking.mem_linked hf with hmem | hmem
  · obtain ⟨b, hb, hbody⟩ := hd.bodies f hmem hdef
    exact ⟨b, hb, hbody.mono (fun _ _ hk => h.map_arity_function? hs.names (.inl hk)) rfl rfl⟩
  · obtain ⟨b, hb, hbody⟩ := hs.bodies f hmem hdef
    exact ⟨b, hb, hbody.mono (fun _ _ hk => h.map_arity_function? hs.names (.inr hk)) rfl rfl⟩

end Module

/-- **Modules that the check accepts are linked to one that it accepts.**  Each name then occurs once,
each definition has a valid body, and each call, on whichever side it was written, finds a function
with as many parameters as it passes arguments. -/
theorem verify_of_link (d s r : Module) (hd : d.verify = .ok ()) (hs : s.verify = .ok ())
    (h : d.link s = (.ok (), r)) :
    r.verify = .ok () ∧ (r.functions.map Function.name).Nodup ∧
      ∀ f ∈ r.functions, f.isDeclaration = false → f.Valid r ∧
        ∀ i ∈ f.instrs, ∀ name args dest, i = .call name args dest →
          ∃ g, r.function? name = some g ∧ g.arity = args.length := by
  rw [Module.verify_eq_ok_iff] at hd hs
  have hfits := Module.fits_of_link hd.names hs.names h
  obtain rfl : d.linked s = r := congrArg Prod.snd ((hfits.link hs.names).symm.trans h)
  have hvalid := hd.linked hs hfits
  refine ⟨(Module.verify_eq_ok_iff _).2 hvalid, hvalid.names, fun f hf hdef => ?_⟩
  have hbody := hvalid.bodies f hf hdef
  exact ⟨hbody, hbody.validBody.callee⟩

/-- A module that declares `twice` and defines `main`, which calls it. -/
def callingModule : Module :=
  ⟨"caller", [.declare "twice" ["i"],
    ⟨"main", [], ["call_tmp"], [⟨"entry", [.call "twice" [.const 4] 0, .ret (.value 0)]⟩]⟩]⟩

/-- A module that defines `twice` after a function that calls it, and declares `main` and
what neither module defines. -/
def calledModule : Module :=
  ⟨"callee", [.declare "main" [], .declare "printnum" ["i"],
    ⟨"again", [], ["call_tmp", "call_tmp1"], [⟨"entry", [.call "main" [] 0,
      .call "twice" [.value 0] 1, .ret (.value 1)]⟩]⟩,
    ⟨"twice", ["n"], ["add_tmp"], [⟨"entry", [.binary .add (.param 0) (.param 0) 0,
      .ret (.value 0)]⟩]⟩]⟩

/-- The hypotheses are satisfiable: both modules are accepted and linked, the definition of `twice`
takes the place of its declaration, and what is linked is accepted. -/
theorem verify_of_link_calling_called : callingModule.verify = .ok () ∧ calledModule.verify = .ok () ∧
    callingModule.link calledModule = (.ok (), callingModule.linked calledModule) ∧
    (callingModule.linked calledModule).functions.map (fun f => (f.name, f.isDeclaration)) =
      [("twice", false), ("main", false), ("printnum", true), ("again", false)] ∧
    (callingModule.linked calledModule).verify = .ok () :=
  ⟨rfl, rfl, rfl, rfl, (verify_of_link callingModule calledModule _ rfl rfl rfl).1⟩

end IR
end Straightline
