/-
# The module of a program

A program in order is lowered without a fault or refusal, to a module that has under each name what
the program has (`Lowers`): a definition with its code, or a declaration.  Prototypes come first, so
a definition finds its signature there, under the parameter names of the prototype, or adds it
(`Gen.exec_signature`); then its block is opened and its code is written (`Gen.exec_function`).  One
prototype or definition more (`Gen.exec_declare`, `Gen.exec_define`) gives a module of the program
with one more, so the whole program is lowered in the end (`toModule_of_wellFormed`).  After that
only the link of a file can fail (`eq_link_of_toModule_eq_error`).  No request changes the name that the
module was given (`name_of_toModule`).
-/

import Straightline.Proofs.Emission

namespace Straightline
namespace Lowering

open IR (Operand Instr Builder)
open Source (Program Prototype)

/-! ### The module of a program -/

/-- The names of the parameters under which a definition is lowered: those of its prototype, if it
has one. -/
def paramsOf (p : Program) (f : Source.Function) : List String :=
  (p.prototype? f.name).elim f.prototype.params Prototype.params

/-- The function that the module of a program has under a name: a lowered definition or a
declaration. -/
def loweredFunction? (p : Program) (name : String) : Option IR.Function :=
  match p.function? name with
  | some f => some (lowered (paramsOf p f) f)
  | none => (p.prototype? name).map fun q => declaration name q.params

/-- A module that has under each name what the program has, lowered. -/
structure Lowers (p : Program) (m : IR.Module) : Prop where
  names : (m.functions.map IR.Function.name).Nodup
  function? : ∀ name, m.function? name = loweredFunction? p name

/-- A program's functions are lowered with the arities that they have. -/
theorem map_arity_loweredFunction? (p : Program) (name : String) :
    (loweredFunction? p name).map IR.Function.arity = p.arity? name := by
  unfold loweredFunction? Program.arity?
  cases hf : p.function? name with
  | none =>
    cases p.prototype? name <;> simp [Prototype.arity]
  | some f =>
    have hname : f.name = name := by simpa using List.find?_some hf
    cases hq : p.prototype? name <;>
      simp [paramsOf, hname, hq, Source.Function.arity, Prototype.arity]

/-- A module that was lowered from a program provides its functions. -/
theorem Lowers.provides {p : Program} {m : IR.Module} (h : Lowers p m) : Code.Provides m p := by
  intro name k hk
  rw [h.function?, map_arity_loweredFunction?]
  exact hk

/-- The functions of the module are the lowered definitions, and declarations. -/
theorem Lowers.eq_of_mem {p : Program} {m : IR.Module} (h : Lowers p m) {g : IR.Function}
    (hg : g ∈ m.functions) : (∃ f ∈ p.functions, g = lowered (paramsOf p f) f) ∨
      ∃ q ∈ p.prototypes, g = declaration q.name q.params := by
  have hfound : loweredFunction? p g.name = some g := by
    rw [← h.function?]
    exact find?_eq_some_of_mem h.names hg
  unfold loweredFunction? at hfound
  split at hfound
  · rename_i f hf
    exact .inl ⟨f, List.mem_of_find?_eq_some hf, (Option.some.inj hfound).symm⟩
  · obtain ⟨q, hq, hdecl⟩ := Option.map_eq_some_iff.1 hfound
    have hname : q.name = g.name := by simpa using List.find?_some hq
    exact .inr ⟨q, List.mem_of_find?_eq_some hq, by rw [hname, hdecl]⟩

/-- The empty module is lowered from the empty program. -/
theorem lowers_empty (name : String) : Lowers ⟨[], []⟩ (IR.Module.empty name) :=
  ⟨List.nodup_nil, fun _ => rfl⟩

namespace Gen

variable {read : String → Except String String} {scope : Scope Nat Nat} {b : Builder} {p : Program}
  {q : Prototype} {f : Source.Function}

/-! ### Signatures -/

/-- A builder after a declaration. -/
def declared (b : Builder) (q : Prototype) : Builder :=
  { b with module := { b.module with
      functions := b.module.functions ++ [declaration q.name q.params] } }

/-- A prototype with a new name declares it. -/
theorem exec_prototype_of_none (h : b.module.function? q.name = none) :
    exec read (prototype q) scope b =
      (.ok (b.module.functions.length, scope), declared b q) := by
  have hindex := Builder.index?_eq_none h
  have hlookup : ModuleTarget.lookup b q.name = none := by simp [ModuleTarget.lookup, hindex]
  refine (exec_bind exec_getFunction).trans ?_
  rw [hlookup]
  refine exec_ask_backend ?_
  simp only [ModuleTarget.handle, Builder.addFunction, hindex]
  rfl

/-- A prototype that is there already, with as many parameters, is found again. -/
theorem exec_prototype_of_some {g : IR.Function} (h : b.module.function? q.name = some g)
    (harity : g.arity = q.arity) : ∃ i, b.module.functions[i]? = some g ∧
      exec read (prototype q) scope b = (.ok (i, scope), b) := by
  obtain ⟨i, hi, hget, -⟩ := ModuleTarget.lookup_eq_some h
  refine ⟨i, hget, ?_⟩
  refine (exec_bind exec_getFunction).trans ?_
  rw [hi]
  show exec read (if g.arity = q.arity then pure i else fail _) scope b = _
  rw [if_pos harity, exec_pure]

/-- After a signature, the module has a declaration of that name, and what it had before. -/
theorem function?_declared (name : String) : (declared b q).module.function? name =
    (b.module.function? name).or
      (if name = q.name then some (declaration q.name q.params) else none) := by
  unfold declared IR.Module.function?
  rw [List.find?_append]
  congr 1
  by_cases hname : name = q.name
  · simp [hname]
  · simp [hname, Ne.symm hname]

/-- A new declaration keeps names distinct. -/
theorem names_declared (hnames : (b.module.functions.map IR.Function.name).Nodup)
    (h : b.module.function? q.name = none) :
    ((declared b q).module.functions.map IR.Function.name).Nodup := by
  have hnew : q.name ∉ b.module.functions.map IR.Function.name := find?_key_eq_none_iff.1 h
  simpa [declared, List.nodup_append] using
    ⟨hnames, fun g hg heq => hnew (heq ▸ List.mem_map_of_mem hg)⟩

/-! ### Definitions -/

/-- A builder in which a function has got its block. -/
def opened (b : Builder) (i : Nat) : Builder :=
  { b.modifyFunction i fun f => { f with blocks := f.blocks ++ [⟨ModuleTarget.entryLabel, []⟩] } with
    point := some ⟨i, 0⟩ }

/-- The entry block of a declaration opens it. -/
theorem exec_appendEntryBlock {i : Nat} {d : IR.Function} (hi : b.module.functions[i]? = some d)
    (hd : d.blocks = []) :
    exec read (ask (.appendEntryBlock i)) scope b = (.ok ((), scope), opened b i) := by
  have happend : b.appendBlock i ModuleTarget.entryLabel = .ok (opened b i) := by
    rw [Builder.appendBlock, Builder.function, hi]
    show Except.ok (Builder.mk _ (some ⟨i, d.blocks.length⟩)) = _
    rw [hd]
    rfl
  rw [exec_ask]
  simp only [ModuleTarget.handle, happend]
  rfl

/-- Opening a declaration changes no signature. -/
theorem signatures_opened {i : Nat} : (opened b i).module.signatures = b.module.signatures :=
  Builder.signatures_modifyFunction (fun _ => rfl) fun _ => rfl

/-- An opened declaration takes instructions, from the next number on. -/
theorem openAt_opened {i : Nat} {d : IR.Function} (hi : b.module.functions[i]? = some d) :
    (opened b i).OpenAt d.names.length := by
  refine ⟨⟨i, 0⟩, { d with blocks := d.blocks ++ [⟨ModuleTarget.entryLabel, []⟩] }, rfl, ?_, rfl⟩
  simp [opened, Builder.modifyFunction, hi]

/-- Lowering a definition opens the function of its signature and writes its code. -/
theorem exec_function {b' : Builder} {i : Nat} {d : IR.Function} (hf : f.WellFormed p)
    (hproto : exec read (prototype f.prototype) scope b = (.ok (i, scope), b'))
    (hi : b'.module.functions[i]? = some d) (hblocks : d.blocks = []) (hnames : d.names = [])
    (harity : d.arity = f.arity) (hm : Code.Provides b'.module p) :
    ∃ scope', exec read (function f) scope b = (.ok ((), scope'),
      (opened b' i).write (Code.body f).bases (Code.body f).instrs) := by
  have hopen : (opened b' i).OpenAt 0 := by
    have h := openAt_opened hi
    rwa [hnames] at h
  have hsig : (opened b' i).module.signatures[i]? = some (d.name, f.prototype.params.length) := by
    rw [signatures_opened, IR.Module.signatures, List.getElem?_map, hi, Option.map_some, harity]
    rfl
  obtain ⟨scope', hscope', hdecls⟩ : ∃ scope', HasSlots f.vars scope' ∧
      exec read (decls i f.prototype.params f.decls) ⟨some i, []⟩ (opened b' i) =
        (.ok ((), scope'), (opened b' i).write (Code.decls f.prototype.params f.decls 0).bases
          (Code.decls f.prototype.params f.decls 0).instrs) :=
    exec_decls [] hf.vars hsig (fun d hd => (hf.kind_eq_iff hd).1) (fun x hx => by cases hx) hopen
  have hopen' : ((opened b' i).write (Code.decls f.prototype.params f.decls 0).bases
      (Code.decls f.prototype.params f.decls 0).instrs).OpenAt f.vars.length := by
    have hlen : f.vars.length = 0 + (Code.decls f.prototype.params f.decls 0).bases.length := by
      rw [Code.bases_decls, Nat.zero_add, Source.Function.vars]
    rw [hlen]
    exact hopen.write
  have hprovides : Code.Provides (opened b' i).module p := hm.congr signatures_opened
  refine ⟨{ scope' with current := none }, ?_⟩
  refine (exec_bind hproto).trans ?_
  refine (exec_bind exec_set).trans ?_
  refine (exec_bind (exec_appendEntryBlock hi hblocks)).trans ?_
  refine (exec_bind exec_current).trans ?_
  refine (exec_bind hdecls).trans ?_
  refine (exec_bind (exec_stmts hscope' hf.stmts hopen' (provides_write hprovides))).trans ?_
  rw [exec_modify, Builder.write_write]
  rfl

/-- The declaration that was opened is then the lowered function, under the same name; the other
functions are as before. -/
theorem function?_write_opened {i : Nat} {params : List String}
    (hnames : (b.module.functions.map IR.Function.name).Nodup)
    (hi : b.module.functions[i]? = some (declaration f.name params)) (name : String) :
    ((opened b i).write (Code.body f).bases (Code.body f).instrs).module.function? name =
      if name = f.name then some (lowered params f) else b.module.function? name := by
  have hmodify : ((opened b i).write (Code.body f).bases (Code.body f).instrs).module.functions =
      b.module.functions.modify i fun d => IR.Function.write 0 (Code.body f).bases
        (Code.body f).instrs { d with blocks := d.blocks ++ [⟨ModuleTarget.entryLabel, []⟩] } := by
    simp only [Builder.write, opened, Builder.modifyFunction, List.modify_modify_eq]
    rfl
  have hwrite : IR.Function.write 0 (Code.body f).bases (Code.body f).instrs
      { declaration f.name params with blocks := [⟨ModuleTarget.entryLabel, []⟩] } =
        lowered params f := by
    rw [IR.Function.write, IR.Function.addValues_blocks]
    rfl
  rw [IR.Module.function?, hmodify, find?_modify hnames hi (by simp [IR.Function.write]), ← hwrite]
  rfl

/-- No name changes while a body is written. -/
theorem names_write_opened {i : Nat} {bases : List String} {is : List Instr} :
    ((opened b i).write bases is).module.functions.map IR.Function.name =
      b.module.functions.map IR.Function.name := by
  have h : ((opened b i).write bases is).module.signatures = b.module.signatures :=
    Builder.signatures_write.trans signatures_opened
  simpa [IR.Module.signatures, Function.comp_def] using congrArg (List.map Prod.fst) h

/-! ### Programs -/

/-- One more prototype is found under its name, unless the name is there. -/
theorem loweredFunction?_declare {ps : List Prototype} (name : String)
    (hnew : q.name ∉ ps.map Prototype.name) :
    loweredFunction? ⟨ps ++ [q], []⟩ name = (loweredFunction? ⟨ps, []⟩ name).or
      (if name = q.name then some (declaration q.name q.params) else none) := by
  have hps : ps.find? (·.name == q.name) = none := find?_key_eq_none_iff.2 hnew
  unfold loweredFunction? Program.prototype? Program.function?
  rw [List.find?_append]
  by_cases hname : name = q.name
  · subst hname
    simp [hps]
  · cases h : ps.find? (·.name == name) <;> simp [hname, Ne.symm hname]

/-- One more definition changes nothing under other names. -/
theorem loweredFunction?_define {ps : List Prototype} {fs : List Source.Function} {name : String}
    (hne : name ≠ f.name) :
    loweredFunction? ⟨ps, fs ++ [f]⟩ name = loweredFunction? ⟨ps, fs⟩ name := by
  have hf : Program.function? ⟨ps, fs ++ [f]⟩ name = Program.function? ⟨ps, fs⟩ name := by
    simp [Program.function?, List.find?_append, Ne.symm hne]
  unfold loweredFunction?
  rw [hf]
  rfl

/-- A new prototype is declared. -/
theorem exec_declare {ps : List Prototype} (hlowers : Lowers ⟨ps, []⟩ b.module)
    (hnew : q.name ∉ ps.map Prototype.name) :
    ∃ i b', exec read (prototype q) scope b = (.ok (i, scope), b') ∧
      Lowers ⟨ps ++ [q], []⟩ b'.module := by
  have hnone : b.module.function? q.name = none := by
    rw [hlowers.function?, loweredFunction?]
    simp [Program.prototype?, Program.function?, find?_key_eq_none_iff.2 hnew]
  refine ⟨_, _, exec_prototype_of_none hnone, names_declared hlowers.names hnone, fun name => ?_⟩
  rw [function?_declared, hlowers.function?, loweredFunction?_declare name hnew]

/-- A new definition is found under its name. -/
theorem loweredFunction?_define_self {ps : List Prototype} {fs : List Source.Function}
    (hnew : Program.function? ⟨ps, fs⟩ f.name = none) :
    loweredFunction? ⟨ps, fs ++ [f]⟩ f.name = some (lowered (paramsOf ⟨ps, fs⟩ f) f) := by
  have hfs : fs.find? (·.name == f.name) = none := hnew
  have hf : Program.function? ⟨ps, fs ++ [f]⟩ f.name = some f := by
    simp [Program.function?, List.find?_append, hfs]
  unfold loweredFunction?
  rw [hf]
  rfl

/-- The signature of a new definition is in the module, or is added to it. -/
theorem exec_signature (read : String → Except String String) (scope : Scope Nat Nat)
    (hlowers : Lowers p b.module) (hnew : p.function? f.name = none)
    (harity : ∀ q, p.prototype? f.name = some q → q.arity = f.arity) :
    ∃ i b', exec read (prototype f.prototype) scope b = (.ok (i, scope), b') ∧
      b'.module.functions[i]? = some (declaration f.name (paramsOf p f)) ∧
      (b'.module.functions.map IR.Function.name).Nodup ∧ Code.Provides b'.module p ∧
      ∀ name, name ≠ f.name → b'.module.function? name = b.module.function? name := by
  have hfound := hlowers.function? f.name
  unfold loweredFunction? at hfound
  unfold paramsOf
  rw [hnew] at hfound
  cases hq : p.prototype? f.name with
  | none =>
    -- the name is new to the module, and what was found under the others stays
    rw [hq] at hfound
    refine ⟨_, _, exec_prototype_of_none hfound, ?_, names_declared hlowers.names hfound, ?_, ?_⟩
    · exact List.getElem?_concat_length
    · intro name k hk
      obtain ⟨g, hg, rfl⟩ := Option.map_eq_some_iff.1 (hlowers.provides name k hk)
      rw [function?_declared, hg, Option.some_or, Option.map_some]
    · intro name hne
      rw [function?_declared, if_neg (show name ≠ f.prototype.name from hne), Option.or_none]
  | some q =>
    -- the prototype has been declared, and nothing was defined under its name
    rw [hq] at hfound
    have hdecl : (declaration f.name q.params).arity = f.prototype.arity :=
      arity_declaration.trans (harity q hq)
    obtain ⟨i, hi, hexec⟩ := exec_prototype_of_some hfound hdecl
    exact ⟨i, b, hexec, hi, hlowers.names, hlowers.provides, fun _ _ => rfl⟩

/-- A new definition is lowered, whether or not there is a prototype for it. -/
theorem exec_define (read : String → Except String String) (scope : Scope Nat Nat)
    (hlowers : Lowers p b.module) (hf : f.WellFormed p) (hnew : p.function? f.name = none)
    (harity : ∀ q, p.prototype? f.name = some q → q.arity = f.arity) :
    ∃ scope' b', exec read (function f) scope b = (.ok ((), scope'), b') ∧
      Lowers ⟨p.prototypes, p.functions ++ [f]⟩ b'.module := by
  obtain ⟨i, b₁, hproto, hi, hnames, hm, hother⟩ := exec_signature read scope hlowers hnew harity
  have hparams : (paramsOf p f).length = f.arity := by
    unfold paramsOf
    cases hq : p.prototype? f.name with
    | none => rfl
    | some q => exact harity q hq
  obtain ⟨scope', hexec⟩ := exec_function hf hproto hi rfl rfl
    (arity_declaration.trans hparams) hm
  refine ⟨scope', _, hexec, ?_, fun name => ?_⟩
  · rw [names_write_opened]
    exact hnames
  · rw [function?_write_opened hnames hi]
    by_cases hname : name = f.name
    · rw [if_pos hname, hname]
      exact (loweredFunction?_define_self hnew).symm
    · rw [if_neg hname, loweredFunction?_define hname, hother name hname]
      exact hlowers.function? name

/-- Prototypes are lowered one after the other: `ps` are those before them. -/
theorem exec_prototypes (ps : List Prototype) {qs : List Prototype} (scope : Scope Nat Nat)
    (hlowers : Lowers ⟨ps, []⟩ b.module) (hnodup : ((ps ++ qs).map Prototype.name).Nodup) :
    ∃ b', exec read (prototypes qs) scope b = (.ok ((), scope), b') ∧
      Lowers ⟨ps ++ qs, []⟩ b'.module := by
  induction qs generalizing ps b with
  | nil => exact ⟨b, exec_pure, by rwa [List.append_nil]⟩
  | cons q qs ih =>
    have hassoc : ps ++ q :: qs = (ps ++ [q]) ++ qs := by simp
    have hnew : q.name ∉ ps.map Prototype.name := by
      rw [List.map_append, List.map_cons] at hnodup
      exact not_mem_of_nodup_append hnodup
    obtain ⟨i, b₁, hdeclare, hlowers₁⟩ := exec_declare hlowers hnew
    rw [hassoc] at hnodup ⊢
    obtain ⟨b', hexec, hlowers'⟩ := ih _ hlowers₁ hnodup
    refine ⟨b', ?_, hlowers'⟩
    exact (exec_bind hdeclare).trans hexec

/-- Definitions are lowered one after the other: `done` are those before them. -/
theorem exec_functions {ps : List Prototype} (done : List Source.Function)
    {fs : List Source.Function} (scope : Scope Nat Nat) (hp : Program.WellFormed ⟨ps, done ++ fs⟩)
    (hlowers : Lowers ⟨ps, done⟩ b.module) :
    ∃ scope' b', exec read (functions fs) scope b = (.ok ((), scope'), b') ∧
      Lowers ⟨ps, done ++ fs⟩ b'.module := by
  induction fs generalizing done b scope with
  | nil => exact ⟨scope, b, exec_pure, by rwa [List.append_nil]⟩
  | cons f fs ih =>
    have hassoc : done ++ f :: fs = (done ++ [f]) ++ fs := by simp
    have hnew : Program.function? ⟨ps, done⟩ f.name = none := by
      have hnodup := hp.functions
      rw [List.map_append, List.map_cons] at hnodup
      exact find?_key_eq_none_iff.2 (not_mem_of_nodup_append hnodup)
    have harity : ∀ q, Program.prototype? ⟨ps, done⟩ f.name = some q → q.arity = f.arity := by
      intro q hq
      refine hp.arity q (List.mem_of_find?_eq_some hq) f (by simp) ?_
      simpa using List.find?_some hq
    obtain ⟨scope₁, b₁, hdefine, hlowers₁⟩ :=
      exec_define read scope hlowers (hp.bodies done f fs rfl) hnew harity
    rw [hassoc] at hp ⊢
    obtain ⟨scope', b', hexec, hlowers'⟩ := ih _ scope₁ hp hlowers₁
    refine ⟨scope', b', ?_, hlowers'⟩
    exact (exec_bind hdefine).trans hexec

/-- What the linker says is what the request for a link is answered with. -/
theorem exec_linkFile {path : String} {status : Except IR.Linking.Error Unit} {m : IR.Module}
    (h : b.module.linkText path (read path) = (status, m)) :
    exec read (ask (.linkFile path) >>= linked path) scope b =
      exec read (linked path (status.mapError .link)) scope { b with module := m } := by
  have hhandle : ModuleTarget.handle read (.linkFile path) b =
      (status.mapError .link, { b with module := m }) := by
    simp only [ModuleTarget.handle, ModuleTarget.linkFile, h]
    rfl
  refine (exec_bind (exec_ask _)).trans ?_
  rw [hhandle]

/-- Everything but the link of a well-formed program succeeds. -/
theorem exec_program (read : String → Except String String) (name : String) (hp : p.WellFormed) :
    ∃ scope' b', Lowers p b'.module ∧
      exec read (program p none) .empty (.empty name) = (.ok ((), scope'), b') ∧
      ∀ path, exec read (program p (some path)) .empty (.empty name) =
        exec read (ask (.linkFile path) >>= linked path) scope' b' := by
  obtain ⟨b₁, hprototypes, hlowers₁⟩ : ∃ b', exec read (prototypes p.prototypes) .empty (.empty name) =
      (.ok ((), .empty), b') ∧ Lowers ⟨p.prototypes, []⟩ b'.module :=
    exec_prototypes [] .empty (lowers_empty name) hp.prototypes
  obtain ⟨scope', b', hfunctions, hlowers⟩ : ∃ scope' b', exec read (functions p.functions) .empty b₁ =
      (.ok ((), scope'), b') ∧ Lowers p b'.module :=
    exec_functions [] .empty hp hlowers₁
  refine ⟨scope', b', hlowers, ?_, fun path => ?_⟩
  · exact (exec_bind hprototypes).trans ((exec_bind hfunctions).trans exec_pure)
  · exact (exec_bind hprototypes).trans (exec_bind hfunctions)

end Gen

/-- To generate a module is to execute the lowering of a program and to forget the scope. -/
theorem generate_eq (read : String → Except String String) (p : Program) (link : Option String)
    (scope : Scope Nat Nat) (b : Builder) : generate (moduleTarget read) scope p link b =
      match Gen.exec read (Gen.program p link) scope b with
      | (.ok q, b') => (.ok q.1, b')
      | (.error e, b') => (.error e, b') := by
  have hmap : generate (moduleTarget read) scope p link b =
      (Gen.program p link scope >>= fun q => pure q.1).run (moduleTarget read) b := rfl
  rw [hmap, Script.run_bind, Gen.exec]
  rcases (Gen.program p link scope).run (moduleTarget read) b with ⟨e | q, b'⟩ <;> rfl

/-- **A well-formed program is lowered** to a module that has its functions. -/
theorem toModule_of_wellFormed {p : Program} (hp : p.WellFormed)
    (read : String → Except String String) (name : String) :
    ∃ m, toModule read p name none = .ok m ∧ Lowers p m := by
  obtain ⟨scope', b', hlowers, hexec, -⟩ := Gen.exec_program read name hp
  refine ⟨b'.module, ?_, hlowers⟩
  rw [toModule, generate_eq, hexec]

/-- **Only the link can fail** when a well-formed program is lowered and a file is linked. -/
theorem eq_link_of_toModule_eq_error {p : Program} (hp : p.WellFormed)
    {read : String → Except String String} {name path : String} {e : Error Refusal}
    (h : toModule read p name (some path) = .error e) : ∃ cause, e = .link path (.link cause) := by
  obtain ⟨scope', b', -, -, hexec⟩ := Gen.exec_program read name hp
  rw [toModule, generate_eq] at h
  rcases hlink : b'.module.linkText path (read path) with ⟨cause | u, m⟩
  · rw [(hexec path).trans (Gen.exec_linkFile hlink)] at h
    cases h
    exact ⟨cause, rfl⟩
  · rw [(hexec path).trans (Gen.exec_linkFile hlink)] at h
    cases h

/-! ### The name of the module -/

/-- What every answer of a target keeps, a run keeps. -/
theorem Script.run_invariant {F V S σ ε α : Type} {T : Target F V S σ ε} {P : σ → Prop}
    (hstep : ∀ r s, P s → P (T.handle r s).2) (x : Script F V S ε α) {s : σ} (hs : P s) :
    P (x.run T s).2 := by
  induction x generalizing s with
  | done a => exact hs
  | fail error => exact hs
  | ask r next ih => exact ih _ (hstep r s hs)

namespace ModuleTarget

variable {b b' : Builder}

/-- An instruction does not change the name of the module. -/
theorem name_of_push {i : Instr} (h : b.push i = .ok b') : b'.module.name = b.module.name := by
  unfold Builder.push at h
  split at h
  · cases h
  · cases h
    rfl

/-- A new value does not change the name of the module. -/
theorem name_of_pushValue {base : String} {i : Nat → Instr} {d : Nat}
    (h : b.pushValue base i = .ok (d, b')) : b'.module.name = b.module.name := by
  unfold Builder.pushValue at h
  split at h
  · cases h
  · obtain ⟨f, -, h⟩ := Except.bind_eq_ok_iff.1 h
    cases h
    rfl

/-- A step that keeps the name does so as an answer to a request. -/
theorem name_ofStep {α : Type} {x : Except Builder.Error (α × Builder)}
    (h : ∀ a b', x = .ok (a, b') → b'.module.name = b.module.name) :
    (ofStep b x).2.module.name = b.module.name := by
  rcases x with e | ⟨a, b'⟩
  · rfl
  · exact h a b' rfl

/-- The same where the answer is a value. -/
theorem name_ofStep_asValue {x : Except Builder.Error (Nat × Builder)}
    (h : ∀ d b', x = .ok (d, b') → b'.module.name = b.module.name) :
    (ofStep b (asValue x)).2.module.name = b.module.name := by
  rcases x with e | ⟨d, b'⟩
  · rfl
  · exact h d b' rfl

/-- The same where the answer is empty. -/
theorem name_ofUnitStep {x : Except Builder.Error Builder}
    (h : ∀ b', x = .ok b' → b'.module.name = b.module.name) :
    (ofUnitStep b x).2.module.name = b.module.name := by
  rcases x with e | b'
  · rfl
  · exact h b' rfl

/-- **No request changes the name of the module.** -/
theorem name_handle (read : String → Except String String) (r : Request Nat Operand Nat)
    (b : Builder) : (handle read r b).2.module.name = b.module.name := by
  cases r with
  | getFunction name => rfl
  | param f index => rfl
  | constInt n => rfl
  | declareFunction name params =>
    refine name_ofStep fun i b' h => ?_
    unfold Builder.addFunction at h
    split at h
    · cases h
    · cases h
      rfl
  | appendEntryBlock f =>
    cases h : b.appendBlock f entryLabel with
    | error e => simp only [handle, h, Except.toOption, Option.getD_none]
    | ok b' =>
      obtain ⟨f, -, heq⟩ := Except.bind_eq_ok_iff.1 h
      cases heq
      simp only [handle, h, Except.toOption, Option.getD_some]
      rfl
  | alloca name => exact name_ofStep fun _ _ => name_of_pushValue
  | load slot name => exact name_ofStep_asValue fun _ _ => name_of_pushValue
  | binary op lhs rhs => exact name_ofStep_asValue fun _ _ => name_of_pushValue
  | call f args =>
    refine name_ofStep_asValue fun d b' h => ?_
    obtain ⟨callee, -, h⟩ := Except.bind_eq_ok_iff.1 h
    exact name_of_pushValue h
  | store value slot => exact name_ofUnitStep fun _ => name_of_push
  | ret value => exact name_ofUnitStep fun _ => name_of_push
  | linkFile path =>
    show (b.module.linkText path (read path)).2.name = b.module.name
    unfold IR.Module.linkText
    split
    · rfl
    · split <;> rfl

end ModuleTarget

/-- **A module has the name that was asked for.** -/
theorem name_of_toModule {read : String → Except String String} {p : Program} {name : String}
    {link : Option String} {m : IR.Module} (h : toModule read p name link = .ok m) :
    m.name = name := by
  have hname : (generate (moduleTarget read) .empty p link (.empty name)).2.module.name = name :=
    Script.run_invariant (P := fun b : Builder => b.module.name = name)
      (fun r b hb => (ModuleTarget.name_handle read r b).trans hb) _ rfl
  rw [toModule] at h
  split at h
  · rename_i b hb
    cases h
    rw [hb] at hname
    exact hname
  · cases h

end Lowering
end Straightline
