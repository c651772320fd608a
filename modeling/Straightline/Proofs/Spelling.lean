/-
# The names of a program are words

A name in a text is a run of letters and underscores and no keyword, and a program that was read has no
other names (`Source.isName_of_parse`), since all its words stand in the text.  Such a name is a word, which
can be told apart in the text of a module (`Source.wellSpelled_of_parse`).

Lowering makes names for values from the names of variables and from a few of its own
(`Code.isWord_of_mem_bases`), with a number where a name is taken.  So the names in the module of a
program are words too, and in each function they differ from each other (`legible_lowered`): its text
can be read back (`Lowers.legible`).  The passes do not touch names (`KeepsShape.legible`).
-/

import Straightline.Proofs.FreshNames
import Straightline.Proofs.Lexing
import Straightline.Proofs.Lowering
import Straightline.Proofs.RoundTrip

namespace Straightline

open Text (IsWord isWordChar)

/-! ### Words of texts -/

namespace Token

/-- Letters are characters of words. -/
theorem isWordChar_of_isLetter {c : Char} (h : isLetter c = true) : isWordChar c = true := by
  rcases Bool.or_eq_true _ _ ▸ h with halpha | hunder
  · simp [isWordChar, Char.isAlphanum, halpha]
  · simp [isWordChar, hunder]

/-- **A name of a text is a word.** -/
theorem IsName.isWord {x : String} (h : IsName x) : IsWord x := by
  refine ⟨h.1, fun c hc => isWordChar_of_isLetter (List.all_eq_true.1 h.2.1 c hc)⟩

end Token

/-! ### Programs -/

namespace Source

open Token (IsName Word)

/-- The name of a prototype is one of its words. -/
theorem Prototype.name_mem_words (q : Prototype) : .name q.name ∈ q.words := by
  simp [Prototype.words]

/-- The parameters of a prototype are among its words. -/
theorem Prototype.param_mem_words {q : Prototype} {x : String} (hx : x ∈ q.params) : .name x ∈ q.words := by
  have hparam : [.mark .int, .name x] ∈ q.params.map fun x => [Word.mark .int, .name x] :=
    List.mem_map_of_mem hx
  have hmem : Word.name x ∈ commas (q.params.map fun x => [.mark .int, .name x]) :=
    mem_commas (by simp) hparam
  simp [Prototype.words, hmem]

/-- The variables of a well-formed function are among its words. -/
theorem Function.WellFormed.var_mem_words {p : Program} {f : Function} (hf : f.WellFormed p) {x : String}
    (hx : x ∈ f.vars) : .name x ∈ f.prototype.words ++ f.bodyWords := by
  obtain ⟨d, hd, rfl⟩ := List.mem_map.1 hx
  cases hkind : d.kind with
  | parameter =>
    exact List.mem_append_left _ (Prototype.param_mem_words ((hf.kind_eq_iff hd).1 hkind))
  | «local» =>
    have hmem : Word.name d.name ∈ f.decls.flatMap Decl.words :=
      List.mem_flatMap.2 ⟨d, hd, by simp [Decl.words, hkind]⟩
    exact List.mem_append_right _ (by simp [Function.bodyWords, hmem])

/-- **The names of a program that was read are names of texts.** -/
theorem isName_of_parse {source : String} {p : Program} (h : parse source = .ok p) :
    ∀ x ∈ p.names, IsName x := by
  obtain ⟨items, hitems, hproper⟩ := proper_of_parse h
  have hname : ∀ item ∈ items, ∀ x, .name x ∈ item.words → IsName x :=
    fun item hitem x hx => hproper item hitem _ hx
  have hwell := wellFormed_of_parse h
  intro x hx
  rcases List.mem_append.1 hx with hx | hx
  · obtain ⟨q, hq, hx⟩ := List.mem_flatMap.1 hx
    rcases hitems.mem_prototypes_iff.1 hq with rfl | hq
    · have hbuiltin : ∀ x ∈ ["printnum", "i"], IsName x := by decide
      exact hbuiltin x hx
    · refine hname _ hq x (List.mem_append_left _ ?_)
      rcases List.mem_cons.1 hx with rfl | hx
      · exact q.name_mem_words
      · exact Prototype.param_mem_words hx
  · obtain ⟨f, hf, hx⟩ := List.mem_flatMap.1 hx
    refine hname _ (hitems.mem_functions_iff.1 hf) x ?_
    rcases List.mem_cons.1 hx with rfl | hx
    · exact List.mem_append_left _ f.prototype.name_mem_words
    · exact (hwell.wellFormed_of_mem hf).var_mem_words hx

/-- A program all of whose names are words. -/
def Program.WellSpelled (p : Program) : Prop :=
  ∀ x ∈ p.names, IsWord x

/-- **The names of a program that was read are words,** since they are names of a text. -/
theorem wellSpelled_of_parse {source : String} {p : Program} (h : parse source = .ok p) :
    p.WellSpelled :=
  fun x hx => (isName_of_parse h x hx).isWord

end Source

/-! ### Names of values -/

/-- A candidate for a fresh name is a word if its base is. -/
theorem Names.isWord_candidate {base : String} (h : IsWord base) (k : Nat) :
    IsWord (candidate base k) := by
  cases k with
  | zero => exact h
  | succ k =>
    refine h.append ⟨by simp [Text.ofNat, Nat.toDigits_ne_nil], fun c hc => ?_⟩
    rw [Text.ofNat, String.toList_ofList] at hc
    have hdigit := Nat.isDigit_of_mem_toDigits (by omega) (by omega) hc
    simp [isWordChar, Char.isAlphanum, hdigit]

/-- A fresh name is a word if its base is. -/
theorem Names.isWord_fresh {base : String} (h : IsWord base) (taken : List String) :
    IsWord (fresh taken base) := by
  obtain ⟨k, -, hfresh, -⟩ := fresh_eq_candidate taken base
  rw [hfresh, stem, if_neg h.1]
  exact isWord_candidate h k

namespace IR

/-- Values never get a name that is taken. -/
theorem Function.nodup_takenNames_addValues {f : Function} (h : f.takenNames.Nodup)
    (bases : List String) : (f.addValues bases).takenNames.Nodup := by
  induction bases generalizing f with
  | nil => exact h
  | cons base bases ih =>
    refine ih ?_
    have hnew := Names.fresh_not_mem f.takenNames base
    have htaken : (f.addValue base).takenNames =
        f.takenNames ++ [Names.fresh f.takenNames base] := by
      simp [takenNames, addValue]
    rw [htaken]
    exact nodup_append_singleton_iff.2 ⟨h, hnew⟩

/-- Values that are named after words are named by words. -/
theorem Function.isWord_addValues {f : Function} {bases : List String}
    (h : ∀ n ∈ f.names, IsWord n) (hbases : ∀ base ∈ bases, IsWord base) :
    ∀ n ∈ (f.addValues bases).names, IsWord n := by
  induction bases generalizing f with
  | nil => exact h
  | cons base bases ih =>
    rw [List.forall_mem_cons] at hbases
    refine ih ?_ hbases.2
    rw [Function.addValue, List.forall_mem_append, List.forall_mem_singleton]
    exact ⟨h, Names.isWord_fresh hbases.1 _⟩

/-- A pass that touches only instructions keeps names legible. -/
theorem KeepsShape.legible {g : Function → Function} (hg : KeepsShape g) {m : Module}
    (hm : m.Legible) : (m.mapFunctions g).Legible := by
  refine ⟨hm.name, ?_, ?_⟩
  · rw [Module.mapFunctions, List.forall_mem_map]
    intro f hf
    rw [hg.name]
    exact hm.functions f hf
  · rw [Module.mapFunctions, List.forall_mem_map]
    intro f hf hdef
    rw [hg.isDeclaration] at hdef
    obtain ⟨hlegible, hparams⟩ := hm.definitions f hf hdef
    have hlabels : ∀ b ∈ (g f).blocks, b.label ∈ f.blocks.map Block.label := by
      intro b hb
      rw [← hg.labels]
      exact List.mem_map_of_mem hb
    refine ⟨⟨?_, ?_, fun b hb => ?_, ?_, ?_⟩, ?_⟩
    · rw [hg.params]
      exact hlegible.params
    · rw [hg.names]
      exact hlegible.values
    · obtain ⟨b', hb', hlabel⟩ := List.mem_map.1 (hlabels b hb)
      rw [← hlabel]
      exact hlegible.labels b' hb'
    · rw [hg.names]
      exact hlegible.names
    · rw [hg.names, hg.params]
      exact hlegible.apart
    · rw [hg.params]
      exact hparams

end IR

namespace Lowering

open Source (Program Expr Stmt)

namespace Code

variable {p : Program} {vars : List String} {n : Nat}

/-- An argument adds only the name for values that are loaded again. -/
theorem isWord_of_mem_bases_argument {c : Code IR.Operand} {e : Expr}
    (h : ∀ base ∈ c.bases, IsWord base) : ∀ base ∈ (argument vars n c e).bases, IsWord base := by
  unfold argument
  split
  · rw [List.forall_mem_append, List.forall_mem_singleton]
    exact ⟨h, by decide⟩
  · exact h

/-- Arguments name values after words if each of them does. -/
theorem isWord_of_mem_bases_exprs {es : List Expr}
    (h : ∀ e ∈ es, ∀ n, ∀ base ∈ (expr vars e n).bases, IsWord base) :
    ∀ base ∈ (exprs vars es n).bases, IsWord base := by
  induction es generalizing n with
  | nil => simp [exprs]
  | cons e es ih =>
    rw [List.forall_mem_cons] at h
    rw [exprs, List.forall_mem_append]
    exact ⟨isWord_of_mem_bases_argument (h.1 n), ih h.2⟩

/-- Expressions name values after variables, operations and calls. -/
theorem isWord_of_mem_bases_expr {e : Expr} (hvars : ∀ x ∈ vars, IsWord x)
    (he : e.Scoped p vars) : ∀ base ∈ (expr vars e n).bases, IsWord base := by
  induction he generalizing n with
  | const k => simp [expr]
  | var hx =>
    rw [expr, List.forall_mem_singleton]
    exact hvars _ hx
  | assign _ _ ih =>
    rw [expr]
    exact ih
  | binary hop _ _ ihl ihr =>
    obtain ⟨op', hop'⟩ := Gen.arith?_eq_some hop
    have hresult : IsWord (ModuleTarget.resultName op') := by
      cases op' <;> decide
    rw [expr_binary hop', List.forall_mem_append, List.forall_mem_append, List.forall_mem_singleton]
    exact ⟨⟨ihl, ihr⟩, hresult⟩
  | call _ _ ih =>
    rw [expr, List.forall_mem_append, List.forall_mem_singleton]
    exact ⟨isWord_of_mem_bases_exprs fun e he n => ih e he, by decide⟩

/-- Statements name values after words. -/
theorem isWord_of_mem_bases_stmts {ss : List Stmt} (hvars : ∀ x ∈ vars, IsWord x)
    (hss : ∀ s ∈ ss, s.value.Scoped p vars) : ∀ base ∈ (stmts vars ss n).bases, IsWord base := by
  induction ss generalizing n with
  | nil => simp [stmts]
  | cons s ss ih =>
    rw [List.forall_mem_cons] at hss
    cases s with
    | ret e => exact isWord_of_mem_bases_expr hvars hss.1
    | expr e =>
      rw [stmts, List.forall_mem_append]
      exact ⟨isWord_of_mem_bases_expr hvars hss.1, ih hss.2⟩

/-- **Values are named after words.** -/
theorem isWord_of_mem_bases {f : Source.Function} (hf : f.WellFormed p)
    (hvars : ∀ x ∈ f.vars, IsWord x) : ∀ base ∈ (body f).bases, IsWord base := by
  rw [body, List.forall_mem_append, bases_decls]
  exact ⟨hvars, isWord_of_mem_bases_stmts hvars hf.stmts⟩

end Code

/-- The name of a parameter is a word if the variable's is. -/
theorem isWord_paramName {x : String} (h : IsWord x) : IsWord (ModuleTarget.paramName x) :=
  h.append (by decide)

/-- Parameters of different names stay different. -/
theorem nodup_map_paramName {xs : List String} (h : xs.Nodup) :
    (xs.map ModuleTarget.paramName).Nodup := by
  refine List.Nodup.map (fun x y hxy => ?_) h
  have hlist := congrArg String.toList hxy
  rw [← String.toList_inj]
  simpa [ModuleTarget.paramName] using hlist

/-- **The names of a lowered function are words that differ from each other.** -/
theorem legible_lowered {p : Program} {f : Source.Function} {params : List String}
    (hf : f.WellFormed p) (hvars : ∀ x ∈ f.vars, IsWord x) (hparams : ∀ x ∈ params, IsWord x)
    (hnodup : params.Nodup) : (lowered params f).Legible ∧ (lowered params f).params.Nodup := by
  have htaken : (lowered params f).takenNames.Nodup := by
    refine IR.Function.nodup_takenNames_addValues ?_ (Code.body f).bases
    simpa [declaration, IR.Function.takenNames, IR.Function.declare] using nodup_map_paramName hnodup
  obtain ⟨hdistinct, hnames, hapart⟩ := List.nodup_append.1 htaken
  have hparams' : (lowered params f).params = params.map ModuleTarget.paramName :=
    IR.Function.params_addValues
  refine ⟨⟨?_, ?_, ?_, hnames, fun n hn hmem => hapart n hmem n hn rfl⟩, hdistinct⟩
  · rw [hparams', List.forall_mem_map]
    exact fun x hx => isWord_paramName (hparams x hx)
  · refine IR.Function.isWord_addValues ?_ (Code.isWord_of_mem_bases hf hvars)
    intro n hn
    cases hn
  · rw [lowered, List.forall_mem_singleton]
    show IsWord ModuleTarget.entryLabel ∧
      ¬ "source_filename".toList <+: ModuleTarget.entryLabel.toList
    decide

/-- A function is lowered with parameters that the program names. -/
theorem mem_names_of_mem_paramsOf {p : Program} (hp : p.WellFormed) {f : Source.Function}
    (hf : f ∈ p.functions) : ∀ x ∈ paramsOf p f, x ∈ p.names := by
  unfold paramsOf
  cases hq : p.prototype? f.name with
  | none =>
    have hvars := (Program.mem_names_of_function hf).2
    exact fun x hx => hvars x ((hp.wellFormed_of_mem hf).mem_vars_of_mem_params hx)
  | some q => exact (Program.mem_names_of_prototype (List.mem_of_find?_eq_some hq)).2

/-- A function is lowered with parameters that differ. -/
theorem nodup_paramsOf {p : Program} (hp : p.WellFormed) {f : Source.Function}
    (hf : f ∈ p.functions) : (paramsOf p f).Nodup := by
  unfold paramsOf
  cases hq : p.prototype? f.name with
  | none => exact (hp.wellFormed_of_mem hf).nodup_params
  | some q => exact hp.params q (List.mem_of_find?_eq_some hq)

/-- **The text of the module of a program can be read back.** -/
theorem Lowers.legible {p : Program} {m : IR.Module} (h : Lowers p m) (hp : p.WellFormed)
    (hspelled : p.WellSpelled) (hname : '\n' ∉ m.name.toList) : m.Legible := by
  refine ⟨hname, fun g hg => ?_, fun g hg hdef => ?_⟩
  · rcases h.eq_of_mem hg with ⟨f, hf, rfl⟩ | ⟨q, hq, rfl⟩
    · rw [name_lowered]
      exact hspelled _ (Program.mem_names_of_function hf).1
    · exact hspelled _ (Program.mem_names_of_prototype hq).1
  · rcases h.eq_of_mem hg with ⟨f, hf, rfl⟩ | ⟨q, hq, rfl⟩
    · have hwell := hp.wellFormed_of_mem hf
      exact legible_lowered hwell (fun x hx => hspelled x ((Program.mem_names_of_function hf).2 x hx))
        (fun x hx => hspelled x (mem_names_of_mem_paramsOf hp hf x hx)) (nodup_paramsOf hp hf)
    · cases hdef

end Lowering
end Straightline
