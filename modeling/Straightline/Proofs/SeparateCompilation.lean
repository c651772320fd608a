/-
# Programs that are compiled in parts

Two programs are compatible if no name is defined in both, and a name that both know takes as many
arguments in both (`Program.Compatible`).  Each can then be compiled without the other: the module of
the second one goes through a text, is read back, and is linked into the module of the first.

All that linking needs of a module is that it is a valid one, with the names, arities and definitions
of its program (`Compiled`).  Lowering gives such a module; replacing slots, folding constants and
reading a text back keep it one (`Compiled.promote`, `Compiled.fold`, `Compiled.reread`).  Such modules
of compatible programs fit together (`Compiled.fits`), and what they are linked to realizes the union
of the programs (`Realizes.linked`), wherever the calls between them go.
-/

import Mathlib
import Straightline.Proofs.Compilation
import Straightline.Proofs.Linking
import Straightline.Proofs.Spelling

namespace Straightline

namespace Source.Program

/-- The program of all that two programs declare and define. -/
def union (a b : Program) : Program :=
  ⟨a.prototypes ++ b.prototypes, a.functions ++ b.functions⟩

/-- Two programs of which none defines what the other does, and that agree on how many arguments the
names take that both know. -/
structure Compatible (a b : Program) : Prop where
  apart : ∀ f ∈ a.functions, ∀ g ∈ b.functions, f.name ≠ g.name
  arity : ∀ name k k', a.arity? name = some k → b.arity? name = some k' → k = k'

/-- A function of two programs is one of the first, or else of the second. -/
theorem function?_union (a b : Program) (name : String) :
    (a.union b).function? name = (a.function? name).or (b.function? name) :=
  List.find?_append

end Source.Program

namespace Lowering

open Source (Program)

/-! ### Modules of programs -/

/-- A valid module that has the names, arities and definitions of a program. -/
structure Compiled (p : Program) (m : IR.Module) : Prop where
  valid : m.Valid
  arity : ∀ name, (m.function? name).map IR.Function.arity = p.arity? name
  realizes : Realizes m p

/-- A module that is lowered from a well-formed program is compiled from it. -/
theorem Lowers.compiled {p : Program} {m : IR.Module} (h : Lowers p m) (hp : p.WellFormed) :
    Compiled p m := by
  refine ⟨h.valid hp, fun name => ?_, h.realizes hp⟩
  rw [h.function?, map_arity_loweredFunction?]

namespace Compiled

variable {p : Program} {m : IR.Module}

/-- So is what it is promoted to. -/
theorem promote (h : Compiled p m) : Compiled p m.promote := by
  refine ⟨h.valid.promote, fun name => ?_, h.realizes.of_runsLike h.valid.runsLike_promote⟩
  exact (m.map_arity_mapFunctions IR.keepsShape_promote.name IR.keepsShape_promote.arity name).trans
    (h.arity name)

/-- So is what it is folded to. -/
theorem fold (h : Compiled p m) : Compiled p m.fold := by
  refine ⟨h.valid.fold, fun name => ?_, h.realizes.of_runsLike h.valid.runsLike_fold⟩
  exact (m.map_arity_mapFunctions IR.keepsShape_fold.name IR.keepsShape_fold.arity name).trans
    (h.arity name)

/-- So is what is read back from its text. -/
theorem reread (h : Compiled p m) (hl : m.Legible) (name : String) : Compiled p (m.reread name) := by
  refine ⟨h.valid.reread name, fun callee => ?_, h.realizes.of_runsLike ?_⟩
  · rw [m.map_arity_reread, h.arity]
  · exact IR.Module.runsLike_reread (hl.closed h.valid) name

/-- A function in the module is one of the program, with as many parameters. -/
theorem arity_of_mem (h : Compiled p m) {g : IR.Function} (hg : g ∈ m.functions) :
    p.arity? g.name = some g.arity := by
  rw [← h.arity, IR.Module.function?, find?_eq_some_of_mem h.valid.names hg, Option.map_some]

/-- A definition in the module is one of the program. -/
theorem exists_function_of_mem (h : Compiled p m) {g : IR.Function} (hg : g ∈ m.functions)
    (hdef : g.isDeclaration = false) : ∃ f ∈ p.functions, f.name = g.name := by
  have hfound : m.definition? g.name = some g := by
    rw [IR.Module.definition?, IR.Module.function?, find?_eq_some_of_mem h.valid.names hg]
    simp [hdef]
  rcases eq_none_or_some_of_rel (h.realizes g.name) with ⟨hnone, -⟩ | ⟨g', f, -, hf, -⟩
  · rw [hfound] at hnone
    cases hnone
  · exact ⟨f, List.mem_of_find?_eq_some hf, by simpa using List.find?_some hf⟩

/-- **The modules of compatible programs fit together.** -/
theorem fits {a b : Program} {d s : IR.Module} (hd : Compiled a d) (hs : Compiled b s)
    (h : a.Compatible b) : d.Fits s := by
  intro old hold new hnew hname
  constructor
  · have harity := hs.arity_of_mem hnew
    rw [← hname] at harity
    exact h.arity _ _ _ (hd.arity_of_mem hold) harity
  · by_contra hboth
    rw [not_or, Bool.not_eq_true, Bool.not_eq_true] at hboth
    obtain ⟨f, hf, hfname⟩ := hd.exists_function_of_mem hold hboth.1
    obtain ⟨g, hg, hgname⟩ := hs.exists_function_of_mem hnew hboth.2
    exact h.apart f hf g hg (by rw [hfname, hgname, hname])

end Compiled

/-- **Linked modules realize the union of their programs.** -/
theorem Realizes.linked {a b : Program} {d s : IR.Module} (hd : Realizes d a) (hs : Realizes s b)
    (h : d.Fits s) (hnames : (s.functions.map IR.Function.name).Nodup) :
    Realizes (d.linked s) (a.union b) := by
  intro name
  rw [h.definition?_linked hnames, Program.function?_union]
  exact rel_or (hd name) (hs name)

/-! ### From two texts to one program -/

/-- **Programs can be compiled in parts.**  Two compatible programs that were read are lowered, and
the second module is prepared.  Its text, with constants folded or not, is read back, and the module
that is read is linked into the module of the first.  The result can be prepared, and it gives for
every call the outcome of the union of the programs, result or error, and the same output. -/
theorem run_linked_of_parse (source₁ source₂ : String) (a b : Program)
    (ha : Source.parse source₁ = .ok a) (hb : Source.parse source₂ = .ok b) (h : a.Compatible b)
    (read : String → Except String String) (name₁ name₂ path : String)
    (hname : '\n' ∉ name₂.toList) :
    ∃ d m s, toModule read a name₁ none = .ok d ∧ toModule read b name₂ none = .ok m ∧
      m.prepare = .ok s ∧ ∀ s', s' = s ∨ s' = s.fold →
        ∃ text s'' r p, s'.text? = some text ∧ IR.Module.read path text = .ok s'' ∧
          d.link s'' = (.ok (), r) ∧ r.prepare = .ok p ∧
            ∀ sink function args, p.run sink function args = (a.union b).run sink function args := by
  have hwell₁ := Source.wellFormed_of_parse ha
  have hwell₂ := Source.wellFormed_of_parse hb
  obtain ⟨d, hd, hlowers₁⟩ := toModule_of_wellFormed hwell₁ read name₁
  obtain ⟨m, hm, hlowers₂⟩ := toModule_of_wellFormed hwell₂ read name₂
  have hcompiled₁ := hlowers₁.compiled hwell₁
  have hcompiled₂ := hlowers₂.compiled hwell₂
  have hlegible : m.Legible := by
    refine hlowers₂.legible hwell₂ (Source.wellSpelled_of_parse hb) ?_
    rwa [name_of_toModule hm]
  refine ⟨d, m, m.promote, hd, hm, hcompiled₂.valid.prepare, fun s' hs' => ?_⟩
  -- promotion and folding keep what linking needs, and keep the text readable
  have hpassed : Compiled b s' ∧ s'.Legible := by
    have hlegible' : m.promote.Legible := IR.keepsShape_promote.legible hlegible
    rcases hs' with rfl | rfl
    · exact ⟨hcompiled₂.promote, hlegible'⟩
    · exact ⟨hcompiled₂.promote.fold, IR.keepsShape_fold.legible hlegible'⟩
  obtain ⟨hs', hl⟩ := hpassed
  have hread := hs'.reread hl path
  have hfits := hcompiled₁.fits hread h
  have hvalid := hcompiled₁.valid.linked hread.valid hfits
  refine ⟨s'.text, s'.reread path, d.linked (s'.reread path), (d.linked (s'.reread path)).promote,
    hs'.valid.text?_eq, ?_, hfits.link hread.valid.names, hvalid.prepare, ?_⟩
  · exact IR.Module.read_text hl.name (hl.readable hs'.valid) hs'.valid.names path
  · intro sink function args
    rw [hvalid.run_promote]
    exact (hcompiled₁.realizes.linked hread.realizes hfits hread.valid.names).run sink function args

/-- The part of a program that calls the other part, and is called back by it. -/
def outer : String :=
  r"int quarter(int n); int twice(int k) { return printnum(k * 2); } " ++
    r"int main(int a) { int x; x = quarter(a + 1); return x - a; }"

/-- The other part of the program. -/
def inner : String :=
  r"int twice(int m); int quarter(int p) { return twice(p) / 8; }"

/-- What is read from `outer`. -/
def outerProgram : Program :=
  ⟨[Program.printnum, ⟨"quarter", ["n"]⟩],
    [⟨⟨"twice", ["k"]⟩, [⟨.parameter, "k"⟩],
        [.ret (.call "printnum" [.binary .multiply (.var "k") (.const 2)])]⟩,
      ⟨⟨"main", ["a"]⟩, [⟨.parameter, "a"⟩, ⟨.local, "x"⟩],
        [.expr (.binary .assign (.var "x") (.call "quarter" [.binary .add (.var "a") (.const 1)])),
          .ret (.binary .subtract (.var "x") (.var "a"))]⟩]⟩

/-- What is read from `inner`. -/
def innerProgram : Program :=
  ⟨[Program.printnum, ⟨"twice", ["m"]⟩],
    [⟨⟨"quarter", ["p"]⟩, [⟨.parameter, "p"⟩],
      [.ret (.binary .divide (.call "twice" [.var "p"]) (.const 8))]⟩]⟩

theorem parse_outer : Source.parse outer = .ok outerProgram := by cbv

theorem parse_inner : Source.parse inner = .ok innerProgram := by cbv

/-- The two programs define different functions, and agree on how many parameters those have that both
name. -/
theorem compatible_outer_inner : outerProgram.Compatible innerProgram := by
  refine ⟨by decide, fun name k k' hk hk' => ?_⟩
  have hnames : name = "printnum" ∨ name = "twice" ∨ name = "quarter" := by
    by_contra hne
    rw [not_or, not_or] at hne
    obtain ⟨hprint, htwice, hquarter⟩ := hne
    simp [innerProgram, Program.arity?, Program.prototype?, Program.function?, Program.printnum,
      Source.Function.name, Ne.symm hprint, Ne.symm htwice, Ne.symm hquarter] at hk'
  rcases hnames with rfl | rfl | rfl
  · exact Option.some.inj (hk.symm.trans hk')
  · exact Option.some.inj (hk.symm.trans hk')
  · exact Option.some.inj (hk.symm.trans hk')

/-- The hypotheses are satisfiable: `outer` and `inner` are compatible, and the folded text of `inner`
is linked into a program in which calls go to the other part and back. -/
theorem run_linked_outer_inner : Source.parse outer = .ok outerProgram ∧
    Source.parse inner = .ok innerProgram ∧ outerProgram.Compatible innerProgram ∧
    ∃ d m s, toModule (fun _ => .error "missing") outerProgram "outer" none = .ok d ∧
      toModule (fun _ => .error "missing") innerProgram "inner" none = .ok m ∧
        m.prepare = .ok s ∧ ∃ text s' r p, s.fold.text? = some text ∧
          IR.Module.read "inner.ll" text = .ok s' ∧ d.link s' = (.ok (), r) ∧ r.prepare = .ok p ∧
            p.run .accepting "main" [7] = (.ok (-5), "16\n") := by
  obtain ⟨d, m, s, hd, hm, hs, hlink⟩ := run_linked_of_parse outer inner outerProgram innerProgram
    parse_outer parse_inner compatible_outer_inner (fun _ => .error "missing") "outer" "inner"
    "inner.ll" (by decide)
  obtain ⟨text, s', r, p, htext, hread, hr, hp, hrun⟩ := hlink s.fold (.inr rfl)
  exact ⟨parse_outer, parse_inner, compatible_outer_inner, d, m, s, hd, hm, hs, text, s', r, p, htext,
    hread, hr, hp, (hrun _ _ _).trans rfl⟩

end Lowering
end Straightline
