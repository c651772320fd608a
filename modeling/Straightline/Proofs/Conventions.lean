/-
# Names of the files of a compilation

The output and the file beside it have the extension of module texts and names of their own.  The second
one is in the directory of the first, with `.raw` before the extension.  If no output is given, it is in the
directory of the source, with the same stem.  `Paths.Conventional` collects these conventions.

They hold but for one stem (`Paths.conventions_of_resolve`).  An extension is taken off the end of a path
before the new one is set.  If only a dot stands before it, then two dots are left, which are no file name, and
so nothing is set (`Paths.DotStem`).  The source is not overwritten even then: neither file has its name.
-/

import Straightline.Proofs.Paths

namespace Straightline

namespace Path

/-- What is idle consists of slashes and dots. -/
theorem Idle.mem {s : List Char} (hs : Idle s) {c : Char} (hc : c ∈ s) : c = '/' ∨ c = '.' := by
  induction hs with
  | nil => cases hc
  | slash _ ih =>
    rcases List.mem_cons.1 hc with rfl | hc
    · exact .inl rfl
    · exact ih hc
  | dot _ ih =>
    rcases List.mem_cons.1 hc with rfl | hc
    · exact .inl rfl
    · rcases List.mem_cons.1 hc with rfl | hc
      · exact .inr rfl
      · exact ih hc

/-- Nothing is idle at the end of a path that ends with another character. -/
theorem Idle.eq_nil_of_suffix {s x t : List Char} {c : Char} (hs : Idle s) (hslash : c ≠ '/')
    (hdot : c ≠ '.') (h : t ++ [c] <:+ x ++ s) : s = [] := by
  obtain ⟨u, hu⟩ := h
  rcases List.eq_nil_or_concat s with rfl | ⟨s', d, rfl⟩
  · rfl
  · have hlast : u ++ t ++ [c] = x ++ s' ++ [d] := by simpa using hu
    obtain rfl : c = d := (List.cons.inj (List.append_inj' hlast rfl).2).1
    rcases hs.mem (by rw [List.concat_eq_append]; exact List.mem_concat_self) with hc | hc
    · exact absurd hc hslash
    · exact absurd hc hdot

variable {path : String} {dir stem ext idle : List Char}

/-- The file name of a path with an extension is the stem and the extension. -/
theorem Extended.fileName?_eq (h : Extended path.toList dir stem ext idle) :
    fileName? path = some (String.ofList (stem ++ '.' :: ext)) := by
  rw [fileName?, h.file?_eq]
  rfl

/-- A path to a file of a name with an extension. -/
theorem exists_extended_of_fileName? (h : fileName? path = some (String.ofList (stem ++ '.' :: ext)))
    (hstem : stem ≠ []) (hdot : '.' ∉ ext) : ∃ dir idle, Extended path.toList dir stem ext idle := by
  obtain ⟨⟨dir, name⟩, hfile, hname⟩ := Option.map_eq_some_iff.1 h
  obtain rfl := String.ofList_injective hname
  obtain ⟨hdir, hname, idle, hidle, heq⟩ := file?_eq_some_iff.1 hfile
  exact ⟨dir, idle, hdir, hname, hstem, hdot, hidle, heq⟩

/-- **The extension of a path is that of its file name.** -/
theorem extension?_eq_bind (path : String) :
    extension? path = (fileName? path).bind fun name => (splitName name.toList).2.map String.ofList := by
  rw [extension?, fileName?]
  cases file? path.toList with
  | none => rfl
  | some p => simp

/-- The parent directory has no extension, whatever leads to it. -/
theorem extension?_dots (hdir : Leads dir) (h : path.toList = dir ++ ['.', '.']) : extension? path = none := by
  rw [extension?, h, file?_dots hdir]
  rfl

end Path

namespace Paths

/-- **The conventions for the files of a compilation** of an input, with an output if one is given. -/
structure Conventional (input : String) (output : Option String) (paths : Paths) : Prop where
  input_eq : paths.input = input
  output_ext : Path.extension? paths.output = some "ll"
  raw_ext : Path.extension? paths.raw = some "ll"
  /-- The three files have names of their own. -/
  names : [Path.fileName? input, Path.fileName? paths.output, Path.fileName? paths.raw].Nodup
  /-- The raw module is beside the output. -/
  beside : ∃ dir name, Path.file? paths.output.toList = some (dir, name ++ ".ll".toList) ∧
    Path.file? paths.raw.toList = some (dir, name ++ ".raw.ll".toList)
  /-- If no output is given, it is beside the input. -/
  default : output = none → ∃ dir name, Path.file? input.toList = some (dir, name) ∧
    Path.file? paths.output.toList = some (dir, (Path.splitName name).1 ++ ".ll".toList)

/-- The stem of a file that is to get another extension is a dot.  A path that is given for the output keeps
its stem as long as something idle stands behind the name. -/
def DotStem (input : String) : Option String → Prop
  | none => Path.fileName? input = some "..dc"
  | some path => Path.fileName? path = some "..ll" ∧ "..ll".toList <:+ path.toList

instance (input : String) : (output : Option String) → Decidable (DotStem input output)
  | none => inferInstanceAs (Decidable (_ = _))
  | some _ => inferInstanceAs (Decidable (_ ∧ _))

variable {input : String} {output link : Option String} {paths : Paths}

/-- A stem with the extension of raw modules behind it. -/
theorem extended_rawExt {path dir stem idle : List Char}
    (h : Path.Extended path dir stem moduleExt.toList idle) :
    Path.Extended (dir ++ (stem ++ '.' :: rawExt.toList)) dir (stem ++ ".raw".toList) moduleExt.toList [] := by
  have hraw : stem ++ '.' :: rawExt.toList = stem ++ ".raw".toList ++ '.' :: moduleExt.toList := by
    rw [List.append_assoc]
    rfl
  rw [hraw]
  exact extended_module h.leads (by simp [h.slash_not_mem]) (by simp [h.ne_nil])

/-- The output beside a source. -/
theorem extended_output {dir stem idle : List Char}
    (h : Path.Extended input.toList dir stem sourceExt.toList idle) (hdot : stem = ['.'] → idle ≠ []) :
    Path.Extended (Path.withExtension input moduleExt).toList dir stem moduleExt.toList [] := by
  rw [Path.withExtension_of_ne_dot h hdot]
  exact extended_module h.leads h.slash_not_mem h.ne_nil

/-- The name of the source has another extension than those of the files that are written. -/
theorem fileName?_ne_source {path : String} (hinput : Path.extension? input = some sourceExt)
    (h : Path.extension? path ≠ some sourceExt) : Path.fileName? path ≠ Path.fileName? input := by
  intro heq
  rw [Path.extension?_eq_bind, heq, ← Path.extension?_eq_bind] at h
  exact h hinput

/-- The output does not have the extension of the source. -/
theorem extension?_output_ne (h : resolve input output link = .ok paths) :
    Path.extension? paths.output ≠ some sourceExt := by
  obtain ⟨hinput, houtput, -, -⟩ := resolve_eq_ok h
  rcases extended_of_outputOf hinput houtput with hext | ⟨dir, hdir, hdots⟩
  · rw [Path.extension?_eq_some_iff.2 hext]
    decide
  · rw [Path.extension?_dots hdir hdots]
    decide

/-- The raw module does not have the extension of the source. -/
theorem extension?_raw_ne (h : resolve input output link = .ok paths) :
    Path.extension? paths.raw ≠ some sourceExt := by
  obtain ⟨dir, hdir, ⟨stem, idle, hext, hraw⟩ | hdots⟩ := beside_of_resolve h
  · have hext' := extended_rawExt hext
    rw [← hraw] at hext'
    rw [Path.extension?_eq_some_iff.2 ⟨dir, _, [], hext'⟩]
    decide
  · rw [Path.extension?_dots hdir hdots]
    decide

/-- **The conventions hold for an output whose stem is no dot.** -/
theorem conventional_of_extended {dir stem idle : List Char}
    (hpaths : resolve input output link = .ok paths)
    (h : Path.Extended paths.output.toList dir stem moduleExt.toList idle) (hdot : stem = ['.'] → idle ≠ [])
    (hdefault : output = none → ∃ dir name, Path.file? input.toList = some (dir, name) ∧
      Path.file? paths.output.toList = some (dir, (Path.splitName name).1 ++ ".ll".toList)) :
    paths.Conventional input output := by
  obtain ⟨hinput, -, hraw, heq⟩ := resolve_eq_ok hpaths
  have hext := extended_rawExt h
  rw [← Path.withExtension_of_ne_dot h hdot, ← hraw] at hext
  have houtputExt : Path.extension? paths.output = some moduleExt :=
    Path.extension?_eq_some_iff.2 ⟨dir, stem, idle, h⟩
  have hrawExt : Path.extension? paths.raw = some moduleExt :=
    Path.extension?_eq_some_iff.2 ⟨dir, _, [], hext⟩
  have hbeside : Path.file? paths.raw.toList = some (dir, stem ++ ".raw.ll".toList) := by
    rw [hext.file?_eq, List.append_assoc]
    rfl
  refine ⟨heq, houtputExt, hrawExt, ?_, ⟨dir, stem, h.file?_eq, hbeside⟩, hdefault⟩
  have houtput := fileName?_ne_source hinput (extension?_output_ne hpaths)
  have hrawName := fileName?_ne_source hinput (extension?_raw_ne hpaths)
  have hne : Path.fileName? paths.output ≠ Path.fileName? paths.raw := by
    rw [h.fileName?_eq, hext.fileName?_eq]
    intro hnames
    have hlists := String.ofList_injective (Option.some.inj hnames)
    rw [List.append_assoc] at hlists
    exact absurd (List.append_cancel_left hlists) (by decide)
  simp [houtput.symm, hrawName.symm, hne]

/-- The conventions hold wherever the stem is not a dot. -/
theorem conventional_of_not_dotStem (hpaths : resolve input output link = .ok paths)
    (h : ¬ DotStem input output) : paths.Conventional input output := by
  obtain ⟨hinput, houtput, -, -⟩ := resolve_eq_ok hpaths
  cases output with
  | some path =>
    obtain ⟨rfl, hext⟩ := outputOf_some_eq_ok houtput
    obtain ⟨dir, stem, idle, hext⟩ := Path.extension?_eq_some_iff.1 hext
    refine conventional_of_extended hpaths hext ?_ fun hnone => by cases hnone
    rintro rfl rfl
    exact h ⟨hext.fileName?_eq, dir, by rw [hext.eq, List.append_nil]; rfl⟩
  | none =>
    obtain ⟨dir, stem, idle, hext⟩ := Path.extension?_eq_some_iff.1 hinput
    have hdot : stem ≠ ['.'] := by
      rintro rfl
      exact h hext.fileName?_eq
    have hbeside := extended_output hext fun heq => absurd heq hdot
    rw [Except.ok.inj houtput] at hbeside
    refine conventional_of_extended hpaths hbeside (fun heq => absurd heq hdot) fun _ => ?_
    exact ⟨dir, _, hext.file?_eq, by rw [hbeside.file?_eq, hext.splitName_eq]; rfl⟩

/-- If the stem is a dot, the raw module or the output is left without a name. -/
theorem not_conventional_of_dotStem (hpaths : resolve input output link = .ok paths)
    (h : DotStem input output) : ¬ paths.Conventional input output := by
  intro hconv
  obtain ⟨-, houtput, hraw, -⟩ := resolve_eq_ok hpaths
  have hdots : ∀ {dir}, ¬ Path.Extended paths.output.toList dir ['.'] moduleExt.toList [] := by
    intro dir hext
    have hnone := Path.extension?_dots hext.leads (Path.withExtension_of_dot hext rawExt)
    rw [← hraw, hconv.raw_ext] at hnone
    cases hnone
  cases output with
  | some path =>
    obtain ⟨rfl, -⟩ := outputOf_some_eq_ok houtput
    obtain ⟨hname, hsuffix⟩ := h
    obtain ⟨dir, idle, hext⟩ :=
      @Path.exists_extended_of_fileName? paths.output ['.'] moduleExt.toList hname (by decide) (by decide)
    rw [hext.eq] at hsuffix
    obtain rfl : idle = [] :=
      hext.isIdle.eq_nil_of_suffix (t := "..l".toList) (c := 'l') (by decide) (by decide) hsuffix
    exact hdots hext
  | none =>
    obtain ⟨dir, idle, hext⟩ :=
      @Path.exists_extended_of_fileName? input ['.'] sourceExt.toList h (by decide) (by decide)
    have heq := Except.ok.inj houtput
    by_cases hidle : idle = []
    · subst hidle
      have hnone := Path.extension?_dots hext.leads (Path.withExtension_of_dot hext moduleExt)
      rw [heq, hconv.output_ext] at hnone
      cases hnone
    · -- the output keeps the dot, and nothing is idle behind its name
      have hbeside := extended_output hext fun _ => hidle
      rw [heq] at hbeside
      exact hdots hbeside

/-- **The conventions for the files of a compilation hold exactly if no stem is a dot,** and the source is never
overwritten: its name is neither that of the output nor that of the raw module. -/
theorem conventions_of_resolve (h : resolve input output link = .ok paths) :
    (paths.Conventional input output ↔ ¬ DotStem input output) ∧
      Path.fileName? paths.output ≠ Path.fileName? input ∧
      Path.fileName? paths.raw ≠ Path.fileName? input := by
  have hinput := (resolve_eq_ok h).1
  refine ⟨⟨fun hconv hdot => ?_, conventional_of_not_dotStem h⟩, ?_, ?_⟩
  · exact not_conventional_of_dotStem h hdot hconv
  · exact fileName?_ne_source hinput (extension?_output_ne h)
  · exact fileName?_ne_source hinput (extension?_raw_ne h)

/-- A hidden file with two dots in its name, behind two dots and before a slash and a dot. -/
theorem conventions_of_hidden :
    resolve "a/../.b.c.dc/." none (some "l.ll") =
        .ok ⟨"a/../.b.c.dc/.", "a/../.b.c.ll", "a/../.b.c.raw.ll", some "l.ll", ".b.c.dc"⟩ ∧
      ¬ DotStem "a/../.b.c.dc/." none ∧
      Conventional "a/../.b.c.dc/." none
        ⟨"a/../.b.c.dc/.", "a/../.b.c.ll", "a/../.b.c.raw.ll", some "l.ll", ".b.c.dc"⟩ :=
  ⟨rfl, by decide, (@conventions_of_resolve _ _ (some "l.ll") _ rfl).1.2 (by decide)⟩

/-- The conventions do not hold for a source whose stem is a dot: the output and the raw module are to be
written to a directory. -/
theorem not_conventional_dot :
    resolve "..dc" none none = .ok ⟨"..dc", "..", "..", none, "..dc"⟩ ∧
      ¬ Conventional "..dc" none ⟨"..dc", "..", "..", none, "..dc"⟩ :=
  ⟨rfl, fun h => absurd h.output_ext (by decide)⟩

end Paths
end Straightline
