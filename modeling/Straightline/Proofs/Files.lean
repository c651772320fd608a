/-
# What writing changes

Writing succeeds exactly where a file can be created, and puts the text there (`Disk.write_eq_ok_iff`, with
`Disk.Creates`).  It makes no directory and removes none (`sameDirectories_of_writeAll`), and paths are
followed through directories only.  So on two disks with the same directories every path leads to the same
place, and the same files can be created (`SameDirectories.walk_eq_ok_iff`, `SameDirectories.creates_iff`).

After several texts were written, a place that none of them went to is as before (`node?_of_not_written`),
and a place that only one text went to has that text (`node?_of_written`).  The two files that a compilation
may write are never at one place (`Paths.locate_ne`).
-/

import Straightline.Command.Disk
import Straightline.Proofs.Paths

namespace Straightline
namespace Disk

variable {d d' : Disk} {path text : String} {place q : List String}

/-- The place that a path leads to. -/
def locate (d : Disk) (path : String) : Except Error (List String) :=
  d.walk (origin path) (parts path)

/-- What is at the place that a path leads to. -/
def at? (d : Disk) (path : String) : Option Node :=
  (d.locate path).toOption.bind d.node?

/-- A file can be created at a place: the path, which is not too long, leads through directories to one of
them, and its last part is a name that fits and is not the name of a directory there. -/
inductive Creates (d : Disk) (path : String) : List String → Prop
  | intro {dir base : List String} {name : String} (short : path.utf8ByteSize ≤ maxPath)
    (parts : Disk.parts path = dir ++ [name]) (walk : d.walk (origin path) dir = .ok base)
    (directory : d.node? base = some .directory) (isName : name ≠ "" ∧ name ≠ "." ∧ name ≠ "..")
    (fits : name.utf8ByteSize ≤ maxName) (free : d.node? (base ++ [name]) ≠ some .directory) :
    Creates d path (base ++ [name])

/-- A file can be created at the end of a path. -/
def Creatable (d : Disk) (path : String) : Prop :=
  ∃ place, d.Creates path place

/-- Writes texts in order, each at its path. -/
def writeAll (d : Disk) : List (String × String) → Except Error Disk
  | [] => .ok d
  | (path, text) :: fs => do
    let d ← d.write path text
    d.writeAll fs

/-- Two disks have the same directories. -/
def SameDirectories (d d' : Disk) : Prop :=
  ∀ q, d'.node? q = some .directory ↔ d.node? q = some .directory

/-! ### Following a path -/

/-- Only a directory passes the check. -/
theorem checkDirectory_eq_ok_iff : d.checkDirectory q = .ok () ↔ d.node? q = some .directory := by
  rw [checkDirectory]
  split <;> simp_all

/-- Only a path within the limit passes the check. -/
theorem checkPath_eq_ok_iff : checkPath path = .ok () ↔ path.utf8ByteSize ≤ maxPath := by
  rw [checkPath]
  split <;> simp_all

/-- A name leads one step down, if it is within the limit. -/
theorem step_eq_ok_iff {name : String} (h : name ≠ "" ∧ name ≠ "." ∧ name ≠ "..") :
    step place name = .ok q ↔ name.utf8ByteSize ≤ maxName ∧ q = place ++ [name] := by
  rw [step, if_neg (by simp [h]), if_neg h.2.2]
  by_cases hfits : name.utf8ByteSize ≤ maxName
  · simp [hfits, eq_comm]
  · simp [hfits]

/-- A walk goes on from a directory, one part at a time. -/
theorem walk_cons_eq_ok_iff {part : String} {rest : List String} :
    d.walk place (part :: rest) = .ok q ↔ d.node? place = some .directory ∧
      ∃ place', step place part = .ok place' ∧ d.walk place' rest = .ok q := by
  rw [walk, Except.bind_eq_ok_iff]
  constructor
  · rintro ⟨⟨⟩, hcheck, h⟩
    exact ⟨checkDirectory_eq_ok_iff.1 hcheck, Except.bind_eq_ok_iff.1 h⟩
  · rintro ⟨hdir, h⟩
    exact ⟨(), checkDirectory_eq_ok_iff.2 hdir, Except.bind_eq_ok_iff.2 h⟩

/-- A walk along two pieces of a path is one walk after the other. -/
theorem walk_append_eq_ok_iff {xs ys : List String} :
    d.walk place (xs ++ ys) = .ok q ↔ ∃ p, d.walk place xs = .ok p ∧ d.walk p ys = .ok q := by
  induction xs generalizing place with
  | nil => simp [walk]
  | cons x xs ih =>
    simp only [List.cons_append, walk_cons_eq_ok_iff, ih]
    constructor
    · rintro ⟨hdir, p, hstep, p', hwalk, hrest⟩
      exact ⟨p', ⟨hdir, p, hstep, hwalk⟩, hrest⟩
    · rintro ⟨p', ⟨hdir, p, hstep, hwalk⟩, hrest⟩
      exact ⟨hdir, p, hstep, p', hwalk, hrest⟩

/-- Parts that say nothing lead nowhere else. -/
theorem eq_of_walk_idle {ps : List String} (hps : ∀ p ∈ ps, p = "" ∨ p = ".")
    (h : d.walk place ps = .ok q) : q = place := by
  induction ps with
  | nil => exact (Except.ok.inj h).symm
  | cons p ps ih =>
    obtain ⟨-, place', hstep, hwalk⟩ := walk_cons_eq_ok_iff.1 h
    rw [step, if_pos (hps p List.mem_cons_self)] at hstep
    obtain rfl := Except.ok.inj hstep
    exact ih (fun p hp => hps p (List.mem_cons_of_mem _ hp)) hwalk

/-- A path leads to the file that can be created. -/
theorem Creates.locate (h : d.Creates path place) : d.locate path = .ok place := by
  cases h with
  | intro _ hparts hwalk hdir hname hfits =>
    rw [Disk.locate, hparts]
    refine walk_append_eq_ok_iff.2 ⟨_, hwalk, walk_cons_eq_ok_iff.2 ⟨hdir, _, ?_, rfl⟩⟩
    exact (step_eq_ok_iff hname).2 ⟨hfits, rfl⟩

/-- A file is not created where a directory is. -/
theorem Creates.ne_directory (h : d.Creates path place) : d.node? place ≠ some .directory := by
  cases h with
  | intro _ _ _ _ _ _ hfree => exact hfree

/-! ### Writing -/

/-- If a list is as long as what is left of it without some of its last members, then all are left. -/
theorem reverse_dropWhile_reverse_of_length {α : Type} {p : α → Bool} {xs : List α}
    (h : xs.length ≤ (xs.reverse.dropWhile p).reverse.length) : (xs.reverse.dropWhile p).reverse = xs := by
  have hsuffix : xs.reverse.dropWhile p <:+ xs.reverse := List.dropWhile_suffix _
  rw [hsuffix.eq_of_length_le (by simpa using h), List.reverse_reverse]

/-- **Writing succeeds exactly where a file can be created,** and puts the text there. -/
theorem write_eq_ok_iff : d.write path text = .ok d' ↔
    ∃ place, d.Creates path place ∧ d' = d.put place (.file (.text text)) := by
  rw [write]
  constructor
  · intro h
    obtain ⟨⟨⟩, hshort, h⟩ := Except.bind_eq_ok_iff.1 h
    obtain ⟨base, hwalk, h⟩ := Except.bind_eq_ok_iff.1 h
    obtain ⟨⟨⟩, hdir, h⟩ := Except.bind_eq_ok_iff.1 h
    split at h
    · cases h
    · rename_i hlast
      rw [not_or, Nat.not_lt] at hlast
      obtain ⟨hlen, hname⟩ := hlast
      obtain ⟨place, hstep, h⟩ := Except.bind_eq_ok_iff.1 h
      rw [reverse_dropWhile_reverse_of_length hlen] at hwalk hname hstep
      rcases List.eq_nil_or_concat (parts path) with hparts | ⟨dir, name, hparts⟩
      · simp [hparts] at hname
      rw [List.concat_eq_append] at hparts
      rw [hparts, List.getLast?_concat, Option.getD_some] at hname hstep
      rw [hparts, List.dropLast_concat] at hwalk
      rw [not_or, not_or] at hname
      obtain ⟨hfits, rfl⟩ := (step_eq_ok_iff hname).1 hstep
      split at h
      · cases h
      · rename_i hfree
        cases h
        exact ⟨_, ⟨checkPath_eq_ok_iff.1 hshort, hparts, hwalk, checkDirectory_eq_ok_iff.1 hdir, hname, hfits,
          hfree⟩, rfl⟩
  · rintro ⟨place, ⟨hshort, hparts, hwalk, hdir, hname, hfits, hfree⟩, rfl⟩
    rename_i dir base name
    have htrimmed : ((dir ++ [name]).reverse.dropWhile (· = "")).reverse = dir ++ [name] := by
      simp [hname.1]
    simp only [hparts, htrimmed, List.dropLast_concat, List.getLast?_concat, Option.getD_some]
    refine Except.bind_eq_ok_iff.2 ⟨(), checkPath_eq_ok_iff.2 hshort, ?_⟩
    refine Except.bind_eq_ok_iff.2 ⟨base, hwalk, ?_⟩
    refine Except.bind_eq_ok_iff.2 ⟨(), checkDirectory_eq_ok_iff.2 hdir, ?_⟩
    rw [if_neg (by simp [hname])]
    refine Except.bind_eq_ok_iff.2 ⟨_, (step_eq_ok_iff hname).2 ⟨hfits, rfl⟩, ?_⟩
    split
    · rename_i hnode
      exact absurd hnode hfree
    · rfl

/-- A file can be created exactly if it can be written, whatever the text. -/
theorem creatable_iff (text : String) : d.Creatable path ↔ ∃ d', d.write path text = .ok d' := by
  constructor
  · rintro ⟨place, hplace⟩
    exact ⟨_, write_eq_ok_iff.2 ⟨place, hplace, rfl⟩⟩
  · rintro ⟨d', hwrite⟩
    obtain ⟨place, hplace, -⟩ := write_eq_ok_iff.1 hwrite
    exact ⟨place, hplace⟩

/-- What is put is found where it was put, and nothing else moves. -/
theorem node?_put (h : place ≠ []) (n : Node) (q : List String) :
    (d.put place n).node? q = if q = place then some n else d.node? q := by
  cases q with
  | nil => rw [if_neg (Ne.symm h)]; rfl
  | cons part q =>
    show ((place, n) :: d.entries).lookup (part :: q) = _
    rw [List.lookup_cons]
    by_cases hq : part :: q = place
    · simp [hq]
    · rw [if_neg hq, beq_false_of_ne hq]
      rfl

/-- The root is a directory. -/
theorem ne_nil_of_ne_directory (h : d.node? place ≠ some .directory) : place ≠ [] := by
  rintro rfl
  exact h rfl

/-- **A file that is put where no directory is changes no directory.** -/
theorem sameDirectories_put (h : d.node? place ≠ some .directory) (c : Content) :
    SameDirectories d (d.put place (.file c)) := by
  intro q
  rw [node?_put (ne_nil_of_ne_directory h)]
  split
  · rename_i heq
    simp [heq, h]
  · rfl

namespace SameDirectories

theorem refl (d : Disk) : SameDirectories d d :=
  fun _ => Iff.rfl

theorem trans {d'' : Disk} (h : SameDirectories d d') (h' : SameDirectories d' d'') :
    SameDirectories d d'' :=
  fun q => (h' q).trans (h q)

/-- Walks go through directories only, so the same walks succeed. -/
theorem walk_eq_ok_iff (h : SameDirectories d d') {ps : List String} :
    d'.walk place ps = .ok q ↔ d.walk place ps = .ok q := by
  induction ps generalizing place with
  | nil => rfl
  | cons p ps ih => simp only [walk_cons_eq_ok_iff, h place, ih]

/-- **With the same directories, the same files can be created.** -/
theorem creates_iff (h : SameDirectories d d') : d'.Creates path place ↔ d.Creates path place := by
  constructor
  · rintro ⟨hshort, hparts, hwalk, hdir, hname, hfits, hfree⟩
    exact ⟨hshort, hparts, h.walk_eq_ok_iff.1 hwalk, (h _).1 hdir, hname, hfits, fun hd => hfree ((h _).2 hd)⟩
  · rintro ⟨hshort, hparts, hwalk, hdir, hname, hfits, hfree⟩
    exact ⟨hshort, hparts, h.walk_eq_ok_iff.2 hwalk, (h _).2 hdir, hname, hfits, fun hd => hfree ((h _).1 hd)⟩

/-- What a path leads to is found on every disk with the same directories. -/
theorem at?_of_locate (h : SameDirectories d d') (hq : d.locate path = .ok q) :
    d'.at? path = d'.node? q := by
  have hlocate : d'.locate path = .ok q := h.walk_eq_ok_iff.2 hq
  rw [at?, hlocate]
  rfl

/-- What is at a path is the same if it is so at the place that the path leads to. -/
theorem at?_eq (h : SameDirectories d d')
    (hplace : ∀ q, d.locate path = .ok q → d'.node? q = d.node? q) : d'.at? path = d.at? path := by
  cases hlocate : d.locate path with
  | ok q => rw [h.at?_of_locate hlocate, hplace q hlocate, (refl d).at?_of_locate hlocate]
  | error e =>
    rw [at?, at?, hlocate]
    cases hlocate' : d'.locate path with
    | ok q =>
      have hok : d.locate path = .ok q := h.walk_eq_ok_iff.1 hlocate'
      rw [hlocate] at hok
      cases hok
    | error e' => rfl

end SameDirectories

/-! ### Writing several texts -/

variable {fs : List (String × String)}

/-- Texts are written one after the other, each on the disk that the last one left. -/
theorem writeAll_cons_eq_ok_iff : d.writeAll ((path, text) :: fs) = .ok d' ↔
    ∃ place, d.Creates path place ∧ (d.put place (.file (.text text))).writeAll fs = .ok d' := by
  rw [writeAll, Except.bind_eq_ok_iff]
  constructor
  · rintro ⟨d₁, hwrite, h⟩
    obtain ⟨place, hplace, rfl⟩ := write_eq_ok_iff.1 hwrite
    exact ⟨place, hplace, h⟩
  · rintro ⟨place, hplace, h⟩
    exact ⟨_, write_eq_ok_iff.2 ⟨place, hplace, rfl⟩, h⟩

/-- **Writing makes no directory and removes none.** -/
theorem sameDirectories_of_writeAll (h : d.writeAll fs = .ok d') : SameDirectories d d' := by
  induction fs generalizing d with
  | nil =>
    obtain rfl := Except.ok.inj h
    exact .refl d
  | cons f fs ih =>
    obtain ⟨place, hplace, h⟩ := writeAll_cons_eq_ok_iff.1 h
    exact (sameDirectories_put hplace.ne_directory _).trans (ih h)

/-- **A place that nothing was written to is as before.** -/
theorem node?_of_not_written (h : d.writeAll fs = .ok d') (hq : ∀ f ∈ fs, ¬d.Creates f.1 q) :
    d'.node? q = d.node? q := by
  induction fs generalizing d with
  | nil =>
    obtain rfl := Except.ok.inj h
    rfl
  | cons f fs ih =>
    obtain ⟨place, hplace, h⟩ := writeAll_cons_eq_ok_iff.1 h
    have hsame := sameDirectories_put hplace.ne_directory (.text f.2)
    have hne : q ≠ place := by
      rintro rfl
      exact hq f List.mem_cons_self hplace
    have hrest := ih h fun f hf hcreates => hq f (List.mem_cons_of_mem _ hf) (hsame.creates_iff.1 hcreates)
    rw [hrest, node?_put (ne_nil_of_ne_directory hplace.ne_directory), if_neg hne]

/-- **A place that only one text was written to has it.** -/
theorem node?_of_written (h : d.writeAll fs = .ok d') (hmem : (path, text) ∈ fs) (hq : d.Creates path q)
    (honly : ∀ f ∈ fs, d.Creates f.1 q → f.2 = text) : d'.node? q = some (.file (.text text)) := by
  induction fs generalizing d path with
  | nil => cases hmem
  | cons f fs ih =>
    obtain ⟨place, hplace, h⟩ := writeAll_cons_eq_ok_iff.1 h
    have hsame := sameDirectories_put hplace.ne_directory (.text f.2)
    have honly' : ∀ g ∈ fs, (d.put place (.file (.text f.2))).Creates g.1 q → g.2 = text :=
      fun g hg hcreates => honly g (List.mem_cons_of_mem _ hg) (hsame.creates_iff.1 hcreates)
    -- a later text at this place is the same one, and without any the first one stays
    by_cases hlater : ∃ g ∈ fs, d.Creates g.1 q
    · obtain ⟨g, hg, hcreates⟩ := hlater
      obtain rfl := honly g (List.mem_cons_of_mem _ hg) hcreates
      exact ih h hg (hsame.creates_iff.2 hcreates) honly'
    · have hfirst : f = (path, text) := by
        rcases List.mem_cons.1 hmem with heq | htail
        · exact heq.symm
        · exact absurd ⟨_, htail, hq⟩ hlater
      subst hfirst
      obtain rfl := Except.ok.inj (hplace.locate.symm.trans hq.locate)
      have hrest := node?_of_not_written h fun g hg hcreates =>
        hlater ⟨g, hg, hsame.creates_iff.1 hcreates⟩
      rw [hrest, node?_put (ne_nil_of_ne_directory hplace.ne_directory), if_pos rfl]

end Disk

namespace Paths

open Disk (parts origin)

variable {input : String} {output link : Option String} {paths : Paths}

/-- Two paths that differ in a relative end start from the same place. -/
theorem origin_eq {path path' : String} {dir x y : List Char} (hx : x.head? ≠ some '/')
    (hy : y.head? ≠ some '/') (h : path.toList = dir ++ x) (h' : path'.toList = dir ++ y) :
    origin path = origin path' := by
  rw [origin, origin, h, h']
  cases dir with
  | nil => rw [List.nil_append, List.nil_append, if_neg hx, if_neg hy]
  | cons c dir => rfl

/-- A name of a path is a name on the disk. -/
theorem isName_ofList {name : List Char} (h : Path.IsName name) :
    String.ofList name ≠ "" ∧ String.ofList name ≠ "." ∧ String.ofList name ≠ ".." := by
  refine ⟨fun heq => h.ne_nil ?_, fun heq => h.ne_dot ?_, fun heq => h.ne_dots ?_⟩
  all_goals rw [← String.toList_ofList (l := name), heq]; rfl

/-- Parts of a path that say nothing say nothing on the disk. -/
theorem isIdle_map {ps : List (List Char)} (h : ∀ p ∈ ps, p = [] ∨ p = ['.']) :
    ∀ p ∈ ps.map String.ofList, p = "" ∨ p = "." := by
  intro p hp
  obtain ⟨x, hx, rfl⟩ := List.mem_map.1 hp
  rcases h x hx with rfl | rfl
  · exact .inl rfl
  · exact .inr rfl

/-- **The output is not where the other file can be created.** -/
theorem locate_ne {d : Disk} {place q : List String} (h : resolve input output link = .ok paths)
    (hraw : d.Creates paths.raw place) (hout : d.locate paths.output = .ok q) : q ≠ place := by
  obtain ⟨dir, hleads, hbeside⟩ := beside_of_resolve h
  obtain ⟨ps, hps⟩ := hleads.split
  obtain ⟨-, hparts, hwalk, -, hname, -, -⟩ := hraw
  rename_i dir' base name
  rcases hbeside with ⟨stem, idle, hext, hpath⟩ | hpath
  · -- both paths lead to the same directory, and then to different names
    obtain ⟨idles, hidles, hsplit⟩ := hext.isIdle.split
    have hslash := hext.slash_not_mem
    have hhead : ∀ x, (stem ++ x).head? ≠ some '/' := by
      intro x hhead
      cases stem with
      | nil => exact hext.ne_nil rfl
      | cons c stem => exact hslash (List.mem_of_head? hhead)
    have horigin : origin paths.output = origin paths.raw := by
      refine origin_eq (hhead ('.' :: moduleExt.toList ++ idle)) (hhead ('.' :: rawExt.toList)) ?_ hpath
      rw [hext.eq, List.append_assoc, List.append_assoc]
    rw [parts, hpath, hps _ (by simp [hslash, rawExt]), List.map_append] at hparts
    obtain ⟨rfl, hraw⟩ := List.append_inj' hparts rfl
    obtain rfl := (List.cons.inj hraw).1
    rw [Disk.locate, horigin, parts, hext.eq, hsplit, hps _ hext.isName.slash, List.map_append,
      List.map_append, List.append_assoc] at hout
    obtain ⟨base', hwalk', hrest⟩ := Disk.walk_append_eq_ok_iff.1 hout
    obtain rfl := Except.ok.inj (hwalk.symm.trans hwalk')
    obtain ⟨-, place, hstep, hidle⟩ := Disk.walk_cons_eq_ok_iff.1 hrest
    obtain rfl := Disk.eq_of_walk_idle (isIdle_map hidles) hidle
    obtain ⟨-, rfl⟩ := (Disk.step_eq_ok_iff (isName_ofList hext.isName)).1 hstep
    intro heq
    have hnames := String.ofList_injective (List.cons.inj (List.append_cancel_left heq)).1
    exact absurd (List.append_cancel_left hnames) (by decide)
  · -- two dots are no name
    rw [parts, hpath, hps _ (by decide), List.map_append] at hparts
    obtain ⟨-, hdots⟩ := List.append_inj' hparts rfl
    exact absurd (List.cons.inj hdots).1.symm hname.2.2

/-- The dump and the output are two files. -/
theorem raw_ne_output {d : Disk} (h : resolve input output link = .ok paths)
    (hraw : d.Creatable paths.raw) : paths.raw ≠ paths.output := by
  intro heq
  obtain ⟨place, hplace⟩ := hraw
  have hlocate := hplace.locate
  rw [heq] at hlocate
  exact locate_ne h hplace hlocate rfl

end Paths
end Straightline
