/-
# Files side by side

A path is what leads to its file name, that name, and idle slashes and dots behind it
(`Path.file?_eq_some_iff`).  Its extension is what stands behind the last dot of the name
(`Path.extension?_eq_some_iff`).  Another extension takes the place of the old one and of what is idle, in
the same directory (`Path.withExtension_of_ne_dot`); only a file whose stem is a dot may have no such path,
for two dots are no file name (`Path.withExtension_of_dot`).

So the two files that a compilation may write have names that share their stem and differ in their
extension, and the same directory leads to both (`Paths.beside_of_resolve`).
-/

import Straightline.Command.Path
import Straightline.Proofs.Basic

namespace Straightline

namespace Text

/-- There is always a first piece. -/
theorem split_ne_nil (sep : Char) (cs : List Char) : split sep cs ≠ [] := by
  cases cs with
  | nil => exact List.cons_ne_nil _ _
  | cons c cs =>
    rw [split]
    split
    · exact List.cons_ne_nil _ _
    · cases split sep cs <;> exact List.cons_ne_nil _ _

/-- The first character goes to the first piece. -/
theorem consHead_append {c : Char} {xs : List (List Char)} (h : xs ≠ []) (ys : List (List Char)) :
    consHead c (xs ++ ys) = consHead c xs ++ ys := by
  cases xs with
  | nil => exact absurd rfl h
  | cons x xs => rfl

/-- **Each separator divides a text into pieces before it and pieces behind it.** -/
theorem split_append_cons (sep : Char) (xs ys : List Char) :
    split sep (xs ++ sep :: ys) = split sep xs ++ split sep ys := by
  induction xs with
  | nil => simp [split]
  | cons c xs ih =>
    rw [List.cons_append, split, split, ih]
    split
    · rfl
    · exact consHead_append (split_ne_nil sep xs) _

end Text

namespace Path

/-! ### The file name -/

/-- A text is what stands before the first of a character, and a rest that starts with it or is empty. -/
theorem exists_span (c : Char) (l : List Char) :
    ∃ x y, l = x ++ y ∧ c ∉ x ∧ (y = [] ∨ ∃ z, y = c :: z) := by
  by_cases h : c ∈ l
  · obtain ⟨x, z, rfl, hx⟩ := List.eq_append_cons_of_mem h
    exact ⟨x, c :: z, rfl, hx, .inr ⟨z, rfl⟩⟩
  · exact ⟨l, [], (List.append_nil l).symm, h, .inl rfl⟩

/-- The first of a character is where a text is cut. -/
theorem span_append {c : Char} {x y : List Char} (hx : c ∉ x) (hy : y = [] ∨ ∃ z, y = c :: z) :
    (x ++ y).takeWhile (· ≠ c) = x ∧ (x ++ y).dropWhile (· ≠ c) = y := by
  induction x with
  | nil => rcases hy with rfl | ⟨z, rfl⟩ <;> simp
  | cons a x ih =>
    rw [List.mem_cons, not_or] at hx
    obtain ⟨htake, hrest⟩ := ih hx.2
    have ha : a ≠ c := Ne.symm hx.1
    rw [List.cons_append, List.takeWhile_cons, List.dropWhile_cons, if_pos (decide_eq_true ha),
      if_pos (decide_eq_true ha), htake, hrest]
    exact ⟨rfl, rfl⟩

/-- Slashes, and dots that are parts of their own. -/
inductive Idle : List Char → Prop
  | nil : Idle []
  | slash {s : List Char} (h : Idle s) : Idle ('/' :: s)
  | dot {s : List Char} (h : Idle s) : Idle ('/' :: '.' :: s)

/-- What may stand before a file name: nothing, or a text that ends with a slash. -/
def Leads (dir : List Char) : Prop :=
  dir = [] ∨ ∃ s, dir = s ++ ['/']

/-- A name of a file: one part, which is no dot and no two dots. -/
structure IsName (name : List Char) : Prop where
  slash : '/' ∉ name
  ne_nil : name ≠ []
  ne_dot : name ≠ ['.']
  ne_dots : name ≠ ['.', '.']

namespace Idle

variable {s t : List Char}

/-- What is idle can be put together. -/
theorem append (hs : Idle s) (ht : Idle t) : Idle (s ++ t) := by
  induction hs with
  | nil => exact ht
  | slash _ ih => exact .slash ih
  | dot _ ih => exact .dot ih

/-- The start of what is idle is idle. -/
theorem take (hs : Idle s) (n : Nat) : Idle (s.take n) := by
  induction hs generalizing n with
  | nil => rw [List.take_nil]; exact .nil
  | slash _ ih =>
    cases n with
    | zero => exact .nil
    | succ n => exact .slash (ih n)
  | dot _ ih =>
    match n with
    | 0 => exact .nil
    | 1 => exact .slash .nil
    | n + 2 => exact .dot (ih n)

/-- What is idle adds parts that say nothing. -/
theorem split (hs : Idle s) : ∃ ps : List (List Char), (∀ p ∈ ps, p = [] ∨ p = ['.']) ∧
    ∀ x, Text.split '/' (x ++ s) = Text.split '/' x ++ ps := by
  induction hs with
  | nil => exact ⟨[], by simp, by simp⟩
  | @slash s _ ih =>
    obtain ⟨ps, hps, hsplit⟩ := ih
    refine ⟨[] :: ps, by simpa using hps, fun x => ?_⟩
    rw [Text.split_append_cons, ← List.nil_append s, hsplit]
    rfl
  | @dot s _ ih =>
    obtain ⟨ps, hps, hsplit⟩ := ih
    refine ⟨['.'] :: ps, by simpa using hps, fun x => ?_⟩
    rw [Text.split_append_cons, ← List.singleton_append, hsplit]
    rfl

/-- What is idle at the end of a path is dropped. -/
theorem dropIdle_append (hs : Idle s) (x : List Char) : dropIdle (s.reverse ++ x) = dropIdle x := by
  induction hs generalizing x with
  | nil => rfl
  | slash _ ih => rw [List.reverse_cons, List.append_assoc, ih]; rfl
  | dot _ ih => rw [List.reverse_cons, List.reverse_cons, List.append_assoc, List.append_assoc, ih]; rfl

end Idle

/-- The last part of a path is a part of its own. -/
theorem Leads.split {dir : List Char} (h : Leads dir) : ∃ ps : List (List Char),
    ∀ name, '/' ∉ name → Text.split '/' (dir ++ name) = ps ++ [name] := by
  rcases h with rfl | ⟨s, rfl⟩
  · exact ⟨[], fun name hname => Text.split_of_not_mem hname⟩
  · refine ⟨Text.split '/' s, fun name hname => ?_⟩
    rw [List.append_assoc, List.singleton_append, Text.split_append_cons, Text.split_of_not_mem hname]

/-- Nothing else is dropped. -/
theorem exists_idle_of_dropIdle (rev : List Char) :
    ∃ s, Idle s ∧ rev = s.reverse ++ dropIdle rev := by
  fun_induction dropIdle rev with
  | case1 cs ih =>
    obtain ⟨s, hs, heq⟩ := ih
    refine ⟨s ++ ['/'], hs.append (.slash .nil), ?_⟩
    rw [List.reverse_append, List.append_assoc, ← heq]
    rfl
  | case2 cs ih =>
    obtain ⟨s, hs, heq⟩ := ih
    refine ⟨s ++ ['/', '.'], hs.append (.dot .nil), ?_⟩
    rw [List.reverse_append, List.append_assoc, ← heq]
    rfl
  | case3 cs => exact ⟨[], .nil, rfl⟩

/-- A path is cut where its last part begins, if that part is no dot; what is idle is left out. -/
theorem cut_append {dir name idle : List Char} (hdir : Leads dir) (hslash : '/' ∉ name) (hnil : name ≠ [])
    (hdot : name ≠ ['.']) (hidle : Idle idle) : cut (dir ++ name ++ idle) = (dir, name) := by
  have hdrop : dropIdle (dir ++ name ++ idle).reverse = name.reverse ++ dir.reverse := by
    rw [List.reverse_append, hidle.dropIdle_append, List.reverse_append]
    cases hrev : name.reverse with
    | nil => exact absurd (List.reverse_eq_nil_iff.1 hrev) hnil
    | cons c cs =>
      obtain rfl : name = (c :: cs).reverse := by rw [← hrev, List.reverse_reverse]
      rw [List.mem_reverse, List.mem_cons, not_or] at hslash
      unfold dropIdle
      split
      · rename_i heq
        exact absurd (List.cons.inj heq).1.symm hslash.1
      · -- a dot before a slash is the whole name
        rename_i cs' heq
        cases cs with
        | nil =>
          obtain rfl : c = '.' := (List.cons.inj heq).1
          exact absurd rfl hdot
        | cons c' cs =>
          obtain rfl : c' = '/' := (List.cons.inj (List.cons.inj heq).2).1
          exact absurd List.mem_cons_self hslash.2
      · rfl
  have hdir' : dir.reverse = [] ∨ ∃ z, dir.reverse = '/' :: z := by
    rcases hdir with rfl | ⟨s, rfl⟩
    · exact .inl rfl
    · exact .inr ⟨s.reverse, by simp⟩
  obtain ⟨htake, hrest⟩ := span_append (c := '/') (x := name.reverse) (by simpa using hslash) hdir'
  simp only [cut, hdrop, htake, hrest, List.reverse_reverse]

/-- **What a path is cut into:** what leads to the last part, that part, and what is idle. -/
theorem cut_spec (path : List Char) : Leads (cut path).1 ∧ '/' ∉ (cut path).2 ∧
    ∃ idle, Idle idle ∧ path = (cut path).1 ++ (cut path).2 ++ idle := by
  obtain ⟨idle, hidle, heq⟩ := exists_idle_of_dropIdle path.reverse
  obtain ⟨x, y, hspan, hx, hy⟩ := exists_span '/' (dropIdle path.reverse)
  obtain ⟨htake, hrest⟩ := span_append hx hy
  have hcut : cut path = (y.reverse, x.reverse) := by simp only [cut, hspan, htake, hrest]
  rw [hcut]
  refine ⟨?_, by simpa using hx, idle, hidle, ?_⟩
  · rcases hy with rfl | ⟨z, rfl⟩
    · exact .inl rfl
    · exact .inr ⟨z.reverse, List.reverse_cons⟩
  · rw [hspan, ← List.reverse_inj, List.reverse_reverse] at heq
    rw [heq]
    simp

/-- **The file name of a path:** what leads to it, the name, and what is idle behind it. -/
theorem file?_eq_some_iff {path dir name : List Char} : file? path = some (dir, name) ↔
    Leads dir ∧ IsName name ∧ ∃ idle, Idle idle ∧ path = dir ++ name ++ idle := by
  constructor
  · intro h
    obtain ⟨hdir, hslash, idle, hidle, heq⟩ := cut_spec path
    have hdef : file? path = if (cut path).2 = [] ∨ (cut path).2 = ['.'] ∨ (cut path).2 = ['.', '.'] then
        none else some ((cut path).1, (cut path).2) := rfl
    rw [hdef] at h
    split at h
    · cases h
    · rename_i hname
      rw [not_or, not_or] at hname
      obtain ⟨rfl, rfl⟩ := Prod.mk.inj (Option.some.inj h)
      exact ⟨hdir, ⟨hslash, hname.1, hname.2.1, hname.2.2⟩, idle, hidle, heq⟩
  · rintro ⟨hdir, hname, idle, hidle, rfl⟩
    rw [file?, cut_append hdir hname.slash hname.ne_nil hname.ne_dot hidle]
    simp [hname.ne_nil, hname.ne_dot, hname.ne_dots]

/-! ### The extension -/

/-- **The extension of a name** is what stands behind its last dot, which is not its first character. -/
theorem splitName_eq_some_iff {name stem ext : List Char} : splitName name = (stem, some ext) ↔
    stem ≠ [] ∧ '.' ∉ ext ∧ name = stem ++ '.' :: ext := by
  constructor
  · intro h
    obtain ⟨x, y, hspan, hx, hy⟩ := exists_span '.' name.reverse
    obtain ⟨htake, hrest⟩ := span_append hx hy
    simp only [splitName, hspan, htake, hrest] at h
    split at h
    · cases h
    · rename_i hstem
      obtain ⟨rfl, hext⟩ := Prod.mk.inj h
      obtain rfl := Option.some.inj hext
      refine ⟨hstem, by simpa using hx, ?_⟩
      rcases hy with rfl | ⟨z, rfl⟩
      · exact absurd rfl hstem
      · rw [← List.reverse_inj, hspan]
        simp
  · rintro ⟨hstem, hext, rfl⟩
    obtain ⟨htake, hrest⟩ := span_append (c := '.') (x := ext.reverse) (y := '.' :: stem.reverse)
      (by simpa using hext) (.inr ⟨_, rfl⟩)
    have hrev : (stem ++ '.' :: ext).reverse = ext.reverse ++ '.' :: stem.reverse := by simp
    simp only [splitName, hrev, htake, hrest, List.tail_cons, List.reverse_reverse, if_neg hstem]

/-- A path to a file with an extension: what leads to it, the stem and the extension of its name, and what
is idle behind it. -/
structure Extended (path dir stem ext idle : List Char) : Prop where
  leads : Leads dir
  isName : IsName (stem ++ '.' :: ext)
  ne_nil : stem ≠ []
  dot : '.' ∉ ext
  isIdle : Idle idle
  eq : path = dir ++ (stem ++ '.' :: ext) ++ idle

/-- A stem is one part of a path. -/
theorem Extended.slash_not_mem {path dir stem ext idle : List Char} (h : Extended path dir stem ext idle) :
    '/' ∉ stem :=
  fun hmem => h.isName.slash (List.mem_append_left _ hmem)

/-- The file name is what stands before the idle end. -/
theorem Extended.file?_eq {path dir stem ext idle : List Char} (h : Extended path dir stem ext idle) :
    file? path = some (dir, stem ++ '.' :: ext) :=
  file?_eq_some_iff.2 ⟨h.leads, h.isName, idle, h.isIdle, h.eq⟩

/-- The file name has the stem and the extension. -/
theorem Extended.splitName_eq {path dir stem ext idle : List Char} (h : Extended path dir stem ext idle) :
    splitName (stem ++ '.' :: ext) = (stem, some ext) :=
  splitName_eq_some_iff.2 ⟨h.ne_nil, h.dot, rfl⟩

/-- **The extension of a path.** -/
theorem extension?_eq_some_iff {path ext : String} : extension? path = some ext ↔
    ∃ dir stem idle, Extended path.toList dir stem ext.toList idle := by
  constructor
  · intro h
    obtain ⟨⟨dir, name⟩, hfile, hext⟩ := Option.bind_eq_some_iff.1 h
    obtain ⟨hdir, hname, idle, hidle, hpath⟩ := file?_eq_some_iff.1 hfile
    obtain ⟨ext', hsplit, rfl⟩ := Option.map_eq_some_iff.1 hext
    obtain ⟨hstem, hdot, heq⟩ :=
      splitName_eq_some_iff.1 (show splitName name = ((splitName name).1, some ext') by rw [← hsplit])
    rw [heq] at hname hpath
    rw [String.toList_ofList]
    exact ⟨dir, _, idle, hdir, hname, hstem, hdot, hidle, hpath⟩
  · rintro ⟨dir, stem, idle, h⟩
    simp [extension?, h.file?_eq, h.splitName_eq]

/-- As much as an end is long can be taken off to leave the rest. -/
theorem take_length_sub {l x y : List Char} {n : Nat} (h : l = x ++ y) (hy : y.length = n) :
    l.take (l.length - n) = x := by
  rw [h]
  exact List.take_left' (by simp [hy])

/-- If as many characters as the extension has are taken off a path, then some of the extension stays, unless
there is nothing idle behind it. -/
theorem Extended.take {path dir stem ext idle : List Char} (h : Extended path dir stem ext idle) :
    ∃ ext' idle', ext' ⊆ ext ∧ Idle idle' ∧ (ext' = [] → ext = [] ∨ idle = []) ∧
      path.take (path.length - ext.length) = dir ++ (stem ++ '.' :: ext') ++ idle' := by
  by_cases hlen : ext.length ≤ idle.length
  · refine ⟨ext, idle.take (idle.length - ext.length), fun _ => id, h.isIdle.take _, .inl, ?_⟩
    refine take_length_sub (y := idle.drop (idle.length - ext.length)) ?_ (by simp; omega)
    rw [List.append_assoc, List.take_append_drop, h.eq]
  · refine ⟨ext.take idle.length, [], List.take_subset _ _, .nil, fun hnil => ?_, ?_⟩
    · rw [List.take_eq_nil_iff, List.length_eq_zero_iff] at hnil
      exact hnil.symm
    · refine take_length_sub (y := ext.drop idle.length ++ idle) ?_ (by simp; omega)
      simp only [h.eq, List.append_nil, List.append_assoc, List.cons_append]
      rw [← List.append_assoc (List.take _ _), List.take_append_drop]

/-- The extension of a file is replaced. -/
theorem toList_setExtension {path dir stem old idle : List Char} (h : Extended path dir stem old idle)
    (ext : String) : (setExtension (String.ofList path) ext).toList = dir ++ (stem ++ '.' :: ext.toList) := by
  simp [setExtension, h.file?_eq, h.splitName_eq]

/-- Two dots are no file name. -/
theorem file?_dots {dir : List Char} (h : Leads dir) : file? (dir ++ ['.', '.']) = none := by
  have hcut := @cut_append dir ['.', '.'] [] h (by decide) (by decide) (by decide) .nil
  rw [List.append_nil] at hcut
  simp [file?, hcut]

/-- To replace the extension is to take off as many characters as it has, and to set the new one. -/
theorem withExtension_eq_setExtension {path old : String} {dir stem idle taken : List Char}
    (h : Extended path.toList dir stem old.toList idle)
    (htake : path.toList.take (path.toList.length - old.toList.length) = taken) (ext : String) :
    withExtension path ext = setExtension (String.ofList taken) ext := by
  rw [withExtension, extension?_eq_some_iff.2 ⟨dir, stem, idle, h⟩, ← htake]
  simp only [String.length_toList]

/-- Two dots have a dot as their stem. -/
theorem eq_dot_of_append_eq_dots {stem ext : List Char} (hstem : stem ≠ [])
    (h : stem ++ '.' :: ext = ['.', '.']) : stem = ['.'] ∧ ext = [] := by
  cases stem with
  | nil => exact absurd rfl hstem
  | cons c stem =>
    obtain ⟨rfl, hrest⟩ := List.cons.inj h
    rcases List.append_eq_singleton_iff.1 hrest with ⟨rfl, hext⟩ | ⟨-, hext⟩
    · exact ⟨rfl, (List.cons.inj hext).2⟩
    · cases hext

/-- If a dot is the stem of a file and nothing is idle behind its name, then two dots are left of it, which
have no extension. -/
theorem withExtension_of_dot {path old : String} {dir : List Char}
    (h : Extended path.toList dir ['.'] old.toList []) (ext : String) :
    (withExtension path ext).toList = dir ++ ['.', '.'] := by
  have htake : path.toList.take (path.toList.length - old.toList.length) = dir ++ ['.', '.'] :=
    take_length_sub (by simp [h.eq]) rfl
  rw [withExtension_eq_setExtension h htake]
  simp [setExtension, file?_dots h.leads]

/-- **A path with another extension** leads to a file in the same directory with the same stem. -/
theorem withExtension_of_ne_dot {path old : String} {dir stem idle : List Char}
    (h : Extended path.toList dir stem old.toList idle) (hdot : stem = ['.'] → idle ≠ []) (ext : String) :
    (withExtension path ext).toList = dir ++ (stem ++ '.' :: ext.toList) := by
  obtain ⟨ext', idle', hsubset, hidle, hnil, htake⟩ := h.take
  rw [withExtension_eq_setExtension h htake]
  have hslash : '/' ∉ stem ++ '.' :: ext' := by
    have hsub : stem ++ '.' :: ext' ⊆ stem ++ '.' :: old.toList :=
      List.append_subset.2 ⟨List.subset_append_left _ _,
        List.Subset.trans (List.cons_subset_cons '.' hsubset) (List.subset_append_right _ _)⟩
    exact fun hmem => h.isName.slash (hsub hmem)
  have hone : stem ++ '.' :: ext' ≠ ['.'] := by
    intro hone
    have hlen := congrArg List.length hone
    have hpos := List.length_pos_iff.2 h.ne_nil
    rw [List.length_append, List.length_cons, List.length_singleton] at hlen
    omega
  have hdots : stem ++ '.' :: ext' ≠ ['.', '.'] := by
    intro hdots
    obtain ⟨rfl, rfl⟩ := eq_dot_of_append_eq_dots h.ne_nil hdots
    rcases hnil rfl with hold | hidle
    · exact h.isName.ne_dots (by rw [hold]; rfl)
    · exact hdot rfl hidle
  exact toList_setExtension ⟨h.leads, ⟨hslash, by simp, hone, hdots⟩, h.ne_nil,
    fun hmem => h.dot (hsubset hmem), hidle, rfl⟩ ext

/-- The new extension stands behind the stem, except where only two dots are left of the name. -/
theorem withExtension_eq {path old : String} {dir stem idle : List Char}
    (h : Extended path.toList dir stem old.toList idle) (ext : String) :
    (withExtension path ext).toList = dir ++ (stem ++ '.' :: ext.toList) ∨
      (withExtension path ext).toList = dir ++ ['.', '.'] := by
  by_cases hdot : stem = ['.'] ∧ idle = []
  · obtain ⟨rfl, rfl⟩ := hdot
    exact .inr (withExtension_of_dot h ext)
  · exact .inl (withExtension_of_ne_dot h (not_and.1 hdot) ext)

end Path

namespace Paths

variable {input : String} {output link : Option String} {paths : Paths}

/-- Where the paths come from. -/
theorem resolve_eq_ok (h : resolve input output link = .ok paths) :
    Path.extension? input = some sourceExt ∧ outputOf input output = .ok paths.output ∧
      paths.raw = Path.withExtension paths.output rawExt ∧ paths.input = input := by
  rw [resolve] at h
  split at h
  · cases h
  · rename_i hinput
    obtain ⟨path, houtput, h⟩ := Except.bind_eq_ok_iff.1 h
    obtain ⟨-, -, h⟩ := Except.bind_eq_ok_iff.1 h
    cases h
    exact ⟨Decidable.not_not.1 hinput, houtput, rfl, rfl⟩

/-- A name with the extension of module texts behind it is the name of a file. -/
theorem extended_module {dir stem : List Char} (hdir : Path.Leads dir) (hslash : '/' ∉ stem)
    (hne : stem ≠ []) :
    Path.Extended (dir ++ (stem ++ '.' :: moduleExt.toList)) dir stem moduleExt.toList [] := by
  refine ⟨hdir, ⟨by simp [hslash, moduleExt], by simp, ?_, ?_⟩, hne, by decide, .nil,
    (List.append_nil _).symm⟩
  all_goals
    intro heq
    have hlen := congrArg List.length heq
    simp [moduleExt] at hlen

/-- An output that was given is taken if it has the extension of module texts. -/
theorem outputOf_some_eq_ok {given path : String} (h : outputOf input (some given) = .ok path) :
    given = path ∧ Path.extension? given = some moduleExt := by
  rw [outputOf] at h
  split at h
  · rename_i hext
    exact ⟨Except.ok.inj h, hext⟩
  · cases h

/-- The output has the extension of module texts, or no file name. -/
theorem extended_of_outputOf {path : String} (hinput : Path.extension? input = some sourceExt)
    (h : outputOf input output = .ok path) :
    (∃ dir stem idle, Path.Extended path.toList dir stem moduleExt.toList idle) ∨
      ∃ dir, Path.Leads dir ∧ path.toList = dir ++ ['.', '.'] := by
  cases output with
  | some given =>
    obtain ⟨rfl, hext⟩ := outputOf_some_eq_ok h
    exact .inl (Path.extension?_eq_some_iff.1 hext)
  | none =>
    cases h
    obtain ⟨dir, stem, idle, hext⟩ := Path.extension?_eq_some_iff.1 hinput
    rcases Path.withExtension_eq hext moduleExt with hpath | hpath
    · refine .inl ⟨dir, stem, [], ?_⟩
      rw [hpath]
      exact extended_module hext.leads hext.slash_not_mem hext.ne_nil
    · exact .inr ⟨dir, hext.leads, hpath⟩

/-- **The two files that may be written stand side by side:** in the same directory, with names that differ
only in the extension.  Else the path to the first one ends with two dots. -/
theorem beside_of_resolve (h : resolve input output link = .ok paths) : ∃ dir, Path.Leads dir ∧
      ((∃ stem idle, Path.Extended paths.output.toList dir stem moduleExt.toList idle ∧
        paths.raw.toList = dir ++ (stem ++ '.' :: rawExt.toList)) ∨
          paths.raw.toList = dir ++ ['.', '.']) := by
  obtain ⟨hinput, houtput, hraw, -⟩ := resolve_eq_ok h
  rw [hraw]
  rcases extended_of_outputOf hinput houtput with ⟨dir, stem, idle, hext⟩ | ⟨dir, hdir, hdots⟩
  · refine ⟨dir, hext.leads, ?_⟩
    rcases Path.withExtension_eq hext rawExt with hpath | hpath
    · exact .inl ⟨stem, idle, hext, hpath⟩
    · exact .inr hpath
  · refine ⟨dir, hdir, .inr ?_⟩
    simp [Path.withExtension, Path.extension?, Path.setExtension, hdots, Path.file?_dots hdir]

end Paths
end Straightline
