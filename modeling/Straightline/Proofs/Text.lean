/-
# Texts that are taken apart again

What was put together from words, separators and commas is taken apart into the same words.  A text
is tight if no blank stands at its ends, so that trimming leaves it as it is (`trim_of_isTight`).  An
item of a comma list is tight, not empty and has no comma in it, and a list of items is read back from
its text (`items_intercalate`).  A word stands in front of a separator that it does not contain
(`cutAt?_append`).

Names are words over letters, digits, underscores and dots (`IsWord`); numbers are written with digits
and a minus sign.  Neither contains a blank or a comma, so both are items (`IsWord.isSolid`,
`isSolid_ofInt32`).
-/

import Mathlib.Data.List.Basic
import Straightline.Text.Cut
import Straightline.Text.Decimal

namespace Straightline
namespace Text

/-! ### Trimming -/

/-- A text with no blank at its ends. -/
def IsTight (s : List Char) : Prop :=
  s.head?.all (!isBlank ·) = true ∧ s.getLast?.all (!isBlank ·) = true

instance (s : List Char) : Decidable (IsTight s) :=
  inferInstanceAs (Decidable (_ ∧ _))

/-- There is nothing to drop where no blank comes first. -/
theorem dropWhile_isBlank {s : List Char} (h : s.head?.all (!isBlank ·) = true) :
    s.dropWhile isBlank = s := by
  cases s with
  | nil => rfl
  | cons c s =>
    have hc : ¬ isBlank c = true := by simpa using h
    rw [List.dropWhile_cons_of_neg hc]

/-- There is nothing to trim where no blank comes last. -/
theorem trimEnd_of_last {s : List Char} (h : s.getLast?.all (!isBlank ·) = true) :
    trimEnd s = s := by
  have hhead : s.reverse.head?.all (!isBlank ·) = true := by rwa [List.head?_reverse]
  rw [trimEnd, dropWhile_isBlank hhead, List.reverse_reverse]

/-- **Trimming leaves a tight text as it is.** -/
theorem trim_of_isTight {s : List Char} (h : IsTight s) : trim s = s := by
  rw [trim, trimStart, dropWhile_isBlank h.1, trimEnd_of_last h.2]

/-- A blank in front is trimmed. -/
theorem trim_cons_blank {c : Char} (hc : isBlank c = true) (s : List Char) :
    trim (c :: s) = trim s := by
  rw [trim, trim, trimStart, trimStart, List.dropWhile_cons_of_pos hc]

/-- A blank at the end is trimmed. -/
theorem trimEnd_concat_blank {c : Char} (hc : isBlank c = true) (s : List Char) :
    trimEnd (s ++ [c]) = trimEnd s := by
  rw [trimEnd, trimEnd, List.reverse_append, List.reverse_singleton, List.singleton_append,
    List.dropWhile_cons_of_pos hc]

/-- The ends of a text decide whether it is tight. -/
theorem isTight_append {s t : List Char} (hs : s.head?.all (!isBlank ·) = true) (hsne : s ≠ [])
    (ht : t.getLast?.all (!isBlank ·) = true) (htne : t ≠ []) (mid : List Char) :
    IsTight (s ++ (mid ++ t)) := by
  constructor
  · obtain ⟨c, s, rfl⟩ := List.exists_cons_of_ne_nil hsne
    exact hs
  · have hlast : (s ++ (mid ++ t)).getLast? = t.getLast? := by
      rw [← List.append_assoc, List.getLast?_append_of_ne_nil _ htne]
    rw [hlast]
    exact ht

/-! ### Words without blanks and commas -/

/-- A text that is not empty and has no blank and no comma in it. -/
structure IsSolid (s : List Char) : Prop where
  ne_nil : s ≠ []
  blank : ∀ c ∈ s, isBlank c = false
  comma : ',' ∉ s

instance (s : List Char) : Decidable (IsSolid s) :=
  decidable_of_iff (s ≠ [] ∧ s.all (!isBlank ·) = true ∧ ',' ∉ s)
    ⟨fun ⟨hne, hblank, hcomma⟩ => ⟨hne, by simpa using hblank, hcomma⟩,
      fun h => ⟨h.ne_nil, by simpa using h.blank, h.comma⟩⟩

namespace IsSolid

variable {s t : List Char}

/-- A text without blanks does not start with one. -/
theorem head (hs : IsSolid s) : s.head?.all (!isBlank ·) = true := by
  obtain ⟨c, s, rfl⟩ := List.exists_cons_of_ne_nil hs.ne_nil
  simpa using hs.blank c List.mem_cons_self

/-- A text without blanks does not end with one. -/
theorem last (hs : IsSolid s) : s.getLast?.all (!isBlank ·) = true := by
  cases h : s.getLast? with
  | none => rfl
  | some c => simpa using hs.blank c (List.mem_of_getLast? h)

/-- A text without blanks has nothing to trim. -/
theorem isTight (hs : IsSolid s) : IsTight s :=
  ⟨hs.head, hs.last⟩

/-- Texts without blanks can be put together. -/
theorem append (hs : IsSolid s) (ht : IsSolid t) : IsSolid (s ++ t) := by
  refine ⟨by simp [hs.ne_nil], fun c hc => ?_, ?_⟩
  · rcases List.mem_append.1 hc with hc | hc
    · exact hs.blank c hc
    · exact ht.blank c hc
  · rw [List.mem_append, not_or]
    exact ⟨hs.comma, ht.comma⟩

end IsSolid

/-- **The second of two words.** -/
theorem secondWord?_append {s t : List Char} (hs : IsSolid s) (ht : IsSolid t) :
    secondWord? (s ++ ' ' :: t) = some t := by
  have hfirst : trimStart (s ++ ' ' :: t) = s ++ ' ' :: t := by
    obtain ⟨c, s, rfl⟩ := List.exists_cons_of_ne_nil hs.ne_nil
    exact dropWhile_isBlank hs.head
  have hdrop : (s ++ ' ' :: t).dropWhile (!isBlank ·) = ' ' :: t := by
    rw [List.dropWhile_append_of_pos fun c hc => by simp [hs.blank c hc]]
    rfl
  have hsecond : trimStart (' ' :: t) = t := by
    rw [trimStart, List.dropWhile_cons_of_pos (by decide), dropWhile_isBlank ht.head]
  have htake : t.takeWhile (!isBlank ·) = t := by
    have hall : ∀ c ∈ t, (!isBlank c) = true := fun c hc => by simp [ht.blank c hc]
    have happend : (t ++ []).takeWhile (!isBlank ·) = t ++ [].takeWhile (!isBlank ·) :=
      List.takeWhile_append_of_pos hall
    simpa using happend
  rw [secondWord?, hfirst, hdrop, hsecond, htake]
  exact if_neg ht.ne_nil

/-! ### Lines -/

/-- The text of which the given ones are the lines. -/
def unlines (ls : List String) : String :=
  String.join (ls.map (· ++ "\n"))

/-- Each line is followed by a line end. -/
theorem unlines_cons (l : String) (ls : List String) :
    unlines (l :: ls) = l ++ "\n" ++ unlines ls := by
  rw [unlines, List.map_cons, String.join_cons, unlines]

/-- Lines can be written in two pieces. -/
theorem unlines_append (ls ls' : List String) :
    unlines (ls ++ ls') = unlines ls ++ unlines ls' := by
  induction ls with
  | nil => rw [List.nil_append, unlines, unlines, List.map_nil, String.join_nil, String.empty_append]
  | cons l ls ih => simp only [List.cons_append, unlines_cons, ih, String.append_assoc]

/-- What holds of the separator and of all parts holds of the whole. -/
theorem forall_mem_intercalate {α : Type} {P : α → Prop} {sep : List α} {xss : List (List α)}
    (hsep : ∀ x ∈ sep, P x) (h : ∀ xs ∈ xss, ∀ x ∈ xs, P x) : ∀ x ∈ sep.intercalate xss, P x := by
  induction xss with
  | nil => exact fun x hx => absurd hx List.not_mem_nil
  | cons xs xss ih =>
    rw [List.forall_mem_cons] at h
    cases xss with
    | nil =>
      rw [List.intercalate_singleton]
      exact h.1
    | cons xs' xss =>
      rw [List.intercalate_cons_cons, List.forall_mem_append, List.forall_mem_append]
      exact ⟨⟨h.1, hsep⟩, ih h.2⟩

/-- Paragraphs with an empty line between them. -/
theorem intercalate_unlines (lss : List (List String)) :
    "\n".intercalate (lss.map unlines) = unlines ([""].intercalate lss) := by
  induction lss with
  | nil => rfl
  | cons ls lss ih =>
    cases lss with
    | nil => rw [List.map_singleton, List.intercalate_singleton, String.intercalate_singleton]
    | cons ls' lss =>
      rw [List.map_cons, List.map_cons, String.intercalate_cons_cons, ← List.map_cons, ih,
        List.intercalate_cons_cons, unlines_append, unlines_append]
      rfl

/-- **Lines are read back from their text.** -/
theorem lines_unlines {ls : List String} (h : ∀ l ∈ ls, '\n' ∉ l.toList) :
    lines (unlines ls).toList = ls.map String.toList := by
  have htext : (unlines ls).toList = (ls.map String.toList).flatMap (· ++ ['\n']) := by
    rw [unlines, String.toList_join, List.flatMap_map, List.flatMap_map]
    simp only [String.toList_append]
    rfl
  rw [htext, lines_flatMap]
  rw [List.forall_mem_map]
  exact h

/-! ### Comma lists -/

/-- A member of a comma list: a tight text that is not empty and has no comma in it. -/
structure IsItem (s : List Char) : Prop where
  ne_nil : s ≠ []
  isTight : IsTight s
  comma : ',' ∉ s

/-- A text without blanks and commas is an item. -/
theorem IsSolid.isItem {s : List Char} (hs : IsSolid s) : IsItem s :=
  ⟨hs.ne_nil, hs.isTight, hs.comma⟩

/-- A word after a few others is an item with them. -/
theorem IsSolid.isItem_append {s w : List Char} (hs : IsSolid s)
    (hw : w.head?.all (!isBlank ·) = true) (hne : w ≠ []) (hcomma : ',' ∉ w) : IsItem (w ++ s) := by
  refine ⟨by simp [hne], isTight_append hw hne hs.last hs.ne_nil [], ?_⟩
  rw [List.mem_append, not_or]
  exact ⟨hcomma, hs.comma⟩

/-- One item is a list of one. -/
theorem items_singleton {s : List Char} (hs : IsItem s) : items s = [s] := by
  rw [items, split_of_not_mem hs.comma, List.map_singleton, trim_of_isTight hs.isTight]
  simp [hs.ne_nil]

/-- An item ends at the comma. -/
theorem items_append_comma {s : List Char} (hs : IsItem s) (t : List Char) :
    items (s ++ ',' :: t) = s :: items t := by
  rw [items, split_append_sep hs.comma, List.map_cons, trim_of_isTight hs.isTight]
  simp [hs.ne_nil, items]

/-- Blanks before an item are trimmed. -/
theorem items_cons_blank {c : Char} (hc : isBlank c = true) (t : List Char) :
    items (c :: t) = items t := by
  have hne : c ≠ ',' := by
    rintro rfl
    exact absurd hc (by decide)
  rw [items, items, split, if_neg hne]
  cases split ',' t with
  | nil => simp [consHead, trim_cons_blank hc]
  | cons w ws => simp [consHead, trim_cons_blank hc]

/-- An item in front of a comma list. -/
theorem items_cons_item {s : List Char} (hs : IsItem s) (t : List Char) :
    items (s ++ (", ".toList ++ t)) = s :: items t := by
  show items (s ++ ',' :: ' ' :: t) = _
  rw [items_append_comma hs, items_cons_blank (by decide)]

/-- **Items are read back from their list.** -/
theorem items_intercalate {ws : List (List Char)} (h : ∀ w ∈ ws, IsItem w) :
    items (", ".toList.intercalate ws) = ws := by
  induction ws with
  | nil => rfl
  | cons w ws ih =>
    rw [List.forall_mem_cons] at h
    cases ws with
    | nil => rw [List.intercalate_singleton, items_singleton h.1]
    | cons w' ws =>
      rw [List.intercalate_cons_cons, List.append_assoc, items_cons_item h.1, ih h.2]

/-! ### Separators -/

/-- A word that was put in front is stripped. -/
theorem stripFront?_append (word : String) (s : List Char) :
    stripFront? word (word.toList ++ s) = some s :=
  List.isPrefixOf?_eq_some_iff_append_eq.2 rfl

/-- A word that was put at the end is stripped. -/
theorem stripBack?_append (word : String) (s : List Char) :
    stripBack? word (s ++ word.toList) = some s :=
  List.isSuffixOf?_eq_some_iff_append_eq.2 rfl

/-- Nothing is stripped that is not there. -/
theorem stripFront?_eq_none_iff {word : String} {s : List Char} :
    stripFront? word s = none ↔ ¬ word.toList <+: s := by
  rw [Option.eq_none_iff_forall_ne_some]
  constructor
  · rintro h ⟨rest, hrest⟩
    exact h rest (List.isPrefixOf?_eq_some_iff_append_eq.2 hrest)
  · intro h rest hrest
    exact h ⟨rest, List.isPrefixOf?_eq_some_iff_append_eq.1 hrest⟩

/-- A text does not start with a word that has a character which the text lacks. -/
theorem stripFront?_of_not_mem {word : String} {s : List Char} {c : Char} (hc : c ∈ word.toList)
    (hs : c ∉ s) : stripFront? word s = none :=
  stripFront?_eq_none_iff.2 fun h => hs (h.subset hc)

/-- A word with a character that does not occur is not there to be stripped. -/
theorem stripBack?_of_not_mem {word : String} {s : List Char} {c : Char} (hc : c ∈ word.toList)
    (hs : c ∉ s) : stripBack? word s = none := by
  rw [Option.eq_none_iff_forall_ne_some]
  intro rest hrest
  obtain rfl := List.isSuffixOf?_eq_some_iff_append_eq.1 hrest
  exact hs (List.mem_append_right _ hc)

/-- **A text is cut at the first separator,** which the part before it does not start. -/
theorem cutAt?_append (sep : String) {c : Char} (hsep : sep.toList.head? = some c)
    {s : List Char} (hs : c ∉ s) (t : List Char) :
    cutAt? sep (s ++ (sep.toList ++ t)) = some (s, t) := by
  obtain ⟨cs, hcs⟩ : ∃ cs, sep.toList = c :: cs := List.head?_eq_some_iff.1 hsep
  induction s with
  | nil =>
    have hstrip := stripFront?_append sep t
    rw [hcs, List.cons_append] at hstrip
    rw [List.nil_append, hcs, List.cons_append, cutAt?, hstrip]
  | cons d s ih =>
    rw [List.mem_cons, not_or] at hs
    have hstrip : stripFront? sep (d :: (s ++ (sep.toList ++ t))) = none := by
      refine stripFront?_eq_none_iff.2 fun hfront => ?_
      rw [hcs, List.cons_prefix_cons] at hfront
      exact hs.1 hfront.1
    rw [List.cons_append, cutAt?, hstrip, ih hs.2]
    rfl

/-- Where the word is not in front, nothing is stripped. -/
theorem stripAll_of_none (word : String) {s : List Char} (h : stripFront? word s = none) :
    stripAll word s = s := by
  rw [stripAll, h]

/-! ### Names and numbers -/

/-- The characters of a name. -/
def isWordChar (c : Char) : Bool :=
  c.isAlphanum || c == '_' || c == '.'

/-- A name that is a word: not empty, of letters, digits, underscores and dots. -/
def IsWord (w : String) : Prop :=
  w ≠ "" ∧ ∀ c ∈ w.toList, isWordChar c = true

instance (w : String) : Decidable (IsWord w) :=
  decidable_of_iff (w ≠ "" ∧ w.toList.all isWordChar = true)
    (and_congr_right fun _ => List.all_eq_true)

/-- Letters and digits lie between two codes. -/
theorem toNat_of_isAlphanum {c : Char} (h : c.isAlphanum = true) :
    48 ≤ c.toNat ∧ c.toNat ≤ 122 := by
  have hclass : ((c.isUpper || c.isLower) || c.isDigit) = true := h
  rw [Bool.or_eq_true, Bool.or_eq_true] at hclass
  rcases hclass with (hupper | hlower) | hdigit
  · have hrange : 65 ≤ c.toNat ∧ c.toNat ≤ 90 := of_decide_eq_true hupper
    omega
  · have hrange : (decide (97 ≤ c.toNat) && decide (c.toNat ≤ 122)) = true := hlower
    rw [Bool.and_eq_true, decide_eq_true_eq, decide_eq_true_eq] at hrange
    omega
  · have hrange : 48 ≤ c.toNat ∧ c.toNat ≤ 57 := Char.isDigit_iff_toNat.1 hdigit
    omega

/-- No letter and no digit is a blank. -/
theorem isBlank_of_isAlphanum {c : Char} (h : c.isAlphanum = true) : isBlank c = false := by
  have hbounds := toNat_of_isAlphanum h
  simp only [isBlank, blankRanges, List.any_cons, List.any_nil, Bool.or_false, Bool.or_eq_false_iff,
    Bool.and_eq_false_iff, decide_eq_false_iff_not]
  omega

/-- No character of a word is a blank. -/
theorem isBlank_of_isWordChar {c : Char} (h : isWordChar c = true) : isBlank c = false := by
  simp only [isWordChar, Bool.or_eq_true, beq_iff_eq] at h
  rcases h with (halnum | rfl) | rfl
  · exact isBlank_of_isAlphanum halnum
  · decide
  · decide

namespace IsWord

variable {v w : String}

/-- Words can be put together. -/
theorem append (hv : IsWord v) (hw : IsWord w) : IsWord (v ++ w) := by
  refine ⟨by simp [hv.1], ?_⟩
  rw [String.toList_append, List.forall_mem_append]
  exact ⟨hv.2, hw.2⟩

/-- A character that no word has does not occur. -/
theorem not_mem {c : Char} (hw : IsWord w) (hc : isWordChar c = false) : c ∉ w.toList := by
  intro hmem
  rw [hw.2 c hmem] at hc
  cases hc

/-- **A word has no blank and no comma in it.** -/
theorem isSolid (hw : IsWord w) : IsSolid w.toList := by
  refine ⟨by simpa using hw.1, fun c hc => isBlank_of_isWordChar (hw.2 c hc), ?_⟩
  exact hw.not_mem (by decide)

end IsWord

/-- Numbers are written with digits and perhaps a sign. -/
theorem mem_ofInt32 {n : Int32} {c : Char} (h : c ∈ (ofInt32 n).toList) :
    c = '-' ∨ c.isDigit = true := by
  have hdigit : ∀ k, c ∈ (ofNat k).toList → c.isDigit = true := by
    intro k hk
    rw [ofNat, String.toList_ofList] at hk
    exact Nat.isDigit_of_mem_toDigits (by omega) (by omega) hk
  unfold ofInt32 at h
  split at h
  · rw [String.toList_append, List.mem_append] at h
    rcases h with hsign | hk
    · exact .inl (List.mem_singleton.1 hsign)
    · exact .inr (hdigit _ hk)
  · exact .inr (hdigit _ h)

/-- A number has no character in it that is neither the sign nor a digit. -/
theorem not_mem_ofInt32 {n : Int32} {c : Char} (hsign : c ≠ '-') (hdigit : c.isDigit = false) :
    c ∉ (ofInt32 n).toList := by
  intro h
  rcases mem_ofInt32 h with rfl | hc
  · exact hsign rfl
  · rw [hdigit] at hc
    cases hc

/-- **A number has no blank and no comma in it.** -/
theorem isSolid_ofInt32 (n : Int32) : IsSolid (ofInt32 n).toList := by
  refine ⟨?_, fun c hc => ?_, not_mem_ofInt32 (by decide) (by decide)⟩
  · intro hnil
    have h := readInt32_ofInt32 n
    rw [hnil] at h
    cases h
  · rcases mem_ofInt32 hc with rfl | hc
    · decide
    · exact isBlank_of_isAlphanum (by simp [Char.isAlphanum, hc])

end Text
end Straightline
