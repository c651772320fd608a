/-
# Blanks make no difference

The lexemes of a text can be written down again with other blanks between them.  There has to be one blank at
least, or two lexemes could join; how many there are, and which, does not matter (`Joined`).  The tokens of the
new text have the kinds, lexemes and values of the old ones (`tokens_of_joined`), only their positions differ.

Positions decide nothing when a program is read (`cause_eq_of_alike`): of streams that look alike everywhere
either all are read, as the same program, or none is, for the same cause.  So both texts are the same program or
have the same mistake, if maybe on another line (`respacing`).
-/

import Straightline.Proofs.Layout
import Straightline.Proofs.Lookahead

namespace Straightline
namespace Token

variable {ls : List (List Char)} {lits : List String} {cs : List Char} {text lead trail : String}

/-- A text of blanks only, or an empty one. -/
def Blanks (s : String) : Prop :=
  ∀ c ∈ s.toList, IsBlank c

/-- Lexemes that are written one after the other, with blanks between them. -/
inductive Joined : List String → String → Prop
  | nil : Joined [] ""
  | single (lit : String) : Joined [lit] lit
  | cons (lit sep : String) {next text : String} {lits : List String} (hne : sep ≠ "") (hsep : Blanks sep)
    (h : Joined (next :: lits) text) : Joined (lit :: next :: lits) (lit ++ sep ++ text)

/-! ### Tokens -/

/-- Blanks in front change nothing. -/
theorem Spaced.blanks {gap : List Char} (hgap : ∀ c ∈ gap, IsBlank c) (h : Spaced ls cs) :
    Spaced ls (gap ++ cs) := by
  induction gap with
  | nil => exact h
  | cons c gap ih =>
    rw [List.forall_mem_cons] at hgap
    exact .gap (isGap_iff.2 hgap.1) (ih hgap.2)

/-- A lexeme can be followed by blanks and, if there are any, by more. -/
theorem Spaced.lexeme_blanks (l : List Char) {gap : List Char} (hgap : ∀ c ∈ gap, IsBlank c)
    (hend : gap = [] → cs = []) (h : Spaced ls cs) : Spaced (l :: ls) (l ++ (gap ++ cs)) := by
  refine .lexeme (fun c _ d hd => joins_of_isGap (isGap_iff.2 (hgap d ?_))) (h.blanks hgap)
  cases gap with
  | nil =>
    rw [hend rfl] at hd
    cases hd
  | cons e gap => exact List.mem_cons.2 (.inl (Option.some.inj hd).symm)

/-- Lexemes with blanks between them, and blanks at the end, are such a text. -/
theorem Joined.spaced (h : Joined lits text) (htrail : Blanks trail) :
    Spaced (lits.map String.toList) (text.toList ++ trail.toList) := by
  rw [← List.append_nil trail.toList]
  induction h with
  | nil =>
    show Spaced [] (trail.toList ++ [])
    exact Spaced.nil.blanks htrail
  | single lit => exact Spaced.nil.lexeme_blanks lit.toList htrail fun _ => rfl
  | cons lit sep hne hsep _ ih =>
    rw [String.toList_append, String.toList_append, List.append_assoc, List.append_assoc]
    exact ih.lexeme_blanks lit.toList hsep fun h => absurd (String.toList_eq_nil_iff.1 h) hne

/-- **The lexemes of a text, joined by blanks, are cut into tokens of the same kinds again.** -/
theorem tokens_of_joined {source : String} (h : Joined ((lex source).tokens.map Token.literal) text)
    (hlead : Blanks lead) (htrail : Blanks trail) :
    (lex (lead ++ text ++ trail)).tokens.map (fun t => (t.kind, t.literal)) =
      (lex source).tokens.map fun t => (t.kind, t.literal) := by
  have hspaced := (h.spaced htrail).blanks hlead
  have htext : (lead ++ text ++ trail).toList = lead.toList ++ (text.toList ++ trail.toList) := by
    rw [String.toList_append, String.toList_append, List.append_assoc]
  rw [lex, htext, scan_of_spaced hspaced ?_, List.map_map, List.map_map]
  · refine List.map_congr_left fun t ht => ?_
    obtain ⟨c, run, hkind, hliteral, -⟩ := exists_of_mem_scan ht
    show (Kind.ofText t.literal.toList, String.ofList t.literal.toList) = (t.kind, t.literal)
    rw [String.ofList_toList, hkind, hliteral, String.toList_ofList]
    rfl
  · intro l hl
    obtain ⟨lit, hlit, rfl⟩ := List.mem_map.1 hl
    obtain ⟨t, ht, rfl⟩ := List.mem_map.1 hlit
    obtain ⟨c, run, -, hliteral, hgap, hrun⟩ := exists_of_mem_scan ht
    exact ⟨c, run, by rw [hliteral, String.toList_ofList], hgap, hrun⟩

/-- The value of a token is computed from its kind and its lexeme. -/
theorem map_value_congr {ts ts' : List Token}
    (h : ts'.map (fun t => (t.kind, t.literal)) = ts.map fun t => (t.kind, t.literal)) :
    ts'.map (fun t => (t.kind, t.literal, t.value)) = ts.map fun t => (t.kind, t.literal, t.value) := by
  have hvalue := congrArg (List.map fun x => (x.1, x.2, (⟨x.1, x.2, Pos.start⟩ : Token).value)) h
  rwa [List.map_map, List.map_map] at hvalue

/-- Streams that agree in kinds and lexemes do so at each place, the end mark included. -/
theorem Stream.tokenAt_congr {s s' : Stream}
    (h : s'.tokens.map (fun t => (t.kind, t.literal)) = s.tokens.map fun t => (t.kind, t.literal)) (i : Nat) :
    ((s'.tokenAt i).kind, (s'.tokenAt i).literal) = ((s.tokenAt i).kind, (s.tokenAt i).literal) := by
  have hshape : ∀ s : Stream, ((s.tokenAt i).kind, (s.tokenAt i).literal) =
      ((s.tokens.map fun t => (t.kind, t.literal))[i]?).getD (.eof, "") := by
    intro s
    rw [List.getElem?_map, tokenAt]
    cases s.tokens[i]? <;> rfl
  rw [hshape, hshape, h]

end Token

namespace Source

open Token (Joined Blanks lex)

/-- **Positions decide nothing.**  Streams that look alike are read as the same program, or fail for the same
cause. -/
theorem cause_eq_of_alike {s s' : Token.Stream}
    (h : s'.tokens.map (fun t => (t.kind, t.literal)) = s.tokens.map fun t => (t.kind, t.literal)) :
    (parseTokens s').mapError (·.error.cause) = (parseTokens s).mapError (·.error.cause) := by
  obtain ⟨v, -, hread⟩ := local_parseTokens s
  have hlike : s'.LooksLike v.reach s := fun i _ _ => Prod.ext_iff.1 (Token.Stream.tokenAt_congr h i)
  rw [hread s' hlike, hread s (s.looksLike_self _)]
  cases v with
  | ok p next => rfl
  | error cause place cursor => rfl

/-- The cause of a failure is that which the tokens of the text lead to. -/
theorem mapError_parse (source : String) :
    (parse source).mapError Error.cause = (parseTokens (lex source)).mapError (·.error.cause) := by
  rw [parse]
  cases parseTokens (lex source) with
  | ok p => rfl
  | error f => rfl

/-- **Texts that differ in their blanks only say the same.**  The lexemes of a text, joined by blanks and with
blanks around them, have the same tokens up to positions, the end mark included; and they are read as the same
program, or fail with the same error up to its line. -/
theorem respacing (source : String) {text lead trail : String}
    (htext : Joined ((lex source).tokens.map Token.literal) text) (hlead : Blanks lead) (htrail : Blanks trail) :
    (lex (lead ++ text ++ trail)).toList.map (fun t => (t.kind, t.literal, t.value)) =
      (lex source).toList.map (fun t => (t.kind, t.literal, t.value)) ∧
    (parse (lead ++ text ++ trail)).mapError Error.cause = (parse source).mapError Error.cause := by
  have htokens := Token.tokens_of_joined htext hlead htrail
  constructor
  · rw [Token.Stream.toList, Token.Stream.toList, List.map_append, List.map_append,
      Token.map_value_congr htokens]
    rfl
  · rw [mapError_parse, mapError_parse, cause_eq_of_alike htokens]

/-- The mistake is found in line 1, and in line 3 where the lexemes stand in lines of their own. -/
theorem respacing_declaration :
    Joined ((lex "int f;").tokens.map Token.literal) "int\nf\t;" ∧ Blanks "\n" ∧ Blanks " \r" ∧
    (lex ("\n" ++ "int\nf\t;" ++ " \r")).toList.map (fun t => (t.kind, t.literal, t.value)) =
      (lex "int f;").toList.map (fun t => (t.kind, t.literal, t.value)) ∧
    (parse ("\n" ++ "int\nf\t;" ++ " \r")).mapError Error.cause = (parse "int f;").mapError Error.cause :=
  have hliterals : (lex "int f;").tokens.map Token.literal = ["int", "f", ";"] := by decide +kernel
  have hlead : Blanks "\n" := by simp [Blanks, Token.IsBlank]
  have htab : Blanks "\t" := by simp [Blanks, Token.IsBlank]
  have htrail : Blanks " \r" := by simp [Blanks, Token.IsBlank]
  have htext : Joined ((lex "int f;").tokens.map Token.literal) "int\nf\t;" :=
    hliterals ▸ .cons "int" "\n" (by decide) hlead (.cons "f" "\t" (by decide) htab (.single ";"))
  ⟨htext, hlead, htrail, respacing "int f;" htext hlead htrail⟩

end Source
end Straightline
