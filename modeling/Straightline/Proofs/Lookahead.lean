/-
# How far a reader looks

A reader sees tokens one by one, and of each token its kind and its lexeme.  It stands at a place, and what it
does depends on what it has passed, on the token there, and in one case on the token after it: a name may stay
undeclared if a parenthesis follows.  Lines go into errors only, and nothing is decided by them.

So the outcome of a reader can be told without tokens (`Verdict`): what was read and where to go on, or why it
failed, at which place, and which token's line is reported.  It is the same on all streams that look alike as
far as it reaches (`Local`), while the lines are those of each stream itself.  This is shown of the readers one
by one.  Their results carry the proof that tokens were passed, which differs from stream to stream; without it
(`plain`) a reader is put together from the readers before it by `Local.bind`.

A failed reading is one of these outcomes (`failure_is_local`).
-/

import Mathlib
import Straightline.Source.Parser
import Straightline.Token.Cursor

namespace Straightline

namespace Token.Stream

variable {s s' : Stream} {i m n : Nat}

/-- The token at a place; after the last one it is the end mark. -/
def tokenAt (s : Stream) (i : Nat) : Token :=
  s.tokens[i]?.getD s.eof

/-- A stream looks like another one at its first `n` places, as far as the other one goes: there stand tokens of
the same kinds with the same lexemes. -/
def LooksLike (s' : Stream) (n : Nat) (s : Stream) : Prop :=
  ∀ i < n, i ≤ s.tokens.length →
    (s'.tokenAt i).kind = (s.tokenAt i).kind ∧ (s'.tokenAt i).literal = (s.tokenAt i).literal

/-- What looks alike at more places looks alike at fewer. -/
theorem LooksLike.mono (h : s'.LooksLike n s) (hle : m ≤ n) : s'.LooksLike m s :=
  fun i hi => h i (Nat.lt_of_lt_of_le hi hle)

theorem looksLike_self (s : Stream) (n : Nat) : s.LooksLike n s := fun _ _ _ => ⟨rfl, rfl⟩

/-- Any other kind than that of the end mark stands before the end. -/
theorem lt_length_of_kind (h : (s.tokenAt i).kind ≠ .eof) : i < s.tokens.length := by
  refine Nat.lt_of_not_le fun hle => h ?_
  rw [tokenAt, List.getElem?_eq_none hle]
  rfl

/-- What holds at a place if it does at all later ones, holds at all places. -/
@[elab_as_elim]
theorem later_induction (s : Stream) {motive : Nat → Prop}
    (step : ∀ i, i ≤ s.tokens.length → (∀ j, i < j → j ≤ s.tokens.length → motive j) → motive i) (i : Nat)
    (hi : i ≤ s.tokens.length) : motive i := by
  induction hleft : s.tokens.length - i using Nat.strongRecOn generalizing i with
  | ind n ih => exact step i hi fun j hij hj => ih (s.tokens.length - j) (by omega) j hj rfl

/-- The places of a stream are those of its tokens and of the end mark. -/
theorem getElem?_toList (h : i ≤ s.tokens.length) : s.toList[i]? = some (s.tokenAt i) := by
  rw [toList, tokenAt]
  rcases Nat.lt_or_eq_of_le h with hlt | rfl
  · rw [List.getElem?_append_left hlt, List.getElem?_eq_getElem hlt]
    rfl
  · rw [List.getElem?_concat_length, List.getElem?_eq_none (Nat.le_refl _)]
    rfl

/-- Streams with the same first tokens have the same token at each of these places. -/
theorem tokenAt_eq_of_take (h : s'.toList.take n = s.toList.take n) (hn : i < n)
    (hi : i ≤ s.tokens.length) : s'.tokenAt i = s.tokenAt i := by
  have hget : s'.toList[i]? = some (s.tokenAt i) := by
    rw [← List.getElem?_take_of_lt hn, h, List.getElem?_take_of_lt hn, getElem?_toList hi]
  have hlt : i < s'.toList.length := (List.getElem?_eq_some_iff.1 hget).1
  have hi' : i ≤ s'.tokens.length := by
    rw [toList, List.length_append] at hlt
    exact Nat.le_of_lt_succ hlt
  rw [getElem?_toList hi'] at hget
  exact Option.some.inj hget

end Token.Stream

namespace Token

/-- A token has the position to which the text before it leads. -/
theorem exists_before_of_mem_scan {p : Pos} {cs : List Char} {t : Token} (ht : t ∈ scan p cs) :
    ∃ before, before <+: cs ∧ t.pos = p.after before := by
  induction p, cs using scan.induct with
  | case1 p =>
    rw [scan] at ht
    cases ht
  | case2 p c cs hgap ih =>
    rw [scan, if_pos hgap] at ht
    obtain ⟨before, hbefore, hpos⟩ := ih ht
    exact ⟨c :: before, List.cons_prefix_cons.2 ⟨rfl, hbefore⟩, hpos⟩
  | case3 p c cs hgap run ih =>
    rw [scan, if_neg hgap] at ht
    rcases List.mem_cons.1 ht with rfl | htail
    · exact ⟨[], List.nil_prefix, rfl⟩
    · obtain ⟨before, hbefore, hpos⟩ := ih htail
      refine ⟨c :: run ++ before, ?_, by rw [Pos.after_append, hpos]⟩
      have hcs : c :: cs = c :: run ++ cs.dropWhile (joins c) :=
        congrArg (c :: ·) List.takeWhile_append_dropWhile.symm
      rw [hcs]
      exact (List.prefix_append_right_inj _).2 hbefore

/-- **A token stands on one of the lines of its text.** -/
theorem line_of_mem_lex {source : String} {t : Token} (ht : t ∈ (lex source).toList) :
    1 ≤ t.pos.line ∧ t.pos.line ≤ 1 + source.toList.count '\n' := by
  have hbefore : ∃ before, before <+: source.toList ∧ t.pos = Pos.start.after before := by
    rcases List.mem_append.1 ht with htoken | hend
    · exact exists_before_of_mem_scan htoken
    · cases List.mem_singleton.1 hend
      exact ⟨source.toList, List.prefix_rfl, rfl⟩
  obtain ⟨before, hsub, hpos⟩ := hbefore
  have hline : t.pos.line = 1 + before.count '\n' := by
    rw [hpos, Pos.after_line]
    rfl
  have hcount : before.count '\n' ≤ source.toList.count '\n' := hsub.sublist.count_le '\n'
  omega

end Token

namespace Source
namespace Parser

open Token (Kind Stream)

variable {α β X : Type} {out : α → List Token → X} {s s' : Stream} {i j : Nat}

/-- The token that is next is the one at the place where the reader stands. -/
theorem current_drop (s : Stream) (i : Nat) : current s.eof (s.tokens.drop i) = s.tokenAt i := by
  rw [current, List.headD_eq_head?_getD, List.head?_drop]
  rfl

/-- Its kind is what a reader peeks at. -/
theorem peek_drop (s : Stream) (i : Nat) : peek (s.tokens.drop i) = (s.tokenAt i).kind := by
  rw [peek, List.head?_drop, Stream.tokenAt]
  cases s.tokens[i]? <;> rfl

/-! ### Outcomes without tokens -/

/-- What a reader finds: a result and the place to go on from; or a cause, the place whose line is reported, and
the place where the reader stands. -/
inductive Verdict (α : Type)
  | ok (a : α) (next : Nat)
  | error (cause : Cause) (place cursor : Nat)

namespace Verdict

/-- What a verdict says of a stream, where `out` puts together a result and the tokens that are left. -/
def on (out : α → List Token → X) (s : Stream) : Verdict α → Except Failure X
  | ok a next => .ok (out a (s.tokens.drop next))
  | error cause place cursor => fail (s.tokenAt place).pos.line cause (s.tokens.drop cursor)

/-- How many places have to be known for a verdict: after the place to go on from none, after the place of a
failure one. -/
def reach : Verdict α → Nat
  | ok _ next => next + 1
  | error _ _ cursor => cursor + 2

/-- A verdict of a reader that started at a place of a stream. -/
def Within (s : Stream) (i : Nat) : Verdict α → Prop
  | ok _ next => i ≤ next ∧ next ≤ s.tokens.length
  | error _ place cursor => i ≤ cursor ∧ cursor ≤ s.tokens.length ∧ place ≤ cursor

/-- A reader that started earlier comes to the same verdict. -/
theorem Within.mono {v : Verdict α} (h : v.Within s j) (hij : i ≤ j) : v.Within s i := by
  cases v with
  | ok a next => exact ⟨Nat.le_trans hij h.1, h.2⟩
  | error cause place cursor => exact ⟨Nat.le_trans hij h.1, h.2⟩

/-- A verdict reaches beyond the place where the reader started. -/
theorem Within.lt_reach {v : Verdict α} (h : v.Within s i) : i < v.reach := by
  cases v with
  | ok a next => exact Nat.lt_succ_of_le h.1
  | error cause place cursor => exact Nat.lt_succ_of_le (Nat.le_succ_of_le h.1)

/-- A reader starts at a place of the stream. -/
theorem Within.le_length {v : Verdict α} (h : v.Within s i) : i ≤ s.tokens.length := by
  cases v with
  | ok a next => exact Nat.le_trans h.1 h.2
  | error cause place cursor => exact Nat.le_trans h.1 h.2.1

end Verdict

/-- A reader that starts at a place of a stream comes to a verdict, which holds of every stream that looks alike
as far as the verdict reaches. -/
def Local (out : α → List Token → X) (s : Stream) (i : Nat) (read : Stream → Except Failure X) : Prop :=
  ∃ v : Verdict α, v.Within s i ∧ ∀ s' : Stream, s'.LooksLike v.reach s → read s' = v.on out s'

variable {read : Stream → Except Failure X}

/-- A reader that is local from a place on is so from each earlier one. -/
theorem Local.mono (h : Local out s j read) (hij : i ≤ j) : Local out s i read := by
  obtain ⟨v, hv, hread⟩ := h
  exact ⟨v, hv.mono hij, hread⟩

/-- Locality is a property of what a reader does, not of how it is written. -/
theorem Local.of_eq {read' : Stream → Except Failure X} (h : Local out s i read')
    (heq : ∀ s, read s = read' s) : Local out s i read := by
  rwa [funext heq]

/-- A result by itself is local. -/
theorem local_ok (a : α) (hi : i ≤ s.tokens.length) :
    Local out s i fun s => .ok (out a (s.tokens.drop i)) :=
  ⟨.ok a i, ⟨Nat.le_refl i, hi⟩, fun _ _ => rfl⟩

/-- So is a failure that reports the line of a token passed. -/
theorem local_fail {place : Nat} (cause : Cause) (hplace : place ≤ i) (hi : i ≤ s.tokens.length) :
    Local out s i fun s => fail (s.tokenAt place).pos.line cause (s.tokens.drop i) :=
  ⟨.error cause place i, ⟨Nat.le_refl i, hi, hplace⟩, fun _ _ => rfl⟩

/-- **What a reader does may depend on the kind and the lexeme of the token where it stands.** -/
theorem local_token (read : Kind → String → Stream → Except Failure X)
    (h : Local out s i (read (s.tokenAt i).kind (s.tokenAt i).literal)) :
    Local out s i fun s => read (s.tokenAt i).kind (s.tokenAt i).literal s := by
  obtain ⟨v, hv, hread⟩ := h
  refine ⟨v, hv, fun s' hs' => ?_⟩
  obtain ⟨hkind, hliteral⟩ := hs' i hv.lt_reach hv.le_length
  show read (s'.tokenAt i).kind (s'.tokenAt i).literal s' = v.on out s'
  rw [hkind, hliteral]
  exact hread s' hs'

/-- A failure that names the next token reaches one place further, to that token. -/
theorem local_unexpected (expected : Expected) (hi : i ≤ s.tokens.length) :
    Local out s i fun s => unexpected s.eof expected (s.tokens.drop i) := by
  refine ⟨.error (.unexpected expected (s.tokenAt i).text) i i, ⟨Nat.le_refl i, hi, Nat.le_refl i⟩, ?_⟩
  intro s' hs'
  obtain ⟨hkind, hliteral⟩ := hs' i (Nat.lt_succ_of_lt (Nat.lt_succ_self i)) hi
  have htext : (s'.tokenAt i).text = (s.tokenAt i).text := by rw [Token.text, Token.text, hkind, hliteral]
  show unexpected s'.eof expected (s'.tokens.drop i) = _
  rw [unexpected, current_drop, htext]
  rfl

/-- A reader may ask whether a token of some kind is next. -/
theorem local_ite {k : Kind} {read read' : Stream → Except Failure X}
    (h : peek (s.tokens.drop i) = k → Local out s i read)
    (h' : peek (s.tokens.drop i) ≠ k → Local out s i read') :
    Local out s i fun s => if peek (s.tokens.drop i) = k then read s else read' s := by
  have hfrozen : Local out s i fun s' => if (s.tokenAt i).kind = k then read s' else read' s' := by
    by_cases hk : (s.tokenAt i).kind = k
    · simp only [if_pos hk]
      exact h (peek_drop s i ▸ hk)
    · simp only [if_neg hk]
      exact h' (peek_drop s i ▸ hk)
  simp only [peek_drop]
  exact local_token (fun kind _ s => if kind = k then read s else read' s) hfrozen

/-- **A reader goes on after another one.** -/
theorem Local.bind {read : Stream → Except Failure (α × List Token)} {out : β → List Token → X}
    {next : Stream → α × List Token → Except Failure X} (h : Local Prod.mk s i read)
    (hnext : ∀ a j, i ≤ j → j ≤ s.tokens.length → read s = .ok (a, s.tokens.drop j) →
      Local out s j fun s => next s (a, s.tokens.drop j)) :
    Local out s i fun s => read s >>= next s := by
  obtain ⟨v, hv, hread⟩ := h
  cases v with
  | ok a j =>
    obtain ⟨w, hw, hrest⟩ := hnext a j hv.1 hv.2 (hread s (s.looksLike_self _))
    refine ⟨w, hw.mono hv.1, fun s' hs' => ?_⟩
    -- what comes next reaches at least as far
    have hj : read s' = .ok (a, s'.tokens.drop j) := hread s' (hs'.mono hw.lt_reach)
    show read s' >>= next s' = w.on out s'
    rw [hj]
    exact hrest s' hs'
  | error cause place cursor =>
    refine ⟨.error cause place cursor, hv, fun s' hs' => ?_⟩
    show read s' >>= next s' = _
    rw [hread s' hs']
    rfl

/-! ### Checks -/

/-- The outcome of a check, at a line and before the tokens that are left. -/
def settle (line : Nat) (rest : List Token) : Except Cause α → Except Failure α
  | .ok a => .ok a
  | .error cause => fail line cause rest

/-- A reader may check what was read before it goes on; the line of a mistake is that of a token passed. -/
theorem local_check {check : Stream → Nat → List Token → Except Failure α} {place : Nat}
    {out : β → List Token → X} {next : Stream → α → Except Failure X}
    (hcheck : ∃ c, ∀ s line rest, check s line rest = settle line rest c) (hplace : place ≤ i)
    (hi : i ≤ s.tokens.length) (hnext : ∀ a, Local out s i fun s => next s a) :
    Local out s i fun s => check s (s.tokenAt place).pos.line (s.tokens.drop i) >>= next s := by
  obtain ⟨c, hc⟩ := hcheck
  simp only [hc]
  cases c with
  | ok a => exact hnext a
  | error cause => exact local_fail cause hplace hi

/-- Whether two expressions can be joined depends on them alone. -/
theorem settle_join (op : BinaryOp) (left right : Expr) :
    ∃ c, ∀ (_ : Stream) line rest, join line op left right rest = settle line rest c := by
  by_cases hop : op = .assign
  · subst hop
    cases left with
    | var x => exact ⟨.ok _, fun _ _ _ => rfl⟩
    | const n => exact ⟨.error _, fun _ _ _ => rfl⟩
    | binary op l r => exact ⟨.error _, fun _ _ _ => rfl⟩
    | call f args => exact ⟨.error _, fun _ _ _ => rfl⟩
  · cases op with
    | assign => exact absurd rfl hop
    | _ => exact ⟨.ok _, fun _ _ _ => rfl⟩

/-- Whether an expression can be called depends on it alone. -/
theorem settle_callee (e : Expr) :
    ∃ c, ∀ (_ : Stream) line rest, callee line e rest = settle line rest c := by
  cases e with
  | var f => exact ⟨.ok f, fun _ _ _ => rfl⟩
  | _ => exact ⟨.error _, fun _ _ _ => rfl⟩

/-- Whether a call is right depends on the program and the arguments alone. -/
theorem settle_checkCall (program : Program) (vars : List String) (f : String) (args : List Expr) :
    ∃ c, ∀ (s : Stream) line rest,
      checkCall ⟨s.eof, program, vars⟩ line f args rest = settle line rest c := by
  cases hlookup : program.arity? f with
  | none =>
    refine ⟨.error (.undefinedFunction f), fun s line rest => ?_⟩
    simp only [checkCall, hlookup]
    rfl
  | some arity =>
    by_cases harity : arity = args.length
    · refine ⟨.ok (.call f args), fun s line rest => ?_⟩
      simp only [checkCall, hlookup, if_pos harity]
      rfl
    · refine ⟨.error (.callArityMismatch f arity args.length), fun s line rest => ?_⟩
      simp only [checkCall, hlookup, if_neg harity]
      rfl

/-- The outcome of a check does not depend on where it is made. -/
theorem settle_check (cause : Option Cause) :
    ∃ c, ∀ (_ : Stream) line rest, check line rest cause = settle line rest c := by
  cases cause with
  | none => exact ⟨.ok (), fun _ _ _ => rfl⟩
  | some cause => exact ⟨.error cause, fun _ _ _ => rfl⟩

/-! ### Results without proofs -/

variable {P Q : List Token → Prop} {eof : Token} {sc : Scope} {ts : List Token}

/-- An outcome without the proof that tokens were passed. -/
def bare : Except Failure (α × Subtype P) → Except Failure (α × List Token)
  | .ok a => .ok (a.1, a.2.1)
  | .error f => .error f

/-- A reader without these proofs. -/
def plain {P : List Token → List Token → Prop}
    (read : (ts : List Token) → Except Failure (α × Subtype (P ts))) (ts : List Token) : Except Failure (α × List Token) :=
  bare (read ts)

/-- The tokens that are left have the property of the subtype. -/
theorem of_bare {x : Except Failure (α × Subtype P)} {a : α} {rest : List Token}
    (h : bare x = .ok (a, rest)) : P rest := by
  cases x with
  | error f => cases h
  | ok b =>
    cases h
    exact b.2.2

/-- Proofs can be dropped from both parts of a composition. -/
theorem bare_bind {x : Except Failure (α × Subtype P)} {g : α × Subtype P → Except Failure (β × Subtype Q)}
    {next : α × List Token → Except Failure (β × List Token)}
    (h : ∀ a rest hrest, bare (g (a, ⟨rest, hrest⟩)) = next (a, rest)) :
    bare (x >>= g) = bare x >>= next := by
  cases x with
  | error f => rfl
  | ok a => exact h a.1 a.2.1 a.2.2

/-- A last step that only changes the proof can be dropped. -/
theorem bare_bind_ok {x : Except Failure (α × Subtype P)}
    {g : α × Subtype P → Except Failure (α × Subtype Q)}
    (h : ∀ a rest hrest, bare (g (a, ⟨rest, hrest⟩)) = .ok (a, rest)) : bare (x >>= g) = bare x := by
  cases x with
  | error f => rfl
  | ok a => exact h a.1 a.2.1 a.2.2

/-- A check has no proofs to drop. -/
theorem bare_check_bind {x : Except Failure α} {g : α → Except Failure (β × Subtype Q)} :
    bare (x >>= g) = x >>= fun a => bare (g a) := by
  cases x <;> rfl

/-- A result that is no reading goes on from the reader's result without its proof. -/
theorem bind_bare {x : Except Failure (α × Subtype P)} {g : α × Subtype P → Except Failure X}
    {next : α × List Token → Except Failure X} (h : ∀ a rest hrest, g (a, ⟨rest, hrest⟩) = next (a, rest)) :
    x >>= g = bare x >>= next := by
  cases x with
  | error f => rfl
  | ok a => exact h a.1 a.2.1 a.2.2

/-- Moves past a token of the given kind, as `expect` does. -/
def pass (eof : Token) (k : Kind) (ts : List Token) : Except Failure (Unit × List Token) :=
  if peek ts = k then .ok ((), ts.tail) else unexpected eof (.kind k) ts

/-- A token that is expected is passed, and proofs are dropped from what follows. -/
theorem bare_expect_bind {k : Kind} (hk : k ≠ .eof) {g : Shorter ts → Except Failure (β × Subtype Q)}
    {next : Unit × List Token → Except Failure (β × List Token)}
    (h : ∀ rest hrest, bare (g ⟨rest, hrest⟩) = next ((), rest)) :
    bare (expect eof k ts >>= g) = pass eof k ts >>= next := by
  cases ts with
  | nil =>
    have hpeek : peek [] ≠ k := Ne.symm hk
    rw [pass, if_neg hpeek]
    rfl
  | cons t rest =>
    rw [expect, pass]
    by_cases hkind : t.kind = k
    · rw [if_pos hkind, if_pos (show peek (t :: rest) = k from hkind)]
      exact h rest _
    · rw [if_neg hkind, if_neg (show ¬peek (t :: rest) = k from hkind)]
      rfl

/-- The reader of names, without proofs. -/
theorem plain_name : plain (name eof) ts = if peek ts = .identifier then
      .ok ((current eof ts).literal, ts.tail)
    else unexpected eof (.kind .identifier) ts := by
  cases ts with
  | nil => rfl
  | cons t rest =>
    rw [plain, name]
    by_cases hkind : t.kind = .identifier
    · rw [if_pos hkind, if_pos (show peek (t :: rest) = .identifier from hkind)]
      rfl
    · rw [if_neg hkind, if_neg (show ¬peek (t :: rest) = .identifier from hkind)]
      rfl

/-- Any other kind than that of the end mark is peeked at before the end. -/
theorem lt_length_of_peek {k : Kind} (h : peek (s.tokens.drop i) = k) (hk : k ≠ .eof) :
    i < s.tokens.length := by
  refine Stream.lt_length_of_kind ?_
  rwa [← peek_drop, h]

/-- A reader that passes a token ends at a later place. -/
theorem lt_of_shorter {read : (ts : List Token) → Except Failure (α × Shorter ts)} {a : α}
    (h : plain read (s.tokens.drop i) = .ok (a, s.tokens.drop j)) : i < j := by
  have hlt : (s.tokens.drop j).length < (s.tokens.drop i).length := of_bare h
  rw [List.length_drop, List.length_drop] at hlt
  omega

/-- To pass a token of some kind is local. -/
theorem local_pass {k : Kind} (hk : k ≠ .eof) (hi : i ≤ s.tokens.length) :
    Local Prod.mk s i fun s => pass s.eof k (s.tokens.drop i) := by
  simp only [pass, List.tail_drop]
  refine local_ite (fun hpeek => ?_) fun _ => local_unexpected _ hi
  exact (local_ok () (lt_length_of_peek hpeek hk)).mono (Nat.le_succ i)

/-- To read a name is local. -/
theorem local_name (hi : i ≤ s.tokens.length) :
    Local Prod.mk s i fun s => plain (name s.eof) (s.tokens.drop i) := by
  refine Local.of_eq ?_ fun _ => plain_name
  simp only [current_drop, List.tail_drop]
  refine local_ite (fun hpeek => ?_) fun _ => local_unexpected _ hi
  refine local_token (fun _ x s => .ok (x, s.tokens.drop (i + 1))) ?_
  exact (local_ok _ (lt_length_of_peek hpeek (by decide))).mono (Nat.le_succ i)

/-- After an item of a list comes a comma and the rest of the list, or the parenthesis that closes it. -/
theorem local_listEnd {more : Stream → List Token → Except Failure (List α × List Token)} (a : α)
    (hi : i ≤ s.tokens.length)
    (hmore : i < s.tokens.length → Local Prod.mk s (i + 1) fun s => more s (s.tokens.drop (i + 1))) :
    Local Prod.mk s i fun s =>
      if peek (s.tokens.drop i) = .comma then
        more s (s.tokens.drop i).tail >>= fun b => .ok (a :: b.1, b.2)
      else if peek (s.tokens.drop i) = .closeParen then .ok ([a], (s.tokens.drop i).tail)
      else unexpected s.eof .listEnd (s.tokens.drop i) := by
  simp only [List.tail_drop]
  refine local_ite (fun hcomma => ?_) fun _ => local_ite (fun hclose => ?_) fun _ => ?_
  · refine Local.mono ?_ (Nat.le_succ i)
    exact (hmore (lt_length_of_peek hcomma (by decide))).bind fun as j _ hj _ => local_ok (a :: as) hj
  · exact (local_ok [a] (lt_length_of_peek hclose (by decide))).mono (Nat.le_succ i)
  · exact local_unexpected _ hi

/-- A list in parentheses is empty or has items. -/
theorem local_list {list : Stream → List Token → Except Failure (List α × List Token)}
    (hlist : Local Prod.mk s i fun s => list s (s.tokens.drop i)) :
    Local Prod.mk s i fun s =>
      if peek (s.tokens.drop i) = .closeParen then .ok ([], (s.tokens.drop i).tail)
      else list s (s.tokens.drop i) := by
  simp only [List.tail_drop]
  refine local_ite (fun hclose => ?_) fun _ => hlist
  exact (local_ok [] (lt_length_of_peek hclose (by decide))).mono (Nat.le_succ i)

/-! ### Expressions -/

/-- The reader of operands, without proofs. -/
theorem plain_primary : plain (primary sc) ts =
    if peek ts = .constant then
      match Text.readInt32 (current sc.eof ts).literal.toList with
      | some n => .ok (.const n, ts.tail)
      | none => fail (current sc.eof ts).pos.line (.integerOutOfRange (current sc.eof ts).literal) ts
    else if peek ts = .identifier then
      if peek ts.tail = .openParen ∨ (current sc.eof ts).literal ∈ sc.vars then
        .ok (.var (current sc.eof ts).literal, ts.tail)
      else fail (current sc.eof ts).pos.line (.undeclaredVariable (current sc.eof ts).literal) ts
    else unexpected sc.eof .expression ts := by
  cases ts with
  | nil => rfl
  | cons t rest =>
    have hpeek : peek (t :: rest) = t.kind := rfl
    have hcurrent : current sc.eof (t :: rest) = t := rfl
    rw [plain, primary, hpeek, hcurrent, List.tail_cons]
    split
    · rename_i hkind
      rw [if_pos hkind]
      cases Text.readInt32 t.literal.toList <;> rfl
    · rename_i hkind
      rw [if_neg (show t.kind ≠ .constant by simp [hkind]), if_pos hkind]
      split <;> rfl
    · rename_i hconst hident
      rw [if_neg hconst, if_neg hident]
      rfl

/-- The reader of expressions, without proofs. -/
theorem plain_expression {floor : Nat} : plain (expression sc floor) ts =
    plain (primary sc) ts >>= fun a => plain (operators sc floor a.1) a.2 := by
  rw [plain, expression]
  exact bare_bind fun left rest _ => bare_bind_ok fun e rest' _ => rfl

/-- The reader of operators, without proofs. -/
theorem plain_operators {floor : Nat} {left : Expr} : plain (operators sc floor left) ts =
    if peek ts = .openParen then
      callee (current sc.eof ts).pos.line left ts >>= fun f =>
        plain (arguments sc) ts.tail >>= fun a =>
          checkCall sc (current sc.eof ts).pos.line f a.1 a.2 >>= fun call =>
            plain (operators sc floor call) a.2
    else match operator? (peek ts) with
      | none => .ok (left, ts)
      | some op =>
        if floor < op.tier then
          plain (expression sc op.tier) ts.tail >>= fun a =>
            join (current sc.eof ts).pos.line op left a.1 a.2 >>= fun node =>
              plain (operators sc floor node) a.2
        else .ok (left, ts) := by
  cases ts with
  | nil =>
    rw [plain, operators]
    rfl
  | cons t rest =>
    have hpeek : peek (t :: rest) = t.kind := rfl
    have hcurrent : current sc.eof (t :: rest) = t := rfl
    rw [plain, operators, hpeek, hcurrent, List.tail_cons]
    split
    · rw [bare_check_bind]
      refine congrArg _ (funext fun f => bare_bind fun args rest₁ _ => ?_)
      rw [bare_check_bind]
      exact congrArg _ (funext fun call => bare_bind_ok fun e rest₂ _ => rfl)
    · cases operator? t.kind with
      | none => rfl
      | some op =>
        dsimp only
        split
        · refine bare_bind fun right rest₁ _ => ?_
          rw [bare_check_bind]
          exact congrArg _ (funext fun node => bare_bind_ok fun e rest₂ _ => rfl)
        · rfl

/-- The reader of arguments, without proofs. -/
theorem plain_arguments : plain (arguments sc) ts =
    if peek ts = .closeParen then .ok ([], ts.tail) else plain (argumentList sc) ts := by
  rw [plain, arguments]
  split
  · rfl
  · exact bare_bind_ok fun args rest _ => rfl

/-- The reader of argument lists, without proofs. -/
theorem plain_argumentList : plain (argumentList sc) ts =
    plain (expression sc 0) ts >>= fun a =>
      if peek a.2 = .comma then plain (argumentList sc) a.2.tail >>= fun b => .ok (a.1 :: b.1, b.2)
      else if peek a.2 = .closeParen then .ok ([a.1], a.2.tail)
      else unexpected sc.eof .listEnd a.2 := by
  rw [plain, argumentList]
  refine bare_bind fun arg rest _ => ?_
  dsimp only
  split
  · rename_i hcomma
    rw [if_pos hcomma]
    exact bare_bind fun args rest' _ => rfl
  · rename_i hclose
    rw [if_neg (by simp [hclose]), if_pos hclose]
    rfl
  · rename_i hcomma hclose
    rw [if_neg hcomma, if_neg hclose]
    rfl

variable {program : Program} {vars : List String}

/-- A name may stay undeclared if a parenthesis follows: this is where a reader looks one token further than the
one where it stands. -/
theorem local_variable (x : String) (hi : i < s.tokens.length) :
    Local Prod.mk s i fun s => if peek (s.tokens.drop (i + 1)) = .openParen ∨ x ∈ vars then
        .ok (Expr.var x, s.tokens.drop (i + 1))
      else fail (s.tokenAt i).pos.line (.undeclaredVariable x) (s.tokens.drop i) := by
  simp only [peek_drop]
  have hnext : ∀ s' : Stream, s'.LooksLike (i + 2) s →
      (s'.tokenAt (i + 1)).kind = (s.tokenAt (i + 1)).kind :=
    fun s' hs' => (hs' (i + 1) (Nat.lt_succ_self _) hi).1
  by_cases h : (s.tokenAt (i + 1)).kind = .openParen ∨ x ∈ vars
  · exact ⟨.ok (.var x) (i + 1), ⟨Nat.le_succ i, hi⟩, fun s' hs' => if_pos (by rwa [hnext s' hs'])⟩
  · exact ⟨.error (.undeclaredVariable x) i i, ⟨Nat.le_refl i, Nat.le_of_lt hi, Nat.le_refl i⟩,
      fun s' hs' => if_neg (by rwa [hnext s' hs'])⟩

/-- To read a constant is local: its number is in its lexeme. -/
theorem local_constant (hi : i < s.tokens.length) :
    Local Prod.mk s i fun s => match Text.readInt32 (s.tokenAt i).literal.toList with
      | some n => .ok (Expr.const n, s.tokens.drop (i + 1))
      | none => fail (s.tokenAt i).pos.line (.integerOutOfRange (s.tokenAt i).literal)
        (s.tokens.drop i) := by
  refine local_token (fun _ literal s => match Text.readInt32 literal.toList with
    | some n => .ok (Expr.const n, s.tokens.drop (i + 1))
    | none => fail (s.tokenAt i).pos.line (.integerOutOfRange literal) (s.tokens.drop i)) ?_
  cases Text.readInt32 (s.tokenAt i).literal.toList with
  | some n => exact (local_ok (Expr.const n) hi).mono (Nat.le_succ i)
  | none => exact local_fail _ (Nat.le_refl i) (Nat.le_of_lt hi)

/-- To read an operand is local. -/
theorem local_primary (hi : i ≤ s.tokens.length) :
    Local Prod.mk s i fun s => plain (primary ⟨s.eof, program, vars⟩) (s.tokens.drop i) := by
  refine Local.of_eq ?_ fun _ => plain_primary
  simp only [current_drop, List.tail_drop]
  refine local_ite (fun hconst => ?_) fun _ => local_ite (fun hident => ?_) fun _ => ?_
  · exact local_constant (lt_length_of_peek hconst (by decide))
  · have hlt := lt_length_of_peek hident (by decide)
    exact local_token (fun _ x s => if peek (s.tokens.drop (i + 1)) = .openParen ∨ x ∈ vars then
        .ok (Expr.var x, s.tokens.drop (i + 1))
      else fail (s.tokenAt i).pos.line (.undeclaredVariable x) (s.tokens.drop i)) (local_variable _ hlt)
  · exact local_unexpected _ hi

/-- The readers of expressions, started at a place. -/
structure LocalAt (s : Stream) (program : Program) (vars : List String) (i : Nat) : Prop where
  expression : ∀ floor, Local Prod.mk s i fun s =>
    plain (expression ⟨s.eof, program, vars⟩ floor) (s.tokens.drop i)
  operators : ∀ floor left, Local Prod.mk s i fun s =>
    plain (operators ⟨s.eof, program, vars⟩ floor left) (s.tokens.drop i)
  arguments : Local Prod.mk s i fun s => plain (arguments ⟨s.eof, program, vars⟩) (s.tokens.drop i)
  argumentList : Local Prod.mk s i fun s => plain (argumentList ⟨s.eof, program, vars⟩) (s.tokens.drop i)

section Expressions

variable (hi : i ≤ s.tokens.length)
  (hlater : ∀ j, i < j → j ≤ s.tokens.length → LocalAt s program vars j)

include hi hlater

/-- To read an expression is local, if it is so from all later places. -/
theorem local_expression_step (floor : Nat) : Local Prod.mk s i fun s =>
    plain (expression ⟨s.eof, program, vars⟩ floor) (s.tokens.drop i) := by
  refine Local.of_eq ?_ fun _ => plain_expression
  refine (local_primary hi).bind fun left j _ hj hread => ?_
  exact (hlater j (lt_of_shorter hread) hj).operators floor left

/-- To read operators is local, if the readers it calls are so from all later places. -/
theorem local_operators_step (floor : Nat) (left : Expr) : Local Prod.mk s i fun s =>
    plain (operators ⟨s.eof, program, vars⟩ floor left) (s.tokens.drop i) := by
  refine Local.of_eq ?_ fun _ => plain_operators
  simp only [current_drop, List.tail_drop]
  refine local_ite (fun hparen => ?_) fun hparen => ?_
  · have hlt := lt_length_of_peek hparen (by decide)
    refine local_check (settle_callee left) (Nat.le_refl i) hi fun f => ?_
    refine Local.mono ?_ (Nat.le_succ i)
    refine (hlater (i + 1) (Nat.lt_succ_self i) hlt).arguments.bind fun args j hij hj _ => ?_
    refine local_check (settle_checkCall program vars f args) (Nat.le_of_succ_le hij) hj fun call => ?_
    exact (hlater j hij hj).operators floor call
  · simp only [peek_drop]
    refine local_token (fun kind _ s => match operator? kind with
      | none => .ok (left, s.tokens.drop i)
      | some op =>
        if floor < op.tier then
          plain (expression ⟨s.eof, program, vars⟩ op.tier) (s.tokens.drop (i + 1)) >>= fun a =>
            join (s.tokenAt i).pos.line op left a.1 a.2 >>= fun node =>
              plain (operators ⟨s.eof, program, vars⟩ floor node) a.2
        else .ok (left, s.tokens.drop i)) ?_
    cases hop : operator? (s.tokenAt i).kind with
    | none => exact local_ok left hi
    | some op =>
      by_cases htier : floor < op.tier
      · simp only [if_pos htier]
        have hlt : i < s.tokens.length := by
          refine Stream.lt_length_of_kind fun heof => ?_
          rw [heof] at hop
          cases hop
        refine Local.mono ?_ (Nat.le_succ i)
        refine ((hlater (i + 1) (Nat.lt_succ_self i) hlt).expression op.tier).bind
          fun right j hij hj _ => ?_
        refine local_check (settle_join op left right) (Nat.le_of_succ_le hij) hj fun node => ?_
        exact (hlater j hij hj).operators floor node
      · simp only [if_neg htier]
        exact local_ok left hi

/-- To read an argument list is local, if the readers it calls are. -/
theorem local_argumentList_step : Local Prod.mk s i fun s =>
    plain (argumentList ⟨s.eof, program, vars⟩) (s.tokens.drop i) := by
  refine Local.of_eq ?_ fun _ => plain_argumentList
  refine (local_expression_step hi hlater 0).bind fun arg j hij hj _ => ?_
  exact local_listEnd arg hj fun hlt => (hlater (j + 1) (Nat.lt_succ_of_le hij) hlt).argumentList

/-- To read arguments is local, if the readers it calls are. -/
theorem local_arguments_step : Local Prod.mk s i fun s =>
    plain (arguments ⟨s.eof, program, vars⟩) (s.tokens.drop i) := by
  exact Local.of_eq (local_list (local_argumentList_step hi hlater)) fun _ => plain_arguments

end Expressions

/-- **The readers of expressions are local at every place,** since they are if they are at all later ones. -/
theorem localAt (program : Program) (vars : List String) (hi : i ≤ s.tokens.length) :
    LocalAt s program vars i := by
  refine s.later_induction (fun i hi hlater => ?_) i hi
  exact ⟨local_expression_step hi hlater, local_operators_step hi hlater,
    local_arguments_step hi hlater, local_argumentList_step hi hlater⟩

/-! ### Signatures and bodies -/

/-- The reader of parameter lists, without proofs. -/
theorem plain_parameterList : plain (parameterList eof) ts =
    pass eof .int ts >>= fun a => plain (name eof) a.2 >>= fun b =>
      if peek b.2 = .comma then plain (parameterList eof) b.2.tail >>= fun c => .ok (b.1 :: c.1, c.2)
      else if peek b.2 = .closeParen then .ok ([b.1], b.2.tail)
      else unexpected eof .listEnd b.2 := by
  rw [plain, parameterList]
  refine bare_expect_bind (by decide) fun rest₁ _ => bare_bind fun param rest₂ _ => ?_
  dsimp only
  split
  · rename_i hcomma
    rw [if_pos hcomma]
    exact bare_bind fun params rest₃ _ => rfl
  · rename_i hclose
    rw [if_neg (by simp [hclose]), if_pos hclose]
    rfl
  · rename_i hcomma hclose
    rw [if_neg hcomma, if_neg hclose]
    rfl

/-- To read a parameter list is local, by induction on the places that are left. -/
theorem local_parameterList (hi : i ≤ s.tokens.length) :
    Local Prod.mk s i fun s => plain (parameterList s.eof) (s.tokens.drop i) := by
  refine s.later_induction (fun i hi hlater => ?_) i hi
  refine Local.of_eq ?_ fun _ => plain_parameterList
  refine (local_pass (by decide) hi).bind fun _ j hij hj _ => ?_
  refine (local_name hj).bind fun param k hjk hk _ => ?_
  exact local_listEnd param hk fun hlt => hlater (k + 1) (by omega) hlt

/-- The reader of parameters, without proofs. -/
theorem plain_parameters : plain (parameters eof) ts =
    if peek ts = .closeParen then .ok ([], ts.tail) else plain (parameterList eof) ts := by
  rw [plain, parameters]
  split
  · rfl
  · exact bare_bind_ok fun params rest _ => rfl

/-- The reader of signatures, without proofs. -/
theorem plain_signature : plain (signature eof) ts =
    pass eof .int ts >>= fun a => plain (name eof) a.2 >>= fun b =>
      pass eof .openParen b.2 >>= fun c => plain (parameters eof) c.2 >>= fun d =>
        match Names.firstRepeated d.1 with
        | some param => fail (current eof ts).pos.line (.duplicateParameter b.1 param) d.2
        | none => .ok (⟨b.1, d.1⟩, d.2) := by
  rw [plain, signature]
  refine bare_expect_bind (by decide) fun rest₁ _ => bare_bind fun f rest₂ _ => ?_
  refine bare_expect_bind (by decide) fun rest₃ _ => bare_bind fun params rest₄ _ => ?_
  dsimp only
  cases Names.firstRepeated params <;> rfl

/-- To read a signature is local: a parameter that is named twice is reported with the line where it
starts. -/
theorem local_signature (hi : i ≤ s.tokens.length) :
    Local Prod.mk s i fun s => plain (signature s.eof) (s.tokens.drop i) := by
  refine Local.of_eq ?_ fun _ => plain_signature
  simp only [current_drop]
  refine (local_pass (by decide) hi).bind fun _ j hij hj _ => ?_
  refine (local_name hj).bind fun f k hjk hk _ => ?_
  refine (local_pass (by decide) hk).bind fun _ l hkl hl _ => ?_
  have hparams := Local.of_eq (local_list (local_parameterList hl)) fun _ => plain_parameters
  refine hparams.bind fun params m hlm hm _ => ?_
  dsimp only
  cases Names.firstRepeated params with
  | none => exact local_ok _ hm
  | some param => exact local_fail _ (by omega) hm

/-- The reader of local variables, without proofs. -/
theorem plain_locals : plain (locals eof vars) ts =
    if peek ts = .int then
      pass eof .int ts >>= fun a => plain (name eof) a.2 >>= fun b =>
        if b.1 ∈ vars then fail (current eof ts).pos.line (.duplicateVariable b.1) b.2
        else pass eof .semicolon b.2 >>= fun c =>
          plain (locals eof (vars ++ [b.1])) c.2 >>= fun d => .ok (b.1 :: d.1, d.2)
    else .ok ([], ts) := by
  rw [plain, locals]
  split
  · refine bare_expect_bind (by decide) fun rest₁ _ => bare_bind fun x rest₂ _ => ?_
    dsimp only
    split
    · rfl
    · exact bare_expect_bind (by decide) fun rest₃ _ => bare_bind fun xs rest₄ _ => rfl
  · rfl

/-- To read local variables is local, by induction on the places that are left. -/
theorem local_locals (hi : i ≤ s.tokens.length) : ∀ vars : List String,
    Local Prod.mk s i fun s => plain (locals s.eof vars) (s.tokens.drop i) := by
  refine s.later_induction (fun i hi hlater vars => ?_) i hi
  refine Local.of_eq ?_ fun _ => plain_locals
  simp only [current_drop]
  refine local_ite (fun _ => ?_) fun _ => local_ok [] hi
  refine (local_pass (by decide) hi).bind fun _ j hij hj _ => ?_
  refine (local_name hj).bind fun x k hjk hk hread => ?_
  have hlt : j < k := lt_of_shorter hread
  by_cases hx : x ∈ vars
  · simp only [if_pos hx]
    exact local_fail _ (by omega) hk
  · simp only [if_neg hx]
    refine (local_pass (by decide) hk).bind fun _ l hkl hl _ => ?_
    refine (hlater l (by omega) hl (vars ++ [x])).bind fun xs m _ hm _ => ?_
    exact local_ok (x :: xs) hm

/-- The reader of statements one by one, without proofs. -/
theorem plain_statement : plain (statement sc) ts =
    if peek ts = .ret then
      pass sc.eof .ret ts >>= fun a => plain (expression sc 0) a.2 >>= fun b =>
        pass sc.eof .semicolon b.2 >>= fun c => .ok (.ret b.1, c.2)
    else plain (expression sc 0) ts >>= fun a =>
      pass sc.eof .semicolon a.2 >>= fun b => .ok (.expr a.1, b.2) := by
  rw [plain, statement]
  split
  · refine bare_expect_bind (by decide) fun rest₁ _ => bare_bind fun e rest₂ _ => ?_
    exact bare_expect_bind (by decide) fun rest₃ _ => rfl
  · exact bare_bind fun e rest₁ _ => bare_expect_bind (by decide) fun rest₂ _ => rfl

/-- To read a statement is local. -/
theorem local_statement (hi : i ≤ s.tokens.length) :
    Local Prod.mk s i fun s => plain (statement ⟨s.eof, program, vars⟩) (s.tokens.drop i) := by
  refine Local.of_eq ?_ fun _ => plain_statement
  refine local_ite (fun _ => ?_) fun _ => ?_
  · refine (local_pass (by decide) hi).bind fun _ j _ hj _ => ?_
    refine ((localAt program vars hj).expression 0).bind fun e k _ hk _ => ?_
    exact (local_pass (by decide) hk).bind fun _ l _ hl _ => local_ok (Stmt.ret e) hl
  · refine ((localAt program vars hi).expression 0).bind fun e j _ hj _ => ?_
    exact (local_pass (by decide) hj).bind fun _ k _ hk _ => local_ok (Stmt.expr e) hk

/-- The reader of all statements of a body, without proofs. -/
theorem plain_statements : plain (statements sc) ts =
    if peek ts = .closeBrace then .ok ([], ts)
    else if peek ts = .eof then unexpected sc.eof (.kind .closeBrace) ts
    else plain (statement sc) ts >>= fun a =>
      plain (statements sc) a.2 >>= fun b => .ok (a.1 :: b.1, b.2) := by
  rw [plain, statements]
  split
  · rename_i hclose
    rw [if_pos hclose]
    rfl
  · rename_i heof
    rw [if_neg (by simp [heof]), if_pos heof]
    rfl
  · rename_i hclose heof
    rw [if_neg hclose, if_neg heof]
    exact bare_bind fun s rest₁ _ => bare_bind fun ss rest₂ _ => rfl

/-- To read the statements of a body is local, by induction on the places that are left. -/
theorem local_statements (program : Program) (vars : List String) (hi : i ≤ s.tokens.length) :
    Local Prod.mk s i fun s => plain (statements ⟨s.eof, program, vars⟩) (s.tokens.drop i) := by
  refine s.later_induction (fun i hi hlater => ?_) i hi
  refine Local.of_eq ?_ fun _ => plain_statements
  refine local_ite (fun _ => local_ok [] hi) fun _ => local_ite (fun _ => local_unexpected _ hi) fun _ => ?_
  refine (local_statement hi).bind fun stmt j _ hj hread => ?_
  refine (hlater j (lt_of_shorter hread) hj).bind fun stmts k _ hk _ => ?_
  exact local_ok (stmt :: stmts) hk

/-- The reader of bodies, without proofs. -/
theorem plain_body {proto : Prototype} : plain (body eof program proto) ts =
    pass eof .openBrace ts >>= fun a => plain (locals eof proto.params) a.2 >>= fun b =>
      plain (statements ⟨eof, program, proto.params ++ b.1⟩) b.2 >>= fun c =>
        if c.1.getLast?.any Stmt.isReturn then
          pass eof .closeBrace c.2 >>= fun d => .ok (⟨proto, declarations proto.params b.1, c.1⟩, d.2)
        else fail (current eof c.2).pos.line (.missingReturn proto.name) c.2 := by
  rw [plain, body]
  refine bare_expect_bind (by decide) fun rest₁ _ => bare_bind fun xs rest₂ _ => ?_
  refine bare_bind fun stmts rest₃ _ => ?_
  dsimp only
  split
  · exact bare_expect_bind (by decide) fun rest₄ _ => rfl
  · rfl

/-- To read a body is local. -/
theorem local_body (proto : Prototype) (hi : i ≤ s.tokens.length) :
    Local Prod.mk s i fun s => plain (body s.eof program proto) (s.tokens.drop i) := by
  refine Local.of_eq ?_ fun _ => plain_body
  refine (local_pass (by decide) hi).bind fun _ j _ hj _ => ?_
  refine (local_locals hj proto.params).bind fun xs k _ hk _ => ?_
  refine (local_statements program (proto.params ++ xs) hk).bind fun stmts l _ hl _ => ?_
  simp only [current_drop]
  by_cases hreturn : stmts.getLast?.any Stmt.isReturn
  · simp only [if_pos hreturn]
    exact (local_pass (by decide) hl).bind fun _ m _ hm _ => local_ok _ hm
  · simp only [if_neg hreturn]
    exact local_fail _ (Nat.le_refl l) hl

/-! ### Programs -/

/-- The reader of programs: one item, and the items after it with what that item adds. -/
theorem items_eq : items eof program ts =
    if peek ts = .int then
      plain (signature eof) ts >>= fun a =>
        if peek a.2 = .semicolon then
          check (current eof ts).pos.line a.2 (checkDeclaration program a.1) >>= fun _ =>
            items eof ⟨program.prototypes ++ [a.1], program.functions⟩ a.2.tail
        else if peek a.2 = .openBrace then
          check (current eof ts).pos.line a.2 (checkDefinition program a.1) >>= fun _ =>
            plain (body eof program a.1) a.2 >>= fun b =>
              items eof ⟨program.prototypes, program.functions ++ [b.1]⟩ b.2
        else unexpected eof .signatureEnd a.2
    else if peek ts = .eof then .ok program
    else unexpected eof .item ts := by
  rw [items]
  split
  · rename_i hint
    rw [if_pos hint]
    refine bind_bare fun proto rest _ => ?_
    dsimp only
    split
    · rename_i hsemicolon
      rw [if_pos hsemicolon]
    · rename_i hbrace
      rw [if_neg (by simp [hbrace]), if_pos hbrace]
      exact congrArg _ (funext fun _ => bind_bare fun f rest' _ => rfl)
    · rename_i hsemicolon hbrace
      rw [if_neg hsemicolon, if_neg hbrace]
  · rename_i heof
    rw [if_neg (by simp [heof]), if_pos heof]
  · rename_i hint heof
    rw [if_neg hint, if_neg heof]

/-- **The reader of programs is local.** -/
theorem local_items (hi : i ≤ s.tokens.length) : ∀ program : Program,
    Local (fun p _ => p) s i fun s => items s.eof program (s.tokens.drop i) := by
  refine s.later_induction (fun i hi hlater program => ?_) i hi
  refine Local.of_eq ?_ fun _ => items_eq
  simp only [current_drop]
  refine local_ite (fun _ => ?_) fun _ =>
    local_ite (fun _ => local_ok program hi) fun _ => local_unexpected _ hi
  refine (local_signature hi).bind fun proto j hij hj hread => ?_
  have hlt : i < j := lt_of_shorter hread
  simp only [List.tail_drop]
  refine local_ite (fun hsemicolon => ?_) fun _ => local_ite (fun _ => ?_) fun _ => local_unexpected _ hj
  · refine local_check (settle_check _) hij hj fun _ => ?_
    have hnext := lt_length_of_peek hsemicolon (by decide)
    exact (hlater (j + 1) (by omega) hnext _).mono (Nat.le_succ j)
  · refine local_check (settle_check _) hij hj fun _ => ?_
    refine (local_body proto hj).bind fun f k hjk hk _ => ?_
    exact hlater k (by omega) hk ⟨program.prototypes, program.functions ++ [f]⟩

end Parser

/-- Reading a whole stream is local. -/
theorem local_parseTokens (s : Token.Stream) : Parser.Local (fun p _ => p) s 0 parseTokens :=
  Parser.local_items (Nat.zero_le s.tokens.length) Program.builtin

/-- **The first mistake decides.**  A failed reading stands on a token of the stream.  Every stream with the same
tokens up to the one after it, or with the same tokens if it is the end mark, fails at the same place and with the
same error.  The line of the error is that of a token which is not after the place, and so a line of the text. -/
theorem failure_is_local (s : Token.Stream) (f : Parser.Failure) (h : parseTokens s = .error f) :
    ∃ c : Token.Cursor, c.stream = s ∧ c.rest = f.rest ++ [s.eof] ∧
      (∀ s' : Token.Stream, s'.toList.take (c.index + 2) = s.toList.take (c.index + 2) →
        parseTokens s' = .error ⟨f.error, s'.tokens.drop c.index⟩) ∧
      (∃ t ∈ s.toList.take (c.index + 1), f.error.line = t.pos.line) ∧
      ∀ source, s = Token.lex source →
        1 ≤ f.error.line ∧ f.error.line ≤ 1 + source.toList.count '\n' := by
  obtain ⟨v, hv, hread⟩ := local_parseTokens s
  have hself := hread s (s.looksLike_self _)
  rw [h] at hself
  cases v with
  | ok p next => cases hself
  | error cause place cursor =>
    obtain ⟨-, hcursor, hplace⟩ := hv
    cases hself
    have hrange : cursor < s.toList.length := by
      rw [Token.Stream.toList, List.length_append]
      exact Nat.lt_succ_of_le hcursor
    have hget : s.toList[place]? = some (s.tokenAt place) :=
      Token.Stream.getElem?_toList (Nat.le_trans hplace hcursor)
    refine ⟨⟨s, cursor, hrange⟩, rfl, ?_, fun s' hs' => ?_, ⟨s.tokenAt place, ?_, rfl⟩, ?_⟩
    · exact List.drop_append_of_le_length hcursor
    · have hsame : ∀ i < cursor + 2, i ≤ s.tokens.length → s'.tokenAt i = s.tokenAt i :=
        fun i hi => Token.Stream.tokenAt_eq_of_take hs' hi
      have hlike : s'.LooksLike (cursor + 2) s :=
        fun i hi hle => ⟨congrArg Token.kind (hsame i hi hle), congrArg Token.literal (hsame i hi hle)⟩
      rw [hread s' hlike, ← hsame place (by omega) (by omega)]
      rfl
    · rw [← List.getElem?_take_of_lt (Nat.lt_succ_of_le hplace)] at hget
      exact List.mem_of_getElem? hget
    · rintro source rfl
      exact Token.line_of_mem_lex (List.mem_of_getElem? hget)

/-- A signature that names a parameter twice, over two lines. -/
def twice : String := "int f(int a,\nint a);"

/-- The hypothesis is satisfiable: the line that is reported is that of the signature, not that of the
cursor. -/
theorem failure_is_local_twice :
    parseTokens (Token.lex twice) =
      .error ⟨⟨1, .duplicateParameter "f" "a"⟩, [⟨.semicolon, ";", ⟨2, 7⟩⟩]⟩ ∧
    ∃ c : Token.Cursor, c.stream = Token.lex twice ∧
      c.rest = [⟨.semicolon, ";", ⟨2, 7⟩⟩] ++ [(Token.lex twice).eof] ∧
      (∀ s' : Token.Stream, s'.toList.take (c.index + 2) = (Token.lex twice).toList.take (c.index + 2) →
        parseTokens s' = .error ⟨⟨1, .duplicateParameter "f" "a"⟩, s'.tokens.drop c.index⟩) ∧
      (∃ t ∈ (Token.lex twice).toList.take (c.index + 1), 1 = t.pos.line) ∧
      ∀ source, Token.lex twice = Token.lex source → 1 ≤ 1 ∧ 1 ≤ 1 + source.toList.count '\n' :=
  have h : parseTokens (Token.lex twice) =
      .error ⟨⟨1, .duplicateParameter "f" "a"⟩, [⟨.semicolon, ";", ⟨2, 7⟩⟩]⟩ := by cbv
  ⟨h, failure_is_local _ _ h⟩

end Source
end Straightline
