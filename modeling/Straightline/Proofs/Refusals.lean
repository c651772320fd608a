/-
# Refused requests

A script may do with a refusal what it likes: go on, ask again, or end with some error.  Lowering always
ends, at once and with the error for the request that was refused (`Error.ofRefusal`, `Script.FailStop`).
This is shown along the definitions of the generator (`Gen.Stepwise`): it hangs on what is done with the
answer wherever a request is made (`Gen.failStop_ask_backend`, `Gen.failStop_linkFile`).

Then a target is made to refuse one of the fallible requests of a run, counted from zero, in any words and
with any change to itself (`Target.refusing`).  The run goes as it would have gone up to that request, and is
over: nothing is asked after it, and the error tells of the refusal (`Run.StopsAt`).  If not that many
fallible requests are made, nothing changes.  This is shown along a script that ends at the first refusal, by
the number of fallible requests that are still answered (`Script.record_refusing`).
-/

import Straightline.Proofs.Protocol
import Straightline.Proofs.Stepwise

namespace Straightline
namespace Lowering

open Source (Expr Stmt Decl Prototype Program)

variable {F V S σ σ' ε α β : Type}

/-! ### Answers -/

namespace Answer

variable {ρ : Type} {fallible : Bool}

/-- A request that can be refused is refused, whatever the answer would have been. -/
theorem result_refused (h : fallible = true) (refusal : ε) (answer : Answer ε ρ fallible) :
    (answer.refused refusal).result = .error refusal := by
  subst h
  rfl

/-- A request that cannot be refused has a reply. -/
theorem result_ne_error (h : fallible = false) (answer : Answer ε ρ fallible) (refusal : ε) :
    answer.result ≠ .error refusal := by
  subst h
  intro h
  cases h

end Answer

/-! ### Scripts that end at the first refusal -/

/-- The error for a refused request. -/
def Error.ofRefusal (refusal : ε) : Request F V S → Error ε
  | .linkFile path => link path refusal
  | _ => backend refusal

/-- Only a request to link wraps its refusal in another way. -/
theorem Error.ofRefusal_eq_backend {r : Request F V S} (refusal : ε) (h : ∀ path, r ≠ .linkFile path) :
    Error.ofRefusal refusal r = .backend refusal := by
  cases r with
  | linkFile path => exact absurd rfl (h path)
  | _ => rfl

namespace Script

/-- A script that ends as soon as a request is refused, with the error for it, whatever it was answered
before. -/
def FailStop : Script F V S ε α → Prop
  | done _ => True
  | fail _ => True
  | ask r next => ∀ answer,
    (∀ refusal, answer.result = .error refusal → next answer = fail (.ofRefusal refusal r)) ∧
      (next answer).FailStop

/-- Two scripts that end at the first refusal do so one after the other. -/
theorem FailStop.bind {x : Script F V S ε α} {g : α → Script F V S ε β} (hx : x.FailStop)
    (hg : ∀ a, (g a).FailStop) : (x >>= g).FailStop := by
  induction x with
  | done a => exact hg a
  | fail error => trivial
  | ask r next ih =>
    refine fun answer => ⟨fun refusal hrefusal => ?_, ih answer (hx answer).2⟩
    have hnext := (hx answer).1 refusal hrefusal
    show next answer >>= g = fail (.ofRefusal refusal r)
    rw [hnext, fail_bind]

end Script

namespace Gen

/-- A script that ends at the first refusal, in any scope. -/
def FailStop (x : Gen F V S ε α) : Prop :=
  ∀ scope, (x scope).FailStop

theorem failStop_pure (a : α) : (pure a : Gen F V S ε α).FailStop := fun _ => trivial

/-- A failure sends no request that could be refused. -/
theorem failStop_fail (error : Error ε) : (fail error : Gen F V S ε α).FailStop := fun _ => trivial

/-- A composition stops at a refusal if both parts do. -/
theorem FailStop.bind {x : Gen F V S ε α} {g : α → Gen F V S ε β} (hx : x.FailStop)
    (hg : ∀ a, (g a).FailStop) : (x >>= g).FailStop :=
  fun scope => (hx scope).bind fun a => hg a.1 a.2

/-- What is asked without a chance of refusal may be followed by anything. -/
theorem failStop_ask {r : Request F V S} (hr : r.fallible = false) :
    (ask r : Gen F V S ε (r.Answer ε)).FailStop :=
  fun _ answer => ⟨fun refusal h => absurd h (Answer.result_ne_error hr answer refusal), trivial⟩

/-- An answer that is a refusal is passed on. -/
theorem failStop_backend (answer : Except ε α) : (backend answer : Gen F V S ε α).FailStop := by
  cases answer with
  | error refusal => exact failStop_fail _
  | ok reply => exact failStop_pure reply

/-- The same for the answer to a request to link, with the path. -/
theorem failStop_linked (path : String) (answer : Except ε Unit) :
    (linked path answer : Gen F V S ε Unit).FailStop := by
  cases answer with
  | error refusal => exact failStop_fail _
  | ok reply => exact failStop_pure _

/-- **A request that is wrapped as a request of the target ends the script if it is refused.** -/
theorem failStop_ask_backend {r : Request F V S} (hr : ∀ path, r ≠ .linkFile path) :
    (ask r >>= fun answer => backend answer.result : Gen F V S ε r.Reply).FailStop := by
  refine fun scope answer => ⟨fun refusal hrefusal => ?_, failStop_backend answer.result scope⟩
  show (backend answer.result : Gen F V S ε r.Reply) scope = .fail (.ofRefusal refusal r)
  rw [hrefusal, Error.ofRefusal_eq_backend refusal hr]
  rfl

/-- **A file that cannot be linked ends the script, with an error that names the file.** -/
theorem failStop_linkFile (path : String) :
    (ask (.linkFile path) >>= linked path : Gen F V S ε Unit).FailStop := by
  refine fun scope answer => ⟨fun refusal hrefusal => ?_, failStop_linked path answer scope⟩
  obtain rfl : answer = .error refusal := hrefusal
  rfl

/-- A definition starts with a request that cannot be refused. -/
theorem failStop_enter {f : F} {r : Request F V S} {g : F → Gen F V S ε α} (hr : r.fallible = false)
    (hg : (g f).FailStop) :
    (do set (⟨some f, []⟩ : Scope F S); let _ ← ask r; g (← current)).FailStop :=
  fun _ answer =>
    ⟨fun refusal h => absurd h (Answer.result_ne_error hr answer refusal), hg ⟨some f, []⟩⟩

/-- **Every step of lowering ends it if it is refused.** -/
theorem stepwise_failStop : Stepwise fun α (x : Gen F V S ε α) => x.FailStop where
  result := failStop_pure
  andThen := FailStop.bind
  failure _ := failStop_fail _
  look h scope := h scope scope
  change _ _ := trivial
  request _ := failStop_ask
  reply _ := failStop_ask_backend
  link := failStop_linkFile
  enter := failStop_enter

end Gen

/-! ### Targets that refuse a request -/

namespace Target

variable {T : Target F V S σ ε} {refuse : Request F V S → σ → ε × σ} {r : Request F V S} {s : σ}
  {calls number : Nat}

/-- A target that refuses the fallible request before which `number` others came, and answers all others as
`T` does.  It counts the fallible requests. -/
def refusing (T : Target F V S σ ε) (number : Nat) (refuse : Request F V S → σ → ε × σ) :
    Target F V S (σ × Nat) ε where
  handle r s :=
    if r.fallible ∧ s.2 = number then
      ((T.handle r s.1).1.refused (refuse r s.1).1, (refuse r s.1).2, s.2 + 1)
    else ((T.handle r s.1).1, (T.handle r s.1).2, if r.fallible then s.2 + 1 else s.2)

/-- The request whose turn it is, is refused. -/
theorem handle_refusing (hr : r.fallible = true) :
    (T.refusing number refuse).handle r (s, number) =
      ((T.handle r s).1.refused (refuse r s).1, (refuse r s).2, number + 1) :=
  if_pos ⟨hr, rfl⟩

/-- All other requests are answered as before. -/
theorem handle_refusing_of_not (h : ¬ (r.fallible = true ∧ calls = number)) :
    (T.refusing number refuse).handle r (s, calls) =
      ((T.handle r s).1, (T.handle r s).2, if r.fallible then calls + 1 else calls) :=
  if_neg h

end Target

/-! ### What there is to tell of a run -/

/-- A run: what was asked and answered, how it ended, and the target then. -/
structure Run (F V S σ ε α : Type) where
  events : List (Event F V S)
  outcome : Except (Error ε) α
  state : σ

namespace Run

/-- A run that begins with one more event. -/
def cons (e : Event F V S) (run : Run F V S σ ε α) : Run F V S σ ε α :=
  { run with events := e :: run.events }

/-- A run on a target of which only a part is looked at. -/
def mapState (part : σ → σ') (run : Run F V S σ ε α) : Run F V S σ' ε α :=
  ⟨run.events, run.outcome, part run.state⟩

/-- The number of fallible requests. -/
def fallibleCount (run : Run F V S σ ε α) : Nat :=
  run.events.countP fun e => e.request.fallible

/-- A run has one request more that could be refused if its first one is such. -/
theorem fallibleCount_cons (e : Event F V S) (run : Run F V S σ ε α) :
    (run.cons e).fallibleCount = run.fallibleCount + if e.request.fallible then 1 else 0 :=
  List.countP_cons

variable {T : Target F V S σ ε} {refuse : Request F V S → σ → ε × σ} {number : Nat} {s : σ}
  {run run' : Run F V S σ ε α} {r : Request F V S}

/-- A run goes like another one up to the fallible request before which `number` others came; that is refused,
and the run ends with an error that tells of it. -/
def StopsAt (T : Target F V S σ ε) (refuse : Request F V S → σ → ε × σ) (number : Nat) (s : σ)
    (run run' : Run F V S σ ε α) : Prop :=
  ∃ before e after reached, run.events = before ++ e :: after ∧
    before.countP (fun e => e.request.fallible) = number ∧ e.request.fallible = true ∧
    T.Answered s before reached ∧
    run' = ⟨before ++ [⟨e.request, none⟩],
      .error (.ofRefusal (refuse e.request reached).1 e.request), (refuse e.request reached).2⟩

/-- A run that stops does so with one more request before it. -/
theorem StopsAt.cons (h : StopsAt T refuse number (T.handle r s).2 run run') :
    StopsAt T refuse (number + if r.fallible then 1 else 0) s
      (run.cons ⟨r, (T.handle r s).1.result.toOption⟩)
      (run'.cons ⟨r, (T.handle r s).1.result.toOption⟩) := by
  obtain ⟨before, e, after, reached, hevents, hcount, he, hanswered, rfl⟩ := h
  refine ⟨⟨r, (T.handle r s).1.result.toOption⟩ :: before, e, after, reached, ?_, ?_, he, ?_, rfl⟩
  · rw [Run.cons, hevents, List.cons_append]
  · rw [List.countP_cons, hcount]
  · exact ⟨rfl, hanswered⟩

/-- A run is stopped if it makes enough fallible requests, and else it is as it would have been. -/
def StopsOrSame (T : Target F V S σ ε) (refuse : Request F V S → σ → ε × σ) (number : Nat) (s : σ)
    (run run' : Run F V S σ ε α) : Prop :=
  (number < run.fallibleCount ∧ StopsAt T refuse number s run run') ∨
    (run.fallibleCount ≤ number ∧ run' = run)

/-- Runs that stop or are the same do so with one more request before them. -/
theorem StopsOrSame.cons (h : StopsOrSame T refuse number (T.handle r s).2 run run') :
    StopsOrSame T refuse (number + if r.fallible then 1 else 0) s
      (run.cons ⟨r, (T.handle r s).1.result.toOption⟩)
      (run'.cons ⟨r, (T.handle r s).1.result.toOption⟩) := by
  unfold StopsOrSame
  rw [fallibleCount_cons]
  rcases h with ⟨hlt, hstops⟩ | ⟨hle, rfl⟩
  · exact .inl ⟨Nat.add_lt_add_right hlt _, hstops.cons⟩
  · exact .inr ⟨Nat.add_le_add_right hle _, rfl⟩

end Run

namespace Script

/-- The run of a script. -/
def record (T : Target F V S σ ε) (x : Script F V S ε α) (s : σ) : Run F V S σ ε α :=
  ⟨x.trace T s, (x.run T s).1, (x.run T s).2⟩

variable {T : Target F V S σ ε} {r : Request F V S} {next : r.Answer ε → Script F V S ε α} {s : σ}

/-- A run starts with the request and its answer, and goes on from there. -/
theorem record_ask {σ : Type} {T : Target F V S σ ε} {s : σ} {answer : r.Answer ε} {s' : σ}
    (h : T.handle r s = (answer, s')) :
    (ask r next).record T s = ((next answer).record T s').cons ⟨r, answer.result.toOption⟩ := by
  unfold record
  rw [trace, run, h]
  rfl

/-- If it is the first fallible request that is refused, a script that starts with one is over at once. -/
theorem stopsOrSame_ask (hx : (ask r next).FailStop) (refuse : Request F V S → σ → ε × σ) (calls : Nat)
    (hr : r.fallible = true) :
    Run.StopsOrSame T refuse 0 s ((ask r next).record T s)
      (((ask r next).record (T.refusing calls refuse) (s, calls)).mapState Prod.fst) := by
  refine .inl ⟨?_, [], _, _, s, rfl, rfl, hr, rfl, ?_⟩
  · rw [record_ask rfl, Run.fallibleCount_cons, if_pos hr]
    exact Nat.succ_pos _
  · have hresult := Answer.result_refused hr (refuse r s).1 (T.handle r s).1
    rw [record_ask (Target.handle_refusing hr), hresult, (hx _).1 _ hresult]
    rfl

/-- **A run stops at the refused request, or is as it would have been.**  The induction is on the script; a
fallible request that is answered leaves one less to be answered before the refusal. -/
theorem record_refusing (T : Target F V S σ ε) (refuse : Request F V S → σ → ε × σ)
    {x : Script F V S ε α} (hx : x.FailStop) (s : σ) (calls number : Nat) :
    Run.StopsOrSame T refuse number s (x.record T s)
      ((x.record (T.refusing (calls + number) refuse) (s, calls)).mapState Prod.fst) := by
  induction x generalizing s calls number with
  | done a => exact .inr ⟨Nat.zero_le _, rfl⟩
  | fail error => exact .inr ⟨Nat.zero_le _, rfl⟩
  | ask r next ih =>
    have hnext := (hx (T.handle r s).1).2
    cases hr : r.fallible with
    | false =>
      have hinfallible : ¬ r.fallible = true := by simp [hr]
      have h := (ih _ hnext (T.handle r s).2 calls number).cons
      rw [if_neg hinfallible] at h
      rw [record_ask rfl, record_ask (Target.handle_refusing_of_not fun h => hinfallible h.1),
        if_neg hinfallible]
      exact h
    | true =>
      cases number with
      | zero => -- this is the request that is refused, and the script ends
        exact stopsOrSame_ask hx refuse calls hr
      | succ number =>
        have hanswered : ¬ (r.fallible = true ∧ calls = calls + (number + 1)) := by omega
        have h := (ih _ hnext (T.handle r s).2 (calls + 1) number).cons
        rw [if_pos hr, Nat.add_right_comm] at h
        rw [record_ask rfl, record_ask (Target.handle_refusing_of_not hanswered), if_pos hr]
        exact h

end Script

/-! ### Lowering on a target that refuses -/

/-- **Lowering stops at the first refusal.**  Of a target, in any state, one fallible request more is refused,
in any words and with any change to the target.  If lowering a program, in order or not, makes that many
fallible requests, then it asks what it would have asked up to the refused request, which is the last; and
the error holds the refusal, and the path of the file if it was to be linked.  If it does not, then it asks
what it would have asked and ends as it would have ended. -/
theorem generate_refusing (T : Target F V S σ ε) (refuse : Request F V S → σ → ε × σ) (number : Nat)
    (scope : Scope F S) (p : Program) (link : Option String) (s : σ) :
    (number < (generateTrace T scope p link s).countP (fun e => e.request.fallible) →
      ∃ before e after reached, generateTrace T scope p link s = before ++ e :: after ∧
        before.countP (fun e => e.request.fallible) = number ∧ e.request.fallible = true ∧
        T.Answered s before reached ∧
        generateTrace (T.refusing number refuse) scope p link (s, 0) = before ++ [⟨e.request, none⟩] ∧
        (∀ path, e.request = .linkFile path →
          (generate (T.refusing number refuse) scope p link (s, 0)).1 =
            .error (.link path (refuse e.request reached).1)) ∧
        ((∀ path, e.request ≠ .linkFile path) →
          (generate (T.refusing number refuse) scope p link (s, 0)).1 =
            .error (.backend (refuse e.request reached).1)) ∧
        (generate (T.refusing number refuse) scope p link (s, 0)).2.1 = (refuse e.request reached).2) ∧
    ((generateTrace T scope p link s).countP (fun e => e.request.fallible) ≤ number →
      generateTrace (T.refusing number refuse) scope p link (s, 0) = generateTrace T scope p link s ∧
      (generate (T.refusing number refuse) scope p link (s, 0)).1 = (generate T scope p link s).1 ∧
      (generate (T.refusing number refuse) scope p link (s, 0)).2.1 = (generate T scope p link s).2) := by
  have hstops : (Prod.fst <$> (Gen.program p link : Gen F V S ε Unit) scope).FailStop :=
    (Gen.stepwise_failStop.program p link scope).bind fun _ => trivial
  have h := Script.record_refusing T refuse hstops s 0 number
  rw [Nat.zero_add] at h
  rcases h with ⟨hlt, before, e, after, reached, hevents, hcount, he, hanswered, hrun⟩ | ⟨hle, hrun⟩
  · obtain ⟨htrace, houtcome, hstate⟩ := Run.mk.inj hrun
    refine ⟨fun _ => ⟨before, e, after, reached, hevents, hcount, he, hanswered, htrace, ?_, ?_, hstate⟩,
      fun hle => absurd hlt (Nat.not_lt.2 hle)⟩
    · intro path hpath
      rw [hpath] at houtcome ⊢
      exact houtcome
    · intro hpath
      rw [Error.ofRefusal_eq_backend _ hpath] at houtcome
      exact houtcome
  · exact ⟨fun hlt => absurd hle (Nat.not_le.2 hlt), fun _ => Run.mk.inj hrun⟩

/-- The value of a `return` is refused, and the file is not linked. -/
example : generateTrace ((recorderTarget none).refusing 1 fun _ rec => ("full", rec)) .empty
    ⟨[], [⟨⟨"f", []⟩, [], [.ret (.const 1)]⟩]⟩ (some "lib.ll") (.ofFunctions [], 0) =
      [⟨.getFunction "f", some none⟩, ⟨.declareFunction "f" [], some (0 : Nat)⟩,
        ⟨.appendEntryBlock 0, some ()⟩, ⟨.constInt 1, some "1"⟩, ⟨.ret "1", none⟩] := by
  rfl

end Lowering
end Straightline
