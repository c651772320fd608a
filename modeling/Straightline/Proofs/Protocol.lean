/-
# The order in which a target is asked

A target trusts that it is asked in an order that makes sense: instructions go into a block that was
opened and has not returned, and the handles that come with a request are handles that it gave out,
slots and values since that block was opened.  `Allowed` says so of a request, by the requests made
before it and their replies.  The requests of a run are its trace, and all that changes the target is
in there (`Script.answered_trace`).

Lowering keeps to this whatever the target answers.  A script obeys the rules after some past if each
of its requests is allowed then, on every branch (`Script.Obeys`); this is shown along the definitions
of the generator, one lemma for each.  Inside a function (`Inside`) a block is open and the slots in
scope were allocated in it, and lowering an expression adds to that block and to nothing else
(`Grows`, `Gen.obeys_expr`).  A definition starts with a block and a scope of its own, so what an
earlier one has left behind, finished or not, is not used (`Gen.obeys_function`).
-/

import Mathlib.Data.List.DropRight
import Straightline.Lowering.Generator
import Straightline.Lowering.Recorder

namespace Straightline
namespace Lowering

open Source (Expr Stmt Decl Prototype Program)

variable {F V S σ ε α β : Type}

/-! ### Requests and what was answered -/

namespace Request

/-- The requests that are about the block that is open. -/
def isInstruction : Request F V S → Bool
  | param .. | constInt _ | alloca _ | load .. | store .. | binary .. | call .. | ret _ => true
  | getFunction _ | declareFunction .. | appendEntryBlock _ | linkFile _ => false

/-- The handles of functions that come with a request. -/
@[simp] def functions : Request F V S → List F
  | appendEntryBlock f | param f _ | call f _ => [f]
  | _ => []

/-- The handles of slots that come with a request. -/
@[simp] def slots : Request F V S → List S
  | load s _ | store _ s => [s]
  | _ => []

/-- The handles of values that come with a request. -/
@[simp] def values : Request F V S → List V
  | store v _ | ret v => [v]
  | binary _ lhs rhs => [lhs, rhs]
  | call _ args => args
  | _ => []

end Request

/-- A request with its reply, or with none if it was refused. -/
structure Event (F V S : Type) where
  request : Request F V S
  reply : Option request.Reply

namespace Event

/-- Whether a block was opened. -/
def opens (e : Event F V S) : Bool :=
  match e.request with
  | .appendEntryBlock _ => true
  | _ => false

/-- Whether the function was to return. -/
def returns (e : Event F V S) : Bool :=
  match e.request with
  | .ret _ => true
  | _ => false

/-- The handle of a function that was given out. -/
def function? : Event F V S → Option F
  | ⟨.getFunction _, some (some (f, _))⟩ => some f
  | ⟨.declareFunction .., some f⟩ => some f
  | _ => none

/-- The handle of a slot that was given out. -/
def slot? : Event F V S → Option S
  | ⟨.alloca _, some s⟩ => some s
  | _ => none

/-- The handle of a value that was given out. -/
def value? : Event F V S → Option V
  | ⟨.param .., some v⟩ | ⟨.constInt _, some v⟩ | ⟨.load .., some v⟩ | ⟨.binary .., some v⟩
  | ⟨.call .., some v⟩ => some v
  | _ => none

end Event

/-- The events since a block was opened last. -/
def block (past : List (Event F V S)) : List (Event F V S) :=
  past.rtakeWhile fun e => !e.opens

/-- A slot that was given out since a block was opened last. -/
def HasSlot (past : List (Event F V S)) (s : S) : Prop :=
  ∃ e ∈ block past, e.slot? = some s

/-- A value that was given out since a block was opened last. -/
def HasValue (past : List (Event F V S)) (v : V) : Prop :=
  ∃ e ∈ block past, e.value? = some v

/-- A function that was given out at any time. -/
def HasFunction (past : List (Event F V S)) (f : F) : Prop :=
  ∃ e ∈ past, e.function? = some f

/-- A request that may be made after the given events: one about the open block only if there is one
and it has not returned, and with no handles but those that were given out. -/
structure Allowed (past : List (Event F V S)) (r : Request F V S) : Prop where
  opened : r.isInstruction = true → ∃ e ∈ past, e.opens = true
  running : r.isInstruction = true → ∀ e ∈ block past, e.returns = false
  slots : ∀ s ∈ r.slots, HasSlot past s
  values : ∀ v ∈ r.values, HasValue past v
  functions : ∀ f ∈ r.functions, HasFunction past f

/-- Events, following others, each of which was allowed when it came. -/
def RespectsAfter (past events : List (Event F V S)) : Prop :=
  ∀ before e after, events = before ++ e :: after → Allowed (past ++ before) e.request

/-- Events each of which was allowed when it came. -/
def Respects (events : List (Event F V S)) : Prop :=
  ∀ past e future, events = past ++ e :: future → Allowed past e.request

variable {past past' events : List (Event F V S)} {e : Event F V S} {r : Request F V S}

theorem respectsAfter_nil : RespectsAfter past [] := by
  intro before e after h
  simp at h

/-- One more event in front has to be allowed, and the others after it. -/
theorem RespectsAfter.cons (he : Allowed past e.request)
    (hevents : RespectsAfter (past ++ [e]) events) : RespectsAfter past (e :: events) := by
  intro before e' after h
  cases before with
  | nil =>
    obtain ⟨rfl, -⟩ := List.cons.inj h
    rwa [List.append_nil]
  | cons e'' before =>
    obtain ⟨rfl, hrest⟩ := List.cons.inj h
    have hallowed := hevents before e' after hrest
    rwa [List.append_assoc, List.singleton_append] at hallowed

/-- Events that are allowed one after the other are allowed together. -/
theorem RespectsAfter.append {more : List (Event F V S)} (hevents : RespectsAfter past events)
    (hmore : RespectsAfter (past ++ events) more) : RespectsAfter past (events ++ more) := by
  intro before e after h
  rcases List.append_eq_append_iff.1 h with ⟨rest, rfl, hrest⟩ | ⟨rest, hbefore, hrest⟩
  · have hallowed := hmore rest e after hrest
    rwa [List.append_assoc] at hallowed
  · cases rest with
    | nil =>
      rw [List.append_nil] at hbefore
      have hallowed := hmore [] e after hrest.symm
      rwa [List.append_nil, hbefore] at hallowed
    | cons e' rest =>
      obtain ⟨rfl, -⟩ := List.cons.inj hrest
      exact hevents before e rest hbefore

/-! ### What a past that grows keeps -/

/-- One past goes on from another within a block. -/
def Grows (past past' : List (Event F V S)) : Prop :=
  ∃ more, past' = past ++ more ∧ ∀ e ∈ more, e.opens = false ∧ e.returns = false

theorem Grows.refl (past : List (Event F V S)) : Grows past past :=
  ⟨[], by simp, by simp⟩

/-- A past grows step by step. -/
theorem Grows.trans {past'' : List (Event F V S)} (h : Grows past past') (h' : Grows past' past'') :
    Grows past past'' := by
  obtain ⟨more, rfl, hmore⟩ := h
  obtain ⟨more', rfl, hmore'⟩ := h'
  refine ⟨more ++ more', List.append_assoc .., fun e he => ?_⟩
  rcases List.mem_append.1 he with he | he
  · exact hmore e he
  · exact hmore' e he

/-- A past grows by an event that neither opens a block nor returns. -/
theorem grows_concat (hopens : e.opens = false) (hreturns : e.returns = false) :
    Grows past (past ++ [e]) :=
  ⟨[e], rfl, by simp [hopens, hreturns]⟩

/-- Any other event than one that opens a block belongs to the block that is open. -/
theorem block_concat (h : e.opens = false) : block (past ++ [e]) = block past ++ [e] :=
  List.rtakeWhile_concat_pos _ _ _ (by simp [h])

/-- A block that is opened is empty. -/
theorem block_concat_of_opens (h : e.opens = true) : block (past ++ [e]) = [] :=
  List.rtakeWhile_concat_neg _ _ _ (by simp [h])

/-- While a past grows, events are added to the block, and none of them returns. -/
theorem Grows.exists_block (h : Grows past past') :
    ∃ more, block past' = block past ++ more ∧ ∀ e ∈ more, e.returns = false := by
  obtain ⟨more, rfl, hmore⟩ := h
  refine ⟨more, ?_, fun e he => (hmore e he).2⟩
  induction more generalizing past with
  | nil => simp
  | cons e more ih =>
    rw [List.forall_mem_cons] at hmore
    have hrest : block (past ++ [e] ++ more) = block (past ++ [e]) ++ more := ih hmore.2
    rwa [block_concat hmore.1.1, List.append_assoc, List.append_assoc, List.singleton_append] at hrest

/-- A function is being lowered: its block is open, and the slots in scope were allocated in it. -/
structure Inside (past : List (Event F V S)) (scope : Scope F S) : Prop where
  opened : ∃ e ∈ past, e.opens = true
  running : ∀ e ∈ block past, e.returns = false
  slots : ∀ x ∈ scope.slots, HasSlot past x.2

/-- A value that is given out is there. -/
theorem hasValue_concat {v : V} (hopens : e.opens = false) (hv : e.value? = some v) :
    HasValue (past ++ [e]) v := by
  refine ⟨e, ?_, hv⟩
  rw [block_concat hopens]
  exact List.mem_append_right _ List.mem_cons_self

/-- A slot that is given out is there. -/
theorem hasSlot_concat {s : S} (hopens : e.opens = false) (hs : e.slot? = some s) :
    HasSlot (past ++ [e]) s := by
  refine ⟨e, ?_, hs⟩
  rw [block_concat hopens]
  exact List.mem_append_right _ List.mem_cons_self

/-- A function that is given out is there. -/
theorem hasFunction_concat {f : F} (hf : e.function? = some f) : HasFunction (past ++ [e]) f :=
  ⟨e, List.mem_append_right _ List.mem_cons_self, hf⟩

/-- Slots stay while the block is open. -/
theorem HasSlot.grows {s : S} (hs : HasSlot past s) (h : Grows past past') : HasSlot past' s := by
  obtain ⟨e, he, hslot⟩ := hs
  obtain ⟨more, hblock, -⟩ := h.exists_block
  exact ⟨e, hblock ▸ List.mem_append_left _ he, hslot⟩

/-- Values stay while the block is open. -/
theorem HasValue.grows {v : V} (hv : HasValue past v) (h : Grows past past') : HasValue past' v := by
  obtain ⟨e, he, hvalue⟩ := hv
  obtain ⟨more, hblock, -⟩ := h.exists_block
  exact ⟨e, hblock ▸ List.mem_append_left _ he, hvalue⟩

/-- Functions stay. -/
theorem HasFunction.grows {f : F} (hf : HasFunction past f) (h : Grows past past') :
    HasFunction past' f := by
  obtain ⟨e, he, hfunction⟩ := hf
  obtain ⟨more, rfl, -⟩ := h
  exact ⟨e, List.mem_append_left _ he, hfunction⟩

/-- A function that is being lowered still is after events within its block. -/
theorem Inside.grows {scope : Scope F S} (h : Inside past scope) (hgrows : Grows past past') :
    Inside past' scope := by
  obtain ⟨more, hblock, hmore⟩ := hgrows.exists_block
  refine ⟨?_, ?_, ?_⟩
  · obtain ⟨e, he, hopens⟩ := h.opened
    obtain ⟨more', rfl, -⟩ := hgrows
    exact ⟨e, List.mem_append_left _ he, hopens⟩
  · intro e he
    rw [hblock] at he
    rcases List.mem_append.1 he with he | he
    · exact h.running e he
    · exact hmore e he
  · exact fun x hx => (h.slots x hx).grows hgrows

/-- A slot that was given out may come into scope. -/
theorem Inside.cons {scope : Scope F S} (h : Inside past scope) {s : S} (hs : HasSlot past s)
    (name : String) : Inside past { scope with slots := (name, s) :: scope.slots } :=
  ⟨h.opened, h.running, List.forall_mem_cons.2 ⟨hs, h.slots⟩⟩

/-- Inside a function, a request for an instruction needs handles only. -/
theorem Inside.allowed {scope : Scope F S} (h : Inside past scope)
    (hslots : ∀ s ∈ r.slots, HasSlot past s)
    (hvalues : ∀ v ∈ r.values, HasValue past v) (hfunctions : ∀ f ∈ r.functions, HasFunction past f) :
    Allowed past r :=
  ⟨fun _ => h.opened, fun _ => h.running, hslots, hvalues, hfunctions⟩

/-- A request that is not about the open block needs nothing but the functions it names. -/
theorem allowed_of_not_isInstruction (h : r.isInstruction = false)
    (hfunctions : ∀ f ∈ r.functions, HasFunction past f) : Allowed past r := by
  refine ⟨by simp [h], by simp [h], ?_, ?_, hfunctions⟩
  · cases r with
    | load | store => cases h
    | _ => exact fun s hs => absurd hs List.not_mem_nil
  · cases r with
    | store | binary | call | ret => cases h
    | _ => exact fun v hv => absurd hv List.not_mem_nil

/-! ### Scripts -/

namespace Script

/-- The requests that a run makes, with their replies. -/
def trace (T : Target F V S σ ε) : Script F V S ε α → σ → List (Event F V S)
  | done _, _ => []
  | fail _, _ => []
  | ask r next, s =>
    ⟨r, (T.handle r s).1.result.toOption⟩ :: (next (T.handle r s).1).trace T (T.handle r s).2

/-- A script makes only allowed requests after the given events, whatever it is answered, and `Q`
holds of the events and the result at its end. -/
def Obeys : Script F V S ε α → List (Event F V S) → (List (Event F V S) → α → Prop) → Prop
  | done a, past, Q => Q past a
  | fail _, _, _ => True
  | ask r next, past, Q =>
    Allowed past r ∧ ∀ answer, (next answer).Obeys (past ++ [⟨r, answer.result.toOption⟩]) Q

/-- A composition obeys if the first part does, and after it the second. -/
theorem obeys_bind {x : Script F V S ε α} {g : α → Script F V S ε β} {Q : List (Event F V S) → β → Prop}
    (h : x.Obeys past fun past a => (g a).Obeys past Q) : (x >>= g).Obeys past Q := by
  induction x generalizing past with
  | done a => exact h
  | fail error => trivial
  | ask r next ih => exact ⟨h.1, fun answer => ih answer (h.2 answer)⟩

/-- What is known at the end can be weakened. -/
theorem Obeys.imp {x : Script F V S ε α} {P Q : List (Event F V S) → α → Prop} (h : x.Obeys past P)
    (himp : ∀ past a, P past a → Q past a) : x.Obeys past Q := by
  induction x generalizing past with
  | done a => exact himp past a h
  | fail error => trivial
  | ask r next ih => exact ⟨h.1, fun answer => ih answer (h.2 answer)⟩

/-- **A script that obeys the rules is run by the rules on every target.** -/
theorem Obeys.respectsAfter (T : Target F V S σ ε) {x : Script F V S ε α}
    {Q : List (Event F V S) → α → Prop} (h : x.Obeys past Q) (s : σ) :
    RespectsAfter past (x.trace T s) := by
  induction x generalizing past s with
  | done a => exact respectsAfter_nil
  | fail error => exact respectsAfter_nil
  | ask r next ih => exact .cons h.1 (ih _ (h.2 _) _)

end Script

/-- The events are what a target was asked, one after the other from one state to another, with what
it answered. -/
def Target.Answered (T : Target F V S σ ε) : σ → List (Event F V S) → σ → Prop
  | s, [], s' => s' = s
  | s, e :: events, s' =>
    (T.handle e.request s).1.result.toOption = e.reply ∧ T.Answered (T.handle e.request s).2 events s'

/-- Answers are given one after the other. -/
theorem Target.Answered.append {T : Target F V S σ ε} {s s' s'' : σ} {more : List (Event F V S)}
    (h : T.Answered s events s') (hmore : T.Answered s' more s'') :
    T.Answered s (events ++ more) s'' := by
  induction events generalizing s with
  | nil =>
    obtain rfl : s' = s := h
    exact hmore
  | cons e events ih => exact ⟨h.1, ih h.2⟩

/-- **The trace of a script tells all that happens to the target while it runs.** -/
theorem Script.answered_trace (T : Target F V S σ ε) (x : Script F V S ε α) (s : σ) :
    T.Answered s (x.trace T s) (x.run T s).2 := by
  induction x generalizing s with
  | done a => rfl
  | fail error => rfl
  | ask r next ih => exact ⟨rfl, ih _ _⟩

namespace Gen

/-- What `Script.Obeys` says of a script, said of one that keeps a scope. -/
def Obeys (x : Gen F V S ε α) (scope : Scope F S) (past : List (Event F V S))
    (Q : List (Event F V S) → α → Scope F S → Prop) : Prop :=
  (x scope).Obeys past fun past a => Q past a.1 a.2

variable {scope : Scope F S} {Q : List (Event F V S) → α → Scope F S → Prop}

theorem obeys_pure {a : α} (h : Q past a scope) : Obeys (pure a : Gen F V S ε α) scope past Q := h

/-- A failure sends no more requests. -/
theorem obeys_fail (error : Error ε) : Obeys (fail error : Gen F V S ε α) scope past Q := trivial

/-- What is known at the end can be weakened. -/
theorem Obeys.imp {x : Gen F V S ε α} {P Q : List (Event F V S) → α → Scope F S → Prop}
    (h : x.Obeys scope past P) (himp : ∀ past a scope, P past a scope → Q past a scope) :
    x.Obeys scope past Q :=
  Script.Obeys.imp h fun past a => himp past a.1 a.2

/-- A composition obeys if the first part does, and after it the second. -/
theorem Obeys.bind {x : Gen F V S ε α} {g : α → Gen F V S ε β}
    {P : List (Event F V S) → α → Scope F S → Prop} {Q : List (Event F V S) → β → Scope F S → Prop}
    (h : x.Obeys scope past P)
    (hg : ∀ past a scope, P past a scope → (g a).Obeys scope past Q) :
    (x >>= g).Obeys scope past Q :=
  Script.obeys_bind (h.imp hg)

/-- To look at the scope sends no request. -/
theorem obeys_get {g : Scope F S → Gen F V S ε α} (h : (g scope).Obeys scope past Q) :
    (get >>= g).Obeys scope past Q := h

theorem obeys_current {f : F} {slots : List (String × S)} {g : F → Gen F V S ε α}
    (h : (g f).Obeys ⟨some f, slots⟩ past Q) : (current >>= g).Obeys ⟨some f, slots⟩ past Q := h

/-- To set the scope sends no request. -/
theorem obeys_set {scope' : Scope F S} {g : PUnit → Gen F V S ε α} (h : (g ⟨⟩).Obeys scope' past Q) :
    (set scope' >>= g).Obeys scope past Q := h

/-- To change the scope sends no request. -/
theorem obeys_modify {change : Scope F S → Scope F S} {g : PUnit → Gen F V S ε α}
    (h : (g ⟨⟩).Obeys (change scope) past Q) : (modify change >>= g).Obeys scope past Q := h

/-- A request obeys if it is allowed, with any answer. -/
theorem obeys_ask {Q : List (Event F V S) → r.Answer ε → Scope F S → Prop} (hr : Allowed past r)
    (hQ : ∀ answer, Q (past ++ [⟨r, answer.result.toOption⟩]) answer scope) :
    (ask r).Obeys scope past Q :=
  ⟨hr, hQ⟩

/-- A request obeys if it is allowed, and what follows each answer does. -/
theorem obeys_ask_bind {g : r.Answer ε → Gen F V S ε α} (hr : Allowed past r)
    (hg : ∀ answer, (g answer).Obeys scope (past ++ [⟨r, answer.result.toOption⟩]) Q) :
    (ask r >>= g).Obeys scope past Q :=
  ⟨hr, hg⟩

/-- A request whose refusal ends the script: what follows is said of a reply only. -/
theorem obeys_ask_backend {Q : List (Event F V S) → r.Reply → Scope F S → Prop} (hr : Allowed past r)
    (hQ : ∀ reply, Q (past ++ [⟨r, some reply⟩]) reply scope) :
    (ask r >>= fun answer => backend answer.result : Gen F V S ε r.Reply).Obeys scope past Q := by
  refine obeys_ask_bind hr fun answer => ?_
  cases answer.result with
  | error refusal => exact obeys_fail (.backend refusal)
  | ok reply => exact obeys_pure (hQ reply)

/-- A refusal to link is passed on without a request. -/
theorem obeys_linked (path : String) (answer : Except ε Unit) :
    (linked path answer : Gen F V S ε Unit).Obeys scope past fun _ _ _ => True := by
  cases answer with
  | error refusal => exact obeys_fail (.link path refusal)
  | ok reply => exact obeys_pure trivial

/-! ### Expressions -/

/-- What lowering an expression leaves: a longer block with its value in it, and the scope. -/
def Adds (past : List (Event F V S)) (scope : Scope F S) (past' : List (Event F V S)) (v : V)
    (scope' : Scope F S) : Prop :=
  Grows past past' ∧ HasValue past' v ∧ scope' = scope

/-- A variable in scope has a slot that was given out. -/
theorem obeys_slot (h : Inside past scope) {name : String} {g : S → Gen F V S ε α}
    (hg : ∀ s, HasSlot past s → (g s).Obeys scope past Q) :
    (slot name >>= g).Obeys scope past Q := by
  refine Obeys.bind (P := fun past' s scope' =>
    HasSlot past s ∧ past' = past ∧ scope' = scope) (obeys_get ?_) ?_
  · split
    · rename_i s hs
      obtain ⟨before, after, hslots, -⟩ := List.lookup_eq_some_iff.1 hs
      exact obeys_pure ⟨h.slots (name, s) (by simp [hslots]), rfl, rfl⟩
    · exact obeys_fail _
  · rintro _ s _ ⟨hs, rfl, rfl⟩
    exact hg s hs

/-- A variable that is assigned is found without a request. -/
theorem obeys_target {left : Expr} {g : String → Gen F V S ε α}
    (hg : ∀ name, (g name).Obeys scope past Q) : (target left >>= g).Obeys scope past Q := by
  cases left with
  | var name => exact hg name
  | _ => exact obeys_fail _

/-- A load is allowed inside a function, and gives a value. -/
theorem obeys_load (h : Inside past scope) {s : S} (hs : HasSlot past s)
    (name : String) :
    (ask (.load s name) >>= backend : Gen F V S ε V).Obeys scope past (Adds past scope) := by
  refine obeys_ask_backend (h.allowed (by simpa using hs) (by simp) (by simp)) fun v => ?_
  exact ⟨grows_concat rfl rfl, hasValue_concat rfl rfl, rfl⟩

/-- A store is allowed inside a function, of a value that was given out. -/
theorem obeys_store (h : Inside past scope) {s : S} (hs : HasSlot past s) {v : V}
    (hv : HasValue past v) :
    (ask (.store v s) >>= backend : Gen F V S ε Unit).Obeys scope past fun past' _ scope' =>
      Grows past past' ∧ scope' = scope := by
  refine obeys_ask_backend (h.allowed (by simpa using hs) (by simpa using hv) (by simp)) fun _ => ?_
  exact ⟨grows_concat rfl rfl, rfl⟩

/-- An argument is a value that was given out, or it is loaded again. -/
theorem obeys_argument (h : Inside past scope) (arg : Expr) {v : V} (hv : HasValue past v) :
    (argument arg v : Gen F V S ε V).Obeys scope past (Adds past scope) := by
  unfold argument
  split
  · rename_i left _
    exact obeys_target fun name => obeys_slot h fun s hs => obeys_load h hs _
  · exact obeys_pure ⟨.refl _, hv, rfl⟩

mutual

/-- **Lowering an expression inside a function makes allowed requests, and adds its value to the
block.** -/
theorem obeys_expr {past : List (Event F V S)} {scope : Scope F S} (h : Inside past scope) :
    ∀ e : Expr, (expr e : Gen F V S ε V).Obeys scope past (Adds past scope)
  | .const n => by
    rw [expr]
    refine obeys_ask (h.allowed (by simp) (by simp) (by simp)) fun v => ?_
    exact ⟨grows_concat rfl rfl, hasValue_concat rfl rfl, rfl⟩
  | .var name => by
    rw [expr]
    exact obeys_slot h fun s hs => obeys_load h hs name
  | .binary op left right => by
    rw [expr]
    split
    · refine (obeys_expr h right).bind ?_
      rintro past₁ v _ ⟨hgrows, hv, rfl⟩
      refine obeys_target fun name => obeys_slot (h.grows hgrows) fun s hs => ?_
      refine (obeys_store (h.grows hgrows) hs hv).bind ?_
      rintro past₂ _ _ ⟨hgrows', rfl⟩
      exact obeys_pure ⟨hgrows.trans hgrows', hv.grows hgrows', rfl⟩
    · rename_i op' _
      refine (obeys_expr h left).bind ?_
      rintro past₁ lhs _ ⟨hgrows, hlhs, rfl⟩
      refine (obeys_expr (h.grows hgrows) right).bind ?_
      rintro past₂ rhs _ ⟨hgrows', hrhs, rfl⟩
      refine obeys_ask_backend
        (((h.grows hgrows).grows hgrows').allowed (by simp) ?_ (by simp)) fun v => ?_
      · simp [hlhs.grows hgrows', hrhs]
      · exact ⟨(hgrows.trans hgrows').trans (grows_concat rfl rfl), hasValue_concat rfl rfl, rfl⟩
  | .call name args => by
    rw [expr]
    refine obeys_ask_bind (allowed_of_not_isInstruction rfl (by simp)) ?_
    intro found
    split
    · exact obeys_fail _
    · rename_i f arity
      have hgrows : Grows past (past ++ [⟨.getFunction name, some (some (f, arity))⟩]) :=
        grows_concat rfl rfl
      have hf : HasFunction (past ++ [⟨.getFunction name, some (some (f, arity))⟩]) f :=
        hasFunction_concat rfl
      refine (obeys_exprs (h.grows hgrows) args).bind ?_
      rintro past₁ values _ ⟨hgrows', hvalues, rfl⟩
      refine obeys_ask_backend
        (((h.grows hgrows).grows hgrows').allowed (by simp) hvalues ?_) fun v => ?_
      · simpa using hf.grows hgrows'
      · exact ⟨(hgrows.trans hgrows').trans (grows_concat rfl rfl), hasValue_concat rfl rfl, rfl⟩

/-- The arguments of a call are values that were given out, and stay so while the others are lowered. -/
theorem obeys_exprs {past : List (Event F V S)} {scope : Scope F S} (h : Inside past scope) :
    ∀ es : List Expr, (exprs es : Gen F V S ε (List V)).Obeys scope past fun past' vs scope' =>
      Grows past past' ∧ (∀ v ∈ vs, HasValue past' v) ∧ scope' = scope
  | [] => by
    rw [exprs]
    exact obeys_pure ⟨.refl _, by simp, rfl⟩
  | arg :: args => by
    rw [exprs]
    refine (obeys_expr h arg).bind ?_
    rintro past₁ v _ ⟨hgrows₁, hv, rfl⟩
    refine (obeys_argument (h.grows hgrows₁) arg hv).bind ?_
    rintro past₂ v' _ ⟨hgrows₂, hv', rfl⟩
    have hgrows := hgrows₁.trans hgrows₂
    refine (obeys_exprs (h.grows hgrows) args).bind ?_
    rintro past₃ vs _ ⟨hgrows₃, hvs, rfl⟩
    refine obeys_pure ⟨hgrows.trans hgrows₃, ?_, rfl⟩
    rw [List.forall_mem_cons]
    exact ⟨hv'.grows hgrows₃, hvs⟩

end

/-! ### Functions and programs -/

/-- A slot may be asked for inside a function, and is given out. -/
theorem obeys_alloca (h : Inside past scope) (name : String) :
    (ask (.alloca name) >>= backend : Gen F V S ε S).Obeys scope past fun past' s scope' =>
      Grows past past' ∧ HasSlot past' s ∧ scope' = scope := by
  refine obeys_ask_backend (h.allowed (by simp) (by simp) (by simp)) fun s => ?_
  exact ⟨grows_concat rfl rfl, hasSlot_concat rfl rfl, rfl⟩

/-- A parameter may be asked for inside a function, and is given out. -/
theorem obeys_param (h : Inside past scope) {f : F} (hf : HasFunction past f) (index : Nat) :
    (ask (.param f index) >>= backend : Gen F V S ε V).Obeys scope past (Adds past scope) := by
  refine obeys_ask_backend (h.allowed (by simp) (by simp) (by simpa using hf)) fun v => ?_
  exact ⟨grows_concat rfl rfl, hasValue_concat rfl rfl, rfl⟩

/-- Statements obey, and no request follows the one to return: the statements after it are not
lowered. -/
theorem obeys_stmts (ss : List Stmt) (h : Inside past scope) :
    (stmts ss : Gen F V S ε Unit).Obeys scope past fun _ _ _ => True := by
  induction ss generalizing past with
  | nil => exact obeys_pure trivial
  | cons s ss ih =>
    cases s with
    | ret e =>
      rw [stmts]
      refine (obeys_expr h e).bind ?_
      rintro past' v _ ⟨hgrows, hv, rfl⟩
      exact obeys_ask_backend ((h.grows hgrows).allowed (by simp) (by simpa using hv) (by simp))
        fun _ => trivial
    | expr e =>
      rw [stmts]
      refine (obeys_expr h e).bind ?_
      rintro past' v _ ⟨hgrows, -, rfl⟩
      exact ih (h.grows hgrows)

/-- Giving a variable a slot brings a slot of the open block into scope. -/
theorem obeys_decl {f : F} (params : List String) (d : Decl) (h : Inside past scope)
    (hf : HasFunction past f) :
    (decl f params d : Gen F V S ε Unit).Obeys scope past fun past' _ scope' =>
      Inside past' scope' ∧ HasFunction past' f := by
  unfold decl
  refine (obeys_alloca h d.name).bind ?_
  rintro past₁ s _ ⟨hgrows, hs, rfl⟩
  refine obeys_modify ?_
  have h₁ := (h.grows hgrows).cons hs d.name
  have hf₁ := hf.grows hgrows
  split
  · exact obeys_pure ⟨h₁, hf₁⟩
  · split
    · exact obeys_fail _
    · rename_i index _
      refine (obeys_param h₁ hf₁ index).bind ?_
      rintro past₂ v _ ⟨hgrows₂, hv, rfl⟩
      refine (obeys_store (h₁.grows hgrows₂) (hs.grows hgrows₂) hv).imp ?_
      rintro past₃ _ _ ⟨hgrows₃, rfl⟩
      exact ⟨(h₁.grows hgrows₂).grows hgrows₃, (hf₁.grows hgrows₂).grows hgrows₃⟩

/-- Declarations obey, and leave a function with slots for its variables. -/
theorem obeys_decls {f : F} (params : List String) (ds : List Decl) (h : Inside past scope)
    (hf : HasFunction past f) :
    (decls f params ds : Gen F V S ε Unit).Obeys scope past fun past' _ scope' =>
      Inside past' scope' := by
  induction ds generalizing past scope with
  | nil => exact obeys_pure h
  | cons d ds ih =>
    rw [decls]
    refine (obeys_decl params d h hf).bind ?_
    rintro past' _ scope' ⟨h', hf'⟩
    exact ih h' hf'

/-- A prototype gives a function that was found or declared. -/
theorem obeys_prototype (p : Prototype) :
    (prototype p : Gen F V S ε F).Obeys scope past fun past' f _ => HasFunction past' f := by
  unfold prototype
  refine obeys_ask_bind (allowed_of_not_isInstruction rfl ?_) fun found => ?_
  · simp
  split
  · split
    · exact obeys_pure (hasFunction_concat rfl)
    · exact obeys_fail _
  · refine obeys_ask_backend (allowed_of_not_isInstruction rfl ?_) fun f => hasFunction_concat rfl
    simp

/-- **Lowering a definition makes allowed requests, whatever was done before.**  The block that it
opens is empty, and so is its scope. -/
theorem obeys_function (f : Source.Function) :
    (function f : Gen F V S ε Unit).Obeys scope past fun _ _ _ => True := by
  unfold function
  refine (obeys_prototype f.prototype).bind ?_
  intro past₁ handle scope₁ hhandle
  refine obeys_set (obeys_ask_bind (allowed_of_not_isInstruction rfl ?_) fun _ => ?_)
  · simpa using hhandle
  have hinside : Inside (past₁ ++ [⟨.appendEntryBlock handle, some ()⟩])
      (⟨some handle, []⟩ : Scope F S) := by
    refine ⟨⟨_, List.mem_append_right _ List.mem_cons_self, rfl⟩, ?_, by simp⟩
    rw [block_concat_of_opens rfl]
    simp
  obtain ⟨e, he, hfunction⟩ := hhandle
  refine obeys_current ?_
  refine (obeys_decls f.prototype.params f.decls hinside
    ⟨e, List.mem_append_left _ he, hfunction⟩).bind ?_
  intro past₂ _ scope₂ h₂
  refine (obeys_stmts f.stmts h₂).bind ?_
  exact fun past₃ _ scope₃ _ => trivial

/-- Prototypes obey, one after the other. -/
theorem obeys_prototypes (ps : List Prototype) :
    (prototypes ps : Gen F V S ε Unit).Obeys scope past fun _ _ _ => True := by
  induction ps generalizing past scope with
  | nil => exact obeys_pure trivial
  | cons p ps ih =>
    rw [prototypes]
    exact (obeys_prototype p).bind fun _ _ _ _ => ih

/-- Functions obey, one after the other: each opens a block of its own. -/
theorem obeys_functions (fs : List Source.Function) :
    (functions fs : Gen F V S ε Unit).Obeys scope past fun _ _ _ => True := by
  induction fs generalizing past scope with
  | nil => exact obeys_pure trivial
  | cons f fs ih =>
    rw [functions]
    exact (obeys_function f).bind fun _ _ _ _ => ih

/-- **Lowering a program makes allowed requests, whatever was done before and whatever scope it starts
in.** -/
theorem obeys_program (p : Program) (link : Option String) :
    (program p link : Gen F V S ε Unit).Obeys scope past fun _ _ _ => True := by
  unfold program
  refine (obeys_prototypes p.prototypes).bind fun _ _ _ _ => ?_
  refine (obeys_functions p.functions).bind fun _ _ _ _ => ?_
  split
  · exact obeys_pure trivial
  · rename_i path
    refine obeys_ask_bind (allowed_of_not_isInstruction rfl ?_) fun answer => obeys_linked path answer
    simp

end Gen

/-! ### One generator, many programs -/

/-- What is asked of the target while a program is lowered. -/
def generateTrace (T : Target F V S σ ε) (scope : Scope F S) (p : Program) (link : Option String)
    (s : σ) : List (Event F V S) :=
  (Prod.fst <$> (Gen.program p link : Gen F V S ε Unit) scope).trace T s

/-- A program to lower, with a file to link, and the scope that the generator is in by then. -/
structure Job (F S : Type) where
  scope : Scope F S
  program : Program
  link : Option String

/-- What is asked of the target while programs are lowered on it one after the other, also after
one of them has failed. -/
def jobsTrace (T : Target F V S σ ε) : List (Job F S) → σ → List (Event F V S)
  | [], _ => []
  | j :: js, s =>
    generateTrace T j.scope j.program j.link s ++
      jobsTrace T js (generate T j.scope j.program j.link s).2

/-- The target after all of them. -/
def jobsRun (T : Target F V S σ ε) : List (Job F S) → σ → σ
  | [], s => s
  | j :: js, s => jobsRun T js (generate T j.scope j.program j.link s).2

/-- What jobs leave behind is what answering their requests leaves behind. -/
theorem answered_jobsTrace (T : Target F V S σ ε) (js : List (Job F S)) (s : σ) :
    T.Answered s (jobsTrace T js s) (jobsRun T js s) := by
  induction js generalizing s with
  | nil => rfl
  | cons j js ih => exact (Script.answered_trace T _ s).append (ih _)

/-- A program obeys in every scope it starts from and after whatever was before. -/
theorem respectsAfter_generateTrace (T : Target F V S σ ε) (scope : Scope F S) (p : Program)
    (link : Option String) (s : σ) : RespectsAfter past (generateTrace T scope p link s) := by
  refine Script.Obeys.respectsAfter T (Q := fun _ _ => True) ?_ s
  exact Script.obeys_bind ((Gen.obeys_program p link).imp fun _ _ _ _ => trivial)

/-- Jobs obey one after the other, also after one that failed. -/
theorem respectsAfter_jobsTrace (T : Target F V S σ ε) (js : List (Job F S)) (s : σ) :
    RespectsAfter past (jobsTrace T js s) := by
  induction js generalizing past s with
  | nil => exact respectsAfter_nil
  | cons j js ih =>
    exact (respectsAfter_generateTrace T j.scope j.program j.link s).append (ih _)

/-- **A generator keeps to the rules of its target.**  On every target, for all programs lowered on it
one after the other, whichever requests it refuses, and whatever scope each of them finds: a request
about a block is made only after one was opened and before it has returned; slots and values that come
with it were given out since then; and functions were given out before.  The trace that this is said
of leaves out nothing: it leads from the first state of the target to the last. -/
theorem respects_jobsTrace (T : Target F V S σ ε) (js : List (Job F S)) (s : σ) :
    Respects (jobsTrace T js s) ∧ T.Answered s (jobsTrace T js s) (jobsRun T js s) := by
  have hstart : RespectsAfter [] (jobsTrace T js s) := respectsAfter_jobsTrace T js s
  exact ⟨hstart, answered_jobsTrace T js s⟩

/-- A store is refused in the middle of a function, which leaves the slot of `x` in the scope; the next
program, which has no variable `x`, ends before it could use that slot. -/
example : (jobsTrace (recorderTarget (some 2))
    [⟨.empty, ⟨[], [⟨⟨"f", []⟩, [⟨.local, "x"⟩],
        [.ret (.binary .assign (.var "x") (.const 1))]⟩]⟩, none⟩,
      ⟨⟨some 0, [("x", 0)]⟩, ⟨[], [⟨⟨"g", []⟩, [], [.ret (.var "x")]⟩]⟩, none⟩]
    (.ofFunctions [])).map Event.request =
      [.getFunction "f", .declareFunction "f" [], .appendEntryBlock 0, .alloca "x", .constInt 1,
        .store "1" 0, .getFunction "g", .declareFunction "g" [], .appendEntryBlock 1] := by
  rfl

end Lowering
end Straightline
