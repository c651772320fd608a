/-
# Results of checks, searches and tables

A check that goes on after another succeeds exactly if both do (`Except.bind_eq_ok_iff`), and fails if
one of them does (`Except.bind_eq_error_iff`).  In a list whose members have different names, a member is
found by its name (`find?_eq_some_of_mem`), also after one of them was replaced (`find?_modify`).
Results of searches that are related are both there or both not (`eq_none_or_some_of_rel`).  A table that a
value was recorded in knows that value and what it knew of the others (`Table.get_set_eq_some_iff`,
`Table.get_set_eq_none_iff`).  An instruction reads the values among its operands and its slot
(`Instr.mem_reads_iff`).
-/

import Mathlib.Data.List.Nodup
import Straightline.IR.Basic
import Straightline.IR.Table

namespace Straightline

/-- **Two steps succeed exactly if the first does and then the second.** -/
theorem Except.bind_eq_ok_iff {ε α β : Type} {x : Except ε α} {g : α → Except ε β} {b : β} :
    (x >>= g) = .ok b ↔ ∃ a, x = .ok a ∧ g a = .ok b := by
  cases x with
  | error e =>
    constructor
    · intro h
      exact absurd h (by simp [bind, Except.bind])
    · rintro ⟨a, h, _⟩
      exact absurd h (by simp)
  | ok a =>
    constructor
    · intro h
      exact ⟨a, rfl, h⟩
    · rintro ⟨a', h, h'⟩
      cases h
      exact h'

/-- A composition fails where its first part fails, or else where its second does. -/
theorem Except.bind_eq_error_iff {ε α β : Type} {x : Except ε α} {g : α → Except ε β} {e : ε} :
    (x >>= g) = .error e ↔ x = .error e ∨ ∃ a, x = .ok a ∧ g a = .error e := by
  cases x with
  | error e' =>
    constructor
    · intro h
      exact .inl (congrArg Except.error (Except.error.inj h))
    · rintro (h | ⟨a, h, _⟩)
      · exact congrArg Except.error (Except.error.inj h)
      · cases h
  | ok a =>
    constructor
    · intro h
      exact .inr ⟨a, rfl, h⟩
    · rintro (h | ⟨a', h, h'⟩)
      · cases h
      · cases h
        exact h'

/-- A success under `Except.map` comes from a success. -/
theorem Except.map_eq_ok_iff {ε α β : Type} {x : Except ε α} {g : α → β} {b : β} :
    x.map g = .ok b ↔ ∃ a, x = .ok a ∧ g a = b := by
  cases x <;> simp [Except.map]

/-- A failure under `Except.map` is the failure that was there. -/
theorem Except.map_eq_error_iff {ε α β : Type} {x : Except ε α} {g : α → β} {e : ε} :
    x.map g = .error e ↔ x = .error e := by
  cases x with
  | error e' =>
    constructor
    · intro h
      exact congrArg Except.error (Except.error.inj h)
    · intro h
      exact congrArg Except.error (Except.error.inj h)
  | ok a => exact ⟨nofun, nofun⟩

/-- Renaming the failure does not touch a success. -/
theorem Except.mapError_eq_ok_iff {ε ε' α : Type} {x : Except ε α} {g : ε → ε'} {a : α} :
    x.mapError g = .ok a ↔ x = .ok a := by
  cases x with
  | error e => exact ⟨nofun, nofun⟩
  | ok a' =>
    constructor
    · intro h
      exact congrArg Except.ok (Except.ok.inj h)
    · intro h
      exact congrArg Except.ok (Except.ok.inj h)

/-- **A member of a list with different names is what a search for its name finds.** -/
theorem find?_eq_some_of_mem {α : Type} {key : α → String} {xs : List α} {x : α}
    (hnodup : (xs.map key).Nodup) (hx : x ∈ xs) : xs.find? (fun y => key y == key x) = some x := by
  induction xs with
  | nil => cases hx
  | cons y ys ih =>
    rw [List.map_cons, List.nodup_cons] at hnodup
    rcases List.mem_cons.1 hx with rfl | hys
    · simp
    · have hne : key y ≠ key x := by
        intro heq
        exact hnodup.1 (heq ▸ List.mem_map_of_mem hys)
      simp [hne, ih hnodup.2 hys]

/-- Nothing is found exactly if the name is no key. -/
theorem find?_key_eq_none_iff {α : Type} {key : α → String} {xs : List α} {name : String} :
    xs.find? (fun y => key y == name) = none ↔ name ∉ xs.map key := by
  simp [List.find?_eq_none]

/-- A map that leaves every element alone leaves the list alone. -/
theorem map_eq_self {α : Type} {g : α → α} {xs : List α} (h : ∀ x ∈ xs, g x = x) : xs.map g = xs :=
  (List.map_congr_left h).trans (List.map_id' xs)

/-- In a list without repetition a member differs from those before it. -/
theorem not_mem_of_nodup_append {α : Type} {xs ys : List α} {x : α} (h : (xs ++ x :: ys).Nodup) :
    x ∉ xs := by
  intro hmem
  exact (List.nodup_append.1 h).2.2 x hmem x List.mem_cons_self rfl

/-- One more element is one that is not yet there. -/
theorem nodup_append_singleton_iff {α : Type} {xs : List α} {x : α} :
    (xs ++ [x]).Nodup ↔ xs.Nodup ∧ x ∉ xs := by
  rw [← List.concat_eq_append, List.nodup_concat, and_comm]

/-- **A search by name after one member was replaced by one of the same name.** -/
theorem find?_modify {α : Type} {key : α → String} {xs : List α} {i : Nat} {x : α} {g : α → α}
    (hnodup : (xs.map key).Nodup) (hi : xs[i]? = some x) (hg : key (g x) = key x) (name : String) :
    (xs.modify i g).find? (fun y => key y == name) =
      if name = key x then some (g x) else xs.find? (fun y => key y == name) := by
  induction xs generalizing i with
  | nil => cases hi
  | cons y ys ih =>
    rw [List.map_cons, List.nodup_cons] at hnodup
    cases i with
    | zero =>
      obtain rfl := Option.some.inj hi
      by_cases hname : name = key y
      · simp [hname, hg]
      · simp [hname, hg, Ne.symm hname]
    | succ i =>
      have hi' : ys[i]? = some x := by simpa using hi
      have hne : key y ≠ key x := fun heq =>
        hnodup.1 (heq ▸ List.mem_map_of_mem (List.mem_of_getElem? hi'))
      rw [List.modify_succ_cons, List.find?_cons, List.find?_cons, ih hnodup.2 hi']
      by_cases hname : name = key x
      · rw [if_pos hname, if_pos hname, hname, beq_false_of_ne hne]
      · rw [if_neg hname, if_neg hname]

/-- **Results of searches that are related are both there, or neither is.** -/
theorem eq_none_or_some_of_rel {α β : Type} {r : α → β → Prop} {x : Option α} {y : Option β}
    (h : Option.Rel r x y) : (x = none ∧ y = none) ∨ ∃ a b, x = some a ∧ y = some b ∧ r a b := by
  rcases h with ⟨hab⟩ | ⟨⟩
  · exact .inr ⟨_, _, rfl, rfl, hab⟩
  · exact .inl ⟨rfl, rfl⟩

/-- Related options compose. -/
theorem rel_comp {α β γ : Type} {r : α → β → Prop} {s : β → γ → Prop} {t : α → γ → Prop}
    (h : ∀ a b c, r a b → s b c → t a c) {x : Option α} {y : Option β} {z : Option γ}
    (hxy : Option.Rel r x y) (hyz : Option.Rel s y z) : Option.Rel t x z := by
  rcases hxy with ⟨hab⟩ | ⟨⟩
  · rcases hyz with ⟨hbc⟩
    exact .some (h _ _ _ hab hbc)
  · rcases hyz with ⟨⟩
    exact .none

/-- Related options stay related when each falls back on a related one. -/
theorem rel_or {α β : Type} {r : α → β → Prop} {x x' : Option α} {y y' : Option β}
    (h : Option.Rel r x y) (h' : Option.Rel r x' y') : Option.Rel r (x.or x') (y.or y') := by
  rcases h with ⟨hab⟩ | ⟨⟩
  · exact .some hab
  · exact h'

namespace IR

/-! ### What an instruction reads -/

namespace Instr

variable {i : Instr} {id s : Nat}

/-- An operand is read. -/
theorem mem_reads_of_operand (h : .value id ∈ i.operands) : id ∈ i.reads :=
  List.mem_append_left _ (List.mem_filterMap.2 ⟨.value id, h, rfl⟩)

/-- The slot that is accessed is read. -/
theorem mem_reads_of_slot (h : i.slot? = some s) : s ∈ i.reads :=
  List.mem_append_right _ (Option.mem_toList.2 h)

/-- The values that an instruction reads are its operands and the slot it accesses. -/
theorem mem_reads_iff : id ∈ i.reads ↔ .value id ∈ i.operands ∨ i.slot? = some id := by
  constructor
  · intro h
    rcases List.mem_append.1 h with hop | hslot
    · obtain ⟨o, ho, hid⟩ := List.mem_filterMap.1 hop
      cases o with
      | value id' =>
        obtain rfl := Option.some.inj hid
        exact .inl ho
      | _ => cases hid
    · exact .inr (Option.mem_toList.1 hslot)
  · rintro (hop | hslot)
    · exact mem_reads_of_operand hop
    · exact mem_reads_of_slot hslot

end Instr

namespace Table

variable {α : Type} {t : Table α} {id j : Nat} {a b : α}

/-- A cell after a write holds what was written there, or else what it held. -/
theorem get_set_eq_some_iff :
    (t.set id a).get j = some b ↔ (j = id ∧ a = b) ∨ (j ≠ id ∧ t.get j = some b) := by
  by_cases h : j = id
  · subst h
    simp
  · simp [h]

/-- A cell after a write is empty if it was and is not the one that was written. -/
theorem get_set_eq_none_iff : (t.set id a).get j = none ↔ j ≠ id ∧ t.get j = none := by
  by_cases h : j = id
  · subst h
    simp
  · simp [h]

end Table
end IR
end Straightline
