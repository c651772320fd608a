/-
# The first free name

A name for a new value is looked for in a loop.  The loop holds a name and a number; as long as the name is
taken, the base with the number becomes the name and the number goes up by one (`Names.Search`).  Nothing in
it says how often.  It comes to an end all the same, for it passes through the candidates one by one
(`Names.search_of_candidates`), these differ from each other, and so one more of them than there are names
taken cannot all be taken (`Names.le_length_of_candidate_mem`).

`Names.fresh_eq_candidate` says where the end is: at the first candidate that is free.  With that
`IR.newValue_first_free` says all that a new value changes in a function.
-/

import Straightline.IR.Basic

namespace Straightline

namespace Names

/-- **The loop that looks for a free name,** from a name and the next number to those that it ends with. -/
inductive Search (taken : List String) (base : String) : String → Nat → String → Nat → Prop
  | stop {name : String} {n : Nat} (h : name ∉ taken) : Search taken base name n name n
  | turn {name found : String} {n m : Nat} (h : name ∈ taken)
      (hrest : Search taken base (base ++ Text.ofNat n) (n + 1) found m) : Search taken base name n found m

variable {taken : List String} {base : String}

/-- **The loop passes through the candidates,** as long as they are taken. -/
theorem search_of_candidates {k m : Nat} (hle : k ≤ m)
    (hbefore : ∀ i, k ≤ i → i < m → candidate base i ∈ taken) (hfree : candidate base m ∉ taken) :
    Search taken base (candidate base k) (k + 1) (candidate base m) (m + 1) := by
  -- by the number of turns that are left
  induction hturns : m - k generalizing k with
  | zero =>
    obtain rfl : k = m := by omega
    exact .stop hfree
  | succ j ih =>
    have hrest : Search taken base (candidate base (k + 1)) (k + 1 + 1) (candidate base m) (m + 1) :=
      ih (by omega) (fun i hi => hbefore i (by omega)) (by omega)
    exact .turn (hbefore k (Nat.le_refl k) (by omega)) hrest

/-- The loop has one end only. -/
theorem Search.unique {name found found' : String} {n m m' : Nat} (h : Search taken base name n found m)
    (h' : Search taken base name n found' m') : found' = found ∧ m' = m := by
  induction h with
  | stop hfree =>
    cases h' with
    | stop _ => exact ⟨rfl, rfl⟩
    | turn htaken _ => exact absurd htaken hfree
  | turn htaken _ ih =>
    cases h' with
    | stop hfree => exact absurd htaken hfree
    | turn _ hrest => exact ih hrest

/-- A bounded search gives a candidate, and those before it are taken. -/
theorem freshFrom_eq_candidate (taken : List String) (base : String) (n k : Nat) :
    ∃ m, k ≤ m ∧ freshFrom taken base n k = candidate base m ∧
      ∀ i, k ≤ i → i < m → candidate base i ∈ taken := by
  induction n generalizing k with
  | zero => exact ⟨k, Nat.le_refl k, rfl, fun i hi hlt => by omega⟩
  | succ n ih =>
    rw [freshFrom]
    split
    · rename_i hk
      obtain ⟨m, hle, heq, hbefore⟩ := ih (k + 1)
      refine ⟨m, by omega, heq, fun i hi hlt => ?_⟩
      rcases Nat.eq_or_lt_of_le hi with rfl | hi
      · exact hk
      · exact hbefore i hi hlt
    · exact ⟨k, Nat.le_refl k, rfl, fun i hi hlt => by omega⟩

/-- **A fresh name is the first candidate that is free,** and no more candidates come before it than there are
names taken. -/
theorem fresh_eq_candidate (taken : List String) (base : String) : ∃ k ≤ taken.length,
    fresh taken base = candidate (stem base) k ∧ candidate (stem base) k ∉ taken ∧
      ∀ i < k, candidate (stem base) i ∈ taken := by
  obtain ⟨k, -, heq, hbefore⟩ := freshFrom_eq_candidate taken (stem base) taken.length 0
  have hfresh : fresh taken base = candidate (stem base) k := heq
  have hle : k ≤ taken.length := by
    refine le_length_of_candidate_mem (stem base) k taken 0 fun i hi => ?_
    exact hbefore (0 + i) (Nat.zero_le _) (by omega)
  exact ⟨k, hle, hfresh, hfresh ▸ fresh_not_mem taken base, fun i hi => hbefore i (Nat.zero_le i) hi⟩

end Names

namespace IR

open Names (Search candidate stem)

/-- **A new value gets the first free name.**  The loop that looks for it ends, after at most as many turns as
the function has parameters and values.  It ends with the first of the candidates that no parameter and no
value has.  That name is put behind the names before it, its place is the number of the value, and nothing
else changes. -/
theorem newValue_first_free (f : Function) (base : String) :
    ∃ k ≤ f.params.length + f.names.length,
      (∀ name n, Search f.takenNames (stem base) (stem base) 1 name n ↔
        name = candidate (stem base) k ∧ n = k + 1) ∧
      (candidate (stem base) k ∉ f.params ∧ candidate (stem base) k ∉ f.names) ∧
      (∀ i < k, candidate (stem base) i ∈ f.params ∨ candidate (stem base) i ∈ f.names) ∧
      (f.newValue base).2 = { f with names := f.names ++ [candidate (stem base) k] } ∧
      (f.newValue base).1 = f.names.length ∧
      (f.newValue base).2.names[(f.newValue base).1]? = some (candidate (stem base) k) := by
  obtain ⟨k, hle, hfresh, hfree, hbefore⟩ := Names.fresh_eq_candidate f.takenNames base
  have hvalue : (f.newValue base).2 = { f with names := f.names ++ [candidate (stem base) k] } := by
    rw [Function.newValue, Function.addValue, hfresh]
  have hsearch := Names.search_of_candidates (Nat.zero_le k) (fun i _ hi => hbefore i hi) hfree
  rw [Function.takenNames, List.length_append] at hle
  rw [Function.takenNames, List.mem_append, not_or] at hfree
  refine ⟨k, hle, fun name n => ⟨hsearch.unique, ?_⟩, hfree, fun i hi => ?_, hvalue, rfl, ?_⟩
  · rintro ⟨rfl, rfl⟩
    exact hsearch
  · exact List.mem_append.1 (hbefore i hi)
  · rw [hvalue, Function.newValue]
    exact List.getElem?_concat_length

example : (Function.declare "f" ["aArg"]).newValue "aArg" = (0, ⟨"f", ["aArg"], ["aArg1"], []⟩) ∧
    (⟨"f", [], ["tmp", "tmp2", "tmp", "tmp1"], []⟩ : Function).newValue "" =
      (4, ⟨"f", [], ["tmp", "tmp2", "tmp", "tmp1", "tmp3"], []⟩) := by decide

end IR
end Straightline
