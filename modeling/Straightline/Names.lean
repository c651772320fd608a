/-
# Lists of names

Two questions that are asked of lists of names: which name occurs twice, and which name is still
free.  `firstRepeated_eq_none_iff` says that no name is reported exactly if the names are pairwise
different.  A free name is looked for among `base`, `base1`, `base2`, … (`candidate`); as these differ
from each other, one more of them than there are names taken is enough (`fresh_not_mem`).
-/

import Straightline.Text.Decimal

namespace Straightline
namespace Names

/-- The first name, reading on from the names seen, that was seen before. -/
def repeatedAfter (seen : List String) : List String → Option String
  | [] => none
  | x :: xs => if x ∈ seen then some x else repeatedAfter (x :: seen) xs

/-- The first name that occurs for a second time. -/
def firstRepeated (xs : List String) : Option String :=
  repeatedAfter [] xs

/-- Nothing repeats exactly if the names are pairwise distinct and none of them was seen. -/
theorem repeatedAfter_eq_none_iff (seen xs : List String) :
    repeatedAfter seen xs = none ↔ xs.Nodup ∧ ∀ x ∈ xs, x ∉ seen := by
  induction xs generalizing seen with
  | nil => simp [repeatedAfter]
  | cons x xs ih =>
    by_cases h : x ∈ seen
    · simp [repeatedAfter, h]
    · simp only [repeatedAfter, if_neg h, ih, List.nodup_cons, List.mem_cons, not_or]
      constructor
      · rintro ⟨hxs, hseen⟩
        refine ⟨⟨fun hx => (hseen x hx).1 rfl, hxs⟩, ?_⟩
        rintro y (rfl | hy)
        · exact h
        · exact (hseen y hy).2
      · rintro ⟨⟨hx, hxs⟩, hseen⟩
        refine ⟨hxs, fun y hy => ⟨?_, hseen y (.inr hy)⟩⟩
        rintro rfl
        exact hx hy

/-- **No name is repeated exactly if the names are pairwise different.** -/
theorem firstRepeated_eq_none_iff (xs : List String) : firstRepeated xs = none ↔ xs.Nodup := by
  simp [firstRepeated, repeatedAfter_eq_none_iff]

/-- The candidates for a name: the base itself, then the base with a number from one on. -/
def candidate (base : String) : Nat → String
  | 0 => base
  | k + 1 => base ++ Text.ofNat (k + 1)

/-- **The candidates for a name differ from each other.** -/
theorem candidate_injective (base : String) {i j : Nat} (h : candidate base i = candidate base j) :
    i = j := by
  have hlist := congrArg String.toList h
  cases i with
  | zero =>
    cases j with
    | zero => rfl
    | succ j =>
      simp [candidate, Text.ofNat, Nat.toDigits_ne_nil] at hlist
  | succ i =>
    cases j with
    | zero => simp [candidate, Text.ofNat, Nat.toDigits_ne_nil] at hlist
    | succ j =>
      simp only [candidate, Text.ofNat, String.toList_append, String.toList_ofList,
        List.append_cancel_left_eq] at hlist
      have hnum := congrArg Text.ofDigits hlist
      simpa using hnum

/-- If candidates in a row are all taken, there are at least as many names. -/
theorem le_length_of_candidate_mem (base : String) (n : Nat) :
    ∀ (taken : List String) (k : Nat), (∀ i < n, candidate base (k + i) ∈ taken) →
      n ≤ taken.length := by
  induction n with
  | zero => intro taken k _; exact Nat.zero_le _
  | succ n ih =>
    intro taken k h
    have hmem : candidate base k ∈ taken := h 0 (Nat.succ_pos n)
    have hrest : ∀ i < n, candidate base (k + 1 + i) ∈ taken.erase (candidate base k) := by
      intro i hi
      have hne : candidate base (k + 1 + i) ≠ candidate base k := by
        intro heq
        have := candidate_injective base heq
        omega
      have hi' : candidate base (k + (i + 1)) ∈ taken := h (i + 1) (by omega)
      rw [show k + (i + 1) = k + 1 + i by omega] at hi'
      exact (List.mem_erase_of_ne hne).2 hi'
    have hle := ih (taken.erase (candidate base k)) (k + 1) hrest
    rw [List.length_erase_of_mem hmem] at hle
    have hpos := List.length_pos_of_mem hmem
    omega

/-- The first candidate from the `k`-th on that is not taken, among `n` candidates and the next. -/
def freshFrom (taken : List String) (base : String) : Nat → Nat → String
  | 0, k => candidate base k
  | n + 1, k => if candidate base k ∈ taken then freshFrom taken base n (k + 1) else candidate base k

/-- The base for an empty name. -/
def defaultBase : String := "tmp"

/-- What the candidates for a name are made from. -/
def stem (base : String) : String :=
  if base = "" then defaultBase else base

/-- The first candidate that is not taken. -/
def fresh (taken : List String) (base : String) : String :=
  freshFrom taken (stem base) taken.length 0

/-- A search that ends in a taken name passed over taken names only. -/
theorem candidate_mem_of_freshFrom_mem {taken : List String} {base : String} {n k : Nat}
    (h : freshFrom taken base n k ∈ taken) : ∀ i < n + 1, candidate base (k + i) ∈ taken := by
  induction n generalizing k with
  | zero =>
    intro i hi
    obtain rfl : i = 0 := by omega
    exact h
  | succ n ih =>
    rw [freshFrom] at h
    split at h
    · rename_i hk
      intro i hi
      cases i with
      | zero => exact hk
      | succ i =>
        rw [show k + (i + 1) = k + 1 + i by omega]
        exact ih h i (by omega)
    · contradiction

/-- **A fresh name is not taken.** -/
theorem fresh_not_mem (taken : List String) (base : String) : fresh taken base ∉ taken := by
  intro h
  have hle := le_length_of_candidate_mem _ _ _ _ (candidate_mem_of_freshFrom_mem h)
  omega

end Names
end Straightline
