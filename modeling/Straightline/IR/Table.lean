/-
# Tables by value number

What is known about some of the values of a function: a partial function on their numbers.
-/

namespace Straightline
namespace IR

/-- A partial function on value numbers. -/
def Table (α : Type) : Type := Nat → Option α

namespace Table

variable {α : Type}

/-- The table that knows nothing. -/
def empty : Table α := fun _ => none

/-- What is known of a value. -/
def get (t : Table α) (id : Nat) : Option α := t id

/-- Records a value; what was known of it before is forgotten. -/
def set (t : Table α) (id : Nat) (a : α) : Table α :=
  fun j => if j = id then some a else t j

@[simp] theorem get_empty (id : Nat) : (empty : Table α).get id = none := rfl

/-- A cell that was written holds what was written. -/
@[simp] theorem get_set_self (t : Table α) (id : Nat) (a : α) : (t.set id a).get id = some a := by
  simp [get, set]

/-- The other cells are left alone. -/
@[simp] theorem get_set_of_ne (t : Table α) {id j : Nat} (a : α) (h : j ≠ id) :
    (t.set id a).get j = t.get j := by
  simp [get, set, h]

end Table
end IR
end Straightline
