/-
# Decimal numbers

Reading runs of ASCII digits as natural numbers, and optionally signed runs as 32-bit integers.
`ofDigits_toDigits` says that a natural number is read back from its digits, `readInt32_ofInt32` that
a 32-bit integer is read back from its text.
-/

namespace Straightline
namespace Text

/-- The number that a run of decimal digits spells; the empty run spells zero. -/
def ofDigits (ds : List Char) : Nat :=
  Nat.ofDigitChars 10 ds 0

/-- A run of digits, at least one, as a number. -/
def readNat (ds : List Char) : Option Nat :=
  if ds ≠ [] ∧ ds.all Char.isDigit = true then some (ofDigits ds) else none

/-- One sign, plus or minus, may stand before the digits; the number has to fit into 32 bits. -/
def readInt32 : List Char → Option Int32
  | '-' :: ds => (readNat ds).bind fun n => if n ≤ 2147483648 then some (Int32.ofInt (-n)) else none
  | '+' :: ds => (readNat ds).bind fun n => if n < 2147483648 then some (Int32.ofNat n) else none
  | ds => (readNat ds).bind fun n => if n < 2147483648 then some (Int32.ofNat n) else none

/-- The decimal text of a natural number. -/
def ofNat (n : Nat) : String :=
  String.ofList (Nat.toDigits 10 n)

/-- The decimal text of a 32-bit integer: a minus sign if it is negative, then its digits. -/
def ofInt32 (n : Int32) : String :=
  if n.toInt < 0 then "-" ++ ofNat n.toInt.natAbs else ofNat n.toInt.natAbs

@[simp] theorem ofDigits_nil : ofDigits [] = 0 := rfl

/-- **A natural number is read back from its digits.** -/
@[simp] theorem ofDigits_toDigits (n : Nat) : ofDigits (Nat.toDigits 10 n) = n :=
  Nat.ofDigitChars_ten_toDigits

/-- The digits of a number are read as that number. -/
theorem readNat_toDigits (n : Nat) : readNat (Nat.toDigits 10 n) = some n := by
  have hne : Nat.toDigits 10 n ≠ [] := Nat.toDigits_ne_nil
  have hall : (Nat.toDigits 10 n).all Char.isDigit = true := by
    simpa using fun c hc => Nat.isDigit_of_mem_toDigits (by omega) (by omega) hc
  simp [readNat, hne, hall]

/-- A text that starts with no sign is read as its digits. -/
theorem readInt32_of_isDigit {ds : List Char} (h : ∀ c ∈ ds, c.isDigit = true) :
    readInt32 ds =
      (readNat ds).bind fun n => if n < 2147483648 then some (Int32.ofNat n) else none := by
  unfold readInt32
  split
  · exact absurd (h '-' (by simp)) (by decide)
  · exact absurd (h '+' (by simp)) (by decide)
  · rfl

/-- A run of digits, at least one, is read as its number if that fits. -/
theorem readInt32_digits {ds : List Char} (hne : ds ≠ []) (h : ds.all Char.isDigit = true) :
    readInt32 ds =
      if ofDigits ds < 2147483648 then some (Int32.ofNat (ofDigits ds)) else none := by
  rw [readInt32_of_isDigit (List.all_eq_true.1 h), readNat, if_pos ⟨hne, h⟩, Option.bind_some]

/-- **A 32-bit integer is read back from its text.** -/
@[simp] theorem readInt32_ofInt32 (n : Int32) : readInt32 (ofInt32 n).toList = some n := by
  have hlo := Int32.le_toInt n
  have hhi := Int32.toInt_lt n
  unfold ofInt32 ofNat
  split
  · rename_i hneg
    have hle : n.toInt.natAbs ≤ 2147483648 := by omega
    have hval : -(n.toInt.natAbs : Int) = n.toInt := by omega
    have hback : Int32.ofInt (-(n.toInt.natAbs : Int)) = n := by rw [hval, Int32.ofInt_toInt]
    rw [String.toList_append, String.toList_ofList, String.toList_ofList, List.singleton_append,
      readInt32, readNat_toDigits, Option.bind_some, if_pos hle, hback]
  · rename_i hpos
    have hlt : n.toInt.natAbs < 2147483648 := by omega
    have hval : (n.toInt.natAbs : Int) = n.toInt := by omega
    have hdig : ∀ c ∈ Nat.toDigits 10 n.toInt.natAbs, c.isDigit = true :=
      fun c hc => Nat.isDigit_of_mem_toDigits (by omega) (by omega) hc
    rw [String.toList_ofList, readInt32_of_isDigit hdig, readNat_toDigits, Option.bind_some,
      if_pos hlt, ← Int32.ofInt_eq_ofNat, hval, Int32.ofInt_toInt]

end Text
end Straightline
