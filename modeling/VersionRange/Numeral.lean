import VersionRange.Error
import VersionRange.Text.Digit

namespace VersionRange

/-!
# Numerals

Digits are converted to numbers and back only where a number is needed, and only up to a limit.

* `Numeral.value ds`: the number that the digits denote.
* `Numeral.read ds`: the number, or a fault for more than `Numeral.limit` digits.
* `Numeral.write n`: the digits of a number, with the same limit.
-/

namespace Numeral

/-- The most digits that are converted in one numeral. Longer ones are refused, in both
    directions. -/
def limit : Nat := 4300

/-- The number that digits denote, from the most significant one. Digits of all scripts count, even
    mixed. -/
def value (ds : List Char) : Nat :=
  ds.foldl (fun n d => 10 * n + (Text.digit? d).getD 0) 0

/-- The number that digits denote.  Leading zeros count towards the limit. -/
def read (ds : List Char) : Except Fault Nat :=
  if ds.length ≤ limit then .ok (value ds) else .error .numeral

/-- The digits of a number, in ASCII and without leading zeros. -/
def write (n : Nat) : Except Fault (List Char) :=
  let ds := Nat.toDigits 10 n
  if ds.length ≤ limit then .ok ds else .error .numeral

/-- A numeral that is not too long has the value of its digits. -/
theorem read_of_length_le {ds : List Char} (h : ds.length ≤ limit) : read ds = .ok (value ds) := by
  simp [read, h]

/-- A number is written in decimal digits, unless there are more of them than are ever converted. -/
theorem write_eq_ok_iff {n : Nat} {ds : List Char} :
    write n = .ok ds ↔ ds = Nat.toDigits 10 n ∧ ds.length ≤ limit := by
  simp only [write]
  split
  case isTrue h =>
    simp only [Except.ok.injEq]
    constructor
    · rintro rfl; exact ⟨rfl, h⟩
    · rintro ⟨rfl, _⟩; rfl
  case isFalse h =>
    simp only [reduceCtorEq, false_iff, not_and]
    rintro rfl
    exact h

end Numeral

end VersionRange
