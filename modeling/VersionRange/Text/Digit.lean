namespace VersionRange.Text

/-!
# Decimal digits

Numeric groups of a version may be written with the decimal digits of any script.

* `digit? c`: the value of `c` as a decimal digit.
* `isDigit c`: whether `c` is a decimal digit.
* `isDigit_of_ascii`: among the ASCII characters these are `0` to `9`.
-/

/-- The zeros of the scripts beyond ASCII.  Each of them starts a run of ten digits in order. -/
def zeros : List Nat :=
  [0x660, 0x6F0, 0x7C0, 0x966, 0x9E6, 0xA66, 0xAE6, 0xB66, 0xBE6, 0xC66, 0xCE6, 0xD66, 0xDE6, 0xE50,
   0xED0, 0xF20, 0x1040, 0x1090, 0x17E0, 0x1810, 0x1946, 0x19D0, 0x1A80, 0x1A90, 0x1B50, 0x1BB0,
   0x1C40, 0x1C50, 0xA620, 0xA8D0, 0xA900, 0xA9D0, 0xA9F0, 0xAA50, 0xABF0, 0xFF10, 0x104A0, 0x10D30,
   0x11066, 0x110F0, 0x11136, 0x111D0, 0x112F0, 0x11450, 0x114D0, 0x11650, 0x116C0, 0x11730,
   0x118E0, 0x11950, 0x11C50, 0x11D50, 0x11DA0, 0x16A60, 0x16AC0, 0x16B50, 0x1D7CE, 0x1D7D8,
   0x1D7E2, 0x1D7EC, 0x1D7F6, 0x1E140, 0x1E2F0, 0x1E950, 0x1FBF0]

/-- The value of a decimal digit; `none` for any other character. Digits of all scripts have a
    value, as in numerals. -/
def digit? (c : Char) : Option Nat :=
  if c.toNat < 128 then
    if '0' ≤ c ∧ c ≤ '9' then some (c.toNat - 48) else none
  else
    (zeros.find? fun z => z ≤ c.toNat && c.toNat < z + 10).map fun z => c.toNat - z

/-- Whether a character is a decimal digit of some script. The readers of versions take them
    all. -/
def isDigit (c : Char) : Bool := (digit? c).isSome

/-- Whether a character is one of `0` to `9`. Only these make a numeral of a version that is read
    strictly. -/
def isAsciiDigit (c : Char) : Bool := '0' ≤ c && c ≤ '9'

/-- Among the characters of ASCII the digits are `0` to `9`. -/
theorem isDigit_of_ascii {c : Char} (h : c.toNat < 128) : isDigit c = isAsciiDigit c := by
  simp only [isDigit, digit?, if_pos h, isAsciiDigit]
  by_cases h₁ : '0' ≤ c <;> by_cases h₂ : c ≤ '9' <;> simp [h₁, h₂]

/-- These ten are in ASCII. -/
theorem isAsciiDigit_lt {c : Char} (h : isAsciiDigit c = true) : c.toNat < 128 := by
  simp only [isAsciiDigit, Bool.and_eq_true, decide_eq_true_eq] at h
  exact Nat.lt_of_le_of_lt (Char.le_def.1 h.2) (by decide)

/-- They are digits in the wide sense as well. -/
theorem isDigit_of_isAsciiDigit {c : Char} (h : isAsciiDigit c = true) : isDigit c = true := by
  rw [isDigit_of_ascii (isAsciiDigit_lt h), h]

end VersionRange.Text
