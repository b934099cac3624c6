namespace VersionRange.Text

/-!
# Blanks

White space around and inside a text.

* `isBlank c`: whether `c` is white space.
* `trim s`: `s` without the white space at its two ends.
-/

/-- White space: the ASCII blanks and separators, and the spaces and line ends of Unicode. -/
def isBlank (c : Char) : Bool :=
  let n := c.toNat
  if n < 128 then (9 ≤ n && n ≤ 13) || (28 ≤ n && n ≤ 32)
  else n == 0x85 || n == 0xA0 || n == 0x1680 || (0x2000 ≤ n && n ≤ 0x200A)
    || n == 0x2028 || n == 0x2029 || n == 0x202F || n == 0x205F || n == 0x3000

/-- The text without the white space at its front. -/
def trimStart (s : List Char) : List Char := s.dropWhile isBlank

/-- The text without the white space at its end. -/
def trimEnd (s : List Char) : List Char := (s.reverse.dropWhile isBlank).reverse

/-- The text without the white space at its two ends. -/
def trim (s : List Char) : List Char := trimEnd (trimStart s)

/-- A text that does not begin with white space loses none at its front. -/
theorem trimStart_of_head {c : Char} {r : List Char} (h : isBlank c = false) :
    trimStart (c :: r) = c :: r := by
  simp [trimStart, h]

/-- A text that does not end with white space loses none at its end. -/
theorem trimEnd_of_last {c : Char} {r : List Char} (h : isBlank c = false) :
    trimEnd (r ++ [c]) = r ++ [c] := by
  simp [trimEnd, h]

/-- There is nothing to trim on the empty text. -/
@[simp] theorem trim_nil : trim [] = [] := rfl

/-- Trimming a text without white space leaves it. -/
theorem trim_of_solid {s : List Char} (h : ∀ c ∈ s, isBlank c = false) : trim s = s := by
  have drop : ∀ t : List Char, (∀ c ∈ t, isBlank c = false) → t.dropWhile isBlank = t := by
    intro t ht
    cases t with
    | nil => rfl
    | cons c r => simp [ht c (by simp)]
  simp only [trim, trimEnd, trimStart, drop s h]
  rw [drop s.reverse fun c hc => h c (by simpa using hc), List.reverse_reverse]

end VersionRange.Text
