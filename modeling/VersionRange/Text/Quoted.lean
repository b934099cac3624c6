import VersionRange.Text.Printable

namespace VersionRange.Text

/-!
# Quoted text

How a text is shown inside a message: in quotes, on one line, with printable characters only.

* `escape mark c`: one character as it stands between two `mark`s.
* `quoteMark s`: single quotes are used unless `s` holds some and no double ones.
* `quote s`: the text in its quotes.
* `isPrintable_of_mem_quote`: whatever the text is, its quoted form can be shown on one line.
-/

/-- The number in at least `width` hexadecimal digits. -/
def hex (width n : Nat) : List Char :=
  let ds := Nat.toDigits 16 n
  List.replicate (width - ds.length) '0' ++ ds

/-- One character between two quote marks.  A character that is not printable is given by its code
    point, in the shortest of three widths. -/
def escape (mark c : Char) : List Char :=
  if c = '\\' ∨ c = mark then ['\\', c]
  else if c = '\n' then ['\\', 'n']
  else if c = '\r' then ['\\', 'r']
  else if c = '\t' then ['\\', 't']
  else if isPrintable c then [c]
  else if c.toNat < 0x100 then '\\' :: 'x' :: hex 2 c.toNat
  else if c.toNat < 0x10000 then '\\' :: 'u' :: hex 4 c.toNat
  else '\\' :: 'U' :: hex 8 c.toNat

/-- The quote mark that needs no escape, if there is one; single quotes otherwise. In a text with
    both marks the single ones are escaped. -/
def quoteMark (s : List Char) : Char :=
  if s.contains '\'' && !s.contains '"' then '"' else '\''

/-- The text in quotes, with escapes in it, as messages show it. -/
def quote (s : String) : String :=
  let cs := s.toList
  let mark := quoteMark cs
  String.ofList (mark :: cs.flatMap (escape mark) ++ [mark])

/-! ### Quoted text is printable -/

/-- A number in hexadecimal digits can be shown. The digits are all looked at. -/
theorem isPrintable_of_mem_toDigits {n : Nat} {c : Char} (h : c ∈ Nat.toDigits 16 n) :
    isPrintable c = true := by
  have hdigits : ∀ n < 16, isPrintable n.digitChar = true := by decide
  induction n using Nat.strongRecOn with
  | ind n ih =>
    rw [Nat.toDigits_eq_if (by decide)] at h
    split at h
    case isTrue hshort =>
      rw [List.mem_singleton.1 h]
      exact hdigits n hshort
    case isFalse hlong =>
      -- The last digit is taken off, so the number in front of it is smaller.
      rcases List.mem_append.1 h with hfront | hlast
      · exact ih (n / 16) (by omega) hfront
      · rw [List.mem_singleton.1 hlast]
        exact hdigits (n % 16) (by omega)

/-- A code point is written with digits, zeros in front of them included. -/
theorem isPrintable_of_mem_hex {width n : Nat} {c : Char} (h : c ∈ hex width n) :
    isPrintable c = true := by
  rcases List.mem_append.1 h with hzero | hdigit
  · rw [List.eq_of_mem_replicate hzero]
    decide
  · exact isPrintable_of_mem_toDigits hdigit

/-- An escape by a letter alone is a backslash and that letter. -/
theorem isPrintable_of_mem_letterEscape {letter c : Char} (hletter : isPrintable letter = true)
    (h : c ∈ ['\\', letter]) : isPrintable c = true := by
  rcases List.mem_cons.1 h with rfl | h
  · decide
  · exact List.mem_singleton.1 h ▸ hletter

/-- An escape by a code has the digits of the code behind the letter. -/
theorem isPrintable_of_mem_codeEscape {letter c : Char} {width n : Nat}
    (hletter : isPrintable letter = true) (h : c ∈ '\\' :: letter :: hex width n) :
    isPrintable c = true := by
  rcases List.mem_cons.1 h with rfl | h
  · decide
  rcases List.mem_cons.1 h with rfl | h
  · exact hletter
  · exact isPrintable_of_mem_hex h

/-- A character stands for itself only if it is printable; an escape is made of a backslash, a
    letter and digits. -/
theorem isPrintable_of_mem_escape {mark c d : Char} (hmark : isPrintable mark = true)
    (h : d ∈ escape mark c) : isPrintable d = true := by
  unfold escape at h
  split at h
  case isTrue hplain =>
    refine isPrintable_of_mem_letterEscape ?_ h
    rcases hplain with rfl | rfl
    · decide
    · exact hmark
  -- The three line and tab characters have letters of their own.
  split at h
  case isTrue => exact isPrintable_of_mem_letterEscape (by decide) h
  split at h
  case isTrue => exact isPrintable_of_mem_letterEscape (by decide) h
  split at h
  case isTrue => exact isPrintable_of_mem_letterEscape (by decide) h
  split at h
  case isTrue hprintable => exact List.mem_singleton.1 h ▸ hprintable
  -- Anything else has a code, in one of three widths.
  split at h
  case isTrue => exact isPrintable_of_mem_codeEscape (by decide) h
  split at h
  case isTrue => exact isPrintable_of_mem_codeEscape (by decide) h
  case isFalse => exact isPrintable_of_mem_codeEscape (by decide) h

/-- **Quoted text.** Whatever a text holds, nothing but printable characters stands in its quoted
    form, and so no line ends in it. -/
theorem isPrintable_of_mem_quote {s : String} {c : Char} (h : c ∈ (quote s).toList) :
    isPrintable c = true := by
  have hmark : isPrintable (quoteMark s.toList) = true := by
    unfold quoteMark
    split <;> decide
  rw [quote, String.toList_ofList, List.cons_append, List.mem_cons, List.mem_append,
    List.mem_flatMap, List.mem_singleton] at h
  rcases h with rfl | ⟨d, -, hd⟩ | rfl
  · exact hmark
  · exact isPrintable_of_mem_escape hmark hd
  · exact hmark

example : quote "it's" = "\"it's\"" := by decide
example : quote "a\"b'\\\n" = "'a\"b\\'\\\\\\n'" := by decide

end VersionRange.Text
