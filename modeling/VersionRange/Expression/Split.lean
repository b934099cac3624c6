import VersionRange.Text.Pieces

namespace VersionRange

/-!
# The parts of an expression

An expression is a list of alternatives, and an alternative a list of terms.

* `splitAlternatives s`: the texts between the bars of an expression, without white space around
  them.
* `gap? before s`: how far the separator between two terms reaches, if there is one in front of `s`.
* `splitTerms s`: the terms of an alternative.
-/

/-! ### Alternatives -/

/-- The texts between bars; one bar or two separate alternatives. A third bar in a row begins
    another text, which is empty. -/
def splitBars : List Char → List (List Char)
  | [] => [[]]
  | '|' :: '|' :: r => [] :: splitBars r
  | '|' :: r => [] :: splitBars r
  | c :: r =>
    match splitBars r with
    | [] => [[c]]
    | piece :: pieces => (c :: piece) :: pieces

/-- The alternatives of an expression, without the white space around them. There is always one at
    least. -/
def splitAlternatives (s : List Char) : List (List Char) :=
  (splitBars (Text.trim s)).map Text.trim

/-! ### Terms -/

/-- Whether a term may end in front of a separator: not at the very start, not behind an operator, a
    space or a comma, and not behind the word `as`.  The characters are given from the last one
    back. -/
def canEnd : List Char → Bool
  | [] => false
  | 's' :: 'a' :: _ => false
  | c :: _ => !(c == '=' || c == '>' || c == '<' || c == ' ' || c == ',')

/-- Whether a term may start behind a separator: not at the end, not with a comma and not with the
    word `as`. -/
def canStart : List Char → Bool
  | [] => false
  | 'a' :: 's' :: _ => false
  | c :: _ => c != ','

/-- Whether a text starts with a hyphen. -/
def hyphenAhead : List Char → Bool
  | '-' :: _ => true
  | _ => false

/-- The length of the spaces at the front and the text behind them. -/
def spacesAhead (s : List Char) : Nat × List Char :=
  ((s.takeWhile (· == ' ')).length, s.dropWhile (· == ' '))

/-- The length of a separator of `n` spaces and the comma at the front of a text. A comma does not
    separate next to a hyphen. If no term can start behind the spaces that follow, one of them is
    left to the next term. -/
def commaGap? (afterHyphen : Bool) (n : Nat) : List Char → Option Nat
  | ',' :: r =>
    if (n == 0 && afterHyphen) || hyphenAhead r then none
    else
      let (m, rest) := spacesAhead r
      if canStart rest then some (n + 1 + m) else if 0 < m then some (n + m) else none
  | _ => none

/-- The length of a separator of `n` spaces in front of the text `s`. One space does not separate
    next to a hyphen. If no term can start behind the spaces, one is left to the next term. -/
def spaceGap? (afterHyphen : Bool) (n : Nat) (s : List Char) : Option Nat :=
  if n = 0 ∨ (n = 1 ∧ afterHyphen) then none
  else if canStart s && !hyphenAhead s then some n
  else if n = 1 ∨ (n = 2 ∧ afterHyphen) then none
  else some (if canStart s then n else n - 1)

/-- The length of the separator at the front of `s`, if two terms are separated there. The
    characters of the term so far are given from the last one back. -/
def gap? (before s : List Char) : Option Nat :=
  if !canEnd before then none
  else
    let (n, rest) := spacesAhead s
    let afterHyphen := hyphenAhead before
    commaGap? afterHyphen n rest <|> spaceGap? afterHyphen n rest

/-- The terms of a text, where `skip` characters still belong to a separator and `before` holds the
    current term from the last character back. -/
def splitTermsFrom : Nat → List Char → List Char → List (List Char)
  | _, before, [] => [before.reverse]
  | skip + 1, before, _ :: r => splitTermsFrom skip before r
  | 0, before, c :: r =>
    match gap? before (c :: r) with
    | some (n + 1) => before.reverse :: splitTermsFrom n [] r
    | _ => splitTermsFrom 0 (c :: before) r

/-- The terms of an alternative, which commas or spaces separate.  They do not separate next to an
    operator, in a hyphen range, at a doubled comma or around the `as` of an alias. -/
def splitTerms (s : List Char) : List (List Char) := splitTermsFrom 0 [] s

/-! ### Small facts -/

/-- There is at least one text between bars, even if it is empty. -/
theorem splitBars_ne_nil (s : List Char) : splitBars s ≠ [] := by
  unfold splitBars
  split <;> try simp
  split <;> simp

/-- The term that is being read is always part of the result, so there is at least one term. -/
theorem splitTermsFrom_ne_nil (skip : Nat) (before s : List Char) :
    splitTermsFrom skip before s ≠ [] := by
  induction s generalizing skip before with
  | nil => cases skip <;> simp [splitTermsFrom]
  | cons c r ih =>
    cases skip with
    | zero =>
      simp only [splitTermsFrom]
      split
      case h_1 => simp
      case h_2 => exact ih 0 _
    | succ n => exact ih n before

/-- Skipping is dropping. -/
theorem splitTermsFrom_skip (n : Nat) (before s : List Char) :
    splitTermsFrom n before s = splitTermsFrom 0 before (s.drop n) := by
  induction s generalizing n with
  | nil => cases n <;> simp [splitTermsFrom]
  | cons c r ih =>
    cases n with
    | zero => rfl
    | succ n => simp [splitTermsFrom, ih n]

end VersionRange
