import VersionRange.Canonical.Marker

namespace VersionRange

/-!
# Releases as they are written

Two grammars of numbered versions, and the canonical form that both lead to.

* `Written`: one to four numeric groups, a marker and build metadata, such as `v1.2-beta2+linux`.
* `Dated`: a date with a time or without, such as `2010-01-02` or `20100102-203040`, and a marker.
* `Release`: numeric groups and a canonical marker, with `Release.text`.
* `Release.ofText?`: the release that a text stands for.
-/

/-- A numbered version in canonical form. The groups keep their leading zeros, so the same numbers
    can be written as two releases. -/
structure Release where
  groups : List (List Char)
  marker : Marker
  deriving DecidableEq, Repr

/-- The release in writing: the groups with points between them, and the marker with a hyphen in
    front. -/
def Release.text (r : Release) : List Char :=
  ['.'].intercalate r.groups ++ r.marker.text

/-- Zeros for the groups that are missing from four. Dates that are longer stay as they are. -/
def padGroups (groups : List (List Char)) : List (List Char) :=
  groups ++ List.replicate (4 - groups.length) ['0']

/-! ### Numeric groups -/

/-- The text behind a `v`, or the text itself. The letter may be a capital one. -/
def skipV : List Char → List Char
  | [] => []
  | c :: r => if Text.plain c = 'v' then r else c :: r

/-- At most `n` further groups, each behind a point, and the text behind them. A point without
    digits is left to the reader of the marker. -/
def readGroups : Nat → List Char → List (List Char) × List Char
  | n + 1, '.' :: r =>
    let ds := r.takeWhile Text.isDigit
    if ds.isEmpty then ([], '.' :: r)
    else
      let p := readGroups n (r.dropWhile Text.isDigit)
      (ds :: p.1, p.2)
  | _, s => ([], s)

/-- A version with one to four numeric groups, as it is written. The build metadata is read with
    it, but has no part in its meaning. -/
structure Written where
  groups : List (List Char)
  marker : Marker
  build : List Char
  deriving DecidableEq, Repr

namespace Written

/-- The version that makes up a whole text, from the `v` in front to the build metadata at
    the end. -/
def read? (s : List Char) : Option Written :=
  let s := skipV s
  let major := s.takeWhile Text.isDigit
  let (groups, s) := readGroups 3 (s.dropWhile Text.isDigit)
  let (marker, s) := Marker.read s
  match readBuild s with
  | (build, []) => if major.isEmpty then none else some ⟨major :: groups, marker, build⟩
  | _ => none

/-- The release that is meant. The major number may have five digits at most, as longer ones can be
    dates only. -/
def release? (w : Written) : Option Release :=
  match w.groups with
  | [] => none
  | major :: _ =>
    if major.length ≤ 5 then some ⟨padGroups w.groups, w.marker.canonical⟩ else none

end Written

/-! ### Dates -/

/-- The marks between the parts of a date. -/
def isDateMark (c : Char) : Bool := c == '.' || c == ':' || c == '-'

/-- Exactly `n` digits and the text behind them. -/
def readDigits : Nat → List Char → Option (List Char × List Char)
  | 0, s => some ([], s)
  | _ + 1, [] => none
  | n + 1, c :: r =>
    if Text.isDigit c then (readDigits n r).map fun p => (c :: p.1, p.2) else none

/-- Exactly `n` digits behind a mark or not. A mark without the digits behind it is not taken. -/
def readDatePart (n : Nat) : List Char → Option (List Char × List Char)
  | [] => none
  | c :: r =>
    if isDateMark c then (readDigits n r).map fun p => (c :: p.1, p.2) else readDigits n (c :: r)

/-- At most `n` parts of two digits, as many as there are. A shorter row never helps what is read
    behind it. -/
def readPairs : Nat → List Char → List Char × List Char
  | 0, s => ([], s)
  | n + 1, s =>
    match readDatePart 2 s with
    | none => ([], s)
    | some (pair, r) =>
      let p := readPairs n r
      (pair ++ p.1, p.2)

/-- A last part of one to three digits, if there is one, the longest one first. -/
def readFraction (s : List Char) : List Char × List Char :=
  (readDatePart 3 s <|> readDatePart 2 s <|> readDatePart 1 s).getD ([], s)

/-- A date: a year of four digits, one to six pairs of digits and perhaps a fraction. -/
def readDate (s : List Char) : Option (List Char × List Char) := do
  let (year, s) ← readDigits 4 s
  let (pairs, s) := readPairs 6 s
  guard (!pairs.isEmpty)
  let (fraction, s) := readFraction s
  return (year ++ pairs ++ fraction, s)

/-- A version that is a date, as it is written, with the marks between its parts. -/
structure Dated where
  date : List Char
  marker : Marker
  deriving DecidableEq, Repr

namespace Dated

/-- The date that makes up a whole text, with its marker and any build metadata. -/
def read? (s : List Char) : Option Dated := do
  let (date, s) ← readDate (skipV s)
  let (marker, s) := Marker.read s
  guard (readBuild s).2.isEmpty
  return ⟨date, marker⟩

/-- The numeric groups of a date, from mark to mark. A date that could be read as a numbered version
    gets the four groups of one. -/
def groups (d : Dated) : List (List Char) :=
  let gs := d.date.splitOnP fun c => !Text.isDigit c
  if (gs.headD []).length ≤ 5 then padGroups gs else gs

/-- The release that is meant. -/
def release (d : Dated) : Release := ⟨d.groups, d.marker.canonical⟩

end Dated

/-- The release that a text stands for: a numbered version, or else a date. A text that could be
    both is a numbered version. -/
def Release.ofText? (s : List Char) : Option Release :=
  (Written.read? s).bind Written.release? <|> (Dated.read? s).map Dated.release

/-! ### Small facts -/

/-- Padding fills up to four groups and never takes one away. -/
theorem length_padGroups (groups : List (List Char)) :
    (padGroups groups).length = max groups.length 4 := by
  simp [padGroups]
  omega

/-- Four groups or more need no padding, so they stay as they are. -/
theorem padGroups_of_four_le {groups : List (List Char)} (h : 4 ≤ groups.length) :
    padGroups groups = groups := by
  simp [padGroups, Nat.sub_eq_zero_of_le h]

/-- Reading exactly `n` digits splits the text. -/
theorem eq_append_of_readDigits {n : Nat} {s ds r : List Char} (h : readDigits n s = some (ds, r)) :
    s = ds ++ r ∧ ds.length = n ∧ ∀ c ∈ ds, Text.isDigit c = true := by
  induction n generalizing s ds with
  | zero =>
    simp only [readDigits, Option.some.injEq, Prod.mk.injEq] at h
    simp [← h.1, h.2]
  | succ n ih =>
    cases s with
    | nil => simp [readDigits] at h
    | cons c t =>
      simp only [readDigits] at h
      split at h
      case isFalse => cases h
      case isTrue hc =>
        obtain ⟨p, hp, he⟩ := Option.map_eq_some_iff.1 h
        simp only [Prod.mk.injEq] at he
        have hp' : readDigits n t = some (p.1, r) := by rw [hp, ← he.2]
        obtain ⟨h₁, h₂, h₃⟩ := ih hp'
        rw [← he.1]
        exact ⟨by simp [h₁], by simp [h₂], by simpa [hc] using h₃⟩

end VersionRange
