import VersionRange.Stability
import VersionRange.Text.Digit
import VersionRange.Text.Pieces
import VersionRange.Version.Basic

namespace VersionRange

/-!
# Markers

The end of a version text that tells its maturity: `-beta2`, `RC1dev`, `.p3`.

* `Marker`: a keyword with its numbers, and the word `dev`.
* `Marker.read s`: the marker at the front of `s` and the text behind it.
* `readBuild s`: build metadata at the front of `s` and the text behind it.
* `Marker.search s`: the marker that `s` ends with.
* `Marker.canonical m`, `Marker.text m`: the one way in which a marker is written in canonical
  texts.
-/

/-- The part of a version that tells its maturity, behind its numbers: a keyword with numbers of
    its own, the word `dev`, or both. -/
structure Marker where
  /-- The keyword as it was written, if there is one. -/
  keyword : Option (List Char) := none
  /-- The numbers behind the keyword, with the marks in front of and between them. -/
  identifier : List Char := []
  /-- Whether the word `dev` ends the marker. -/
  dev : Bool := false
  deriving DecidableEq, Repr, Inhabited

namespace Marker

/-- Whether nothing is said about the maturity. Numbers need a keyword, so they need not be looked
    at. -/
def isAbsent (m : Marker) : Bool := m.keyword.isNone && !m.dev

/-! ### Reading -/

/-- The keywords in small letters; a longer one comes before its beginnings. -/
def keywords : List (List Char) :=
  ["stable".toList, "beta".toList, "b".toList, "rc".toList, "alpha".toList, "a".toList,
   "patch".toList, "pl".toList, "p".toList]

/-- The marks that may stand in front of a number or of `dev`. An underscore is none of them. -/
def isMark (c : Char) : Bool := c == '.' || c == '-'

/-- The marks that may stand in front of a whole marker. Such a mark is dropped, and a canonical
    marker begins with a hyphen. -/
def isSeparator (c : Char) : Bool := isMark c || c == '_'

/-- The text behind one separator, or the text itself. A separator is skipped even where no marker
    follows, so that `1.0.` is a version. -/
def skipSeparator : List Char → List Char
  | [] => []
  | c :: r => if isSeparator c then r else c :: r

/-- The keyword at the front, as it is written, and the text behind it. -/
def readKeyword (s : List Char) : Option (List Char × List Char) :=
  keywords.findSome? fun word => Text.keywordLead? word s

/-- Whether a text begins with a digit. -/
def digitAhead : List Char → Bool
  | [] => false
  | c :: _ => Text.isDigit c

/-- The longest run of numbers at the front, each behind a mark or not, and the text behind it. A
    mark is taken only with a digit behind it. -/
def readIdentifier : List Char → List Char × List Char
  | [] => ([], [])
  | c :: r =>
    if Text.isDigit c || (isMark c && digitAhead r) then
      let p := readIdentifier r
      (c :: p.1, p.2)
    else ([], c :: r)

/-- The text behind `dev`, with a mark in front of the word or not. The case of the letters does
    not matter. -/
def afterDev? (s : List Char) : Option (List Char) :=
  match s with
  | [] => none
  | c :: r => (Text.keywordLead? "dev".toList (if isMark c then r else s)).map (·.2)

/-- The marker at the front and the text behind it. Every part may be missing; numbers need a
    keyword in front of them. -/
def read (s : List Char) : Marker × List Char :=
  let s := skipSeparator s
  let (keyword, identifier, s) := match readKeyword s with
    | none => (none, [], s)
    | some (word, r) => (some word, readIdentifier r)
  match afterDev? s with
  | none => (⟨keyword, identifier, false⟩, s)
  | some r => (⟨keyword, identifier, true⟩, r)

end Marker

/-- A character of build metadata, where case is ignored. -/
def isBuildChar (c : Char) : Bool := Version.isTagChar (Text.plain c)

/-- Build metadata behind a `+` at the front, and the text behind it. A plus alone is no metadata
    and is left where it is. -/
def readBuild : List Char → List Char × List Char
  | '+' :: r =>
    let build := r.takeWhile isBuildChar
    if build.isEmpty then ([], '+' :: r) else (build, r.dropWhile isBuildChar)
  | s => ([], s)

namespace Marker

/-- The marker of a text that consists of a marker and build metadata; a line may end behind it.
    This is how a marker is recognized at the end of a text. -/
def whole? (s : List Char) : Option Marker :=
  let (m, r) := read s
  match (readBuild r).2 with
  | [] | ['\n'] => some m
  | _ => none

/-- The marker that a text ends with. The first place decides from which on there is nothing but a
    marker. -/
def search : List Char → Marker
  | [] => {}
  | c :: r => (whole? (c :: r)).getD (search r)

/-! ### The canonical form -/

/-- The marker with its keyword in the long form and no mark in front of its numbers. What is marked
    as stable needs no marker. -/
def canonical (m : Marker) : Marker :=
  match m.keyword with
  | none => { dev := m.dev }
  | some word =>
    let word := Keyword.longForm word
    if word = Keyword.stable.text.toList then {}
    else { keyword := some word, identifier := m.identifier.dropWhile isMark, dev := m.dev }

/-- The marker in writing. The keyword keeps its spelling here: the long form is put in by
    `canonical`. -/
def text (m : Marker) : List Char :=
  (match m.keyword with
    | none => []
    | some word => '-' :: word ++ m.identifier)
  ++ (if m.dev then "-dev".toList else [])

/-! ### Small facts -/

/-- A marker without a keyword keeps nothing but its `dev` when it is written in the
    canonical way. -/
theorem canonical_of_keyword_none {m : Marker} (h : m.keyword = none) :
    m.canonical = { dev := m.dev } := by
  simp [canonical, h]

/-- A marker is absent if it has neither a keyword nor a `dev` behind it; numbers without a keyword
    do not occur. -/
theorem isAbsent_iff {m : Marker} : m.isAbsent = true ↔ m.keyword = none ∧ m.dev = false := by
  simp [isAbsent]

/-- Reading numbers splits the text. -/
theorem readIdentifier_append (s : List Char) :
    (readIdentifier s).1 ++ (readIdentifier s).2 = s := by
  induction s with
  | nil => rfl
  | cons c r ih =>
    simp only [readIdentifier]
    split <;> simp [ih]

end Marker

end VersionRange
