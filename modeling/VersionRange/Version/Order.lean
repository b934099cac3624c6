import VersionRange.Stability
import VersionRange.Text.Casefold
import VersionRange.Version.Basic

namespace VersionRange

/-!
# The order of versions

* `segments`: the parts of a prerelease, with runs of digits on their own.
* `compareSegment`, `compareSegments`: keywords by weight, then numbers, then other words.
* `compareTag`: prereleases or build metadata; an absent one is greatest or least.
* `Version.comparePrecedence`, `Version.compare`: the order without and with build metadata.
* `compareTexts`: the order of canonical texts, with branches below every release if asked for.
-/

/-! ### Segments -/

/-- What kind of run a character belongs to: points separate, digits and other characters do not
    mix. -/
def runKind (c : Char) : Option Bool :=
  if c = '.' then none else some (Text.isAsciiDigit c)

/-- The segments of a tag: its longest runs of digits and of other characters, without the points.
    `RC1-dev` has the segments `RC`, `1` and `-dev`. -/
def segments (s : List Char) : List (List Char) :=
  (s.splitBy fun a b => runKind a == runKind b).filter fun run => !run.contains '.'

/-- The order of two segments.  A weighted word sorts before anything else, the heavier one first; a
    number sorts before another word; numbers go by value, words by code point. -/
def compareSegment (a b : List Char) : Except Fault Ordering :=
  match weight? a, weight? b with
  | some m, some n => .ok (compare n m)
  | some _, none => .ok .lt
  | none, some _ => .ok .gt
  | none, none =>
    match Version.isNumeral a, Version.isNumeral b with
    | true, true => do return compare (← Numeral.read a) (← Numeral.read b)
    | true, false => .ok .lt
    | false, true => .ok .gt
    | false, false => .ok (compare a b)

/-- The order of two lists of segments: the first difference decides, and a proper beginning of the
    other list is less. -/
def compareSegments : List (List Char) → List (List Char) → Except Fault Ordering
  | [], [] => .ok .eq
  | [], _ :: _ => .ok .lt
  | _ :: _, [] => .ok .gt
  | a :: as, b :: bs => do
    match ← compareSegment a b with
    | .eq => compareSegments as bs
    | o => return o

/-- The order of two tags, where an absent tag compares with any other as `absent` says. Two tags
    are compared segment by segment. -/
def compareTag (absent : Ordering) (a b : String) : Except Fault Ordering :=
  if a = "" then .ok (if b = "" then .eq else absent)
  else if b = "" then .ok absent.swap
  else compareSegments (segments a.toList) (segments b.toList)

/-! ### Versions -/

namespace Version

/-- The order by numeric groups and prerelease; a version without a prerelease is the greatest of
    its numeric groups. -/
def comparePrecedence (a b : Version) : Except Fault Ordering :=
  match Ord.compare a.release b.release with
  | .eq => compareTag .gt a.prerelease b.prerelease
  | o => .ok o

/-- The order by precedence and then build metadata; a version without metadata is the least of its
    precedence. -/
def compare (a b : Version) : Except Fault Ordering := do
  match ← comparePrecedence a b with
  | .eq => compareTag .lt a.build b.build
  | o => return o

end Version

/-! ### Texts -/

/-- Whether a canonical text is a branch. The main line of development is none, as it is written
    like a version. -/
def isBranch (text : String) : Bool := Text.startsWith "dev-".toList text.toList

/-- The order of two canonical texts. A branch is comparable only if `branches` is set; then
    branches go by their names without regard to case, and below every release. -/
def compareTexts (branches : Bool) (left right : String) : Except Fault (Option Ordering) :=
  match isBranch left, isBranch right with
  | false, false => do return some (← (← Version.parse left).compare (← Version.parse right))
  | l, r =>
    if !branches then .ok none
    else if l && r then
      .ok (some (compare (Text.casefold left.toList) (Text.casefold right.toList)))
    else .ok (some (if l then .lt else .gt))

/-! ### Small facts -/

/-- A text without characters has no parts. -/
@[simp] theorem segments_nil : segments [] = [] := rfl

end VersionRange
