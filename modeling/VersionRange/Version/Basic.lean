import VersionRange.Numeral
import VersionRange.Text.Pieces

namespace VersionRange

/-!
# Canonical versions

A version as it is compared: four numeric fields, a prerelease and build metadata. Calendar versions
may have more numeric groups than four.

* `Version`, `Version.release`: the fields, and the numeric groups that count in the order.
* `Version.text`: a version in writing.
* `Version.parse`: reads a version; the form is strict and ASCII.
* `Version.change`, `Version.ofFields`: a version from named fields.
-/

/-- A version with its numeric fields, its prerelease and its build metadata. The numbers may be
    negative in a version that was put together by hand. -/
structure Version where
  major : Int
  minor : Int := 0
  patch : Int := 0
  revision : Int := 0
  prerelease : String := ""
  build : String := ""
  /-- The numeric groups behind the revision. -/
  extra : List Int := []
  deriving DecidableEq, Repr, Inhabited

namespace Version

/-- The list without the zeros at its end. Zeros in front of another number stay. -/
def trimZeros (ns : List Int) : List Int := (ns.reverse.dropWhile (· == 0)).reverse

/-- The numeric groups; zeros behind the revision count only in front of another group. -/
def release (v : Version) : List Int :=
  [v.major, v.minor, v.patch, v.revision] ++ trimZeros v.extra

/-! ### Writing -/

/-- The numbers that are written: the revision only if it is positive or another group follows. -/
def written (v : Version) : List Int :=
  [v.major, v.minor, v.patch]
    ++ (if 0 < v.revision ∨ v.extra ≠ [] then [v.revision] else []) ++ v.extra

/-- The version in writing, with the tags that are not empty behind their marks. -/
def text (v : Version) : String :=
  ".".intercalate (v.written.map toString)
    ++ (if v.prerelease = "" then "" else "-" ++ v.prerelease)
    ++ (if v.build = "" then "" else "+" ++ v.build)

/-! ### Reading -/

/-- The characters of prereleases and build metadata, letters and digits of ASCII, the point and
    the hyphen. -/
def isTagChar (c : Char) : Bool := c.isAlphanum || c == '.' || c == '-'

/-- A prerelease or build metadata: not empty, with the characters of a tag only. -/
def isTag (s : List Char) : Bool := !s.isEmpty && s.all isTagChar

/-- A numeral: not empty, with the digits `0` to `9` only. -/
def isNumeral (s : List Char) : Bool := !s.isEmpty && s.all Text.isAsciiDigit

/-- The parts of a version in writing; a tag that is absent is empty. -/
structure Parts where
  numerals : List (List Char)
  prerelease : List Char
  build : List Char

/-- A tag behind its mark, empty if the mark is absent. A mark without a tag is refused. -/
def tag? : Option (List Char) → Option (List Char)
  | none => some []
  | some s => if isTag s then some s else none

/-- Takes a text apart: numerals with points between them, a prerelease behind the first `-` and
    build metadata behind the first `+`. -/
def Parts.read? (s : List Char) : Option Parts := do
  let (front, build) := Text.cut '+' s
  let (numbers, prerelease) := Text.cut '-' front
  let numerals := numbers.splitOn '.'
  guard (numerals.all isNumeral)
  return ⟨numerals, ← tag? prerelease, ← tag? build⟩

/-- The version with given numeric groups and tags. Groups that are missing are zero. -/
def ofGroups (ns : List Int) (prerelease build : String) : Version where
  major := ns.getD 0 0
  minor := ns.getD 1 0
  patch := ns.getD 2 0
  revision := ns.getD 3 0
  extra := ns.drop 4
  prerelease := prerelease
  build := build

/-- Reads a version, strictly: there is no `v`, no keyword and no white space as in version
    texts. -/
def parse (text : String) : Except Fault Version :=
  match Parts.read? text.toList with
  | none => .error (.parse { message := "Invalid version " ++ Text.quote text, fragment := text })
  | some p => do
    let ns ← p.numerals.mapM Numeral.read
    return ofGroups (ns.map Int.ofNat) (String.ofList p.prerelease) (String.ofList p.build)

/-! ### Named fields -/

/-- A field of a version with its value. -/
inductive Field where
  | major (n : Int)
  | minor (n : Int)
  | patch (n : Int)
  | revision (n : Int)
  | prerelease (s : String)
  | build (s : String)
  | extra (ns : List Int)

/-- The version with one field replaced. -/
def set (v : Version) : Field → Version
  | .major n => { v with major := n }
  | .minor n => { v with minor := n }
  | .patch n => { v with patch := n }
  | .revision n => { v with revision := n }
  | .prerelease s => { v with prerelease := s }
  | .build s => { v with build := s }
  | .extra ns => { v with extra := ns }

/-- The version with some fields replaced, one after the other; of one field the last value
    counts. -/
def change (v : Version) (fields : List Field) : Version := fields.foldl set v

/-- Whether a field is the major number, the only one that has no default. -/
def Field.isMajor : Field → Bool
  | .major _ => true
  | _ => false

/-- The version with given fields. The major number has to be among them. -/
def ofFields (fields : List Field) : Except Fault Version :=
  if fields.any Field.isMajor then .ok (change { major := 0 } fields) else .error .badFields

/-- A whole number in a loose value. -/
def int? : Datum → Option Int
  | .int n => some n
  | .bool b => some (if b then 1 else 0)
  | _ => none

/-- A field given by name and loose value. An unknown name and a value of another kind are refused
    alike. -/
def Field.named (name : String) (value : Datum) : Except Fault Field :=
  let field? : Option Field :=
    match name, value with
    | "major", d => (int? d).map .major
    | "minor", d => (int? d).map .minor
    | "patch", d => (int? d).map .patch
    | "revision", d => (int? d).map .revision
    | "prerelease", .text s => some (.prerelease s)
    | "build", .text s => some (.build s)
    | "extra", .list ds => (ds.mapM int?).map .extra
    | _, _ => none
  match field? with
  | some f => .ok f
  | none => .error .badFields

/-- A version from a loose value, which has to be a text. -/
def ofDatum : Datum → Except Fault Version
  | .text s => parse s
  | _ => .error .notText

/-! ### Small facts -/

/-- There are four numeric groups at least, those that all versions have. -/
@[simp] theorem length_four_le_release (v : Version) : 4 ≤ v.release.length := by
  simp [release]

end Version

end VersionRange
