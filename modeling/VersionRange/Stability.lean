import VersionRange.Text.Letter

namespace VersionRange

/-!
# Stability

How mature a version is, and the keywords that tell it.

* `Stability`: the five levels, with `rank` (higher is less stable) and `label`.
* `Keyword`: what a marker such as `beta2` says; `Keyword.ofText?` knows its long and short
  spellings.
* `Stability.ofText`: the level that a spelling stands for.
* `weight?`: how early a keyword sorts among the prereleases of one version.
* `master`: the canonical form of the main line of development, above every release.
-/

/-- The maturity of a version, as it is asked for in flags and found in texts. -/
inductive Stability where
  | stable
  | rc
  | beta
  | alpha
  | dev
  deriving DecidableEq, Repr, Inhabited

namespace Stability

/-- All levels, from the most to the least stable. -/
def all : List Stability := [stable, rc, beta, alpha, dev]

/-- The level as a number; a higher one is less stable. Only the order of these numbers matters. -/
def rank : Stability → Nat
  | stable => 0
  | rc => 5
  | beta => 10
  | alpha => 15
  | dev => 20

/-- The level as it is written in canonical versions and in flags. Only `RC` is in capitals. -/
def label : Stability → String
  | stable => "stable"
  | rc => "RC"
  | beta => "beta"
  | alpha => "alpha"
  | dev => "dev"

end Stability

/-- The flags that may follow an expression or a term after `@`. -/
def flags : List (List Char) := Stability.all.map fun s => s.label.toList

/-- A word for the maturity of a version. There is a keyword more than there are levels: a patch is
    stable and has its own place in the order. -/
inductive Keyword where
  | stable
  | patch
  | beta
  | rc
  | alpha
  | dev
  deriving DecidableEq, Repr

namespace Keyword

/-- The keyword as it is written in canonical versions. -/
def text : Keyword → String
  | stable => "stable"
  | patch => "patch"
  | beta => "beta"
  | rc => "RC"
  | alpha => "alpha"
  | dev => "dev"

/-- The level that a keyword stands for; a patch is as stable as a release. -/
def stability : Keyword → Stability
  | stable | patch => .stable
  | beta => .beta
  | rc => .rc
  | alpha => .alpha
  | dev => .dev

/-- The known spellings of the keywords, in small letters. The short ones are for reading only. -/
def spellings : List (String × Keyword) :=
  [("stable", stable), ("patch", patch), ("pl", patch), ("p", patch), ("beta", beta), ("b", beta),
   ("rc", rc), ("alpha", alpha), ("a", alpha), ("dev", dev)]

/-- The keyword with a spelling, whatever the case of its letters.  Mapping the ASCII capitals is
    enough: no other capital has a small letter that occurs in a spelling. -/
def ofText? (s : List Char) : Option Keyword :=
  (spellings.find? fun p => p.1.toList == s.map Char.toLower).map (·.2)

/-- The long form of a spelling; a text that is no spelling is kept. The case of the letters does
    not matter. -/
def longForm (s : List Char) : List Char :=
  ((ofText? s).map fun k => k.text.toList).getD s

/-- The canonical spelling of a keyword is one of its spellings. -/
theorem ofText?_text (k : Keyword) : ofText? k.text.toList = some k := by
  cases k <;> decide

/-- The long form is its own long form. -/
@[simp] theorem longForm_text (k : Keyword) : longForm k.text.toList = k.text.toList := by
  simp [longForm, ofText?_text]

end Keyword

/-- The level that a text stands for; a text that is no spelling of a keyword counts as stable. -/
def Stability.ofText (s : List Char) : Stability :=
  ((Keyword.ofText? s).map Keyword.stability).getD .stable

/-- How heavy the parts of a prerelease are; a heavier one sorts earlier. A part of any other kind,
    numbers included, has no weight. -/
def weights : List (String × Nat) :=
  [("dev", 20), ("alpha", 15), ("a", 15), ("beta", 10), ("b", 10), ("rc", 5), ("#", 4), ("pl", 3),
   ("p", 3), ("stable", 0)]

/-- The weight of a part, if it is one of the weighted words in any case. All other words have
    none. -/
def weight? (s : List Char) : Option Nat :=
  (weights.find? fun p => p.1.toList == s.map Char.toLower).map (·.2)

/-- The number that stands for a wildcard field: no field of a release is larger. -/
def maxField : String := "9999999"

/-- The canonical form of the main line of development. It is written like a version above all
    others. -/
def master : String := maxField ++ "-dev"

/-- The names of branches that mean the main line of development, in small letters. -/
def masterBranches : List (List Char) := ["master".toList, "trunk".toList, "default".toList]

end VersionRange
