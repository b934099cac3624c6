import VersionRange.Version.Basic

namespace VersionRange

/-!
# Interchange versions

The form with exactly three numbers that other tools understand.

* `Interchange`: three numbers, none of them negative, and optional tags.
* `Version.toInterchange`, `Version.ofInterchange`: there and back.
-/

/-- A version with exactly three numbers, as other libraries have it. An absent tag is told from an
    empty one. -/
structure Interchange where
  major : Nat
  minor : Nat
  patch : Nat
  prerelease : Option String
  build : Option String
  deriving DecidableEq, Repr

namespace Interchange

/-- The version with given numbers, which must not be negative. -/
def make (major minor patch : Int) (prerelease build : Option String) :
    Except Fault Interchange :=
  if major < 0 ∨ minor < 0 ∨ patch < 0 then .error .negative
  else .ok ⟨major.toNat, minor.toNat, patch.toNat, prerelease, build⟩

/-- The version in writing. -/
def text (v : Interchange) : String :=
  ".".intercalate [toString v.major, toString v.minor, toString v.patch]
    ++ (v.prerelease.map ("-" ++ ·)).getD "" ++ (v.build.map ("+" ++ ·)).getD ""

end Interchange

namespace Version

/-- A tag, absent if it is empty. -/
def tagOfText (s : String) : Option String := if s = "" then none else some s

/-- The version with three numbers, if no other group is needed. Zeros behind them are not
    needed. -/
def toInterchange (v : Version) : Except Fault Interchange :=
  if v.revision ≠ 0 ∨ v.extra.any (· ≠ 0) then .error (.fields v.text)
  else Interchange.make v.major v.minor v.patch (tagOfText v.prerelease) (tagOfText v.build)

/-- The version that an interchange version stands for. -/
def ofInterchange (v : Interchange) : Version where
  major := v.major
  minor := v.minor
  patch := v.patch
  prerelease := v.prerelease.getD ""
  build := v.build.getD ""

/-- A version that fits three numbers comes back from them with its tags; its further fields, which
    were zero, are gone. -/
theorem ofInterchange_of_toInterchange {v : Version} {i : Interchange}
    (h : v.toInterchange = .ok i) : ofInterchange i = { v with revision := 0, extra := [] } := by
  unfold toInterchange at h
  split at h
  case isTrue => cases h
  case isFalse =>
    unfold Interchange.make at h
    split at h
    case isTrue => cases h
    case isFalse hn =>
      cases h
      have tag (s : String) : (tagOfText s).getD "" = s := by
        by_cases hs : s = "" <;> simp [tagOfText, hs]
      simp only [ofInterchange, tag]
      congr 1 <;> omega

end Version

end VersionRange
