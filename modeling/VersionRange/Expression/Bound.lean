import VersionRange.Canonical.Release
import VersionRange.Numeral

namespace VersionRange

/-!
# Bounds of ranges

A range written as `~1.2`, `^1.2` or `1.2.*` ends where one of its numbers would be raised.

* `raiseAt`: a list of numbers raised at a position, with zeros behind it.
* `devBound`: the lowest version of raised numbers, in writing.
* `tildePosition`, `caretPosition`, `wildcardPosition`: the number that a range keeps below.
-/

/-- The list with the number at a position raised and all later ones set to zero. A position behind
    the end raises nothing. -/
def raiseAt (amount : Nat) : Nat → List Nat → List Nat
  | _, [] => []
  | 0, n :: ns => (n + amount) :: ns.map fun _ => 0
  | p + 1, n :: ns => n :: raiseAt amount p ns

/-- The lowest version with four numbers: those of the groups, raised at a position, with zeros for
    missing ones and behind the position. -/
def devBound (groups : List (List Char)) (position amount : Nat) : Except Fault String := do
  let ns ← (padGroups groups).mapM Numeral.read
  let ds ← (raiseAt amount position ns).mapM Numeral.write
  return String.ofList (['.'].intercalate ds ++ "-dev".toList)

/-- A `~` range keeps all groups but the last one, and the first one in any case. -/
def tildePosition (groups : List (List Char)) : Nat := groups.length - 2

/-- A `^` range keeps the groups up to the first that is not zero among the first three, if a group
    is written behind it. -/
def caretPosition : List (List Char) → Nat
  | major :: minor :: rest =>
    if Numeral.value major ≠ 0 then 0
    else if rest.isEmpty ∨ Numeral.value minor ≠ 0 then 1
    else 2
  | _ => 0

/-- A range with wildcards keeps all groups that are written. -/
def wildcardPosition (groups : List (List Char)) : Nat := groups.length - 1

/-- Raising a number keeps all positions, even if there is none to raise. -/
theorem length_raiseAt (amount position : Nat) (ns : List Nat) :
    (raiseAt amount position ns).length = ns.length := by
  induction ns generalizing position with
  | nil => cases position <;> rfl
  | cons n ns ih => cases position <;> simp [raiseAt, ih]

end VersionRange
