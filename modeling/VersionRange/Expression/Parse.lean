import VersionRange.Expression.Split
import VersionRange.Expression.Term

namespace VersionRange

/-!
# Reading expressions

* `groupOf`, `alternativesOf`: the constraint of some constraints that go together.
* `collapse?`: one range for two ranges of which the second starts where the first ends.
* `Expression.parse`: the constraint that an expression stands for.
-/

namespace Expression

/-- All of some constraints; a single one needs no group. No constraint at all is a group without
    members. -/
def groupOf : List Constraint → Constraint
  | [c] => c
  | cs => .group .all cs none

/-- A range of two comparators, `>=` and `<`. Its ends are texts, and only texts are compared when
    ranges are merged. -/
structure Span where
  low : String
  high : String
  deriving DecidableEq, Repr

/-- The range that a constraint is, if it is nothing but one range, with its lower end first. -/
def span? : Constraint → Option Span
  | .group .all [.leaf ⟨.ge, low⟩ _, .leaf ⟨.lt, high⟩ _] _ => some ⟨low, high⟩
  | _ => none

/-- The constraint of a range. -/
def Span.constraint (s : Span) : Constraint :=
  .group .all [.leaf ⟨.ge, s.low⟩ none, .leaf ⟨.lt, s.high⟩ none] none

/-- One range for two, if the second starts exactly where the first ends. Three ranges in a row are
    left as they are. -/
def collapse? : List Constraint → Option Span
  | [a, b] => do
    let s ← span? a
    let t ← span? b
    if s.high = t.low then some ⟨s.low, t.high⟩ else none
  | _ => none

/-- Any of some constraints. Two ranges that meet are reported in a debug message and become
    one. -/
def alternativesOf (groups : List Constraint) : Traced Fault Constraint :=
  match groups with
  | [c] => return c
  | _ =>
    match collapse? groups with
    | some s => do
      Traced.say parserChannel .debug ("Collapsing contiguous ranges "
        ++ " and ".intercalate (groups.map Constraint.text))
      return s.constraint
    | none => return .group .any groups none

/-- The constraint of one alternative: all that its terms stand for, side by side in one group. -/
def parseAlternative (s : List Char) : Traced Fault Constraint := do
  return groupOf (← (splitTerms s).mapM Term.constraints).flatten

/-- The expression without a stability flag at its end.  A flag alone leaves any version. -/
def withoutFlag (s : List Char) : List Char :=
  match splitFlag? s with
  | some ([], _) => ['*']
  | some (front, _) => front
  | none => s

/-- The constraint that an expression stands for. It remembers the whole expression, with the flag
    and the reference that are taken off for reading. -/
def parse (expression : String) : Traced Fault Constraint := do
  let s := withoutFlag expression.toList
  let s ← match versionOfReference? s with
    | none => pure s
    | some version => do
      Traced.say parserChannel .debug
        ("Ignoring VCS reference in " ++ Text.quote (String.ofList s))
      pure version
  let groups ← (splitAlternatives s).mapM parseAlternative
  return (← alternativesOf groups).withWritten (some expression)

end Expression

end VersionRange
