import VersionRange.Constraint.Operator
import VersionRange.Constraint.Tree

namespace VersionRange

/-!
# Constraints

* `Comparator`: an operator with a canonical version.
* `Comparator.overlaps`: whether two comparators leave room for a version that satisfies both.
* `Constraint`: a tree of comparators, with `Constraint.accepts`.
* `Constraint.exactly`: the constraint that a concrete version is given as.
* `compareBy`: a comparison of two canonical texts through matching.
-/

/-- A comparison with a canonical version. That the text is canonical is not asked for: any text
    can be compared, if perhaps with a fault. -/
structure Comparator where
  operator : Operator
  version : String
  deriving DecidableEq, Repr, Inhabited

namespace Comparator

/-- The comparator in writing. -/
def text (c : Comparator) : String := c.operator.symbol ++ " " ++ c.version

/-- Whether a comparator leaves room for another one, the provider.

    * Where one side excludes a single version, only a side that is pinned to it conflicts.
    * Two sides that are open in the same direction overlap.
    * Otherwise the version of the provider decides, except that a common end point does not count
      when the provider excludes it. -/
def overlaps (branches : Bool) (c provider : Comparator) : Except Fault Bool :=
  if c.operator = .ne ∨ provider.operator = .ne then
    if c.operator ≠ .eq ∧ provider.operator ≠ .eq then .ok true
    else Operator.ne.relates branches provider.version c.version
  else if c.operator ≠ .eq ∧ c.operator.direction = provider.operator.direction then .ok true
  else do
    if ← c.operator.relates branches provider.version c.version then
      return !(provider.version == c.version && !provider.operator.hasEqual
        && c.operator.hasEqual)
    else return false

end Comparator

/-- A constraint on versions, as it is parsed from an expression or put together by hand. -/
abbrev Constraint := Tree Comparator

namespace Constraint

/-- Whether two constraints leave room for a common version. It is answered leaf by leaf, so a
    conjunction may have an answer that no single version bears out. -/
def accepts (c provider : Constraint) : Except Fault Bool :=
  Tree.meets (Comparator.overlaps false) c provider

/-- The constraint that only one version satisfies. To ask whether a version satisfies a constraint
    is to ask about this one. -/
def exactly (version : String) : Constraint := .leaf ⟨.eq, version⟩ none

/-- The constraint in writing. -/
def text (c : Constraint) : String := c.render Comparator.text

end Constraint

/-- Whether two canonical texts are in a relation, decided by matching. -/
def compareBy (op : Operator) (left right : String) : Except Fault Bool :=
  Constraint.accepts (.leaf ⟨op, right⟩ none) (.exactly left)

/-- Comparing two texts asks whether the second one, with the operator in front, leaves room for the
    first one alone. -/
theorem compareBy_eq_overlaps (op : Operator) (left right : String) :
    compareBy op left right = Comparator.overlaps false ⟨op, right⟩ ⟨.eq, left⟩ := rfl

end VersionRange
