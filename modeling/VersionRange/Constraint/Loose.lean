import VersionRange.Constraint.Basic

namespace VersionRange

/-!
# Loose constraints

A tree that was put together by hand may hold values that are no constraints at all. They are
noticed only when they are asked whether they match.

* `Part`: a leaf of such a tree.
* `Loose`: the tree, with `Loose.accepts`, `Loose.text`, `Loose.equals` and `Loose.isKey`.
-/

/-- A leaf: a comparator or a value that is no constraint. Such values can get into a group, and
    they are found only when they are asked. -/
inductive Part where
  | comparator (c : Comparator)
  | foreign (d : Datum)
  deriving Inhabited

namespace Part

/-- The leaf in writing. -/
def text : Part → String
  | comparator c => c.text
  | foreign d => d.plainText

/-- Equality of leaves. -/
def same : Part → Part → Bool
  | comparator a, comparator b => a == b
  | foreign a, foreign b => a.same b
  | _, _ => false

/-- Whether a leaf can serve as a key: it is a comparator or a plain value, which cannot change. -/
def isKey : Part → Bool
  | comparator _ => true
  | foreign d => d.isScalar

end Part

/-- A tree of constraints and other values, as a caller without types may build it. -/
abbrev Loose := Tree Part

namespace Loose

/-- A comparator with its operator in a loose value. It is refused here if the value is no
    operator. -/
def comparator (operator : Datum) (version : String) (written : Option String) :
    Except Fault Loose := do
  return .leaf (.comparator ⟨← Operator.ofDatum operator, version⟩) written

/-- A value that is no constraint. -/
def foreign (d : Datum) : Loose := .leaf (.foreign d) none

/-- The tree of a constraint. -/
def ofConstraint (c : Constraint) : Loose := c.map .comparator

/-- The value that stands in place of a constraint, if there is one. Inside a group it is told only
    when its turn comes. -/
def foreign? : Loose → Option Datum
  | .leaf (.foreign d) _ => some d
  | _ => none

/-- What a leaf of a group says, where `lead` tells what a comparator says. A value that is no
    constraint cannot be asked at all. -/
def leading (lead : Comparator → Except Fault Bool) : Part → Except Fault Bool
  | .comparator c => lead c
  | .foreign _ => .error .notMember

/-- Whether a comparator leaves room for a tree. The absent value leaves room for anything, and no
    other value can be compared with. -/
def comparatorMeets (c : Comparator) : Loose → Except Fault Bool
  | .leaf (.comparator d) _ => c.overlaps false d
  | .leaf (.foreign .null) _ => .ok true
  | .leaf (.foreign d) _ => .error (.notConstraint d)
  | other => other.ask (leading fun d => d.overlaps false c)

/-- Whether two trees leave room for a common version. A value in place of the first tree is
    reported before anything else. -/
def accepts (c provider : Loose) : Except Fault Bool :=
  match c.foreign? with
  | some d => .error (.notConstraint d)
  | none => c.ask (leading fun d => comparatorMeets d provider)

/-- The tree in writing. -/
def text (c : Loose) : String := c.render Part.text

/-- Equality of trees up to what they remember. -/
def equals (a b : Loose) : Bool := Tree.same Part.same a b

/-- Whether the tree can serve as a key: it holds no list or object, which could change. -/
def isKey (c : Loose) : Bool := c.leaves.all Part.isKey

end Loose

end VersionRange
