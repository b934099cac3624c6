import VersionRange.Expression.Parse
import VersionRange.Sort

namespace VersionRange

/-!
# Queries

* `normalized`: the canonical text of a version.
* `satisfies`: whether a version satisfies an expression.
* `satisfiedBy`: the versions that satisfy an expression.
* `sortVersions`: versions in the order of their canonical texts.
* `sortTexts`, `distinctTexts`: versions in writing in the order of versions, and without repeats.
-/

/-- The canonical text of a version. Its report becomes a fault like those of other calls. -/
def normalized (version : String) : Traced Fault String := do
  return (← (normalize version none).mapError .parse).text

/-- Whether a version satisfies an expression.  The version is read first. -/
def satisfies (version expression : String) : Traced Fault Bool := do
  let text ← normalized version
  let c ← Expression.parse expression
  Traced.lift (c.accepts (.exactly text))

/-- The versions that satisfy a constraint, as they were given. With `skipInvalid` a version that
    cannot be read is left out with a warning. -/
def acceptedBy (skipInvalid : Bool) (c : Constraint) : List String → Traced Fault (List String)
  | [] => return []
  | version :: rest => do
    match ← (normalize version none).attempt with
    | .error e =>
      if !skipInvalid then .fail (.parse e)
      else
        Traced.say facadeChannel .warning
          ("Skipping invalid version " ++ Text.quote version ++ ": " ++ e.message)
        acceptedBy skipInvalid c rest
    | .ok v =>
      if ← Traced.lift (c.accepts (.exactly v.text)) then
        return version :: (← acceptedBy skipInvalid c rest)
      else acceptedBy skipInvalid c rest

/-- The versions that satisfy an expression, in their order.  The expression is read first. -/
def satisfiedBy (versions : List String) (expression : String) (skipInvalid : Bool) :
    Traced Fault (List String) := do
  acceptedBy skipInvalid (← Expression.parse expression) versions

/-- A version with its canonical text. The text is the key for sorting, and the version is what
    comes back. -/
structure Keyed where
  key : String
  version : String
  deriving DecidableEq, Repr

/-- The order of versions by their canonical texts, branches below all others. Equal texts are
    equal without being read. -/
def compareKeyed (a b : Keyed) : Except Fault Ordering :=
  if a.key = b.key then .ok .eq
  else do return (← compareTexts true a.key b.key).getD .eq

/-- The versions in ascending or descending order.  Equal ones stay in their order. -/
def sortVersions (descending : Bool) (versions : List String) : Traced Fault (List String) := do
  let keyed ← versions.mapM fun v => do return Keyed.mk (← normalized v) v
  let sorted ← Traced.lift (if descending then sortDownBy compareKeyed keyed
    else sortBy compareKeyed keyed)
  return sorted.map Keyed.version

/-- A version with the text it was read from, which comes back when the versions are in order. -/
structure Labelled where
  version : Version
  text : String

/-- Reads versions that are given in writing. -/
def labelled (texts : List String) : Except Fault (List Labelled) :=
  texts.mapM fun t => do return ⟨← Version.parse t, t⟩

/-- Texts in the order of their versions.  Equal ones stay in their order. -/
def sortTexts (texts : List String) : Except Fault (List String) := do
  return (← sortBy (fun a b => a.version.compare b.version) (← labelled texts)).map Labelled.text

/-- The first text of each class of equal versions, in order. Texts are equal here if their
    versions are, whatever the zeros in them. -/
def distinctTexts (texts : List String) : Except Fault (List String) := do
  return (← distinctBy (fun a b => a.version.compare b.version) (← labelled texts)).map
    Labelled.text

end VersionRange
