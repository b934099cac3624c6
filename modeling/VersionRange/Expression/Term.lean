import VersionRange.Canonical.Stability
import VersionRange.Constraint.Basic
import VersionRange.Expression.Bound
import VersionRange.Expression.Reference

namespace VersionRange

/-!
# Terms

The smallest parts of an expression, such as `~1.2`, `1.*`, `1.0 - 2.0` or `>=1.0`.

* `Term`: the notations, with what is written in them.
* `Term.read`: the term that a text is; every text is one.
* `Term.constraints`: the constraints that a term stands for.
-/

/-- The sign of a comparison, as it is written; none is written for equality. Two spellings of one
    operator are two signs. -/
structure Sign where
  chars : List Char
  operator : Operator
  deriving DecidableEq, Repr

/-- A version with the text it was read from. The text is needed again, as bounds are normalized
    from texts. -/
structure Spelled where
  version : Written
  chars : List Char
  deriving DecidableEq, Repr

/-- A term of an expression. The forms are told apart by what they look like, before any version in
    them is normalized. -/
inductive Term where
  /-- Any version: `*`, `x.x`. -/
  | anything
  /-- The versions up to the next raise of the last group but one: `~1.2`. -/
  | tilde (v : Spelled)
  /-- The versions that keep the first group that is not zero: `^1.2`. -/
  | caret (v : Spelled)
  /-- The versions that begin with some groups: `1.2.*`. -/
  | wildcard (groups : List (List Char))
  /-- The versions from one to another: `1.0 - 2.0`. -/
  | hyphen (low high : Spelled)
  /-- The versions in a relation to one: `>=1.0`. -/
  | comparison (sign : Sign) (version : List Char)
  deriving DecidableEq, Repr

/-- The report of a term that is missing between two separators. -/
def ParseError.emptyTerm : ParseError :=
  { message := "Could not parse version constraint \"\"", fragment := "" }

namespace Term

/-! ### Reading -/

/-- The signs of comparisons; a longer one comes before its beginnings, so that the first one that
    fits is the longest. -/
def signs : List Sign :=
  [⟨"<>".toList, .ne⟩, ⟨"!=".toList, .ne⟩, ⟨">=".toList, .ge⟩, ⟨">".toList, .gt⟩,
   ⟨"<=".toList, .le⟩, ⟨"<".toList, .lt⟩, ⟨"==".toList, .eq⟩, ⟨"=".toList, .eq⟩]

/-- The sign at the front of a text, if there is one, and the text behind it. Blanks behind the
    sign stay in that text. -/
def readSign (s : List Char) : Sign × List Char :=
  (signs.findSome? fun sign => (Text.afterLead? sign.chars s).map fun r => (sign, r)).getD
    (⟨[], .eq⟩, s)

/-- Whether a text is a row of wildcards, each behind a point. The letters and the star may be
    mixed. -/
def isWildcardTail : List Char → Bool
  | '.' :: c :: r => isWildcard c && (r.isEmpty || isWildcardTail r)
  | _ => false

/-- Whether a text consists of wildcards alone, with a `v` in front or not. Such a term holds for
    every version, branches included. -/
def isAnything (s : List Char) : Bool :=
  match skipV s with
  | c :: r => isWildcard c && (r.isEmpty || isWildcardTail r)
  | [] => false

/-- The one to three groups in front of wildcards. With four groups there is no room for a
    wildcard, and the text is a version. -/
def wildcardGroups? (s : List Char) : Option (List (List Char)) :=
  let s := skipV s
  let major := s.takeWhile Text.isDigit
  let (groups, r) := readGroups 2 (s.dropWhile Text.isDigit)
  if !major.isEmpty && isWildcardTail r then some (major :: groups) else none

/-- A version that makes up a whole text. Only its form is looked at; whether it can be normalized
    is told later. -/
def spelled? (s : List Char) : Option Spelled := (Written.read? s).map fun w => ⟨w, s⟩

/-- The two ends of a hyphen range, with one or more spaces on each side of the hyphen. Without the
    spaces the hyphen belongs to a version. -/
def hyphen? (s : List Char) : Option (Spelled × Spelled) := do
  let low ← spelled? (s.takeWhile (· != ' '))
  match (s.dropWhile (· != ' ')).dropWhile (· == ' ') with
  | '-' :: ' ' :: r => return (low, ← spelled? (r.dropWhile (· == ' ')))
  | _ => none

/-- The version behind a given character. Where no version follows the character is no sign of a
    range. -/
def behind? (c : Char) : List Char → Option Spelled
  | [] => none
  | d :: r => if d = c then spelled? r else none

/-- The term that a text is.  What has no other form is a comparison. -/
def read (s : List Char) : Term :=
  if isAnything s then anything
  else ((behind? '~' s).map tilde
    <|> (behind? '^' s).map caret
    <|> (wildcardGroups? s).map wildcard
    <|> (hyphen? s).map fun p => hyphen p.1 p.2).getD
      (let (sign, r) := readSign s
       comparison sign (r.dropWhile Text.isBlank))

/-! ### Meaning -/

/-- The lower end of a range.  Without a marker it includes the prereleases of its version. -/
def lowerEnd (v : Spelled) : Traced Fault Comparator := do
  let s := if v.version.marker.isAbsent then v.chars ++ "-dev".toList else v.chars
  let c ← (normalize (String.ofList s) none).mapError .parse
  return ⟨.ge, c.text⟩

/-- The upper end of a hyphen range. A version with less than three groups and no marker stands for
    all versions that begin with its groups. -/
def upperEnd (v : Spelled) : Traced Fault Comparator := do
  let groups := v.version.groups
  if 3 ≤ groups.length ∨ !v.version.marker.isAbsent then
    let c ← (normalize (String.ofList v.chars) none).mapError .parse
    return ⟨.le, c.text⟩
  else
    return ⟨.lt, ← Traced.lift (devBound groups (groups.length - 1) 1)⟩

/-- The range from the lower end of a version to a bound. The bound is written first, so a number
    that is too long is found before the version is normalized. -/
def rangeTo (v : Spelled) (position : Nat) : Traced Fault (List Comparator) := do
  let high ← Traced.lift (devBound v.version.groups position 1)
  let low ← lowerEnd v
  return [low, ⟨.lt, high⟩]

/-- The range of the versions that begin with some groups.  It needs no lower end at zero. -/
def wildcardRange (groups : List (List Char)) : Except Fault (List Comparator) := do
  let low ← devBound groups (wildcardPosition groups) 0
  let high ← devBound groups (wildcardPosition groups) 1
  return if low = "0.0.0.0-dev" then [⟨.lt, high⟩] else [⟨.ge, low⟩, ⟨.lt, high⟩]

/-- What to write in place of wildcards behind a sign. -/
def wildcardHint? (sign : Sign) (version : List Char) : Option String :=
  if !sign.chars.isEmpty && (wildcardGroups? version).isSome then
    let stem := (version.reverse.dropWhile fun c => c == '.' || isWildcard c).reverse
    some ("wildcard versions cannot be combined with an operator, use " ++ String.ofList version
      ++ " or " ++ String.ofList sign.chars ++ String.ofList stem ++ " instead")
  else none

/-- The report of a comparison in the term `term`, made for the report of its version.  It explains
    itself by the message of that one, unless the version has wildcards behind a sign. -/
def comparisonReport (term : List Char) (sign : Sign) (version : List Char) (cause : ParseError) :
    ParseError :=
  let text := String.ofList term
  let hint := (wildcardHint? sign version).getD cause.message
  { message := "Could not parse version constraint \"" ++ text ++ "\": " ++ hint, fragment := text,
    hint? := some hint, cause? := some cause }

/-- The ending that a flag or the operator adds to a compared version. A flag marks a stable
    version. A release without a marker is compared at its prereleases when the operator is `<` or
    `>=`. -/
def ending (sign : Sign) (version : List Char) (flag : Option (List Char)) (text : String) :
    String :=
  match flag, Stability.ofVersion text with
  | some flag, .stable => "-" ++ (Stability.ofText flag).label
  | _, _ =>
    if (sign.operator = .lt ∨ sign.operator = .ge) ∧ !isBranch text ∧ text ≠ master
        ∧ (Marker.search version).isAbsent then "-dev"
    else ""

/-- The comparator of a comparison in the term `term`. If its version is refused the report of the
    version becomes the cause of another report, about the whole term. -/
def comparator (term : List Char) (sign : Sign) (version : List Char) (flag : Option (List Char)) :
    Traced Fault Comparator := do
  match ← (normalize (String.ofList version) none).attempt with
  | .ok c => return ⟨sign.operator, c.text ++ ending sign version flag c.text⟩
  | .error e => .fail (.parse (comparisonReport term sign version e))

/-- The constraints that the term `t`, read from the text `s`, stands for. A flag counts in
    comparisons only. -/
def meaning (s : List Char) (flag : Option (List Char)) (t : Term) :
    Traced Fault (List Constraint) :=
  let leaves (cs : List Comparator) : List Constraint := cs.map (.leaf · none)
  match t with
  | anything => return [.unrestricted none]
  | tilde v => leaves <$> rangeTo v (tildePosition v.version.groups)
  | caret v => leaves <$> rangeTo v (caretPosition v.version.groups)
  | wildcard groups => leaves <$> Traced.lift (wildcardRange groups)
  | hyphen low high => do
    let low ← lowerEnd low
    let high ← upperEnd high
    return leaves [low, high]
  | comparison sign version => do
    return leaves [← comparator s sign version flag]

/-- The constraints that a term, with a flag or without, stands for. The flag `stable` changes
    nothing. -/
def constraints (s : List Char) : Traced Fault (List Constraint) :=
  if s.isEmpty then .fail (.parse .emptyTerm)
  else match splitFlag? s with
    | some (front@(_ :: _), flag) =>
      let quiet := flag.map Char.toLower == Stability.stable.label.toList
      meaning front (if quiet then none else some flag) (read front)
    | _ => meaning s none (read s)

end Term

end VersionRange
