import VersionRange.Canonical.Normalize

namespace VersionRange

/-!
# What an expression carries besides versions

* `splitFlag?`: a stability flag behind the last `@`.
* `versionOfReference?`: the version in front of a reference `#...` on a branch.
-/

/-- Whether a text spells a stability flag. The case of the letters does not matter. -/
def isFlag (s : List Char) : Bool :=
  flags.any fun flag => Text.isKeyword (flag.map Char.toLower) s

/-- The text in front of a stability flag and the flag as it is written. The text holds no comma and
    no white space. -/
def splitFlag? (s : List Char) : Option (List Char × List Char) :=
  match Text.cutLast '@' s with
  | some (front, flag) => if front.all isSolid && isFlag flag then some (front, flag) else none
  | none => none

/-- A character of a branch name with a reference. -/
def isNameChar (c : Char) : Bool := isSolid c && c != '@'

/-- A version with the reference behind its `#`, such as the commit of a branch. -/
structure Referenced where
  version : List Char
  reference : List Char

/-- A named branch with a reference. The first `#` counts that has at least one character of a name
    in front of it. -/
def namedBranch? (s : List Char) : Option Referenced := do
  let (lead, s) ← Text.keywordLead? "dev-".toList s
  match s with
  | [] => none
  | c :: r =>
    guard (isNameChar c)
    let name := r.takeWhile fun c => isNameChar c && c != '#'
    match r.dropWhile fun c => isNameChar c && c != '#' with
    | '#' :: reference => some ⟨lead ++ c :: name, reference⟩
    | _ => none

/-- A wildcard in a group of a version. -/
def isWildcard (c : Char) : Bool := c == 'x' || c == 'X' || c == '*'

/-- The end `.x-dev` of a numeric branch in front of a `#`, and the reference. All that follows the
    mark is the reference. -/
def openEnd? : List Char → Option Referenced
  | '.' :: w :: r => do
    guard (isWildcard w)
    match ← Text.keywordLead? "-dev".toList r with
    | (dev, '#' :: reference) => some ⟨'.' :: w :: dev, reference⟩
    | _ => none
  | _ => none

/-- A numeric branch with a reference: the first `.x-dev#` behind at least one character counts. -/
def openBranch? : List Char → Option Referenced
  | [] => none
  | c :: r => do
    guard (isNameChar c)
    let b ← openEnd? r <|> openBranch? r
    return { b with version := c :: b.version }

/-- The version in front of a reference. The reference is not empty and fills the rest of the line,
    which has to be the last one. -/
def versionOfReference? (s : List Char) : Option (List Char) :=
  let check (b : Referenced) : Option (List Char) :=
    if b.reference.isEmpty || b.reference.contains '\n' then none else some b.version
  (namedBranch? s).bind check <|> (openBranch? s).bind check

end VersionRange
