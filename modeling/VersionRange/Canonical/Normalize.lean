import VersionRange.Canonical.Basic
import VersionRange.Error
import VersionRange.Traced

namespace VersionRange

/-!
# Normalizing version texts

* `aliasSource?`, `isMaster`, `devName?`, `withoutBuild`, `devStem?`: the forms that are recognized
  besides releases.
* `normalizeBranch`: the meaning of a branch name.
* `normalize`: the meaning of a version text, or what is wrong with it.
-/

/-! ### Forms of a version text -/

/-- A character that may stand in one version of a list: no comma and no white space. Versions are
    taken from expressions, where both of them separate. -/
def isSolid (c : Char) : Bool := c != ',' && !Text.isBlank c

/-- The source of an alias `source as target`, where neither side holds a comma or white space. Of
    a branch that is installed as a version the branch counts. -/
def aliasSource? (s : List Char) : Option (List Char) :=
  let source := s.takeWhile isSolid
  match Text.keywordLead? " as ".toList (s.dropWhile isSolid) with
  | none => none
  | some (_, target) =>
    if !source.isEmpty && !target.isEmpty && target.all isSolid then some source else none

/-- Whether a text names the main line of development, with `dev-` in front or not. The case of the
    letters does not matter. -/
def isMaster (s : List Char) : Bool :=
  let name := match Text.keywordLead? "dev-".toList s with
    | some (_, r) => r
    | none => s
  masterBranches.any fun m => Text.isKeyword m name

/-- The name behind `dev-`. Whatever stands there is the name of a branch, so such a text is never
    read as a number. -/
def devName? (s : List Char) : Option (List Char) :=
  (Text.keywordLead? "dev-".toList s).map (·.2)

/-- The text without build metadata, which starts at the first `+` and has no white space. Nothing
    is cut off where nothing stands in front of the plus or behind it. -/
def withoutBuild (s : List Char) : List Char :=
  match Text.cut '+' s with
  | (front, some build) =>
    if !front.isEmpty && front.all isSolid && !build.isEmpty && build.all (!Text.isBlank ·) then
      front
    else s
  | (_, none) => s

/-- The text in front of a final `dev` and one mark, if it stands on one line. A branch may be
    written with `dev` behind its name instead of in front of it. -/
def devStem? (s : List Char) : Option (List Char) :=
  match s.reverse with
  | v :: e :: d :: r =>
    if Text.isKeyword "dev".toList [d, e, v] then
      let stem := (match r with
        | c :: t => if Marker.isMark c then t else r
        | [] => []).reverse
      if stem.contains '\n' then none else some stem
    else none
  | _ => none

/-! ### Branches -/

/-- Whether a group of a numeric branch leaves its number open. -/
def isOpenGroup (g : List Char) : Bool := g == ['x'] || g == ['X'] || g == ['*']

/-- A numeric group of a branch: its digits, or the largest number for an open one. So `1.x` is
    above all versions that are released from it. -/
def branchGroup? (g : List Char) : Option (List Char) :=
  if isOpenGroup g then some maxField.toList
  else if !g.isEmpty && g.all Text.isDigit then some g
  else none

/-- The four groups of a numeric branch such as `1.x`; missing groups are open. -/
def branchGroups? (s : List Char) : Option (List (List Char)) := do
  let gs ← ((skipV s).splitOn '.').mapM branchGroup?
  guard (gs.length ≤ 4)
  return gs ++ List.replicate (4 - gs.length) maxField.toList

/-- The meaning of a branch name. A numeric branch is as large as its numbers allow, and anything
    else names itself.  A name of the main line the parser is asked to normalize as a version,
    which gives the main line. -/
def normalizeBranch {ε : Type} (branch : String) : Traced ε Canonical := do
  let s := Text.trim branch.toList
  if masterBranches.contains s then
    Traced.receive (String.ofList s)
    return .master
  match branchGroups? s with
  | some groups => return .release ⟨groups, { dev := true }⟩
  | none =>
    match Text.afterLead? "dev-".toList s with
    | some name => return .branch name
    | none => return .branch (s.dropWhile (· == '-'))

/-! ### Versions -/

/-- Whether a text begins with another, case aside. -/
def beginsLike (lead s : List Char) : Bool :=
  Text.sameText lead (s.take lead.length)

/-- Whether a text, or the text in front of its final line end, ends with another, case aside. -/
def endsLike (tail s : List Char) : Bool :=
  let ends (s : List Char) := Text.sameText tail (s.drop (s.length - tail.length))
  ends s || (s.getLast? == some '\n' && ends s.dropLast)

/-- What is wrong with the text `s` as a side of an alias in the text `full`. The target is looked
    at first, as it stands at the end. -/
def aliasHint? (s full : List Char) : Option String :=
  if endsLike (" as ".toList ++ s) full then some "the alias must be an exact version"
  else if beginsLike (s ++ " as ".toList) full then
    some ("the alias source must be an exact version, "
      ++ "if it is a branch name you should prefix it with dev-")
  else none

/-- The report of a text that is no version and was taken from the text `full`. It points at the
    text itself, and the hint is a part of the message. -/
def versionReport (s full : List Char) : ParseError :=
  let text := String.ofList s
  match aliasHint? s full with
  | some hint =>
    { message := "Invalid version string \"" ++ text ++ "\" in \"" ++ String.ofList full ++ "\", "
        ++ hint, fragment := text, hint? := some hint }
  | none => { message := "Invalid version string \"" ++ text ++ "\"", fragment := text }

/-- The meaning of a version text that is no alias; `full` is the text it was taken from. The forms
    are tried in this order, and a branch in front of `dev` comes last. -/
def normalizePlain (s full : List Char) : Traced ParseError Canonical :=
  if isMaster s then pure .master
  else match devName? s with
    | some name => pure (.branch name)
    | none =>
      let s := withoutBuild s
      match Release.ofText? s with
      | some r => pure (.release r)
      | none =>
        match devStem? s with
        | some stem => normalizeBranch (String.ofList stem)
        | none => .fail (versionReport s full)

/-- The meaning of a version text.  Of an alias only the source counts.  The text `full` that the
    version was taken from, by default the version itself, serves to explain a misused alias. -/
def normalize (version : String) (full : Option String) : Traced ParseError Canonical := do
  Traced.receive version
  let s := Text.trim version.toList
  let context := (full.map String.toList).getD s
  match aliasSource? s with
  | some source =>
    Traced.say parserChannel .debug ("Ignoring alias in " ++ Text.quote (String.ofList s))
    normalizePlain source context
  | none => normalizePlain s context

/-- The meaning of a version text on its own. -/
def Canonical.ofText? (version : String) : Except ParseError Canonical :=
  (normalize version none).outcome

/-! ### Small facts -/

/-- Leaving messages aside, normalizing is trimming, taking the source of an alias, and reading what
    is left on its own. -/
theorem outcome_normalize (version : String) (full : Option String) :
    (normalize version full).outcome =
      (let s := Text.trim version.toList
       normalizePlain ((aliasSource? s).getD s) ((full.map String.toList).getD s)).outcome := by
  simp only [normalize, Traced.outcome_bind, Traced.outcome_receive, Except.bind]
  cases aliasSource? (Text.trim version.toList) <;> simp [Except.bind]

/-- A branch name always has a meaning. -/
theorem outcome_normalizeBranch {ε : Type} (branch : String) :
    ∃ c, (normalizeBranch branch : Traced ε Canonical).outcome = .ok c := by
  unfold normalizeBranch
  dsimp only
  split
  case isTrue => exact ⟨.master, by simp [Except.map]⟩
  case isFalse =>
    split
    case h_1 => exact ⟨_, rfl⟩
    case h_2 => split <;> exact ⟨_, rfl⟩

end VersionRange
