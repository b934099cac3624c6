import VersionRange.Canonical.Release

namespace VersionRange

/-!
# Canonical texts

What a version text means once its spelling is settled.

* `Canonical`: the main line of development, a named branch or a release.
* `Canonical.text`: the one text for it, in which versions are stored and compared.
-/

/-- The meaning of a version text: the main line of development, a branch or a release. Each has
    one canonical text, and texts with the same one are the same version to the library. -/
inductive Canonical where
  /-- The main line of development. -/
  | master
  /-- The branch with a name. -/
  | branch (name : List Char)
  /-- A numbered version. -/
  | release (r : Release)
  deriving DecidableEq, Repr

namespace Canonical

/-- The characters of the canonical text. A branch has `dev-` in front of its name, which no other
    canonical text begins with. -/
def chars : Canonical → List Char
  | master => VersionRange.master.toList
  | branch name => "dev-".toList ++ name
  | release r => r.text

/-- The canonical text. -/
def text (c : Canonical) : String := String.ofList c.chars

/-- The characters of a canonical text, without the string around them. -/
@[simp] theorem toList_text (c : Canonical) : c.text.toList = c.chars := by
  simp [text]

end Canonical

end VersionRange
