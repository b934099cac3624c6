import VersionRange.Canonical.Marker

namespace VersionRange

/-!
# The stability of a version text

* `withoutReference s`: a text without the reference that follows its `#`.
* `Stability.ofVersion`: how stable a version text is, by its marker.
-/

/-- Whether the text behind a `#` is a reference: it is not empty and stands on one line, which may
    end behind it. -/
def isReference (s : List Char) : Bool :=
  let line := if s.getLast? == some '\n' then s.dropLast else s
  !line.isEmpty && !line.contains '\n'

/-- The text without a reference; a line end behind the reference stays. The reference begins at
    the first `#` with nothing but one line behind it. -/
def withoutReference : List Char → List Char
  | [] => []
  | c :: r =>
    if c = '#' ∧ isReference r then (if r.getLast? == some '\n' then ['\n'] else [])
    else c :: withoutReference r

/-- How stable a version text is.  Branches and the empty text are under development, and so is what
    the marker says to be; otherwise the keyword of the marker decides. -/
def Stability.ofVersion (version : String) : Stability :=
  let s := Text.lower (withoutReference version.toList)
  if s.isEmpty || Text.startsWith "dev-".toList s || Text.endsWith "-dev".toList s then .dev
  else
    let m := Marker.search s
    if m.dev then .dev else Stability.ofText (m.keyword.getD [])

/-- Without a `#` there is no reference that could be cut off. -/
theorem withoutReference_of_not_mem {s : List Char} (h : '#' ∉ s) : withoutReference s = s := by
  induction s with
  | nil => rfl
  | cons c r ih =>
    rw [List.mem_cons, not_or] at h
    simp [withoutReference, Ne.symm h.1, ih h.2]

end VersionRange
