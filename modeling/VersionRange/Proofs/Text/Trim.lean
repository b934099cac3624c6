import Mathlib.Data.List.DropRight
import VersionRange.Canonical.Normalize

namespace VersionRange

/-!
# White space at the ends of a text

* `Settled`: a text without white space at its end, as trimming leaves it.
* `trim_blanks`: trimming takes the white space off a text that neither starts nor ends with any.
-/

/-- A text without white space at its end. -/
def Settled (s : List Char) : Prop := ∀ c, s.getLast? = some c → Text.isBlank c = false

/-- The empty text has no white space at its end. -/
theorem settled_nil : Settled [] := by
  simp [Settled]

/-- The end of a text ends as the text does. -/
theorem Settled.of_suffix {s t : List Char} (hs : Settled s) (h : t <:+ s) : Settled t := by
  obtain ⟨r, rfl⟩ := h
  intro c hc
  exact hs c (by rw [List.getLast?_append, hc]; rfl)

/-- Two texts end as the second one does, or as the first one if the second one is empty. -/
theorem Settled.append {s t : List Char} (hs : Settled s) (ht : Settled t) : Settled (s ++ t) := by
  intro c hc
  rw [List.getLast?_append] at hc
  cases hlast : t.getLast? with
  | none => exact hs c (by simpa [hlast] using hc)
  | some d => exact ht c (by rw [hlast]; simpa [hlast] using hc)

/-- What ends with a text that is not empty ends as that one does. -/
theorem Settled.append_left {t : List Char} (ht : Settled t) (s : List Char) (hne : t ≠ []) :
    Settled (s ++ t) := by
  intro c hc
  rw [List.getLast?_append_of_ne_nil s hne] at hc
  exact ht c hc

/-- A solid character is no white space. -/
theorem isBlank_of_isSolid {c : Char} (h : isSolid c = true) : Text.isBlank c = false := by
  simp only [isSolid, Bool.and_eq_true, Bool.not_eq_true'] at h
  exact h.2

/-- So a solid text does not end with any. -/
theorem settled_of_isSolid {s : List Char} (h : ∀ c ∈ s, isSolid c = true) : Settled s := by
  intro c hc
  exact isBlank_of_isSolid (h c (List.mem_of_getLast? hc))

/-- Taking white space off the end leaves none there. -/
theorem settled_trimEnd (s : List Char) : Settled (Text.trimEnd s) := by
  intro c hc
  have := List.head?_dropWhile_not Text.isBlank s.reverse
  rw [Text.trimEnd, List.getLast?_reverse] at hc
  rwa [hc] at this

/-- Nor does trimming. -/
theorem settled_trim (s : List Char) : Settled (Text.trim s) := settled_trimEnd _

/-- Without white space at the end nothing is taken off. -/
theorem trimEnd_of_settled {s : List Char} (h : Settled s) : Text.trimEnd s = s := by
  rcases List.eq_nil_or_concat s with rfl | ⟨r, c, rfl⟩
  · rfl
  · rw [List.concat_eq_append] at h ⊢
    exact Text.trimEnd_of_last (h c (by simp))

/-- Without white space at either end nothing is trimmed. -/
theorem trim_of_settled {c : Char} {r : List Char} (hc : Text.isBlank c = false)
    (h : Settled (c :: r)) : Text.trim (c :: r) = c :: r := by
  rw [Text.trim, Text.trimStart_of_head hc, trimEnd_of_settled h]

/-- A solid text is not trimmed. -/
theorem trim_of_isSolid {s : List Char} (h : ∀ c ∈ s, isSolid c = true) : Text.trim s = s := by
  exact Text.trim_of_solid fun c hc => isBlank_of_isSolid (h c hc)

/-! ### Texts between white space -/

/-- White space in front of a text is dropped with what the text begins with itself. -/
theorem dropWhile_isBlank_append {ws s : List Char} (h : ∀ c ∈ ws, Text.isBlank c = true) :
    (ws ++ s).dropWhile Text.isBlank = s.dropWhile Text.isBlank :=
  List.dropWhile_append_of_pos h

/-- White space behind a text is taken off with what the text ends with itself. -/
theorem trimEnd_append_blanks {s ws : List Char} (h : ∀ c ∈ ws, Text.isBlank c = true) :
    Text.trimEnd (s ++ ws) = Text.trimEnd s := by
  have hrev : ∀ c ∈ ws.reverse, Text.isBlank c = true := by
    intro c hc
    exact h c (List.mem_reverse.1 hc)
  rw [Text.trimEnd, List.reverse_append, dropWhile_isBlank_append hrev]
  rfl

/-- White space around a text that has none at its ends is trimmed off. The text may have white
    space inside, and it may be empty. -/
theorem trim_blanks {ws s ws' : List Char} (hws : ∀ c ∈ ws, Text.isBlank c = true)
    (hws' : ∀ c ∈ ws', Text.isBlank c = true)
    (hhead : ∀ c, s.head? = some c → Text.isBlank c = false) (hs : Settled s) :
    Text.trim (ws ++ s ++ ws') = s := by
  -- Behind the first white space nothing is trimmed at the start, unless nothing is there.
  have hstart : Text.trimStart (s ++ ws') = s ++ ws' ∨ s = [] := by
    cases s with
    | nil => exact .inr rfl
    | cons c r => exact .inl (Text.trimStart_of_head (hhead c rfl))
  have hdrop : Text.trim (ws ++ s ++ ws') = Text.trimEnd (Text.trimStart (s ++ ws')) := by
    show Text.trimEnd ((ws ++ s ++ ws').dropWhile Text.isBlank) = _
    rw [List.append_assoc, dropWhile_isBlank_append hws]
    rfl
  rw [hdrop]
  rcases hstart with hstart | rfl
  · rw [hstart, trimEnd_append_blanks hws', trimEnd_of_settled hs]
  · have hblank : Text.trimStart ([] ++ ws') = [] := List.dropWhile_eq_nil_iff.2 hws'
    rw [hblank]
    rfl

end VersionRange
