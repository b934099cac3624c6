import VersionRange.Text.Blank
import VersionRange.Text.Letter

namespace VersionRange.Text

/-!
# Cutting texts

* `startsWith lead s`, `endsWith tail s`: comparisons at the two ends of a text.
* `cut sep s`: the text before the first `sep` and, if there is one, the text after it.
* `cutLast sep s`: the texts before and after the last `sep`.
* `keywordLead? word s`: `s` after a keyword that may be written in any case.
-/

/-- The part of a text before the first separator, and the part after it. Without a separator there
    is no second part. -/
def cut (sep : Char) : List Char → List Char × Option (List Char)
  | [] => ([], none)
  | c :: r =>
    if c = sep then ([], some r)
    else
      let p := cut sep r
      (c :: p.1, p.2)

/-- The parts before and after the last separator, found as the first one from the end. -/
def cutLast (sep : Char) (s : List Char) : Option (List Char × List Char) :=
  match cut sep s.reverse with
  | (back, some front) => some (front.reverse, back.reverse)
  | (_, none) => none

/-- The rest of a text after a given beginning. -/
def afterLead? : List Char → List Char → Option (List Char)
  | [], s => some s
  | _ :: _, [] => none
  | a :: lead, c :: r => if a = c then afterLead? lead r else none

/-- Whether a text begins with another. -/
def startsWith (lead s : List Char) : Bool := (afterLead? lead s).isSome

/-- Whether a text ends with another. -/
def endsWith (tail s : List Char) : Bool := (afterLead? tail.reverse s.reverse).isSome

/-- The beginning of a text that spells a keyword in any case, and the rest. The keyword is given in
    small letters. -/
def keywordLead? : List Char → List Char → Option (List Char × List Char)
  | [], s => some ([], s)
  | _ :: _, [] => none
  | a :: word, c :: r =>
    if plain c = a then (keywordLead? word r).map fun p => (c :: p.1, p.2) else none

/-- Whether the whole text spells a keyword in any case. Some letters beyond ASCII spell it as
    well. -/
def isKeyword (word s : List Char) : Bool :=
  match keywordLead? word s with
  | some (_, []) => true
  | _ => false

/-- A text is cut at the first separator. -/
theorem cut_append {sep : Char} {s t : List Char} (h : sep ∉ s) :
    cut sep (s ++ sep :: t) = (s, some t) := by
  induction s with
  | nil => simp [cut]
  | cons c r ih =>
    rw [List.mem_cons, not_or] at h
    simp [cut, Ne.symm h.1, ih h.2]

/-- Without a separator there is nothing behind it. -/
theorem cut_of_not_mem {sep : Char} {s : List Char} (h : sep ∉ s) : cut sep s = (s, none) := by
  induction s with
  | nil => rfl
  | cons c r ih =>
    rw [List.mem_cons, not_or] at h
    simp [cut, Ne.symm h.1, ih h.2]

/-- The two parts and the separator make up the text. The first part ends in front of the first
    separator, so it has none. -/
theorem eq_append_of_cut {sep : Char} {s a b : List Char} (h : cut sep s = (a, some b)) :
    s = a ++ sep :: b ∧ sep ∉ a := by
  induction s generalizing a with
  | nil => simp [cut] at h
  | cons c r ih =>
    simp only [cut] at h
    split at h
    case isTrue hc =>
      simp only [Prod.mk.injEq, Option.some.injEq] at h
      simp [← h.1, ← h.2, hc]
    case isFalse hc =>
      simp only [Prod.mk.injEq] at h
      -- The character is no separator, so it belongs to the first part of the rest.
      obtain ⟨h₁, h₂⟩ := ih (a := (cut sep r).1) (Prod.ext rfl h.2)
      constructor
      · rw [← h.1, List.cons_append, ← h₁]
      · rw [← h.1, List.mem_cons, not_or]
        exact ⟨Ne.symm hc, h₂⟩

/-- Without a separator there is no last one. -/
theorem cutLast_of_not_mem {sep : Char} {s : List Char} (h : sep ∉ s) : cutLast sep s = none := by
  simp [cutLast, cut_of_not_mem (s := s.reverse) (by simpa using h)]

/-- What is left behind a lead is what the lead has to be put in front of. -/
theorem afterLead?_eq_some_iff {lead s r : List Char} :
    afterLead? lead s = some r ↔ s = lead ++ r := by
  induction lead generalizing s with
  | nil => simp [afterLead?]
  | cons a lead ih =>
    cases s with
    | nil => simp [afterLead?]
    | cons c t =>
      by_cases h : a = c
      · simp [afterLead?, h, ih]
      · simp [afterLead?, h, Ne.symm h]

/-- A text starts with a lead if something can be put behind the lead. -/
theorem startsWith_iff {lead s : List Char} : startsWith lead s = true ↔ ∃ r, s = lead ++ r := by
  simp [startsWith, Option.isSome_iff_exists, afterLead?_eq_some_iff]

/-- It ends with a tail if something can be put in front of the tail. -/
theorem endsWith_iff {tail s : List Char} : endsWith tail s = true ↔ ∃ r, s = r ++ tail := by
  simp only [endsWith, Option.isSome_iff_exists, afterLead?_eq_some_iff]
  constructor
  · rintro ⟨r, h⟩
    exact ⟨r.reverse, by simpa using congrArg List.reverse h⟩
  · rintro ⟨r, rfl⟩
    exact ⟨r.reverse, by simp⟩

/-- The spelling that was found and the rest make up the text. The spelling is the word, case
    aside. -/
theorem eq_append_of_keywordLead? {word s raw r : List Char}
    (h : keywordLead? word s = some (raw, r)) : s = raw ++ r ∧ raw.map plain = word := by
  induction word generalizing s raw with
  | nil =>
    simp only [keywordLead?, Option.some.injEq, Prod.mk.injEq] at h
    simp [← h.1, h.2]
  | cons a word ih =>
    cases s with
    | nil => simp [keywordLead?] at h
    | cons c t =>
      simp only [keywordLead?] at h
      split at h
      case isFalse => cases h
      case isTrue hc =>
        obtain ⟨p, hp, he⟩ := Option.map_eq_some_iff.1 h
        simp only [Prod.mk.injEq] at he
        have hp' : keywordLead? word t = some (p.1, r) := by rw [hp, ← he.2]
        obtain ⟨h₁, h₂⟩ := ih hp'
        simp [← he.1, h₁, h₂, hc]

/-- A word at the front is found as it is written, in any case. -/
theorem keywordLead?_append {word raw : List Char} (r : List Char) (h : raw.map plain = word) :
    keywordLead? word (raw ++ r) = some (raw, r) := by
  induction raw generalizing word with
  | nil => subst h; rfl
  | cons c t ih =>
    cases word with
    | nil => simp at h
    | cons a word =>
      simp only [List.map_cons, List.cons.injEq] at h
      simp [keywordLead?, h.1, ih h.2]

/-- A text is a keyword if it is the word up to case. So the test can be replaced by an
    equation. -/
theorem isKeyword_iff {word s : List Char} : isKeyword word s = true ↔ s.map plain = word := by
  unfold isKeyword
  constructor
  · intro h
    split at h
    case h_1 raw hs =>
      obtain ⟨h₁, h₂⟩ := eq_append_of_keywordLead? hs
      simpa [h₁] using h₂
    case h_2 => cases h
  · intro h
    have := keywordLead?_append [] h
    simp only [List.append_nil] at this
    simp [this]

end VersionRange.Text
