import VersionRange.Proofs.Canonical.Group
import VersionRange.Proofs.Canonical.Stable
import VersionRange.Proofs.Expression.Single

namespace VersionRange

/-!
# What stands in front of a version

An operator or the sign of a range is told from the version behind it by its characters.

* `signMarks`, `termMarks`: the characters of operators, and with them the signs of ranges.
* `Term.read_mark`: what starts with a mark of an operator is a comparison.
* `Term.read_sign_blanks`, `Term.read_sign`, `Term.read_comparison`: what stands behind an operator
  is compared, and so is what has no other form.
-/

/-! ### Marks -/

/-- The characters that operators are written with. -/
def signMarks : List Char := ['<', '>', '=', '!']

/-- The characters that a term may have in front of a version: those of operators and the signs of
    ranges. -/
def termMarks : List Char := '~' :: '^' :: signMarks

/-- The marks of signs are among the marks that a term may begin with. -/
theorem mem_termMarks {m : Char} (h : m ∈ signMarks) : m ∈ termMarks :=
  List.mem_cons_of_mem '~' (List.mem_cons_of_mem '^' h)

section TermMarks

variable {m : Char} {r : List Char}

/-- What is true of the marks: they are no part of a number, and no branch is known by them. -/
theorem termMarks_foreign : ∀ m ∈ termMarks,
    Text.plain m ≠ 'v' ∧ Text.isDigit m = false ∧ isWildcard m = false ∧ m ≠ '.' ∧
      Text.plain m ∉ branchInitials := by
  decide

/-- No mark is a `v`. -/
theorem skipV_mark (hm : m ∈ termMarks) : skipV (m :: r) = m :: r := by
  rw [skipV, if_neg (termMarks_foreign m hm).1]

end TermMarks

/-! ### Reading comparisons -/

namespace Term

variable {sign : Sign} {s : List Char}

/-- Without its sign at the front there is no range. -/
theorem behind?_eq_none {c : Char} (h : s.head? ≠ some c) :
    behind? c s = none := by
  cases s with
  | nil => rfl
  | cons d r =>
    have hne : d ≠ c := by simpa using h
    simp [behind?, hne]

/-- Each sign begins with one of the marks, and none of its characters structures an expression. -/
theorem exists_mark_of_sign (h : sign ∈ signs) :
    ∃ m w, sign.chars = m :: w ∧ m ∈ signMarks ∧ ∀ c ∈ sign.chars, isInert c = true := by
  have hsigns : ∀ s ∈ signs, s.chars ≠ [] ∧ s.chars.headD '<' ∈ signMarks ∧
      ∀ c ∈ s.chars, isInert c = true := by
    decide
  obtain ⟨hne, hhead, hinert⟩ := hsigns sign h
  obtain ⟨m, w, heq⟩ := List.exists_cons_of_ne_nil hne
  rw [heq] at hhead
  exact ⟨m, w, heq, hhead, hinert⟩

/-- The operator at the front is the one that is written, if no further mark stands behind it.
    Otherwise a longer one might be read. -/
theorem readSign_append (h : sign ∈ signs) (hs : ∀ m ∈ signMarks, s.head? ≠ some m) :
    readSign (sign.chars ++ s) = (sign, s) := by
  have hgt : ∀ r, Text.afterLead? ['>'] s ≠ some r := fun r hr => by
    rw [Text.afterLead?_eq_some_iff.1 hr] at hs
    exact hs '>' (by decide) rfl
  have heq : ∀ r, Text.afterLead? ['='] s ≠ some r := fun r hr => by
    rw [Text.afterLead?_eq_some_iff.1 hr] at hs
    exact hs '=' (by decide) rfl
  have hgt := Option.eq_none_iff_forall_ne_some.2 hgt
  have heq := Option.eq_none_iff_forall_ne_some.2 heq
  simp only [signs, List.mem_cons, List.not_mem_nil, or_false] at h
  rcases h with rfl | rfl | rfl | rfl | rfl | rfl | rfl | rfl <;>
    simp [readSign, signs, Text.afterLead?, hgt, heq]

/-- No version starts with a mark. -/
theorem spelled?_mark {m : Char} {r : List Char} (hm : m ∈ termMarks) :
    spelled? (m :: r) = none := by
  obtain ⟨-, hdigit, -, -, -⟩ := termMarks_foreign m hm
  rw [spelled?, Option.map_eq_none_iff, Option.eq_none_iff_forall_ne_some]
  intro w hw
  obtain ⟨t, hsplit, -, -, hgs, hne, -⟩ := Written.exists_of_read? hw
  obtain ⟨c, u, hhead, hc⟩ := exists_head_dotted hgs hne
  rw [skipV_mark hm, hhead] at hsplit
  rw [(List.cons.inj hsplit).1, hc] at hdigit
  cases hdigit

/-- What starts with a mark is neither a row of wildcards nor a range with wildcards or a hyphen.
    All of these start with a version or a wildcard. -/
theorem other_mark {m : Char} {r : List Char} (hm : m ∈ termMarks) :
    isAnything (m :: r) = false ∧ wildcardGroups? (m :: r) = none ∧ hyphen? (m :: r) = none := by
  obtain ⟨-, hdigit, hwildcard, -, -⟩ := termMarks_foreign m hm
  refine ⟨?_, ?_, ?_⟩
  · rw [isAnything, skipV_mark hm]
    simp [hwildcard]
  · simp only [wildcardGroups?, skipV_mark hm, List.takeWhile_cons, hdigit]
    simp
  · have hspace : (m != ' ') = true := by
      have hmarks : ∀ m ∈ termMarks, (m != ' ') = true := by decide
      exact hmarks m hm
    rw [hyphen?, List.takeWhile_cons, if_pos hspace, spelled?_mark hm]
    rfl

/-- A text that starts with the mark of an operator is a comparison. What is compared stands behind
    the operator and the blanks after it. -/
theorem read_mark {m : Char} {r : List Char} (hm : m ∈ signMarks) :
    read (m :: r)
      = comparison (readSign (m :: r)).1 ((readSign (m :: r)).2.dropWhile Text.isBlank) := by
  obtain ⟨hanything, hgroups, hhyphen⟩ := other_mark (r := r) (mem_termMarks hm)
  have hbehind : ∀ c ∈ ['~', '^'], behind? c (m :: r) = none := by
    intro c hc
    refine behind?_eq_none fun hhead => ?_
    have hother : ∀ c ∈ ['~', '^'], c ∉ signMarks := by decide
    exact hother c hc (Option.some.inj hhead ▸ hm)
  unfold read
  rw [if_neg (by simp [hanything]), hbehind '~' (by simp), hbehind '^' (by simp), hgroups, hhyphen]
  rfl

/-- Blanks behind an operator are left to the text behind it. They are no marks, so no longer
    operator is read. -/
theorem readSign_blanks {ws : List Char} (h : sign ∈ signs)
    (hws : ∀ c ∈ ws, Text.isBlank c = true) (hs : ∀ m ∈ signMarks, s.head? ≠ some m) :
    readSign (sign.chars ++ (ws ++ s)) = (sign, ws ++ s) := by
  refine readSign_append h fun m hm hhead => ?_
  cases ws with
  | nil => exact hs m hm hhead
  | cons d ws =>
    obtain rfl : d = m := Option.some.inj hhead
    have hmarks : ∀ m ∈ signMarks, Text.isBlank m = false := by decide
    have hblank := hws d List.mem_cons_self
    rw [hmarks d hm] at hblank
    cases hblank

/-- What stands behind an operator is compared, whatever white space is between them. -/
theorem read_sign_blanks {ws : List Char} (h : sign ∈ signs)
    (hws : ∀ c ∈ ws, Text.isBlank c = true) (hs : ∀ m ∈ signMarks, s.head? ≠ some m)
    (hblank : ∀ c, s.head? = some c → Text.isBlank c = false) :
    read (sign.chars ++ (ws ++ s)) = comparison sign s := by
  obtain ⟨m, w, hchars, hm, -⟩ := exists_mark_of_sign h
  have hread := read_mark (r := w ++ (ws ++ s)) hm
  rw [← List.cons_append, ← hchars, readSign_blanks h hws hs] at hread
  rw [hread]
  show comparison sign ((ws ++ s).dropWhile Text.isBlank) = _
  rw [dropWhile_isBlank_append hws]
  cases s with
  | nil => rfl
  | cons c r => rw [List.dropWhile_cons_of_neg (by simp [hblank c rfl])]

/-- A sign in front of a text that begins neither with a mark nor with white space makes a
    comparison of it. -/
theorem read_sign (h : sign ∈ signs) (hs : ∀ m ∈ signMarks, s.head? ≠ some m)
    (hblank : ∀ c, s.head? = some c → Text.isBlank c = false) :
    read (sign.chars ++ s) = comparison sign s := by
  have hnone : ∀ c ∈ ([] : List Char), Text.isBlank c = true := by simp
  exact read_sign_blanks h hnone hs hblank

/-- No operator is cut off from a text that does not start with a mark of one. Such a text is
    compared for equality. -/
theorem readSign_eq (h : ∀ m ∈ signMarks, s.head? ≠ some m) : readSign s = (⟨[], .eq⟩, s) := by
  have hnone : (signs.findSome? fun sign =>
      (Text.afterLead? sign.chars s).map fun r => (sign, r)) = none := by
    rw [List.findSome?_eq_none_iff]
    intro sign hsign
    obtain ⟨m, w, hchars, hm, -⟩ := exists_mark_of_sign hsign
    rw [Option.map_eq_none_iff, Option.eq_none_iff_forall_ne_some]
    intro r hr
    rw [Text.afterLead?_eq_some_iff.1 hr, hchars] at h
    exact h m hm rfl
  rw [readSign, hnone, Option.getD_none]

/-- A hyphen range has spaces around its hyphen. -/
theorem hyphen?_of_no_space (h : ' ' ∉ s) : hyphen? s = none := by
  have hdrop : s.dropWhile (· != ' ') = [] := by
    rw [List.dropWhile_eq_nil_iff]
    intro c hc
    exact bne_iff_ne.2 fun heq => h (heq ▸ hc)
  rw [hyphen?, hdrop]
  cases spelled? (s.takeWhile (· != ' ')) <;> rfl

/-- What has no other form is compared, with the operator in front of it or without one. The
    conditions rule out the other forms one by one. -/
theorem read_comparison (hsign : sign ∈ ⟨[], .eq⟩ :: signs)
    (hs : ∀ m ∈ termMarks, s.head? ≠ some m)
    (hblank : ∀ c, s.head? = some c → Text.isBlank c = false) (hanything : isAnything s = false)
    (hwildcards : wildcardGroups? s = none) (hhyphen : hyphen? s = none) :
    read (sign.chars ++ s) = comparison sign s := by
  have hmarks : ∀ m ∈ signMarks, s.head? ≠ some m := fun m hm => hs m (mem_termMarks hm)
  rcases List.mem_cons.1 hsign with rfl | hsign
  · have hbehind : ∀ c ∈ ['~', '^'], behind? c s = none := by
      intro c hc
      have hmark : ∀ c ∈ ['~', '^'], c ∈ termMarks := by decide
      exact behind?_eq_none (hs c (hmark c hc))
    -- Without an operator white space in front would be cut off, but there is none.
    have hdrop : s.dropWhile Text.isBlank = s := by
      cases s with
      | nil => rfl
      | cons c r => rw [List.dropWhile_cons_of_neg (by simp [hblank c rfl])]
    rw [List.nil_append]
    unfold read
    rw [if_neg (by simp [hanything]), hbehind '~' (by simp), hbehind '^' (by simp), hwildcards,
      hhyphen, readSign_eq hmarks]
    show comparison _ (s.dropWhile Text.isBlank) = _
    rw [hdrop]
  · exact read_sign hsign hmarks hblank

end Term

end VersionRange
