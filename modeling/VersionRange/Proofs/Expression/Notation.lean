import VersionRange.Proofs.Canonical.Spelling
import VersionRange.Proofs.Expression.Bound
import VersionRange.Proofs.Expression.Marks

namespace VersionRange

/-!
# Ranges in writing

The ranges `~1.2`, `^1.2` and `1.2.*` are written with a sign in front of a version, or with
wildcards behind its groups.  Each of them is one term.

* `RangeSign`, `RangeSign.last`: the two signs of ranges, and the last number that a range keeps.
* `WildcardText`: groups with wildcards behind them, in writing.
* `RangeSign.read_eq`: what stands behind the sign of a range.
* `MarkedText.isInert_chars`, `WildcardText.isInert_chars`: nothing is cut inside a range.
* `MarkedText.read_chars`, `WildcardText.read_chars`: what ranges are read as.
-/

/-! ### Signs -/

/-- The sign in front of a range. -/
inductive RangeSign where
  | tilde
  | caret
  deriving DecidableEq

/-- The sign as it is written. -/
def RangeSign.char : RangeSign → Char
  | tilde => '~'
  | caret => '^'

/-- The number at a place, where a missing one is zero. Places are counted from zero. -/
def numberAt (gs : List (List Char)) (i : Nat) : Nat := (groupValues gs).getD i 0

/-- The place of the last number that a range keeps. Behind `~` it is the last group but one, and
    behind `^` the first of the groups that is not zero, if another group follows. -/
def RangeSign.last : RangeSign → List (List Char) → Nat
  | tilde, gs => gs.length - 2
  | caret, gs =>
    if gs.length = 1 ∨ numberAt gs 0 ≠ 0 then 0
    else if gs.length = 2 ∨ numberAt gs 1 ≠ 0 then 1
    else 2

/-- The position that the program finds by cases is the one the statement describes by the zeros in
    front. -/
theorem caretPosition_eq {gs : List (List Char)} (hne : gs ≠ []) :
    caretPosition gs = RangeSign.caret.last gs := by
  rcases gs with _ | ⟨major, _ | ⟨minor, _ | ⟨patch, rest⟩⟩⟩
  · exact absurd rfl hne
  · simp [caretPosition, RangeSign.last]
  · simp [caretPosition, RangeSign.last, numberAt, groupValues, padGroups]
  · simp [caretPosition, RangeSign.last, numberAt, groupValues, padGroups]

/-- A range with up to four groups keeps one of the four positions. So raising there raises a
    number. -/
theorem RangeSign.last_lt {gs : List (List Char)} (hlen : gs.length ≤ 4) (sign : RangeSign) :
    sign.last gs < 4 := by
  cases sign with
  | tilde =>
    show gs.length - 2 < 4
    omega
  | caret =>
    simp only [last]
    split
    · omega
    · split <;> omega

/-! ### Texts -/

/-- The characters of a row of groups have no meaning in an expression. -/
theorem GroupText.isInert_of_mem_chars (v : GroupText) {c : Char} (hc : c ∈ v.chars) :
    isInert c = true := by
  rcases v.mem_chars hc with rfl | rfl | rfl | hd
  · decide
  · decide
  · decide
  · exact isInert_of_isDigit hd

namespace MarkedText

variable (v : MarkedText)

/-- The groups and the marker. -/
def chars : List Char := v.toGroupText.chars ++ v.suffix

/-- The marker that is written. -/
def marker : Marker := (Marker.read v.suffix).1

/-- The version with its text, as a range keeps it to read its lower end. -/
def spelled : Spelled := ⟨⟨v.groups, v.marker, []⟩, v.chars⟩

/-- A marked text is a version to its end. -/
theorem spelled?_chars : Term.spelled? v.chars = some v.spelled := by
  have hwhole : readBuild (Marker.read v.suffix).2 = ([], []) := by
    rw [v.whole]
    rfl
  have hread := Written.read?_dotted (v.skipV_append v.suffix) v.isGroup v.groups_ne v.length_le
    hwhole
  rw [Term.spelled?, chars, hread]
  rfl

/-- So nothing in it structures an expression. -/
theorem isInert_chars : ∀ c ∈ v.chars, isInert c = true := by
  intro c hc
  rcases List.mem_append.1 hc with hc | hc
  · exact v.isInert_of_mem_chars hc
  · exact isInert_of_isMarkerChar (Marker.isMarkerChar_of_whole v.whole hc)

end MarkedText

/-- Up to three groups with wildcards behind them, in writing. Each wildcard has a point in front
    of it. -/
structure WildcardText extends GroupText where
  wildcards : List Char
  length_le : groups.length ≤ 3
  wildcards_ne : wildcards ≠ []
  wildcard : ∀ c ∈ wildcards, isWildcard c = true

/-- Wildcards, each behind a point. -/
def wildcardRow (cs : List Char) : List Char := cs.flatMap fun c => ['.', c]

/-- No wildcard is a digit. -/
theorem isDigit_of_isWildcard {c : Char} (h : isWildcard c = true) : Text.isDigit c = false := by
  rcases isWildcard_iff.1 h with rfl | rfl | rfl <;> decide

/-- Wildcards do not structure an expression. -/
theorem isInert_of_isWildcard {c : Char} (h : isWildcard c = true) : isInert c = true := by
  rcases isWildcard_iff.1 h with rfl | rfl | rfl <;> decide

/-- A row of wildcards is recognized, and no number is ahead in front of it. So the groups end
    where the row begins. -/
theorem isWildcardTail_row {cs : List Char} (hne : cs ≠ []) (h : ∀ c ∈ cs, isWildcard c = true) :
    Term.isWildcardTail (wildcardRow cs) = true ∧ numberAhead (wildcardRow cs) = false := by
  induction cs with
  | nil => exact absurd rfl hne
  | cons c cs ih =>
    have hc := h c (by simp)
    have hrow : wildcardRow (c :: cs) = '.' :: c :: wildcardRow cs := rfl
    rw [hrow]
    constructor
    · show (isWildcard c && (_ || _)) = true
      rw [hc, Bool.true_and]
      -- At the end of the row the text ends; in front of it there are further wildcards.
      by_cases hcs : cs = []
      · rw [hcs]
        rfl
      · have htail := (ih hcs fun d hd => h d (by simp [hd])).1
        rw [htail, Bool.or_true]
    · show (Text.isDigit '.' || (isDateMark '.' && Text.isDigit c)) = false
      rw [isDigit_of_isWildcard hc]
      decide

/-! ### Reading ranges -/

/-- A text that starts with a digit, perhaps behind a `v`, is not made of wildcards alone. -/
theorem Term.isAnything_of_isDigit {s r : List Char} {c : Char} (h : skipV s = c :: r)
    (hc : Text.isDigit c = true) : isAnything s = false := by
  have hwildcard : isWildcard c = false := by
    rw [Bool.eq_false_iff]
    intro hw
    rw [isDigit_of_isWildcard hw] at hc
    cases hc
  rw [isAnything, h]
  simp [hwildcard]

/-- A text that starts with groups is not made of wildcards alone. -/
theorem GroupText.isAnything_append (v : GroupText) (t : List Char) :
    Term.isAnything (v.chars ++ t) = false := by
  obtain ⟨c, r, heq, hc⟩ := exists_head_dotted v.isGroup v.groups_ne
  refine Term.isAnything_of_isDigit (c := c) (r := r ++ t) ?_ hc
  rw [v.skipV_append, heq, List.cons_append]

/-- A text that starts with groups does not start with the sign of a range. -/
theorem GroupText.behind?_append (v : GroupText) {c : Char} (hc : c ∈ ['~', '^'])
    (t : List Char) : Term.behind? c (v.chars ++ t) = none := by
  refine Term.behind?_eq_none fun hsome => ?_
  obtain ⟨d, r, heq, hd⟩ := v.exists_head
  rw [heq, List.cons_append, List.head?_cons, Option.some.injEq] at hsome
  subst hsome
  rcases hd with rfl | rfl | hd
  · exact absurd hc (by decide)
  · exact absurd hc (by decide)
  · exact Marker.not_mem_of_isDigit hd (by decide) hc

/-- The sign of a range is read with the version behind it. -/
def RangeSign.term : RangeSign → Spelled → Term
  | tilde => .tilde
  | caret => .caret

/-- Behind the sign of a range there is a numbered version, or else the sign belongs to a version
    that is compared. -/
theorem RangeSign.read_eq (sign : RangeSign) (s : List Char) :
    Term.read (sign.char :: s) =
      match Term.spelled? s with
      | some v => sign.term v
      | none => .comparison ⟨[], .eq⟩ (sign.char :: s) := by
  have hmark : sign.char ∈ termMarks ∧ sign.char ∉ signMarks ∧ Text.isBlank sign.char = false := by
    cases sign <;> decide
  obtain ⟨hmark, hother, hblank⟩ := hmark
  obtain ⟨hanything, hwildcards, hhyphen⟩ := Term.other_mark (r := s) hmark
  -- No other form begins with this sign, and it is no operator either.
  have hsigns : ∀ m ∈ signMarks, (sign.char :: s).head? ≠ some m := by
    intro m hm hhead
    exact hother (Option.some.inj hhead ▸ hm)
  have hfirst : Term.behind? sign.char (sign.char :: s) = Term.spelled? s := by
    rw [Term.behind?, if_pos rfl]
  have hdrop : (sign.char :: s).dropWhile Text.isBlank = sign.char :: s :=
    List.dropWhile_cons_of_neg (by simp [hblank])
  unfold Term.read
  simp only [hanything, hwildcards, hhyphen, Term.readSign_eq hsigns, hdrop]
  cases sign with
  | tilde =>
    rw [RangeSign.char] at hfirst ⊢
    rw [hfirst, Term.behind?_eq_none (c := '^') (by simp)]
    cases Term.spelled? s <;> rfl
  | caret =>
    rw [RangeSign.char] at hfirst ⊢
    rw [hfirst, Term.behind?_eq_none (c := '~') (by simp)]
    cases Term.spelled? s <;> rfl

/-- A marked text behind the sign of a range is read as that range. -/
theorem MarkedText.read_chars (v : MarkedText) (sign : RangeSign) :
    Term.read (sign.char :: v.chars) = sign.term v.spelled := by
  rw [sign.read_eq, v.spelled?_chars]

namespace WildcardText

variable (w : WildcardText)

/-- The groups and the wildcards. -/
def chars : List Char := w.toGroupText.chars ++ wildcardRow w.wildcards

/-- Nothing in a text with wildcards structures an expression. -/
theorem isInert_chars : ∀ c ∈ w.chars, isInert c = true := by
  intro c hc
  rcases List.mem_append.1 hc with hc | hc
  · exact w.isInert_of_mem_chars hc
  · obtain ⟨d, hd, hc⟩ := List.mem_flatMap.1 hc
    simp only [List.mem_cons, List.not_mem_nil, or_false] at hc
    rcases hc with rfl | rfl
    · decide
    · exact isInert_of_isWildcard (w.wildcard _ hd)

/-- Its groups are found in front of the wildcards. A `v` at the front is skipped. -/
theorem wildcardGroups?_chars : Term.wildcardGroups? w.chars = some w.groups := by
  have hne := w.groups_ne
  have hgs := w.isGroup
  have hlen := w.length_le
  obtain ⟨htail, hahead⟩ := isWildcardTail_row w.wildcards_ne w.wildcard
  simp only [Term.wildcardGroups?, chars, w.skipV_append]
  cases hgroups : w.groups with
  | nil => exact absurd hgroups hne
  | cons g gs =>
    rw [hgroups] at hgs hlen
    have hg : g ≠ [] := (hgs g (by simp)).1
    obtain ⟨htake, hread⟩ := readGroups_dotted (n := 2) hgs (Nat.le_of_succ_le_succ hlen) hahead
    rw [htake, hread]
    simp [hg, htail]

/-- It is read as a range with wildcards. -/
theorem read_chars : Term.read w.chars = .wildcard w.groups := by
  have hanything : Term.isAnything w.chars = false := w.isAnything_append _
  have hbehind : ∀ c ∈ ['~', '^'], Term.behind? c w.chars = none := fun c hc =>
    w.behind?_append hc _
  unfold Term.read
  rw [if_neg (by simp [hanything]), hbehind '~' (by simp), hbehind '^' (by simp),
    w.wildcardGroups?_chars]
  rfl

end WildcardText

end VersionRange
