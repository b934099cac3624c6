import VersionRange.Numeral
import VersionRange.Proofs.Canonical.Stable

namespace VersionRange

/-!
# Versions as they are written

A version is written as numeric groups, with a `v` in front or not, and a marker behind them.

* `Marker.exists_append_of_read`: what a marker is read from, part by part.
* `Marker.isMarkerChar_of_whole`, `Marker.ascii_canonical`: the characters that a marker is written
  with, and those of its canonical form.
* `Marker.read_append_dev`: the ending `-dev` behind a text without a marker.
* `isPlain_of_skipV`: numbers with a marker behind them are the name of no branch.
* `NumberText`: groups of any script in writing, and `NumberText.ofText?_append` the release that
  they stand for with a marker behind them.
* `GroupText`, `MarkedText`: ASCII groups, and such groups with a marker, in writing.
* `GroupText.normalize_append`: what groups with a marker behind them are normalized to.
-/

/-! ### Markers in writing -/

namespace Marker

/-- The keyword and the numbers of a marker as they were read, without what is written for
    `dev`. -/
def spelling (m : Marker) : List Char := m.keyword.getD [] ++ m.identifier

/-- What is skipped in front of a keyword are separators. -/
theorem exists_append_skipSeparator (s : List Char) :
    ∃ lead, s = lead ++ skipSeparator s ∧ ∀ c ∈ lead, isSeparator c = true := by
  cases s with
  | nil => exact ⟨[], rfl, by simp⟩
  | cons c r =>
    by_cases hc : isSeparator c = true
    · exact ⟨[c], by simp [skipSeparator, hc], by simpa using hc⟩
    · exact ⟨[], by simp [skipSeparator, hc], by simp⟩

/-- In front of what follows `dev` there are only a mark and the letters of the word. All of them
    are characters of markers. -/
theorem exists_append_of_afterDev? {s r : List Char} (h : afterDev? s = some r) :
    ∃ dev, s = dev ++ r ∧ ∀ c ∈ dev, isMarkerChar c = true := by
  have hword {raw : List Char} (hraw : raw.map Text.plain = "dev".toList) :
      ∀ c ∈ raw, isMarkerChar c = true := by
    have hlower : ∀ d ∈ "dev".toList, d.isLower = true := by decide
    intro c hc
    exact isMarkerChar_iff.2 (.inr (.inr (hlower _ (hraw ▸ List.mem_map_of_mem hc))))
  cases s with
  | nil => cases h
  | cons c t =>
    obtain ⟨p, hp, rfl⟩ := Option.map_eq_some_iff.1 h
    obtain ⟨raw, r⟩ := p
    by_cases hc : isMark c = true
    · rw [if_pos hc] at hp
      obtain ⟨rfl, hraw⟩ := Text.eq_append_of_keywordLead? hp
      refine ⟨c :: raw, rfl, fun d hd => ?_⟩
      rcases List.mem_cons.1 hd with rfl | hd
      · exact isMarkerChar_iff.2 (.inl (isSeparator_of_isMark hc))
      · exact hword hraw d hd
    · rw [if_neg hc] at hp
      obtain ⟨heq, hraw⟩ := Text.eq_append_of_keywordLead? hp
      exact ⟨raw, heq, hword hraw⟩

/-- Reading splits the text behind the separator into a keyword, its numbers and what `dev` is
    looked for in. -/
theorem exists_read_eq (s : List Char) :
    ∃ keyword identifier t, skipSeparator s = keyword.getD [] ++ identifier ++ t ∧
      (afterDev? t = none → read s = (⟨keyword, identifier, false⟩, t)) ∧
      ∀ r, afterDev? t = some r → read s = (⟨keyword, identifier, true⟩, r) := by
  cases hk : readKeyword (skipSeparator s) with
  | none =>
    refine ⟨none, [], skipSeparator s, rfl, fun hdev => ?_, fun r hdev => ?_⟩
    · simp only [read, hk, hdev]
    · simp only [read, hk, hdev]
  | some p =>
    obtain ⟨word, t⟩ := p
    refine ⟨some word, (readIdentifier t).1, (readIdentifier t).2, ?_, fun hdev => ?_,
      fun r hdev => ?_⟩
    · rw [Option.getD_some, List.append_assoc, readIdentifier_append]
      exact (spelled_of_readKeyword hk).1
    · simp only [read, hk, hdev]
    · simp only [read, hk, hdev]

/-- A text is made of a separator, the keyword and the numbers of its marker, the word `dev` and
    what is left, where all but the last may be missing. -/
theorem exists_append_of_read (s : List Char) :
    ∃ lead dev, s = lead ++ (read s).1.spelling ++ dev ++ (read s).2 ∧
      (∀ c ∈ lead, isSeparator c = true) ∧ ∀ c ∈ dev, isMarkerChar c = true := by
  obtain ⟨lead, hs, hlead⟩ := exists_append_skipSeparator s
  obtain ⟨keyword, identifier, t, ht, hnone, hsome⟩ := exists_read_eq s
  -- The word `dev` is looked for behind the numbers, and its spelling is what it leaves.
  cases hdev : afterDev? t with
  | none =>
    refine ⟨lead, [], ?_, hlead, by simp⟩
    rw [hnone hdev]
    show s = lead ++ (keyword.getD [] ++ identifier) ++ [] ++ t
    rw [List.append_nil, List.append_assoc, ← ht, ← hs]
  | some r =>
    obtain ⟨dev, hr, hchars⟩ := exists_append_of_afterDev? hdev
    refine ⟨lead, dev, ?_, hlead, hchars⟩
    rw [hsome r hdev]
    show s = lead ++ (keyword.getD [] ++ identifier) ++ dev ++ r
    rw [List.append_assoc, List.append_assoc, ← hr, ← ht, ← hs]

/-- However a marker is spelled, its characters are those of markers: letters that spell one of
    ASCII, digits and separators. -/
theorem isMarkerChar_of_mem_spelling {m : Marker} (h : m.IsRead) {c : Char}
    (hc : c ∈ m.spelling) : isMarkerChar c = true := by
  rw [isMarkerChar_iff]
  rw [spelling, List.mem_append] at hc
  rcases hc with hc | hc
  · cases hk : m.keyword with
    | none =>
      rw [hk] at hc
      cases hc
    | some word =>
      rw [hk, Option.getD_some] at hc
      exact .inr (.inr (isLower_of_mem_keyword (h.spelled word hk) hc))
  · rcases mem_isIdentifier h.identifier hc with hd | hm
    · exact .inr (.inl hd)
    · exact .inl (isSeparator_of_isMark hm)

/-- The characters of a text that is nothing but a marker. -/
theorem isMarkerChar_of_whole {s : List Char} (h : (read s).2 = []) {c : Char} (hc : c ∈ s) :
    isMarkerChar c = true := by
  obtain ⟨lead, dev, hs, hlead, hdev⟩ := exists_append_of_read s
  rw [hs, h, List.append_nil, List.mem_append, List.mem_append] at hc
  rcases hc with (hc | hc) | hc
  · exact isMarkerChar_iff.2 (.inl (hlead c hc))
  · exact isMarkerChar_of_mem_spelling (isRead_read s) hc
  · exact hdev c hc

/-- The canonical form of a marker in ASCII is ASCII. A keyword may be replaced, but only with one
    of the table. -/
theorem ascii_canonical {m : Marker} (h : ∀ c ∈ m.spelling, c.toNat < 128) :
    ∀ c ∈ m.canonical.text, c.toNat < 128 := by
  obtain ⟨keyword, identifier, dev⟩ := m
  have hdev : ∀ c ∈ (if dev then "-dev".toList else []), c.toNat < 128 := by
    cases dev <;> decide
  cases keyword with
  | none =>
    intro c hc
    exact hdev c hc
  | some word =>
    simp only [canonical]
    split
    case isTrue =>
      intro c hc
      cases hc
    case isFalse =>
      intro c hc
      rw [text, List.mem_append, List.mem_append, List.mem_cons] at hc
      rcases hc with ((rfl | hc) | hc) | hc
      · decide
      · -- The long form of a keyword is in the table, or it is the keyword itself.
        cases hw : Keyword.ofText? word with
        | none =>
          rw [Keyword.longForm, hw] at hc
          exact h c (List.mem_append_left _ hc)
        | some k =>
          rw [Keyword.longForm, hw] at hc
          have htext : ∀ d ∈ k.text.toList, d.toNat < 128 := by cases k <;> decide
          exact htext c hc
      · exact h c (List.mem_append_right _ ((List.dropWhile_sublist _).subset hc))
      · exact hdev c hc

/-- A text that is nothing but an absent marker is a separator or empty. No other text is read as
    one to its end. -/
theorem skipSeparator_eq_nil {s : List Char} (h : (read s).2 = [])
    (habsent : (read s).1.isAbsent = true) : skipSeparator s = [] := by
  obtain ⟨hkeyword, hdev⟩ := isAbsent_iff.1 habsent
  obtain ⟨keyword, identifier, t, ht, hnone, hsome⟩ := exists_read_eq s
  cases hafter : afterDev? t with
  | none =>
    have hbare := (isRead_read s).bare hkeyword
    rw [hnone hafter] at hkeyword hbare h
    obtain rfl : keyword = none := hkeyword
    obtain rfl : identifier = [] := hbare
    obtain rfl : t = [] := h
    exact ht
  | some r =>
    rw [hsome r hafter] at hdev
    cases hdev

/-- A text that is read to its end without a marker in it consists of separators. -/
theorem isSeparator_of_absent {s : List Char} (h : (read s).2 = [])
    (habsent : (read s).1.isAbsent = true) : ∀ c ∈ s, isSeparator c = true := by
  obtain ⟨lead, hs, hlead⟩ := exists_append_skipSeparator s
  rw [skipSeparator_eq_nil h habsent, List.append_nil] at hs
  exact hs ▸ hlead

/-- Behind a text without a marker, `-dev` is a marker. -/
theorem read_append_dev {s : List Char} (h : (read s).2 = [])
    (habsent : (read s).1.isAbsent = true) : read (s ++ "-dev".toList) = ({ dev := true }, []) := by
  have hskip := skipSeparator_eq_nil h habsent
  cases s with
  | nil => decide
  | cons c r =>
    by_cases hc : isSeparator c = true
    · obtain rfl : r = [] := by simpa [skipSeparator, hc] using hskip
      rcases isSeparator_iff.1 hc with rfl | rfl | rfl <;> decide
    · simp [skipSeparator, hc] at hskip

end Marker

/-! ### Numbers with a marker behind them -/

section Numbers

variable {s numbers t : List Char}

/-- They are written in digits, marks and the characters of a marker, perhaps behind a `v`. -/
theorem cases_of_mem_numbers (hsplit : skipV s = numbers ++ t) (hnumbers : numbered numbers = true)
    (ht : (Marker.read t).2 = []) {c : Char} (hc : c ∈ s) :
    Text.plain c = 'v' ∨ (Text.isDigit c = true ∨ isDateMark c = true) ∨
      Marker.isMarkerChar c = true := by
  rcases mem_skipV hc with hv | hc
  · exact .inl hv
  · rw [hsplit] at hc
    rcases List.mem_append.1 hc with hc | hc
    · exact .inr (.inl (isMarked_of_numbered hnumbers c hc))
    · exact .inr (.inr (Marker.isMarkerChar_of_whole ht hc))

/-- Nothing else is written in them. A character that none of these parts can have is not in the
    text. -/
theorem not_mem_numbers (hsplit : skipV s = numbers ++ t) (hnumbers : numbered numbers = true)
    (ht : (Marker.read t).2 = []) {c : Char} (hv : Text.plain c ≠ 'v')
    (hc : (Text.isDigit c || isDateMark c || Marker.isMarkerChar c) = false) : c ∉ s := by
  simp only [Bool.or_eq_false_iff] at hc
  obtain ⟨⟨hdigit, hmark⟩, hmarker⟩ := hc
  intro hmem
  rcases cases_of_mem_numbers hsplit hnumbers ht hmem with h | (h | h) | h
  · exact hv h
  · exact Bool.eq_false_iff.1 hdigit h
  · exact Bool.eq_false_iff.1 hmark h
  · exact Bool.eq_false_iff.1 hmarker h

/-- Numbers with a marker behind them, and a `v` in front or not, start like no branch. They hold
    no white space, no comma and no plus, either. -/
theorem isPlain_of_skipV (hsplit : skipV s = numbers ++ t) (hnumbers : numbered numbers = true)
    (hahead : Marker.digitAhead numbers = true) (ht : (Marker.read t).2 = []) : IsPlain s where
  head := by
    cases numbers with
    | nil => cases hahead
    | cons d u =>
      obtain ⟨c, r, hs, hc⟩ := Written.exists_head_of_skipV (hsplit.trans List.cons_append) hahead
      refine ⟨c, r, hs, ?_⟩
      rcases hc with hv | hd
      · rw [hv]
        decide
      · exact not_mem_branchInitials hd
  solid c hc := by
    -- It is the `v`, a digit or a mark between the numbers, or it belongs to the marker.
    rcases cases_of_mem_numbers hsplit hnumbers ht hc with hv | (hd | hm) | hm
    · exact Text.isSolid_of_plain (by rw [hv]; decide)
    · exact Text.isSolid_of_isDigit hd
    · simp only [isDateMark, Bool.or_eq_true, beq_iff_eq] at hm
      rcases hm with (rfl | rfl) | rfl <;> decide
    · exact Marker.isSolid_of_isMarkerChar hm
  bare := not_mem_numbers hsplit hnumbers ht (by decide) (by decide)

end Numbers

/-! ### Versions in writing -/

/-- Numeric groups of any script in writing, with a `v` in front of them or none. The fields say
    what makes the text readable, so its lemmas need no hypotheses. -/
structure NumberText where
  lead : List Char
  groups : List (List Char)
  lead_mem : lead ∈ [[], ['v'], ['V']]
  groups_ne : groups ≠ []
  isGroup : ∀ g ∈ groups, IsGroup g

namespace NumberText

variable (v : NumberText)

/-- The groups with points between them, behind the `v`. -/
def chars : List Char := v.lead ++ dotted v.groups

/-- Either there is no `v`, or the groups stand behind one. -/
theorem chars_cases : v.chars = dotted v.groups ∨
    ∃ c, (c = 'v' ∨ c = 'V') ∧ v.chars = c :: dotted v.groups := by
  have hlead := v.lead_mem
  simp only [List.mem_cons, List.not_mem_nil, or_false] at hlead
  unfold chars
  rcases hlead with hlead | hlead | hlead
  · exact .inl (by rw [hlead]; rfl)
  · exact .inr ⟨'v', .inl rfl, by rw [hlead]; rfl⟩
  · exact .inr ⟨'V', .inr rfl, by rw [hlead]; rfl⟩

/-- Exactly the leading `v` is skipped in front of the groups. -/
theorem skipV_append (t : List Char) : skipV (v.chars ++ t) = dotted v.groups ++ t := by
  rcases v.chars_cases with heq | ⟨c, hc, heq⟩
  · rw [heq, skipV_dotted v.isGroup v.groups_ne]
  · have hplain : Text.plain c = 'v' := by rcases hc with rfl | rfl <;> decide
    simp [heq, skipV, hplain]

/-- Besides the leading letter there are digits and points only. -/
theorem mem_chars {c : Char} (hc : c ∈ v.chars) :
    c = 'v' ∨ c = 'V' ∨ c = '.' ∨ Text.isDigit c = true := by
  rcases v.chars_cases with heq | ⟨d, hd, heq⟩
  · exact .inr (.inr (mem_dotted v.isGroup (heq ▸ hc)))
  · rcases List.mem_cons.1 (heq ▸ hc) with rfl | hc
    · exact hd.imp_right .inl
    · exact .inr (.inr (mem_dotted v.isGroup hc))

/-- The text starts with the `v` or with a digit. -/
theorem exists_head : ∃ c r, v.chars = c :: r ∧ (c = 'v' ∨ c = 'V' ∨ Text.isDigit c = true) := by
  obtain ⟨d, r, hdotted, hd⟩ := exists_head_dotted v.isGroup v.groups_ne
  rcases v.chars_cases with heq | ⟨c, hc, heq⟩
  · exact ⟨d, r, heq.trans hdotted, .inr (.inr hd)⟩
  · exact ⟨c, _, heq, hc.imp_right .inl⟩

/-- With a marker behind it such a text is plain. -/
theorem isPlain_append {t : List Char} (ht : (Marker.read t).2 = []) : IsPlain (v.chars ++ t) :=
  isPlain_of_skipV (v.skipV_append t) (numbered_dotted v.isGroup)
    (digitAhead_dotted v.isGroup v.groups_ne) ht

/-- Up to four groups that start with a major number, with a marker behind them, are the filled up
    groups with the canonical form of the marker. -/
theorem ofText?_append {t : List Char} (hlen : v.groups.length ≤ 4)
    (hmajor : isMajor v.groups = true) (ht : (Marker.read t).2 = []) :
    Release.ofText? (v.chars ++ t) = some ⟨padGroups v.groups, (Marker.read t).1.canonical⟩ := by
  have hwhole : readBuild (Marker.read t).2 = ([], []) := by
    rw [ht]
    rfl
  have hread := Written.read?_dotted (v.skipV_append t) v.isGroup v.groups_ne hlen hwhole
  rw [Release.ofText?, hread, Option.bind_some, Written.release?_eq v.groups_ne, if_pos hmajor]
  rfl

end NumberText

/-- Numeric groups in writing: a `v` or none, and numerals that have room for another digit. With
    that room the next higher number, at which a range may end, can be converted as well. -/
structure GroupText where
  lead : List Char
  groups : List (List Char)
  lead_mem : lead ∈ [[], ['v'], ['V']]
  groups_ne : groups ≠ []
  numeral : ∀ g ∈ groups, Version.isNumeral g = true
  room : ∀ g ∈ groups, g.length < Numeral.limit

/-- A version in writing: one to four groups that start with a major number, and a marker or none.
    All of it is ASCII. -/
structure MarkedText extends GroupText where
  suffix : List Char
  length_le : groups.length ≤ 4
  major : isMajor groups = true
  ascii : ∀ c ∈ suffix, c.toNat < 128
  whole : (Marker.read suffix).2 = []

namespace GroupText

variable (v : GroupText)

/-- The groups with points between them, behind the `v`. -/
def chars : List Char := v.lead ++ dotted v.groups

/-- Every group of a marked text is one of its numbers. -/
theorem isGroup : ∀ g ∈ v.groups, IsGroup g :=
  fun g hg => isGroup_of_isNumeral (v.numeral g hg)

/-- The same groups, where the script does not count. -/
def number : NumberText := ⟨v.lead, v.groups, v.lead_mem, v.groups_ne, v.isGroup⟩

/-- The leading `v` is skipped, and the groups with their marker are left. -/
theorem skipV_append (t : List Char) : skipV (v.chars ++ t) = dotted v.groups ++ t :=
  v.number.skipV_append t

/-- Besides the leading letter there are digits and points only, as in any row of groups. -/
theorem mem_chars {c : Char} (hc : c ∈ v.chars) :
    c = 'v' ∨ c = 'V' ∨ c = '.' ∨ Text.isDigit c = true :=
  v.number.mem_chars hc

/-- The text starts with the `v` or with a digit. -/
theorem exists_head : ∃ c r, v.chars = c :: r ∧ (c = 'v' ∨ c = 'V' ∨ Text.isDigit c = true) :=
  v.number.exists_head

/-- **Versions in writing.** Up to four groups that start with a major number, with a marker behind
    them, are normalized to the filled up groups with the canonical form of the marker. -/
theorem normalize_append {t : List Char} (hlen : v.groups.length ≤ 4)
    (hmajor : isMajor v.groups = true) (ht : (Marker.read t).2 = []) :
    (normalize (String.ofList (v.chars ++ t)) none).outcome
      = .ok (.release ⟨padGroups v.groups, (Marker.read t).1.canonical⟩) := by
  have hrelease : Release.ofText? (v.chars ++ t)
      = some ⟨padGroups v.groups, (Marker.read t).1.canonical⟩ :=
    v.number.ofText?_append hlen hmajor ht
  have hplain : IsPlain (v.chars ++ t) := v.number.isPlain_append ht
  rw [normalize_plain hplain, hrelease]

end GroupText

end VersionRange
