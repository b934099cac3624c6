import Mathlib.Data.List.DropRight
import VersionRange.Proofs.Text.Kind

namespace VersionRange

/-!
# Markers read back

A marker in canonical form is read back from its text, and whatever marker was read becomes one in
canonical form.

* `numberAhead`: a number, with a mark in front of it or not, at the front of a text.  No marker
  begins there, which is what keeps the numbers of a version together.
* `Marker.IsRead`, `Marker.IsCanonical`: the markers that reading gives, and those that are written
  in canonical texts.
* `Marker.read_append`: a marker is taken apart as it is put together.
* `Marker.read_text`: a canonical marker is read back from its text.
* `Marker.IsRead.canonical`: the canonical form of a marker is canonical.
* `Marker.isMarkerChar`: the characters that markers are written with.
-/

/-- Whether a number is ahead, with a mark of a date or version in front of it or not. Where one
    is, a reader of numbers goes on. -/
def numberAhead : List Char → Bool
  | [] => false
  | c :: r => Text.isDigit c || (isDateMark c && Marker.digitAhead r)

/-- A text whose first letter is none of the word's does not begin with the word. -/
theorem keywordLead?_eq_none {a c : Char} {word r : List Char} (h : Text.plain c ≠ a) :
    Text.keywordLead? (a :: word) (c :: r) = none := by
  simp [Text.keywordLead?, h]

namespace Marker

/-! ### Nothing to read at a number -/

/-- The marks between the numbers of an identifier are point and hyphen. -/
theorem isMark_iff {c : Char} : isMark c = true ↔ c = '.' ∨ c = '-' := by
  simp [isMark]

/-- In front of a keyword an underscore may stand as well. -/
theorem isSeparator_iff {c : Char} : isSeparator c = true ↔ c = '.' ∨ c = '-' ∨ c = '_' := by
  simp [isSeparator, isMark, or_assoc]

/-- So each mark is a separator. -/
theorem isSeparator_of_isMark {c : Char} (h : isMark c = true) : isSeparator c = true := by
  simp [isSeparator, h]

/-- What is no separator is no mark. -/
theorem isMark_eq_false {c : Char} (h : isSeparator c = false) : isMark c = false := by
  rw [isSeparator, Bool.or_eq_false_iff] at h
  exact h.1

/-- The parts of a date may be marked off by both of them. -/
theorem isDateMark_of_isMark {c : Char} (h : isMark c = true) : isDateMark c = true := by
  rcases isMark_iff.1 h with rfl | rfl <;> decide

/-- The letters that keywords begin with. No marker begins with any other letter but the `d` of
    `dev`. -/
def initials : List Char := ['s', 'b', 'r', 'a', 'p']

/-- No keyword is read at a letter that none begins with. -/
theorem readKeyword_eq_none {c : Char} {r : List Char} (h : Text.plain c ∉ initials) :
    readKeyword (c :: r) = none := by
  simp only [initials, List.mem_cons, List.not_mem_nil, or_false, not_or] at h
  obtain ⟨hs, hb, hr, ha, hp⟩ := h
  rw [readKeyword, List.findSome?_eq_none_iff]
  intro word hword
  simp only [keywords, List.mem_cons, List.not_mem_nil, or_false] at hword
  rcases hword with rfl | rfl | rfl | rfl | rfl | rfl | rfl | rfl | rfl <;>
    exact keywordLead?_eq_none (by assumption)

/-- A text is left alone whose first character begins neither a keyword nor `dev` nor build
    metadata. -/
theorem read_of_foreign {c : Char} {r : List Char} (hsep : isSeparator c = false)
    (hk : Text.plain c ∉ initials) (hd : Text.plain c ≠ 'd') : read (c :: r) = ({}, c :: r) := by
  have hmark := isMark_eq_false hsep
  have hdev : afterDev? (c :: r) = none := by
    have hlead : Text.keywordLead? "dev".toList (c :: r) = none := keywordLead?_eq_none hd
    simp only [afterDev?, hmark, Bool.false_eq_true, if_false, hlead]
    rfl
  simp only [read, skipSeparator, hsep, Bool.false_eq_true, if_false, readKeyword_eq_none hk, hdev]

/-- Build metadata begins with a plus; without one nothing is read. -/
theorem readBuild_of_ne {c : Char} {r : List Char} (h : c ≠ '+') :
    readBuild (c :: r) = ([], c :: r) := by
  unfold readBuild
  split
  case h_1 heq => exact absurd (List.cons.inj heq).1 h
  case h_2 => rfl

/-- A digit differs from everything that is none. -/
theorem ne_of_isDigit {c d : Char} (h : Text.isDigit c = true) (hd : Text.isDigit d = false) :
    c ≠ d := by
  rintro rfl
  rw [h] at hd
  cases hd

/-- What was a digit is none of the marks and letters of a marker. -/
theorem not_mem_of_isDigit {c : Char} (h : Text.isDigit c = true) {l : List Char}
    (hl : ∀ d ∈ l, Text.isDigit d = false) : c ∉ l := fun hmem => by
  rw [hl c hmem] at h
  cases h

/-- No digit separates a keyword from what is in front of it. -/
theorem isSeparator_of_isDigit {c : Char} (h : Text.isDigit c = true) : isSeparator c = false := by
  have := not_mem_of_isDigit h (l := ['.', '-', '_']) (by decide)
  simpa [isSeparator, isMark, and_assoc] using this

/-- A character that is neither a separator nor a first letter of anything in a marker. No marker
    starts with it. -/
def isForeign (c : Char) : Bool :=
  !isSeparator c && !initials.contains (Text.plain c) && Text.plain c != 'd'

/-- A marker begins with a separator, the initial of a keyword or the `d` of `dev`; a foreign
    character is none of these. -/
theorem isForeign_iff {c : Char} :
    isForeign c = true ↔ isSeparator c = false ∧ Text.plain c ∉ initials ∧ Text.plain c ≠ 'd' := by
  simp [isForeign, and_assoc]

/-- Every digit is foreign to the beginning of a marker. -/
theorem isForeign_of_isDigit {c : Char} (h : Text.isDigit c = true) : isForeign c = true := by
  refine isForeign_iff.2 ⟨isSeparator_of_isDigit h, ?_, ?_⟩
  · rw [Text.plain_of_isDigit h]
    exact not_mem_of_isDigit h (by decide)
  · rw [Text.plain_of_isDigit h]
    exact ne_of_isDigit h (by decide)

/-- In front of a digit no marker is read, and nothing is taken. -/
theorem read_digit {c : Char} {r : List Char} (h : Text.isDigit c = true) :
    read (c :: r) = ({}, c :: r) := by
  obtain ⟨hsep, hk, hd⟩ := isForeign_iff.1 (isForeign_of_isDigit h)
  exact read_of_foreign hsep hk hd

/-- Only the text behind one separator counts. -/
theorem read_congr {s t : List Char} (h : skipSeparator s = skipSeparator t) : read s = read t := by
  simp only [read, h]

/-- A separator in front of a digit is taken, although no marker follows it. -/
theorem read_separator_digit {c d : Char} {r : List Char} (hc : isSeparator c = true)
    (hd : Text.isDigit d = true) : read (c :: d :: r) = ({}, d :: r) := by
  rw [← read_digit hd]
  apply read_congr
  simp [skipSeparator, hc, isSeparator_of_isDigit hd]

/-- Without a letter that begins a keyword or `dev` there is no marker. A separator at the front
    may still be taken. -/
theorem read_of_letterless {s : List Char} (h : ∀ c ∈ s, Text.plain c ∉ 'd' :: initials) :
    (read s).1 = {} := by
  have hkeyword {c : Char} (hc : Text.plain c ∉ 'd' :: initials) :
      Text.plain c ≠ 'd' ∧ Text.plain c ∉ initials := by
    rwa [List.mem_cons, not_or] at hc
  -- Behind the separator there is neither a keyword nor `dev`, not even behind another mark.
  have hbehind : ∀ t : List Char, (∀ c ∈ t, Text.plain c ∉ 'd' :: initials) →
      readKeyword t = none ∧ afterDev? t = none := by
    intro t ht
    cases t with
    | nil => exact ⟨by decide, by decide⟩
    | cons c r =>
      refine ⟨readKeyword_eq_none (hkeyword (ht c (by simp))).2, ?_⟩
      have hlead : ∀ u : List Char, (∀ c ∈ u, Text.plain c ∉ 'd' :: initials) →
          Text.keywordLead? "dev".toList u = none := by
        intro u hu
        cases u with
        | nil => rfl
        | cons d w => exact keywordLead?_eq_none (hkeyword (hu d (by simp))).1
      simp only [afterDev?, Option.map_eq_none_iff]
      split
      · exact hlead r fun d hd => ht d (List.mem_cons_of_mem c hd)
      · exact hlead (c :: r) ht
  have hskip : ∀ c ∈ skipSeparator s, Text.plain c ∉ 'd' :: initials := by
    cases s with
    | nil => exact h
    | cons c r =>
      rw [skipSeparator]
      split
      · exact fun d hd => h d (List.mem_cons_of_mem c hd)
      · exact h
  obtain ⟨hnone, hdev⟩ := hbehind _ hskip
  simp only [read, hnone, hdev]

/-- No marker is found without such a letter. The search gives up at each place of the text in
    turn. -/
theorem search_of_letterless {s : List Char} (h : ∀ c ∈ s, Text.plain c ∉ 'd' :: initials) :
    search s = {} := by
  induction s with
  | nil => rfl
  | cons c r ih =>
    -- At no place more than the empty marker is found: a longer one begins with such a letter.
    have hwhole : ∀ m, whole? (c :: r) = some m → m = {} := by
      intro m hm
      unfold whole? at hm
      split at hm
      case h_1 m' t hread =>
        have hmarker : m' = {} := by
          rw [← read_of_letterless h, hread]
        split at hm <;> simp_all
    rw [search, ih fun d hd => h d (List.mem_cons_of_mem c hd)]
    cases hc : whole? (c :: r) with
    | none => rfl
    | some m => rw [hwhole m hc, Option.getD_some]

/-- A digit is no letter of a marker. -/
theorem letterless_of_isDigit {c : Char} (h : Text.isDigit c = true) :
    Text.plain c ∉ 'd' :: initials := by
  rw [Text.plain_of_isDigit h]
  exact not_mem_of_isDigit h (by decide)

/-- In front of a number nothing is read but a mark, so a digit or a colon is left. Numbers that go
    on are therefore no version with a marker. -/
theorem exists_rest_of_numberAhead {t : List Char} (h : numberAhead t = true) :
    ∃ c r, (readBuild (read t).2).2 = c :: r ∧ (c = ':' ∨ Text.isDigit c = true) := by
  cases t with
  | nil => cases h
  | cons c r =>
    simp only [numberAhead, Bool.or_eq_true, Bool.and_eq_true] at h
    rcases h with h | ⟨hmark, hr⟩
    · refine ⟨c, r, ?_, .inr h⟩
      rw [read_digit h, readBuild_of_ne (ne_of_isDigit h (by decide))]
    · cases r with
      | nil => cases hr
      | cons d r =>
        have hd : Text.isDigit d = true := hr
        have hplus : d ≠ '+' := ne_of_isDigit hd (by decide)
        simp only [isDateMark, Bool.or_eq_true, beq_iff_eq] at hmark
        -- A hyphen and a point count as separators of a marker and are taken; a colon is not.
        rcases hmark with (rfl | rfl) | rfl
        · refine ⟨d, r, ?_, .inr hd⟩
          rw [read_separator_digit (by decide) hd, readBuild_of_ne hplus]
        · refine ⟨':', d :: r, ?_, .inl rfl⟩
          rw [read_of_foreign (by decide) (by decide) (by decide), readBuild_of_ne (by decide)]
        · refine ⟨d, r, ?_, .inr hd⟩
          rw [read_separator_digit (by decide) hd, readBuild_of_ne hplus]

/-- A text with a number ahead is no marker with build metadata. -/
theorem not_whole_of_numberAhead {t : List Char} (h : numberAhead t = true) :
    (readBuild (read t).2).2 ≠ [] := by
  obtain ⟨c, r, hrest, -⟩ := exists_rest_of_numberAhead h
  rw [hrest]
  exact List.cons_ne_nil c r

/-! ### What is read -/

/-- The numbers behind a keyword: they are read to their end, with nothing left over. -/
def IsIdentifier (s : List Char) : Prop := readIdentifier s = (s, [])

/-- A keyword need not have a number. -/
theorem isIdentifier_nil : IsIdentifier [] := rfl

/-- Each mark of an identifier has a digit behind it. This is what the reader looks at, character
    by character. -/
theorem isIdentifier_cons {c : Char} {r : List Char} :
    IsIdentifier (c :: r) ↔
      (Text.isDigit c || (isMark c && digitAhead r)) = true ∧ IsIdentifier r := by
  unfold IsIdentifier
  rw [readIdentifier]
  split
  case isTrue h =>
    rw [Prod.mk.injEq, List.cons.injEq]
    constructor
    · rintro ⟨⟨-, h₁⟩, h₂⟩
      exact ⟨h, Prod.ext h₁ h₂⟩
    · rintro ⟨-, hr⟩
      rw [hr]
      exact ⟨⟨rfl, rfl⟩, rfl⟩
  case isFalse h =>
    constructor
    · intro heq
      cases heq
    · rintro ⟨hc, -⟩
      exact absurd hc h

/-- Reading numbers keeps the digit at the front. -/
theorem digitAhead_readIdentifier (s : List Char) :
    digitAhead (readIdentifier s).1 = digitAhead s ∨ digitAhead s = false := by
  cases s with
  | nil => exact .inr rfl
  | cons c r =>
    by_cases hc : Text.isDigit c = true
    · left
      simp [readIdentifier, digitAhead, hc]
    · exact .inr (by simpa [digitAhead] using hc)

/-- What is read as an identifier is one: the reader stops at a mark without a digit. -/
theorem isIdentifier_readIdentifier (s : List Char) : IsIdentifier (readIdentifier s).1 := by
  induction s with
  | nil => rfl
  | cons c r ih =>
    rw [readIdentifier]
    split
    case isTrue h =>
      refine isIdentifier_cons.2 ⟨?_, ih⟩
      simp only [Bool.or_eq_true, Bool.and_eq_true] at h ⊢
      rcases h with h | ⟨hm, hr⟩
      · exact .inl h
      · -- The digit behind the mark is read as well.
        right
        rcases digitAhead_readIdentifier r with heq | hne
        · exact ⟨hm, heq.trans hr⟩
        · rw [hr] at hne
          cases hne
    case isFalse => rfl

/-- Numbers are read up to a text without a number ahead. A mark at the front of that text is left,
    as it has no digit behind it. -/
theorem readIdentifier_of_isIdentifier {s t : List Char} (hs : IsIdentifier s)
    (ht : numberAhead t = false) : readIdentifier (s ++ t) = (s, t) := by
  induction s with
  | nil =>
    cases t with
    | nil => rfl
    | cons c r =>
      simp only [numberAhead, Bool.or_eq_false_iff, Bool.and_eq_false_iff] at ht
      -- A mark is not taken without a digit, and the marks of identifiers are among those of
      -- dates.
      have hmark : (isMark c && digitAhead r) = false := by
        rw [Bool.and_eq_false_iff]
        refine ht.2.imp_left fun h => ?_
        rw [Bool.eq_false_iff] at h ⊢
        exact fun hm => h (isDateMark_of_isMark hm)
      simp [readIdentifier, ht.1, hmark]
  | cons c r ih =>
    obtain ⟨hc, hr⟩ := isIdentifier_cons.1 hs
    -- The digit behind a mark of `s` is in `s`, so what follows does not matter for it.
    have hahead : digitAhead r = true → digitAhead (r ++ t) = true := by
      cases r with
      | nil => intro h; cases h
      | cons => exact id
    have hc' : (Text.isDigit c || (isMark c && digitAhead (r ++ t))) = true := by
      simp only [Bool.or_eq_true, Bool.and_eq_true] at hc ⊢
      exact hc.imp_right fun h => ⟨h.1, hahead h.2⟩
    rw [List.cons_append, readIdentifier, if_pos hc', ih hr]

/-- A marker as it is read: a spelling of a keyword, with numbers behind it, and maybe `dev`.
    Without a keyword there are no numbers either, which is what tells the parts of a marker apart
    in its text. -/
structure IsRead (m : Marker) : Prop where
  spelled : ∀ word, m.keyword = some word → word.map Text.plain ∈ keywords
  identifier : IsIdentifier m.identifier
  bare : m.keyword = none → m.identifier = []

/-- A keyword that is read stands at the front of the text, in any case. -/
theorem spelled_of_readKeyword {s word r : List Char} (h : readKeyword s = some (word, r)) :
    s = word ++ r ∧ word.map Text.plain ∈ keywords := by
  obtain ⟨key, hkey, hlead⟩ := List.exists_of_findSome?_eq_some h
  obtain ⟨heq, hplain⟩ := Text.eq_append_of_keywordLead? hlead
  exact ⟨heq, hplain ▸ hkey⟩

/-- Whatever text a marker is read from, it has a known keyword, or none and no numbers, and each
    mark in it has a digit behind it. -/
theorem isRead_read (s : List Char) : (read s).1.IsRead := by
  unfold read
  cases hk : readKeyword (skipSeparator s) with
  | none =>
    simp only [hk]
    split <;> exact ⟨by simp, isIdentifier_nil, fun _ => rfl⟩
  | some p =>
    obtain ⟨word, r⟩ := p
    have hspelled := (spelled_of_readKeyword hk).2
    simp only [hk]
    split <;>
      exact ⟨fun w hw => by cases hw; exact hspelled, isIdentifier_readIdentifier r, by simp⟩

/-! ### The canonical form -/

/-- A marker in canonical form: a keyword in its long form other than `stable`, and numbers that
    follow it without a mark. -/
structure IsCanonical (m : Marker) : Prop extends m.IsRead where
  long : ∀ word, m.keyword = some word → Keyword.longForm word = word
  unstable : ∀ word, m.keyword = some word → word ≠ Keyword.stable.text.toList
  joined : m.identifier.dropWhile isMark = m.identifier

/-- What is written in the canonical way already is not changed. -/
theorem IsCanonical.canonical_eq {m : Marker} (h : m.IsCanonical) : m.canonical = m := by
  obtain ⟨keyword, identifier, dev⟩ := m
  cases keyword with
  | none =>
    have : identifier = [] := h.bare rfl
    simp [canonical, this]
  | some word =>
    have hjoined : identifier.dropWhile isMark = identifier := h.joined
    simp [canonical, h.long word rfl, h.unstable word rfl, hjoined]

/-- A marker of `dev` alone is written in the canonical way, and so is an absent one. -/
theorem isCanonical_dev (dev : Bool) : ({ dev := dev } : Marker).IsCanonical :=
  ⟨⟨by simp, isIdentifier_nil, fun _ => rfl⟩, by simp, by simp, rfl⟩

/-- The marks in front of the first number may be left out. -/
theorem isIdentifier_dropWhile {s : List Char} (h : IsIdentifier s) :
    IsIdentifier (s.dropWhile isMark) := by
  induction s with
  | nil => exact h
  | cons c r ih =>
    rw [List.dropWhile_cons]
    split
    · exact ih (isIdentifier_cons.1 h).2
    · exact h

/-- A spelling of a keyword differs from one in the table in the case of its letters only. -/
theorem plain_of_ofText? {word : List Char} {k : Keyword} (h : Keyword.ofText? word = some k) :
    ∃ p ∈ Keyword.spellings, p.2 = k ∧ word.map Text.plain = p.1.toList := by
  obtain ⟨p, hp, hk⟩ := Option.map_eq_some_iff.1 h
  have hmem := List.mem_of_find?_eq_some hp
  have hword : p.1.toList = word.map Char.toLower := by simpa using List.find?_some hp
  have hascii : ∀ q ∈ Keyword.spellings, ∀ d ∈ q.1.toList, d.toNat < 128 := by decide
  exact ⟨p, hmem, hk, Text.map_plain_of_toLower hword.symm (hascii p hmem)⟩

/-- The long form of a keyword that a marker may have is such a keyword again, and it is its own
    long form. -/
theorem spelled_longForm {word : List Char} (h : word.map Text.plain ∈ keywords) :
    (Keyword.longForm word).map Text.plain ∈ keywords ∧
      Keyword.longForm (Keyword.longForm word) = Keyword.longForm word := by
  cases hw : Keyword.ofText? word with
  | none =>
    have : Keyword.longForm word = word := by simp [Keyword.longForm, hw]
    rw [this]
    exact ⟨h, this⟩
  | some k =>
    have : Keyword.longForm word = k.text.toList := by simp [Keyword.longForm, hw]
    rw [this]
    refine ⟨?_, Keyword.longForm_text k⟩
    cases k with
    | dev =>
      -- The word `dev` is no keyword of a marker, in any case of its letters.
      obtain ⟨p, hp, hdev, hplain⟩ := plain_of_ofText? hw
      rw [hplain] at h
      have : ∀ q ∈ Keyword.spellings, q.2 = .dev → q.1.toList ∉ keywords := by decide
      exact absurd h (this p hp hdev)
    | stable => decide
    | patch => decide
    | beta => decide
    | rc => decide
    | alpha => decide

/-- Whatever marker was read, the canonical way of writing it gives a canonical one. The keyword
    `stable` is dropped with all that follows it. -/
theorem IsRead.canonical {m : Marker} (h : m.IsRead) : m.canonical.IsCanonical := by
  obtain ⟨keyword, identifier, dev⟩ := m
  cases keyword with
  | none => exact isCanonical_dev dev
  | some word =>
    obtain ⟨hspelled, hlong⟩ := spelled_longForm (h.spelled word rfl)
    simp only [Marker.canonical]
    split
    case isTrue => exact isCanonical_dev false
    case isFalse hne =>
      refine ⟨⟨?_, isIdentifier_dropWhile h.identifier, by simp⟩, ?_, ?_, ?_⟩
      · rintro w ⟨⟩; exact hspelled
      · rintro w ⟨⟩; exact hlong
      · rintro w ⟨⟩; exact hne
      · exact List.dropWhile_idempotent _ _

/-! ### Reading back -/

/-- The separators that may stand in front of a marker, and none. -/
def separators : List (List Char) := [[], ['.'], ['_'], ['-']]

/-- The letters with which a longer keyword goes on where a shorter one ends: the `e` of
    `beta` behind `b`, the `l` of `alpha` and `pl` behind `a` and `p`, and the `a` of
    `patch` behind `p`. -/
def continuations : List Char := ['e', 'l', 'a']

/-- A keyword is read as a whole where no longer one goes on: of the keywords that are tried before
    it none begins it. -/
theorem readKeyword_append {word t : List Char} (h : word.map Text.plain ∈ keywords)
    (ht : ∀ c, t.head? = some c → Text.plain c ∉ continuations) :
    readKeyword (word ++ t) = some (word, t) := by
  have hsplit : ∀ key ∈ keywords,
      keywords = keywords.takeWhile (· != key) ++ key :: (keywords.dropWhile (· != key)).tail ∧
        ∀ k ∈ keywords.takeWhile (· != key), ¬ k <+: key ∧
          (key <+: k → (k.drop key.length).headD ' ' ∈ continuations) := by decide
  obtain ⟨heq, hbefore⟩ := hsplit _ h
  rw [readKeyword, List.findSome?_eq_some_iff]
  -- The table is split where the keyword stands; what is in front of it must fail.
  refine ⟨_, _, _, heq, Text.keywordLead?_append t rfl, fun k hk => ?_⟩
  obtain ⟨hshort, hlong⟩ := hbefore k hk
  rw [Option.eq_none_iff_forall_ne_some]
  rintro ⟨raw, r⟩ hlead
  obtain ⟨hraw, rfl⟩ := Text.eq_append_of_keywordLead? hlead
  rcases List.append_eq_append_iff.1 hraw with ⟨u, rfl, rfl⟩ | ⟨u, rfl, rfl⟩
  · -- The text would have to go on with the rest of a longer keyword.
    have hrest := hlong (by rw [List.map_append]; exact List.prefix_append _ _)
    rw [List.map_append, List.drop_left] at hrest
    cases u with
    | nil => exact absurd hrest (by decide)
    | cons c u => exact ht c rfl hrest
  · exact hshort (by rw [List.map_append]; exact List.prefix_append _ _)

/-- In front of a keyword stands one separator or nothing. -/
theorem separators_cases {sep : List Char} (h : sep ∈ separators) :
    sep = [] ∨ ∃ c, isSeparator c = true ∧ sep = [c] := by
  simp only [separators, List.mem_cons, List.not_mem_nil, or_false] at h
  rcases h with h | h | h | h
  · exact .inl h
  · exact .inr ⟨'.', by decide, h⟩
  · exact .inr ⟨'_', by decide, h⟩
  · exact .inr ⟨'-', by decide, h⟩

/-- One separator at the front is skipped. -/
theorem skipSeparator_cons {c : Char} {s : List Char} (h : isSeparator c = true) :
    skipSeparator (c :: s) = s :=
  if_pos h

/-- It is only one that is skipped: what follows does not begin with another. -/
theorem skipSeparator_append {sep s : List Char} (hsep : sep ∈ separators)
    (hs : ∀ c, s.head? = some c → isSeparator c = false) : skipSeparator (sep ++ s) = s := by
  rcases separators_cases hsep with rfl | ⟨d, hd, rfl⟩
  · cases s with
    | nil => rfl
    | cons c r => simp [skipSeparator, hs c rfl]
  · exact skipSeparator_cons hd

/-- A keyword begins with a letter. So a separator in front of it is told from it. -/
theorem isSeparator_head_keyword {word t : List Char} (h : word.map Text.plain ∈ keywords)
    {c : Char} (hc : (word ++ t).head? = some c) : isSeparator c = false := by
  cases word with
  | nil => exact absurd h (by decide)
  | cons d w =>
    obtain rfl : d = c := Option.some.inj hc
    have hletter : ∀ key ∈ keywords, isSeparator (key.headD 's') = false := by decide
    have hplain : ∀ a, isSeparator a = true → isSeparator (Text.plain a) = true := by
      intro a ha
      rcases isSeparator_iff.1 ha with rfl | rfl | rfl <;> decide
    rw [Bool.eq_false_iff]
    intro hsep
    have hfalse : isSeparator (Text.plain d) = false := hletter _ h
    rw [hplain d hsep] at hfalse
    cases hfalse

/-- Numbers begin with a digit or a mark, and so with no letter of a keyword. A keyword in front of
    them is not mistaken for a longer one. -/
theorem not_mem_continuations_head {numbers t : List Char} (hnumbers : IsIdentifier numbers)
    (ht : ∀ c, t.head? = some c → Text.plain c ∉ continuations) {c : Char}
    (hc : (numbers ++ t).head? = some c) : Text.plain c ∉ continuations := by
  cases numbers with
  | nil => exact ht c hc
  | cons d r =>
    obtain rfl : d = c := Option.some.inj hc
    have hd := (isIdentifier_cons.1 hnumbers).1
    simp only [Bool.or_eq_true, Bool.and_eq_true, isMark_iff] at hd
    rcases hd with hd | ⟨rfl | rfl, -⟩
    · rw [Text.plain_of_isDigit hd]
      exact not_mem_of_isDigit hd (by decide)
    · decide
    · decide

/-- A marker is taken apart as it is put together: behind a separator there is a keyword, then its
    numbers, and then the text in which `dev` is looked for. -/
theorem read_append {sep word numbers t : List Char} (hsep : sep ∈ separators)
    (hword : word.map Text.plain ∈ keywords) (hnumbers : IsIdentifier numbers)
    (hahead : numberAhead t = false)
    (ht : ∀ c, t.head? = some c → Text.plain c ∉ continuations) :
    read (sep ++ (word ++ (numbers ++ t))) =
      match afterDev? t with
      | none => (⟨some word, numbers, false⟩, t)
      | some r => (⟨some word, numbers, true⟩, r) := by
  have hskip := skipSeparator_append hsep
    fun _ => isSeparator_head_keyword (t := numbers ++ t) hword
  have hkeyword := readKeyword_append hword fun _ => not_mem_continuations_head hnumbers ht
  have hident := readIdentifier_of_isIdentifier hnumbers hahead
  cases hdev : afterDev? t with
  | none => simp only [read, hskip, hkeyword, hident, hdev]
  | some r => simp only [read, hskip, hkeyword, hident, hdev]

/-- **Reading back.** The text of a canonical marker is read as that marker, to its end. -/
theorem read_text {m : Marker} (h : m.IsCanonical) : read m.text = (m, []) := by
  obtain ⟨keyword, identifier, dev⟩ := m
  cases keyword with
  | none =>
    have : identifier = [] := h.bare rfl
    subst this
    cases dev <;> decide
  | some word =>
    have hsep : ['-'] ∈ separators := by decide
    -- No longer keyword can be read, as the hyphen goes on with none.
    have hhead : ∀ c, (if dev then "-dev".toList else []).head? = some c →
        Text.plain c ∉ continuations := by
      intro c hc
      cases dev with
      | false => cases hc
      | true =>
        obtain rfl : '-' = c := Option.some.inj hc
        decide
    have hread := read_append hsep (h.spelled word rfl) h.identifier (by cases dev <;> decide) hhead
    have hdev : afterDev? (if dev then "-dev".toList else []) = if dev then some [] else none := by
      cases dev <;> decide
    have htext : text ⟨some word, identifier, dev⟩
        = ['-'] ++ (word ++ (identifier ++ if dev then "-dev".toList else [])) := by
      simp [text]
    rw [htext, hread, hdev]
    cases dev <;> rfl

/-! ### Characters -/

/-- What a marker and build metadata make up to its end does not begin with a number, nor with a
    mark and a number. -/
theorem numberAhead_of_whole {t : List Char} (h : (readBuild (read t).2).2 = []) :
    numberAhead t = false := by
  rw [Bool.eq_false_iff]
  exact fun hn => not_whole_of_numberAhead hn h

/-- The same holds of the text of a canonical marker. -/
theorem numberAhead_text {m : Marker} (h : m.IsCanonical) : numberAhead m.text = false := by
  apply numberAhead_of_whole
  rw [read_text h]
  rfl

/-- An identifier consists of digits and marks. -/
theorem mem_isIdentifier {s : List Char} (h : IsIdentifier s) {c : Char} (hc : c ∈ s) :
    Text.isDigit c = true ∨ isMark c = true := by
  induction s with
  | nil => cases hc
  | cons d r ih =>
    obtain ⟨hd, hr⟩ := isIdentifier_cons.1 h
    rcases List.mem_cons.1 hc with rfl | hc
    · simp only [Bool.or_eq_true, Bool.and_eq_true] at hd
      exact hd.imp_right And.left
    · exact ih hr hc

/-- Numbers end with a digit. -/
theorem isDigit_getLast {s : List Char} (h : IsIdentifier s) :
    ∀ c ∈ s.getLast?, Text.isDigit c = true := by
  induction s with
  | nil => simp
  | cons d r ih =>
    obtain ⟨hd, hr⟩ := isIdentifier_cons.1 h
    cases r with
    | nil =>
      intro c hc
      obtain rfl : d = c := by simpa using hc
      simpa [digitAhead] using hd
    | cons e w => exact fun c hc => ih hr c (by simpa using hc)

/-- A spelling of a keyword is made of letters. -/
theorem isLower_of_mem_keyword {word : List Char} (h : word.map Text.plain ∈ keywords) {c : Char}
    (hc : c ∈ word) : (Text.plain c).isLower = true := by
  have hletters : ∀ key ∈ keywords, ∀ d ∈ key, d.isLower = true := by decide
  exact hletters _ h _ (List.mem_map_of_mem hc)

/-- The characters of a canonical marker: marks, digits and letters of keywords. So neither white
    space nor a plus is among them. -/
theorem mem_text {m : Marker} (h : m.IsCanonical) {c : Char} (hc : c ∈ m.text) :
    isMark c = true ∨ Text.isDigit c = true ∨ (Text.plain c).isLower = true := by
  -- The keyword is made of letters and the identifier of marks and digits; `-dev` is written out.
  have hdev : ∀ d ∈ "-dev".toList, isMark d = true ∨ Text.isDigit d = true ∨
      (Text.plain d).isLower = true := by decide
  obtain ⟨keyword, identifier, dev⟩ := m
  rw [text, List.mem_append] at hc
  rcases hc with hc | hc
  · cases keyword with
    | none => cases hc
    | some word =>
      simp only [List.mem_cons, List.mem_append] at hc
      rcases hc with (rfl | hc) | hc
      · exact .inl (by decide)
      · exact .inr (.inr (isLower_of_mem_keyword (h.spelled word rfl) hc))
      · exact (mem_isIdentifier h.identifier hc).elim (fun h => .inr (.inl h)) .inl
  · cases dev with
    | false => cases hc
    | true => exact hdev c hc

/-- A canonical marker ends with a digit or a letter, and not with an `s`. Of all keywords only
    `stable` begins with that letter, and none ends with it. -/
theorem getLast_text {m : Marker} (h : m.IsCanonical) :
    ∀ c ∈ m.text.getLast?, Text.isDigit c = true ∨ Text.plain c ∉ ['-', 's', '=', '<', '>'] := by
  obtain ⟨keyword, identifier, dev⟩ := m
  intro c hc
  cases dev with
  | true =>
    obtain rfl : 'v' = c := by simpa [text] using hc
    exact .inr (by decide)
  | false =>
    cases keyword with
    | none => cases hc
    | some word =>
      have hspelled := h.spelled word rfl
      have hc : ('-' :: word ++ identifier).getLast? = some c := by simpa [text] using hc
      cases hnumbers : identifier.getLast? with
      | some d =>
        rw [List.getLast?_append, hnumbers, Option.some_or] at hc
        cases hc
        exact .inl (isDigit_getLast h.identifier _ hnumbers)
      | none =>
        -- Without numbers it ends as its keyword does.
        right
        rw [List.getLast?_eq_none_iff.1 hnumbers, List.append_nil] at hc
        have hlast : ((word.map Text.plain).getLast?.getD '-') = Text.plain c := by
          cases word with
          | nil => exact absurd hspelled (by decide)
          | cons d w =>
            rw [List.getLast?_cons_cons] at hc
            rw [List.getLast?_map, hc]
            rfl
        have hkeywords : ∀ key ∈ keywords,
            key.getLast?.getD '-' ∉ ['-', 's', '=', '<', '>'] := by decide
        rw [← hlast]
        exact hkeywords _ hspelled

/-- A character that markers are written with: a separator, a digit or a letter of keywords. All of
    a marker in canonical form consists of them. -/
def isMarkerChar (c : Char) : Bool :=
  isSeparator c || Text.isDigit c || (Text.plain c).isLower

/-- The characters of a marker are separators, digits and letters, up to case. -/
theorem isMarkerChar_iff {c : Char} :
    isMarkerChar c = true ↔
      isSeparator c = true ∨ Text.isDigit c = true ∨ (Text.plain c).isLower = true := by
  simp [isMarkerChar, or_assoc]

/-- None of them is white space or a comma. -/
theorem isSolid_of_isMarkerChar {c : Char} (h : isMarkerChar c = true) : isSolid c = true := by
  rcases isMarkerChar_iff.1 h with hs | hd | hl
  · rcases isSeparator_iff.1 hs with rfl | rfl | rfl <;> decide
  · exact Text.isSolid_of_isDigit hd
  · exact Text.isSolid_of_plain hl

/-- The text of a canonical marker consists of such characters. -/
theorem isMarkerChar_of_mem_text {m : Marker} (h : m.IsCanonical) {c : Char} (hc : c ∈ m.text) :
    isMarkerChar c = true :=
  isMarkerChar_iff.2 ((mem_text h hc).imp_left isSeparator_of_isMark)

end Marker

end VersionRange
