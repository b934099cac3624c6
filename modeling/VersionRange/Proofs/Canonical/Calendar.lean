import VersionRange.Proofs.Canonical.Surface

namespace VersionRange

/-!
# Calendar versions as they are written

A date has a year, pairs of digits and perhaps a fraction, with various marks between them or none.

* `IsCalendarDate`: the dates, part by part; `isDate_of_isCalendarDate`, that the reader takes all
  of each one, although it may cut it into other parts.
* `Marker.IsEnding`: the markers that may follow.
* `Release.ofText?_calendar`: what a date with a marker behind it stands for, whichever of the two
  grammars of versions reads it.
* `CalendarText.normalize_chars`, `CalendarText.normalize_pointed`: the same release with all marks
  and with points for them.
-/

/-! ### The grammar -/

/-- The marks that may stand in front of a part of a date, and none. -/
def dateMarks : List (List Char) := [[], ['.'], [':'], ['-']]

/-- A part of a date: `n` digits, with one of `dateMarks` in front of them or none. The digits may
    be of any script, as the reader takes them. -/
def IsDatePart (n : Nat) (s : List Char) : Prop :=
  ∃ mark ds, s = mark ++ ds ∧ mark ∈ dateMarks ∧ ds.length = n ∧ ∀ c ∈ ds, Text.isDigit c = true

/-- A row of `n` parts of two digits. Month, day, hour, minute and second are such parts, and so is
    anything else of two digits, since the reader does not ask what a part stands for. -/
inductive IsPairs : Nat → List Char → Prop where
  | none : IsPairs 0 []
  | more {n : Nat} {p r : List Char} (hp : IsDatePart 2 p) (hr : IsPairs n r) :
      IsPairs (n + 1) (p ++ r)

/-- A fraction, which may be missing: a part of one to three digits, behind a mark or not. It comes
    behind all pairs. -/
def IsFraction (s : List Char) : Prop := s = [] ∨ ∃ n, 1 ≤ n ∧ n ≤ 3 ∧ IsDatePart n s

/-- A date: a year of four digits, one to six pairs of digits and perhaps a fraction. The whole
    text is `year ++ (pairs ++ fraction)`, and the parts are not unique where marks are missing. -/
def IsCalendarDate (s : List Char) : Prop :=
  ∃ year n pairs fraction, s = year ++ (pairs ++ fraction) ∧ year.length = 4 ∧
    (∀ c ∈ year, Text.isDigit c = true) ∧ 1 ≤ n ∧ n ≤ 6 ∧ IsPairs n pairs ∧ IsFraction fraction

/-! ### Reading a date -/

/-- As many digits as are asked for are read, whatever follows them. Further digits are left for
    the next part. -/
theorem readDigits_of_length {n : Nat} {ds : List Char} (t : List Char) (hlen : ds.length = n)
    (hds : ∀ c ∈ ds, Text.isDigit c = true) : readDigits n (ds ++ t) = some (ds, t) := by
  induction ds generalizing n with
  | nil =>
    subst hlen
    rfl
  | cons c ds ih =>
    subst hlen
    have htail := ih rfl fun d hd => hds d (List.mem_cons_of_mem c hd)
    rw [List.cons_append, List.length_cons, readDigits, if_pos (hds c List.mem_cons_self), htail]
    rfl

/-- A text with less characters than digits are asked for has too few of them. -/
theorem readDigits_of_short {n : Nat} {s : List Char} (h : s.length < n) :
    readDigits n s = none := by
  rw [Option.eq_none_iff_forall_ne_some]
  rintro ⟨ds, r⟩ hread
  obtain ⟨rfl, hlen, -⟩ := eq_append_of_readDigits hread
  rw [List.length_append] at h
  omega

/-- No digit marks the parts of a date off from each other. -/
theorem isDateMark_of_isDigit {c : Char} (h : Text.isDigit c = true) : isDateMark c = false := by
  have hne : c ≠ '.' ∧ c ≠ ':' ∧ c ≠ '-' :=
    ⟨Marker.ne_of_isDigit h (by decide), Marker.ne_of_isDigit h (by decide),
      Marker.ne_of_isDigit h (by decide)⟩
  simp [isDateMark, hne]

/-- In front of a part of a date stands one mark or nothing. -/
theorem dateMarks_cases {mark : List Char} (h : mark ∈ dateMarks) :
    mark = [] ∨ ∃ m, isDateMark m = true ∧ mark = [m] := by
  simp only [dateMarks, List.mem_cons, List.not_mem_nil, or_false] at h
  rcases h with rfl | rfl | rfl | rfl
  · exact .inl rfl
  · exact .inr ⟨'.', by decide, rfl⟩
  · exact .inr ⟨':', by decide, rfl⟩
  · exact .inr ⟨'-', by decide, rfl⟩

/-- A part is looked for behind its mark. Without a mark it is looked for at once, which is the
    same with an empty mark. -/
theorem readDatePart_marked {n : Nat} {mark s : List Char} (hmark : mark ∈ dateMarks)
    (hs : Marker.digitAhead s = true) :
    readDatePart n (mark ++ s) = (readDigits n s).map fun p => (mark ++ p.1, p.2) := by
  rcases dateMarks_cases hmark with rfl | ⟨m, hm, rfl⟩
  · cases s with
    | nil => cases hs
    | cons c r =>
      rw [List.nil_append, readDatePart, isDateMark_of_isDigit hs]
      cases readDigits n (c :: r) <;> rfl
  · rw [List.singleton_append, readDatePart, if_pos hm]
    rfl

namespace IsDatePart

variable {n : Nat} {p : List Char}

/-- A part of a date is read with its mark, whatever follows it. -/
theorem read_append (h : IsDatePart n p) (hn : 0 < n) (t : List Char) :
    readDatePart n (p ++ t) = some (p, t) := by
  obtain ⟨mark, ds, rfl, hmark, hlen, hds⟩ := h
  have hahead : Marker.digitAhead (ds ++ t) = true := by
    cases ds with
    | nil => exact absurd hlen (Nat.ne_of_lt hn)
    | cons c ds => exact hds c List.mem_cons_self
  rw [List.append_assoc, readDatePart_marked hmark hahead, readDigits_of_length t hlen hds]
  rfl

/-- More digits than there are cannot be read. -/
theorem read_of_lt (h : IsDatePart n p) (hn : 0 < n) {k : Nat} (hk : n < k) :
    readDatePart k p = none := by
  obtain ⟨mark, ds, rfl, hmark, hlen, hds⟩ := h
  have hahead : Marker.digitAhead ds = true :=
    digitAhead_of_digits (List.length_pos_iff.1 (by omega)) hds
  rw [readDatePart_marked hmark hahead, readDigits_of_short (by omega)]
  rfl

/-- The digits of a part of three make a pair and one more. -/
theorem exists_pair (h : IsDatePart 3 p) :
    ∃ q c, p = q ++ [c] ∧ IsDatePart 2 q ∧ IsDatePart 1 [c] := by
  obtain ⟨mark, ds, rfl, hmark, hlen, hds⟩ := h
  obtain ⟨a, b, c, rfl⟩ := List.length_eq_three.1 hlen
  have hone : IsDatePart 1 [c] := ⟨[], [c], rfl, by decide, rfl, fun d hd => hds d (by simp_all)⟩
  refine ⟨mark ++ [a, b], c, by simp, ⟨mark, [a, b], rfl, hmark, rfl, fun d hd => hds d ?_⟩, hone⟩
  simp only [List.mem_cons, List.not_mem_nil, or_false] at hd ⊢
  exact hd.imp_right .inl

end IsDatePart

/-- Where no pair of digits stands no pair is read, and the text is left alone. -/
theorem readPairs_of_none {s : List Char} (n : Nat) (h : readDatePart 2 s = none) :
    readPairs n s = ([], s) := by
  cases n with
  | zero => rfl
  | succ n => rw [readPairs, h]

/-- A pair at the front is read first, and then what follows it. -/
theorem readPairs_cons {n : Nat} {p : List Char} (hp : IsDatePart 2 p) (t : List Char) :
    readPairs (n + 1) (p ++ t) = (p ++ (readPairs n t).1, (readPairs n t).2) := by
  rw [readPairs, hp.read_append (by decide)]

/-- As many pairs are read as there are, and what follows them may have further ones. -/
theorem IsPairs.read_append {n k : Nat} {s : List Char} (h : IsPairs n s) (t : List Char) :
    readPairs (n + k) (s ++ t) = (s ++ (readPairs k t).1, (readPairs k t).2) := by
  induction h with
  | none => simp
  | @more n p r hp hr ih =>
    rw [Nat.add_right_comm, List.append_assoc, readPairs_cons hp, ih, List.append_assoc]

/-- A last part of one to three digits is read whole. The longer ones are tried first, and they
    fail for want of digits. -/
theorem IsDatePart.readFraction_eq {n : Nat} {p : List Char} (h : IsDatePart n p) (hpos : 1 ≤ n)
    (hle : n ≤ 3) : readFraction p = (p, []) := by
  have hread : readDatePart n p = some (p, []) := by simpa using h.read_append hpos []
  obtain rfl | rfl | rfl : n = 1 ∨ n = 2 ∨ n = 3 := by omega
  · rw [readFraction, h.read_of_lt hpos (by decide : 1 < 3), h.read_of_lt hpos (by decide : 1 < 2),
      hread]
    rfl
  · rw [readFraction, h.read_of_lt hpos (by decide : 2 < 3), hread]
    rfl
  · rw [readFraction, hread]
    rfl

/-- Of a fraction the reader of pairs may take two digits, and the rest is a fraction again. So
    however many pairs are asked for the two readers together take all of it. -/
theorem IsFraction.read_eq {f : List Char} (h : IsFraction f) (k : Nat) :
    (readPairs k f).1 ++ (readFraction (readPairs k f).2).1 = f ∧
      (readFraction (readPairs k f).2).2 = [] := by
  rcases h with rfl | ⟨n, hpos, hle, hpart⟩
  · rw [readPairs_of_none k rfl]
    decide
  · cases k with
    | zero => simp [readPairs, hpart.readFraction_eq hpos hle]
    | succ k =>
      -- One digit is no pair; of two and of three digits the first two are.
      obtain rfl | rfl | rfl : n = 1 ∨ n = 2 ∨ n = 3 := by omega
      · rw [readPairs_of_none _ (hpart.read_of_lt hpos (by decide)),
          hpart.readFraction_eq hpos hle]
        exact ⟨rfl, rfl⟩
      · have hpair := readPairs_cons (n := k) hpart []
        rw [List.append_nil, readPairs_of_none k rfl] at hpair
        rw [hpair]
        simp [readFraction, readDatePart]
      · obtain ⟨q, c, rfl, hq, hc⟩ := hpart.exists_pair
        have hrest := readPairs_of_none k (hc.read_of_lt (by decide) (by decide : 1 < 2))
        rw [readPairs_cons hq, hrest, hc.readFraction_eq (by decide) (by decide)]
        simp

/-- Pairs of which there is at least one are not the empty text. -/
theorem IsPairs.ne_nil {n : Nat} {s : List Char} (h : IsPairs n s) (hpos : 1 ≤ n) : s ≠ [] := by
  cases h with
  | none => exact absurd hpos (by decide)
  | @more n p r hp hr =>
    obtain ⟨mark, ds, rfl, -, hlen, -⟩ := hp
    rintro hnil
    simp only [List.append_eq_nil_iff] at hnil
    rw [hnil.1.2] at hlen
    cases hlen

/-- **Every date is read whole.** -/
theorem isDate_of_isCalendarDate {s : List Char} (h : IsCalendarDate s) : IsDate s := by
  obtain ⟨year, n, pairs, fraction, rfl, hlen, hyear, hpos, hle, hpairs, hfraction⟩ := h
  have hread := hpairs.read_append (k := 6 - n) fraction
  rw [Nat.add_sub_cancel' hle] at hread
  obtain ⟨hall, hrest⟩ := hfraction.read_eq (6 - n)
  have hne := hpairs.ne_nil hpos
  rw [IsDate, readDate, readDigits_of_length _ hlen hyear]
  simp only [Option.bind_eq_bind, Option.bind_some, hread, hrest]
  simp [hne, hall]

/-! ### The length of a date -/

/-- A part of a date has its digits and at most one mark in front of them. -/
theorem IsDatePart.length_le {n : Nat} {p : List Char} (h : IsDatePart n p) :
    p.length ≤ n + 1 := by
  obtain ⟨mark, ds, rfl, hmark, hlen, -⟩ := h
  have hone : ∀ m ∈ dateMarks, m.length ≤ 1 := by decide
  have := hone mark hmark
  rw [List.length_append]
  omega

/-- Each pair takes three characters at most, two digits and a mark. -/
theorem IsPairs.length_le {n : Nat} {s : List Char} (h : IsPairs n s) : s.length ≤ 3 * n := by
  induction h with
  | none => simp
  | more hp hr ih =>
    have := hp.length_le
    rw [List.length_append]
    omega

/-- A date is short, and so are its groups. -/
theorem IsCalendarDate.length_le {s : List Char} (h : IsCalendarDate s) : s.length ≤ 26 := by
  obtain ⟨year, n, pairs, fraction, rfl, hlen, -, -, hle, hpairs, hfraction⟩ := h
  have hpairs' := hpairs.length_le
  have hfraction' : fraction.length ≤ 4 := by
    rcases hfraction with rfl | ⟨k, -, hk, hpart⟩
    · simp
    · have := hpart.length_le
      omega
  rw [List.length_append, List.length_append]
  omega

/-! ### Markers behind a date -/

/-- The numbers behind a keyword, with a mark in front of them or none. An absent numbering is the
    empty text. -/
def Marker.IsNumbering (s : List Char) : Prop :=
  s = [] ∨ ∃ mark ns, s = mark ++ ns ∧ mark ∈ Marker.marks ∧ IsNumbers ns

/-- A marker in writing: a separator or none, a keyword with its numbers or none, and `dev` or
    not. -/
inductive Marker.IsEnding : List Char → Prop where
  | bare {d : Bool} {sep t : List Char} (hsep : sep ∈ Marker.separators)
      (ht : Marker.IsDevEnding d t) : IsEnding (sep ++ t)
  | keyword {d : Bool} {sep word numbers t : List Char} (hsep : sep ∈ Marker.separators)
      (hword : word.map Text.plain ∈ Marker.keywords) (hnumbers : Marker.IsNumbering numbers)
      (ht : Marker.IsDevEnding d t) : IsEnding (sep ++ (word ++ (numbers ++ t)))

/-- Nothing is left of a marker in writing. -/
theorem Marker.IsEnding.whole {s : List Char} (h : Marker.IsEnding s) :
    (Marker.read s).2 = [] := by
  cases h with
  | bare hsep ht => rw [ht.read_eq hsep]
  | @keyword d sep word numbers t hsep hword hnumbers ht =>
    have hidentifier : Marker.IsIdentifier numbers := by
      rcases hnumbers with rfl | ⟨mark, ns, rfl, hmark, hns⟩
      · exact Marker.isIdentifier_nil
      · exact (IsNumbers.isIdentifier_mark hmark hns).1
    rw [ht.read_keyword hsep hword hidentifier]

/-! ### What a date stands for -/

/-- A text of numbers ends where no number follows. So there is only one way to take a text apart
    into numbers and a rest of that kind. -/
theorem eq_of_numbered_append {a b t u : List Char} (ha : numbered a = true)
    (hb : numbered b = true) (ht : numberAhead t = false) (hu : numberAhead u = false)
    (h : a ++ t = b ++ u) : a = b ∧ t = u := by
  -- If one of them went on behind the end of the other, a number would follow there.
  have hstop : ∀ k w : List Char, numbered k = true → numberAhead (k ++ w) = false → k = [] := by
    intro k w hk hw
    cases k with
    | nil => rfl
    | cons c k =>
      rw [numberAhead_append w (Bool.and_eq_true_iff.1 hk).1] at hw
      cases hw
  rcases List.append_eq_append_iff.1 h with ⟨k, rfl, rfl⟩ | ⟨k, rfl, rfl⟩
  · obtain rfl := hstop k u (numbered_of_append hb) ht
    simp
  · obtain rfl := hstop k t (numbered_of_append ha) hu
    simp

section

variable {lead date ending : List Char}

/-- A date begins with a digit, so exactly the leading `v` is skipped. That is why the letter is no
    part of what the date stands for. -/
theorem skipV_date (hlead : lead ∈ [[], ['v'], ['V']]) (hdate : IsDate date) (t : List Char) :
    skipV (lead ++ date ++ t) = date ++ t := by
  obtain ⟨-, -, hahead⟩ := readDate_sound hdate
  cases date with
  | nil => cases hahead
  | cons c r =>
    simp only [List.mem_cons, List.not_mem_nil, or_false] at hlead
    rcases hlead with rfl | rfl | rfl
    · exact skipV_of_isDigit hahead
    · rfl
    · rfl

/-- **A date as a release.** A date with a marker behind it stands for its groups and the canonical
    marker.  Where it can be read as a numbered version, that is the same. -/
theorem Release.ofText?_calendar (hlead : lead ∈ [[], ['v'], ['V']]) (hdate : IsDate date)
    (hwhole : (Marker.read ending).2 = []) :
    ofText? (lead ++ date ++ ending)
      = some (Dated.release ⟨date, (Marker.read ending).1⟩) := by
  have hskip := skipV_date hlead hdate ending
  have hahead : numberAhead ending = false := Marker.numberAhead_of_whole (by rw [hwhole]; rfl)
  obtain ⟨-, hnumbered, -⟩ := readDate_sound hdate
  have hdated : Dated.read? (lead ++ date ++ ending) = some ⟨date, (Marker.read ending).1⟩ := by
    rw [Dated.read?, hskip, readDate_append _ hahead, hdate]
    simp only [Option.map_some, followedBy, List.nil_append, Option.bind_eq_bind,
      Option.bind_some, hwhole]
    rfl
  have hwritten : ∀ r, (Written.read? (lead ++ date ++ ending)).bind Written.release? = some r →
      r = Dated.release ⟨date, (Marker.read ending).1⟩ := by
    intro r hr
    obtain ⟨w, hw, hrelease⟩ := Option.bind_eq_some_iff.1 hr
    obtain ⟨t, hsplit, hmarker, hbuild, hgs, hne, -⟩ := Written.exists_of_read? hw
    -- The numbered version and the date end at the same place, so they have the same groups.
    have ht : numberAhead t = false := Marker.numberAhead_of_whole (by rw [hbuild])
    rw [hskip] at hsplit
    obtain ⟨rfl, rfl⟩ := eq_of_numbered_append hnumbered (numbered_dotted hgs) hahead ht hsplit
    rw [Written.release?_eq hne] at hrelease
    split at hrelease
    case isFalse => cases hrelease
    case isTrue hmajor =>
      cases hrelease
      rw [Dated.release, groups_eq, hmarker]
      simp only [dateGroups_dotted hgs hne, hmajor, if_true]
  rw [ofText?, hdated, Option.map_some]
  cases hread : (Written.read? (lead ++ date ++ ending)).bind Written.release? with
  | none => rfl
  | some r => rw [hwritten r hread]; rfl

/-- A calendar version starts like no branch and holds neither white space nor a comma
    nor a plus. -/
theorem isPlain_calendar (hlead : lead ∈ [[], ['v'], ['V']]) (hdate : IsDate date)
    (hwhole : (Marker.read ending).2 = []) : IsPlain (lead ++ date ++ ending) := by
  obtain ⟨-, hnumbered, hahead⟩ := readDate_sound hdate
  exact isPlain_of_skipV (skipV_date hlead hdate ending) hnumbered hahead hwhole

/-- With points for its marks a date has the same groups. -/
theorem dateGroups_map_pointed (hdate : IsDate date) :
    dateGroups (date.map pointed) = dateGroups date := by
  obtain ⟨-, hnumbered, hahead⟩ := readDate_sound hdate
  rw [← dotted_dateGroups]
  exact dateGroups_dotted (fun g => isGroup_of_mem_dateGroups hnumbered hahead)
    (dateGroups_ne_nil date)

end

/-! ### Calendar versions -/

/-- A calendar version in writing: a `v` or none, a date, a marker and build metadata, which is
    empty if there is none.  The date and the marker are ASCII. -/
structure CalendarText where
  lead : List Char
  date : List Char
  ending : List Char
  build : List Char
  lead_mem : lead ∈ [[], ['v'], ['V']]
  isCalendarDate : IsCalendarDate date
  isEnding : Marker.IsEnding ending
  isTagChar : build.all Version.isTagChar = true
  ascii_date : ∀ c ∈ date, c.toNat < 128
  ascii_ending : ∀ c ∈ ending, c.toNat < 128

namespace CalendarText

variable (t : CalendarText)

/-- The whole text as it is written: the `v`, the date, what stands behind it and the build
    metadata behind a plus. -/
def chars : List Char := t.lead ++ t.date ++ t.ending ++ Version.marked '+' t.build

/-- The same text with points in place of the marks in the date. Nothing else is changed, so both
    forms differ in the date alone. -/
def pointedChars : List Char :=
  t.lead ++ t.date.map pointed ++ t.ending ++ Version.marked '+' t.build

/-- The groups of the date, from mark to mark. Where a date is written without marks it is one
    group. -/
def groups : List (List Char) := dateGroups t.date

/-- The date of a calendar text is one that the reader of dates takes. -/
theorem isDate : IsDate t.date := isDate_of_isCalendarDate t.isCalendarDate

/-- The groups of the date hold digits only, as the date consists of digits and single marks. -/
theorem isGroup : ∀ g ∈ t.groups, IsGroup g := by
  intro g
  obtain ⟨-, hnumbered, hahead⟩ := readDate_sound t.isDate
  exact isGroup_of_mem_dateGroups hnumbered hahead

/-- The year alone makes one group. -/
theorem groups_ne_nil : t.groups ≠ [] := dateGroups_ne_nil t.date

/-- The marker behind the date. -/
def marker : Marker := (Marker.read t.ending).1

/-- The release that is meant: the groups of the date, with the marker as the reader finds it
    behind them. -/
def release : Release := Dated.release ⟨t.date, t.marker⟩

/-- A date whose first group is short enough for a version number gets its four groups; any other
    one keeps those that it is written with. -/
theorem release_groups :
    t.release.groups = if isMajor t.groups then padGroups t.groups else t.groups :=
  groups_eq

/-- A date with what belongs to it is normalized to what the date stands for. Neither the `v` in
    front nor the metadata behind it is kept. -/
theorem normalize_date {date : List Char} (h : IsDate date) :
    (normalize (String.ofList
        (t.lead ++ date ++ t.ending ++ Version.marked '+' t.build)) none).outcome
      = .ok (.release (Dated.release ⟨date, t.marker⟩)) := by
  let w : Wrapping :=
    { before := [], build := t.build, target := [], after := [], blank_before := by simp
      isTagChar := t.isTagChar, solid := by simp, blank_after := by simp }
  have haround : w.around (t.lead ++ date ++ t.ending)
      = t.lead ++ date ++ t.ending ++ Version.marked '+' t.build := by
    simp [Wrapping.around, aliased, w]
  rw [← haround]
  exact w.normalize_around (isPlain_calendar t.lead_mem h t.isEnding.whole)
    (Release.ofText?_calendar t.lead_mem h t.isEnding.whole)

/-- A calendar text is read as its release: no other form of a version comes before it. -/
theorem normalize_chars :
    (normalize (String.ofList t.chars) none).outcome = .ok (.release t.release) :=
  t.normalize_date t.isDate

/-- **One grammar or the other.** With points for its marks a date may be a numbered version, and
    it stands for the same release. -/
theorem normalize_pointed :
    (normalize (String.ofList t.pointedChars) none).outcome = .ok (.release t.release) := by
  have hgroups : (⟨t.date.map pointed, t.marker⟩ : Dated).groups = t.release.groups := by
    rw [groups_eq, release_groups]
    simp only [dateGroups_map_pointed t.isDate]
    rfl
  have hsame : Dated.release ⟨t.date.map pointed, t.marker⟩ = t.release := by
    rw [Dated.release, hgroups]
    rfl
  rw [← hsame]
  exact t.normalize_date (isDate_map_pointed t.isDate)

end CalendarText

end VersionRange
