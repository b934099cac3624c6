import VersionRange.Proofs.Canonical.Date

namespace VersionRange

/-!
# Releases read back

The text of a release is a row of groups with a canonical marker behind it.  Such a row is read as
a numbered version, as a date or not at all, and its groups decide which.

* `isMajor`: whether the first group is short enough for a numbered version.
* `Release.ofText?_numbered`, `Release.ofText?_dated`, `Release.ofText?_neither`: what a row of
  groups with a marker is read as.
* `Release.IsNormal`: the releases that reading gives, and `Release.isNormal_of_ofText?` that it
  gives no others.
* `Release.ofText?_text`: such a release is read back from its text.
-/

/-- Whether the first group of a version is short enough for a major number. A row with a longer
    first group is a date, which is not filled up to four groups, or nothing. -/
def isMajor (gs : List (List Char)) : Bool := (gs.headD []).length ≤ 5

/-- A date is padded to four groups only where its first group can be the first number
    of a version. -/
theorem groups_eq {d : Dated} :
    d.groups = if isMajor (dateGroups d.date) then padGroups (dateGroups d.date)
      else dateGroups d.date := by
  simp [Dated.groups, isMajor, dateGroups]

/-- Padding is done at the end, so the first group stays. -/
theorem isMajor_padGroups {gs : List (List Char)} (hne : gs ≠ []) :
    isMajor (padGroups gs) = isMajor gs := by
  cases gs with
  | nil => exact absurd rfl hne
  | cons => rfl

/-- What holds of some groups and of zero holds of the filled up groups. -/
theorem forall_mem_padGroups {p : List Char → Prop} {gs : List (List Char)}
    (hgs : ∀ g ∈ gs, p g) (hzero : p ['0']) : ∀ g ∈ padGroups gs, p g := by
  intro g hg
  rcases List.mem_append.1 hg with hg | hg
  · exact hgs g hg
  · rw [List.eq_of_mem_replicate hg]
    exact hzero

/-- A classic version is a release unless its first number is too long for one. -/
theorem Written.release?_eq {w : Written} (hne : w.groups ≠ []) :
    w.release? = if isMajor w.groups then some ⟨padGroups w.groups, w.marker.canonical⟩
      else none := by
  obtain ⟨groups, marker, build⟩ := w
  cases groups with
  | nil => exact absurd rfl hne
  | cons => simp [release?, isMajor]

/-! ### A row of groups with a marker -/

/-- A text of numbers that goes on with another one is no numbered version with a marker. Four
    groups are taken, and what follows them is left. -/
theorem Written.read?_eq_none {gs : List (List Char)} {t : List Char}
    (hgs : ∀ g ∈ gs, IsGroup g) (hlen : 4 < gs.length) : read? (dotted gs ++ t) = none := by
  have hne : gs ≠ [] := by
    rintro rfl
    simp at hlen
  cases gs with
  | nil => exact absurd rfl hne
  | cons g gs =>
    -- Three groups are read behind the first one; a point and a digit are left.
    obtain ⟨h, rest, hdrop⟩ : ∃ h rest, gs.drop 3 = h :: rest :=
      List.exists_cons_of_length_pos (by rw [List.length_cons] at hlen; simp; omega)
    have hleft : ∀ k ∈ h :: rest, IsGroup k := by
      intro k hk
      rw [← hdrop] at hk
      exact hgs k (List.mem_cons_of_mem _ (List.mem_of_mem_drop hk))
    obtain ⟨c, r, hhead, hc⟩ := exists_head_dotted hleft (by simp)
    have htail : gs.flatMap ('.' :: ·) ++ t
        = (gs.take 3).flatMap ('.' :: ·) ++ ('.' :: dotted (h :: rest) ++ t) := by
      rw [dotted_cons, ← List.cons_append, ← List.flatMap_cons, ← hdrop, ← List.append_assoc,
        ← List.flatMap_append, List.take_append_drop]
    have hdigits := (hgs g (by simp)).2
    have hread : readGroups 3 (gs.flatMap ('.' :: ·) ++ t)
        = (gs.take 3, '.' :: dotted (h :: rest) ++ t) := by
      rw [htail]
      refine readGroups_flatMap (fun k hk => ?_) rfl (.inl ?_)
      · exact hgs k (List.mem_cons_of_mem _ (List.mem_of_mem_take hk))
      · rw [List.length_take]
        simp at hlen
        omega
    obtain ⟨htake, hrest⟩ := takeWhile_digits (t := gs.flatMap ('.' :: ·) ++ t) hdigits (by
      rw [htail]
      exact digitAhead_flatMap rfl)
    have hahead : numberAhead ('.' :: dotted (h :: rest) ++ t) = true := by
      rw [hhead]
      simp [numberAhead, isDateMark, Marker.digitAhead, hc]
    have hstuck := Marker.not_whole_of_numberAhead hahead
    simp only [read?, skipV_dotted hgs hne]
    rw [dotted_cons, List.append_assoc, htake, hrest, hread]
    dsimp only
    split
    case h_1 heq => exact absurd (congrArg Prod.snd heq) hstuck
    case h_2 => rfl

/-- A text that is read as a date is made of it and its marker. -/
theorem Dated.exists_of_read? {s : List Char} {d : Dated} (h : read? s = some d) :
    ∃ t, readDate (skipV s) = some (d.date, t) ∧ (Marker.read t).1 = d.marker ∧
      (readBuild (Marker.read t).2).2 = [] := by
  simp only [read?, Option.bind_eq_bind, Option.bind_eq_some_iff, Option.guard_eq_some',
    Option.pure_def, Option.some.injEq] at h
  obtain ⟨⟨date, t⟩, hread, -, hwhole, rfl⟩ := h
  exact ⟨t, hread, rfl, List.isEmpty_iff.1 hwhole⟩

/-- A release is a numbered version or a date. -/
theorem Release.cases_of_ofText? {s : List Char} {r : Release} (h : ofText? s = some r) :
    (∃ w, Written.read? s = some w ∧ w.release? = some r) ∨
      ∃ d, Dated.read? s = some d ∧ d.release = r := by
  rw [ofText?, Option.orElse_eq_orElse, Option.orElse_eq_or, Option.or_eq_some_iff] at h
  rcases h with h | ⟨-, h⟩
  · exact .inl (Option.bind_eq_some_iff.1 h)
  · exact .inr (Option.map_eq_some_iff.1 h)

namespace Release

variable {gs : List (List Char)} {m : Marker}

/-- With at most four groups, and a major number, it is a numbered version. -/
theorem ofText?_numbered (hgs : ∀ g ∈ gs, IsGroup g) (hne : gs ≠ []) (hm : m.IsCanonical)
    (hlen : gs.length ≤ 4) (hmajor : isMajor gs = true) :
    ofText? (dotted gs ++ m.text) = some ⟨padGroups gs, m⟩ := by
  have hread := Written.read?_dotted (skipV_dotted hgs hne) hgs hne hlen
    (by rw [Marker.read_text hm]; rfl : _ = ([], []))
  rw [ofText?, hread, Option.bind_some, Written.release?_eq hne, if_pos hmajor,
    Marker.read_text hm, hm.canonical_eq]
  rfl

/-- What is no numbered version can only be a date. It has too many groups for one, or its first
    group is too long. -/
theorem ofText?_eq_dated (hgs : ∀ g ∈ gs, IsGroup g) (hne : gs ≠ [])
    (hm : m.IsCanonical) (hlong : 4 < gs.length ∨ isMajor gs = false) :
    ofText? (dotted gs ++ m.text) = (Dated.read? (dotted gs ++ m.text)).map Dated.release := by
  by_cases hlen : 4 < gs.length
  · rw [ofText?, Written.read?_eq_none hgs hlen]
    rfl
  · have hread := Written.read?_dotted (skipV_dotted hgs hne) hgs hne (Nat.le_of_not_lt hlen)
      (by rw [Marker.read_text hm]; rfl : _ = ([], []))
    have hmajor := hlong.resolve_left hlen
    rw [ofText?, hread, Option.bind_some, Written.release?_eq hne, if_neg (by simp [hmajor])]
    rfl

/-- A date with too many groups for a numbered version, or without a major number, is that date.
    Its groups come back as they are, as there is nothing to fill up. -/
theorem ofText?_dated (hgs : ∀ g ∈ gs, IsGroup g) (hne : gs ≠ []) (hm : m.IsCanonical)
    (hlong : 4 < gs.length ∨ isMajor gs = false) (hdate : IsDate (dotted gs)) :
    ofText? (dotted gs ++ m.text) = some ⟨gs, m⟩ := by
  have hread : Dated.read? (dotted gs ++ m.text) = some ⟨dotted gs, m⟩ := by
    rw [Dated.read?, skipV_dotted hgs hne, readDate_append _ (Marker.numberAhead_text hm), hdate]
    simp only [Option.map_some, followedBy, List.nil_append, Option.bind_eq_bind,
      Option.bind_some, Marker.read_text hm]
    rfl
  -- Padding adds nothing: a date with a major number has too many groups for it.
  have hgroups : (⟨dotted gs, m⟩ : Dated).groups = gs := by
    rw [groups_eq]
    dsimp only
    rw [dateGroups_dotted hgs hne]
    split
    case isTrue hmajor =>
      have hlen := hlong.resolve_right (by simp [hmajor])
      exact padGroups_of_four_le (by omega)
    case isFalse => rfl
  rw [ofText?_eq_dated hgs hne hm hlong, hread, Option.map_some, Dated.release, hgroups,
    hm.canonical_eq]

/-- Any other row of groups with a marker is no release. Neither reader takes it to the end. -/
theorem ofText?_neither (hgs : ∀ g ∈ gs, IsGroup g) (hne : gs ≠ []) (hm : m.IsCanonical)
    (hlong : 4 < gs.length ∨ isMajor gs = false) (hdate : ¬ IsDate (dotted gs)) :
    ofText? (dotted gs ++ m.text) = none := by
  have hread : Dated.read? (dotted gs ++ m.text) = none := by
    rw [Dated.read?, skipV_dotted hgs hne, readDate_append _ (Marker.numberAhead_text hm)]
    cases hd : readDate (dotted gs) with
    | none => rfl
    | some p =>
      obtain ⟨d, r⟩ := p
      obtain ⟨heq, -, -⟩ := readDate_sound hd
      -- The date ends in front of a further number, where no marker begins.
      have hr : r ≠ [] := by
        rintro rfl
        rw [List.append_nil] at heq
        exact hdate (by rw [IsDate, hd, heq])
      have hnum : numbered r = true := by
        have := numbered_dotted hgs
        rw [heq] at this
        exact numbered_of_append this
      have hahead : numberAhead (r ++ m.text) = true := by
        cases r with
        | nil => exact absurd rfl hr
        | cons c r =>
          simp only [numbered, Bool.and_eq_true] at hnum
          exact numberAhead_append _ hnum.1
      have hstuck := Marker.not_whole_of_numberAhead hahead
      simp [followedBy, hstuck]
  rw [ofText?_eq_dated hgs hne hm hlong, hread]
  rfl

/-! ### Releases that reading gives -/

/-- A release as reading gives it: four groups of which the first is short enough, or a date that
    no numbered version is. -/
structure IsNormal (r : Release) : Prop where
  groups : ∀ g ∈ r.groups, IsGroup g
  marker : r.marker.IsCanonical
  shape : (r.groups.length = 4 ∧ isMajor r.groups = true) ∨
    (IsDate (dotted r.groups) ∧ (4 < r.groups.length ∨ isMajor r.groups = false))

/-- A release has at least one group. -/
theorem IsNormal.groups_ne_nil {r : Release} (h : r.IsNormal) : r.groups ≠ [] := by
  rintro hnil
  rcases h.shape with ⟨hlen, -⟩ | ⟨hdate, -⟩
  · rw [hnil] at hlen
    cases hlen
  · rw [hnil] at hdate
    cases hdate

/-- A row of up to four groups that starts with a major number is filled up to a release. -/
theorem isNormal_padGroups (hgs : ∀ g ∈ gs, IsGroup g) (hne : gs ≠ []) (hm : m.IsCanonical)
    (hlen : gs.length ≤ 4) (hmajor : isMajor gs = true) : IsNormal ⟨padGroups gs, m⟩ where
  groups := forall_mem_padGroups hgs ⟨by simp, by decide⟩
  marker := hm
  shape := by
    left
    rw [length_padGroups, isMajor_padGroups hne]
    exact ⟨by omega, hmajor⟩

/-- Classic versions give releases of the normal form. -/
theorem isNormal_of_written {w : Written} {r : Release} {s : List Char}
    (hw : Written.read? s = some w) (hr : w.release? = some r) : r.IsNormal := by
  obtain ⟨t, -, hmarker, -, hgs, hne, hlen⟩ := Written.exists_of_read? hw
  rw [Written.release?_eq hne] at hr
  split at hr
  case isTrue hmajor =>
    cases hr
    exact isNormal_padGroups hgs hne (hmarker ▸ Marker.isRead_read t).canonical hlen hmajor
  case isFalse => cases hr

/-- What is read as a date is of normal form, padded or not. With a major number and few groups it
    becomes a numbered version, otherwise it stays a date. -/
theorem isNormal_of_dated {d : Dated} {s : List Char} (hd : Dated.read? s = some d) :
    d.release.IsNormal := by
  obtain ⟨t, hread, hmarker, hwhole⟩ := Dated.exists_of_read? hd
  obtain ⟨date, marker⟩ := d
  obtain rfl : (Marker.read t).1 = marker := hmarker
  have hdate : IsDate date := IsDate.of_readDate hread (Marker.numberAhead_of_whole hwhole)
  obtain ⟨-, hnum, hahead⟩ := readDate_sound hread
  have hgs : ∀ g ∈ dateGroups date, IsGroup g :=
    fun g => isGroup_of_mem_dateGroups hnum hahead
  have hm := (Marker.isRead_read t).canonical
  have hpoints : IsDate (dotted (dateGroups date)) := by
    rw [dotted_dateGroups]
    exact isDate_map_pointed hdate
  -- A short date with a major number is padded and becomes a numbered version; the others stay
  -- dates.
  by_cases hmajor : isMajor (dateGroups date) = true
  · by_cases hlen : (dateGroups date).length ≤ 4
    · rw [Dated.release, groups_eq, if_pos hmajor]
      exact isNormal_padGroups hgs (dateGroups_ne_nil date) hm hlen hmajor
    · have hfour : 4 ≤ (dateGroups date).length := by omega
      rw [Dated.release, groups_eq, if_pos hmajor, padGroups_of_four_le hfour]
      exact ⟨hgs, hm, .inr ⟨hpoints, .inl (Nat.lt_of_not_le hlen)⟩⟩
  · rw [Dated.release, groups_eq, if_neg hmajor]
    exact ⟨hgs, hm, .inr ⟨hpoints, .inr (by simpa using hmajor)⟩⟩

/-- Reading gives normal releases only. -/
theorem isNormal_of_ofText? {s : List Char} {r : Release} (h : ofText? s = some r) :
    r.IsNormal := by
  rcases cases_of_ofText? h with ⟨w, hw, hr⟩ | ⟨d, hd, rfl⟩
  · exact isNormal_of_written hw hr
  · exact isNormal_of_dated hd

/-- A release is written as numbers, perhaps behind a `v`, with a marker and build metadata. Of the
    marker the canonical form is kept, and of the metadata nothing. -/
theorem exists_of_ofText? {s : List Char} {r : Release} (h : ofText? s = some r) :
    ∃ numbers t, skipV s = numbers ++ t ∧ numbered numbers = true ∧
      Marker.digitAhead numbers = true ∧ (readBuild (Marker.read t).2).2 = [] ∧
      r.marker = (Marker.read t).1.canonical := by
  -- Either way the numbers stand in front of the marker, as a row of groups or as a date.
  rcases cases_of_ofText? h with ⟨w, hw, hr⟩ | ⟨d, hd, rfl⟩
  · obtain ⟨t, hsplit, hmarker, hbuild, hgs, hne, -⟩ := Written.exists_of_read? hw
    obtain ⟨c, u, hhead, hc⟩ := exists_head_dotted hgs hne
    refine ⟨_, t, hsplit, numbered_dotted hgs, by rw [hhead]; exact hc, by rw [hbuild], ?_⟩
    rw [Written.release?_eq hne] at hr
    split at hr
    case isTrue =>
      cases hr
      rw [hmarker]
    case isFalse => cases hr
  · obtain ⟨t, hread, hmarker, hwhole⟩ := Dated.exists_of_read? hd
    obtain ⟨hsplit, hnumbered, hahead⟩ := readDate_sound hread
    exact ⟨d.date, t, hsplit, hnumbered, hahead, hwhole, by rw [hmarker]; rfl⟩

/-- A release starts with a digit, perhaps behind a `v`. -/
theorem exists_head_of_ofText? {s : List Char} {r : Release} (h : ofText? s = some r) :
    ∃ c t, s = c :: t ∧ (Text.plain c = 'v' ∨ Text.isDigit c = true) := by
  obtain ⟨numbers, t, hsplit, -, hahead, -⟩ := exists_of_ofText? h
  cases numbers with
  | nil => cases hahead
  | cons d u => exact Written.exists_head_of_skipV (hsplit.trans List.cons_append) hahead

/-- The groups of a release are in the text, but for zeros in place of missing ones. So no digit
    comes from elsewhere. -/
theorem mem_groups_of_ofText? {s : List Char} {r : Release} (h : ofText? s = some r) :
    ∀ g ∈ r.groups, ∀ c ∈ g, c ∈ s ∨ c = '0' := by
  have hzero : ∀ c ∈ ['0'], c ∈ s ∨ c = '0' := fun c hc => .inr (List.mem_singleton.1 hc)
  rcases cases_of_ofText? h with ⟨w, hw, hr⟩ | ⟨d, hd, rfl⟩
  · obtain ⟨t, hsplit, -, -, -, hne, -⟩ := Written.exists_of_read? hw
    have hgs : ∀ g ∈ w.groups, ∀ c ∈ g, c ∈ s ∨ c = '0' := by
      intro g hg c hc
      refine .inl ((skipV_suffix s).subset ?_)
      rw [hsplit]
      exact List.mem_append_left t ((infix_dotted hg).subset hc)
    rw [Written.release?_eq hne] at hr
    split at hr
    case isTrue =>
      cases hr
      exact forall_mem_padGroups hgs hzero
    case isFalse => cases hr
  · obtain ⟨t, hread, -⟩ := Dated.exists_of_read? hd
    obtain ⟨hsplit, hnumbered, hahead⟩ := readDate_sound hread
    have hgs : ∀ g ∈ dateGroups d.date, ∀ c ∈ g, c ∈ s ∨ c = '0' := by
      intro g hg c hc
      -- Only marks are written as points, and there are none in a group.
      have hmem := (infix_dotted hg).subset hc
      rw [dotted_dateGroups] at hmem
      obtain ⟨e, he, rfl⟩ := List.mem_map.1 hmem
      have hdigit := (isGroup_of_mem_dateGroups hnumbered hahead hg).2 _ hc
      rw [isDigit_pointed] at hdigit
      rw [pointed, if_pos hdigit]
      refine .inl ((skipV_suffix s).subset ?_)
      rw [hsplit]
      exact List.mem_append_left t he
    rw [Dated.release, groups_eq]
    split
    · exact forall_mem_padGroups hgs hzero
    · exact hgs

/-- **Read back.** A normal release is read from its text. -/
theorem ofText?_text {r : Release} (h : r.IsNormal) : ofText? r.text = some r := by
  have hne := h.groups_ne_nil
  rcases h.shape with ⟨hlen, hmajor⟩ | ⟨hdate, hlong⟩
  · have := ofText?_numbered h.groups hne h.marker (by omega) hmajor
    rwa [padGroups_of_four_le (by omega)] at this
  · exact ofText?_dated h.groups hne h.marker hlong hdate

end Release

end VersionRange
