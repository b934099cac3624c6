import VersionRange.Proofs.Canonical.Maturity

namespace VersionRange

/-!
# Canonical texts that are read back

A canonical text that names no branch is a row of numbers with a marker, and it stands for itself.
Whether `-dev` may be put behind it is seen from the marker of the text that it was read from.

* `IsCanonicalText v`: `v` is the canonical text of a version; `IsCanonicalText.exists_row`,
  `IsCanonicalText.normalize_eq`, and `exists_head`, `getLast`, `isMarkerChar` on its characters.
* `Canonical.Marked s c`: what the marker at the end of the text `s` says about its meaning `c`.
* `Canonical.Marked.append_dev`: without a marker the text with `-dev` behind it is canonical, too.
* `HasStable`, `Canonical.Marked.hasStable`: nothing but the word `stable` is lost.
-/

/-! ### Rows of numbers -/

/-- The text is the canonical text of a version: one that the normalizer can write, whatever it was
    given. -/
def IsCanonicalText (v : String) : Prop := ∃ c : Canonical, c.IsNormal ∧ c.text = v

/-- The groups and the marker of a normal release can be read. -/
theorem Canonical.IsNormal.release_row {r : Release} (h : IsNormal (.release r)) :
    (∀ g ∈ r.groups, IsGroup g) ∧ r.groups ≠ [] ∧ r.marker.IsCanonical := by
  cases h with
  | release h => exact ⟨h.groups, h.groups_ne_nil, h.marker⟩
  | numeric hgs hlen =>
    refine ⟨hgs, ?_, Marker.isCanonical_dev true⟩
    rintro rfl
    cases hlen

namespace IsCanonicalText

variable {v : String}

/-- What is no branch is written as a row of groups with a canonical marker behind it. The main
    line of development has one number and is marked as `dev`. -/
theorem exists_row (h : IsCanonicalText v) (hb : isBranch v = false) :
    ∃ gs, ∃ m : Marker, v.toList = dotted gs ++ m.text ∧ (∀ g ∈ gs, IsGroup g) ∧ gs ≠ [] ∧
      m.IsCanonical := by
  obtain ⟨c, hc, rfl⟩ := h
  rw [Canonical.toList_text]
  cases c with
  | master =>
    refine ⟨["9999999".toList], { dev := true }, by decide, by decide, by decide, ?_⟩
    exact Marker.isCanonical_dev true
  | branch name => exact absurd hb (isBranch_branch_ne_false name)
  | release r =>
    obtain ⟨hgs, hne, hm⟩ := hc.release_row
    exact ⟨r.groups, r.marker, rfl, hgs, hne, hm⟩

/-- **Read back.** A canonical text that names no branch stands for itself. -/
theorem normalize_eq (h : IsCanonicalText v) (hb : isBranch v = false) (full : Option String) :
    ∃ c, (normalize v full).outcome = .ok c ∧ c.text = v := by
  obtain ⟨c, hc, rfl⟩ := h
  cases hc with
  | master => exact normalize_master full
  | @branch name => exact absurd hb (isBranch_branch_ne_false name)
  | release h => exact ⟨_, normalize_release h full, rfl⟩
  | numeric hgs hlen => exact ⟨_, normalize_numeric hgs hlen full, rfl⟩

/-- It begins with a digit. -/
theorem exists_head (h : IsCanonicalText v) (hb : isBranch v = false) :
    ∃ c r, v.toList = c :: r ∧ Text.isDigit c = true := by
  obtain ⟨gs, m, hrow, hgs, hne, -⟩ := h.exists_row hb
  obtain ⟨c, r, hhead, hc⟩ := exists_head_dotted hgs hne
  exact ⟨c, r ++ m.text, by rw [hrow, hhead, List.cons_append], hc⟩

/-- It ends with a digit or a letter, and not with an `s`. So neither a joint between terms nor the
    word `as` begins at its end. -/
theorem getLast (h : IsCanonicalText v) (hb : isBranch v = false) :
    ∀ c ∈ v.toList.getLast?, Text.isDigit c = true ∨
      Text.plain c ∉ ['-', 's', '=', '<', '>'] := by
  obtain ⟨gs, m, hrow, hgs, -, hm⟩ := h.exists_row hb
  intro c hc
  rw [hrow, List.getLast?_append] at hc
  cases hlast : m.text.getLast? with
  | some d =>
    rw [hlast] at hc
    exact Marker.getLast_text hm c (hlast.trans hc)
  | none =>
    rw [hlast] at hc
    exact .inl (isDigit_of_getLast?_dotted hgs hc)

/-- Nothing but what markers are written with stands in it. Points are among those, as they may
    stand in front of a number of a marker. -/
theorem isMarkerChar (h : IsCanonicalText v) (hb : isBranch v = false) :
    ∀ c ∈ v.toList, Marker.isMarkerChar c = true := by
  obtain ⟨gs, m, hrow, hgs, -, hm⟩ := h.exists_row hb
  intro c hc
  rw [hrow, List.mem_append] at hc
  rcases hc with hc | hc
  · rw [Marker.isMarkerChar_iff]
    rcases mem_dotted hgs hc with rfl | hd
    · exact .inl (by decide)
    · exact .inr (.inl hd)
  · exact Marker.isMarkerChar_of_mem_text hm hc

/-- The letters `dev` behind a canonical text belong to its marker. Otherwise the row of groups
    would end with a letter. -/
theorem search_append_dev (h : IsCanonicalText (v ++ "-dev"))
    (hb : isBranch (v ++ "-dev") = false) :
    (Marker.search (v ++ "-dev").toList).isAbsent = false := by
  obtain ⟨gs, m, hrow, hgs, -, hm⟩ := h.exists_row hb
  rw [hrow, Marker.search_row hgs hm, ← Bool.not_eq_true]
  intro habsent
  have htext : m.text = [] := by
    obtain ⟨hkeyword, hdev⟩ := Marker.isAbsent_iff.1 habsent
    simp [Marker.text, hkeyword, hdev]
  have hlast : 'v' ∈ dotted gs := by
    rw [htext, List.append_nil, String.toList_append] at hrow
    rw [← hrow]
    exact List.mem_append_right _ (by decide)
  exact not_mem_dotted hgs (by decide) (by decide) hlast

/-- What normalizing gives is a canonical text in this sense. -/
theorem of_normalize {full : Option String} {c : Canonical}
    (h : (normalize v full).outcome = .ok c) : IsCanonicalText c.text :=
  ⟨c, isNormal_of_normalize h, rfl⟩

end IsCanonicalText

/-! ### The letters `dev` at the end -/

namespace Marker

variable {s : List Char}

/-- A marker that makes up a text with a `v` ends with `dev`. The letter is in no keyword, and
    without metadata it can be nowhere else. -/
theorem dev_of_whole? {m : Marker} {c : Char} (hplus : '+' ∉ s) (hline : '\n' ∉ s)
    (h : whole? s = some m) (hc : c ∈ s) (hv : Text.plain c = 'v') : m.dev = true := by
  -- There is no metadata, so the marker alone reaches the end of the text.
  have hsuffix := read_suffix s
  have hrest : (readBuild (read s).2).2 = (read s).2 := by
    rw [readBuild_of_not_mem fun hmem => hplus (hsuffix.subset hmem)]
  cases hleft : (read s).2 with
  | nil =>
    rw [whole?_of_rest_eq_nil (hrest.trans hleft)] at h
    cases h
    exact dev_of_mem hleft hc hv
  | cons d r =>
    have hd : d ≠ '\n' := by
      rintro rfl
      exact hline (hsuffix.subset (by rw [hleft]; exact List.mem_cons_self))
    rw [whole?_of_rest_eq_cons (hrest.trans hleft) hd] at h
    cases h

/-- Wherever the marker begins, it is marked as `dev`. At the latest one begins in front of these
    letters. -/
theorem search_append_dev {d e v : Char} (hplus : '+' ∉ s ++ [d, e, v])
    (hline : '\n' ∉ s ++ [d, e, v]) (hd : Text.plain d = 'd') (he : Text.plain e = 'e')
    (hv : Text.plain v = 'v') : (search (s ++ [d, e, v])).dev = true := by
  induction s with
  | nil =>
    have hword : [d, e, v].map Text.plain = "dev".toList := by
      simp [hd, he, hv]
    have hnone : [] ∈ marks ∧ [] ∈ separators := by decide
    have hread : read [d, e, v] = ({ dev := true }, []) :=
      (IsDevEnding.word hnone.1 hword).read_eq hnone.2
    have hwhole : whole? [d, e, v] = some { dev := true } := by
      rw [whole?_of_rest_eq_nil (by rw [hread]; rfl), hread]
    rw [List.nil_append, search, hwhole, Option.getD_some]
  | cons c s ih =>
    rw [List.cons_append, List.mem_cons, not_or] at hplus hline
    rw [List.cons_append, search]
    cases hwhole : whole? (c :: (s ++ [d, e, v])) with
    | none => exact ih hplus.2 hline.2
    | some m =>
      -- A marker that is found here makes up the whole text, with the `v` at its end.
      refine dev_of_whole? ?_ ?_ hwhole (c := v) (by simp) hv
      · rw [List.mem_cons, not_or]
        exact hplus
      · rw [List.mem_cons, not_or]
        exact hline

end Marker

/-! ### The marker of a text and its meaning -/

/-- The text has the word `stable` in it, in any case and at any place. Canonical texts leave that
    word out, so where it is missing nothing of an expression gets lost in its rendering. -/
def HasStable (s : List Char) : Prop :=
  ∃ word, word <:+: s ∧ word.map Text.plain = "stable".toList

/-- A marker whose canonical form is none was none, or it was marked as stable. Every other keyword
    is kept, and so is `dev` without a keyword. -/
theorem Marker.hasStable_of_canonical {t : List Char}
    (h : (read t).1.canonical.isAbsent = true) : (read t).1.isAbsent = true ∨ HasStable t := by
  obtain ⟨lead, dev, ht, -, -⟩ := exists_append_of_read t
  generalize (read t).1 = m at h ht ⊢
  obtain ⟨keyword, identifier, isDev⟩ := m
  cases keyword with
  | none =>
    rw [canonical_of_keyword_none rfl] at h
    exact .inl h
  | some word =>
    -- Any keyword but `stable` is kept, and then the canonical form is not empty.
    by_cases hstable : Keyword.longForm word = Keyword.stable.text.toList
    · have hword := Keyword.longForm_eq_stable_iff.1 hstable
      refine .inr ⟨word, ⟨lead, identifier ++ dev ++ (read t).2, ?_⟩,
        Text.map_plain_of_toLower hword (by decide)⟩
      conv_rhs => rw [ht]
      simp [spelling]
    · simp only [canonical, hstable, if_false] at h
      cases h

/-- What the marker at the end of a text says about its meaning: a release gets that marker in
    canonical form, and a numeric branch has one. -/
inductive Canonical.Marked (s : List Char) : Canonical → Prop where
  | master : Marked s .master
  | branch (name : List Char) : Marked s (.branch name)
  | release {r : Release} {t : List Char} (ht : t <:+ s)
      (hsearch : Marker.search s = (Marker.read t).1)
      (hmarker : r.marker = (Marker.read t).1.canonical) : Marked s (.release r)
  | numeric {gs : List (List Char)} (hdev : (Marker.search s).dev = true) :
      Marked s (.release (numericBranch gs))

namespace Canonical

variable {s : List Char} {c : Canonical}

/-- What a version text means has the marker that is found in the text. For this the text must have
    no metadata, in which the search would not look. -/
theorem OfPlain.marked (h : c.OfPlain s) (hplus : '+' ∉ s) (hline : '\n' ∉ s) : c.Marked s := by
  have hbare : withoutBuild s = s := by
    rcases withoutBuild_cases s with hwhole | ⟨build, hs, -⟩
    · exact hwhole
    · refine absurd ?_ hplus
      rw [hs]
      exact List.mem_append_right _ List.mem_cons_self
  cases h with
  | master => exact .master
  | branch => exact .branch _
  | release hr =>
    rw [hbare] at hr
    obtain ⟨numbers, t, hsplit, hnumbers, -, hwhole, hmarker⟩ := Release.exists_of_ofText? hr
    have ht : t <:+ s := List.IsSuffix.trans ⟨numbers, hsplit.symm⟩ (skipV_suffix s)
    exact .release ht (Marker.search_of_skipV hsplit hnumbers hwhole) hmarker
  -- The text of a stem ends with `dev`, and so does whatever marker is found in it.
  | stem hstem hc =>
    rw [hbare] at hstem
    obtain ⟨t, d, e, v, rfl, hd, he, hv⟩ := exists_append_dev_of_devStem? hstem
    cases hc with
    | master => exact .master
    | numeric => exact .numeric (Marker.search_append_dev hplus hline hd he hv)
    | named => exact .branch _

/-- Without a marker the lowest version with the same numbers is canonical, too. The main line is
    left out, as its text has `dev` already. -/
theorem Marked.append_dev (h : c.Marked s) (hc : c.IsNormal)
    (habsent : (Marker.search s).isAbsent = true) (hb : isBranch c.text = false)
    (hmaster : c.text ≠ VersionRange.master) : IsCanonicalText (c.text ++ "-dev") := by
  cases h with
  | master => exact absurd (String.ofList_toList) hmaster
  | branch name => exact absurd hb (isBranch_branch_ne_false name)
  | numeric hdev =>
    rw [Marker.isAbsent_iff, hdev] at habsent
    cases habsent.2
  | @release r t ht hsearch hmarker =>
    rw [hsearch, Marker.isAbsent_iff] at habsent
    obtain ⟨hkeyword, hdev⟩ := habsent
    rw [Marker.canonical_of_keyword_none hkeyword, hdev] at hmarker
    cases hc with
    | numeric => cases hmarker
    | release hr =>
      refine ⟨.release ⟨r.groups, { dev := true }⟩,
        .release ⟨hr.groups, Marker.isCanonical_dev true, hr.shape⟩, ?_⟩
      -- There is no marker to write, so putting `-dev` behind is writing the marker of the lowest
      -- version.
      have htext : r.text = dotted r.groups := by
        rw [Release.text, hmarker]
        exact List.append_nil _
      rw [← String.toList_inj, String.toList_append, toList_text, toList_text, chars, chars, htext]
      rfl

/-- **The word `stable` is lost** and nothing else: what is left without a marker had none, or that
    word. -/
theorem Marked.hasStable (h : c.Marked s) (hc : c.IsNormal) (hb : isBranch c.text = false)
    (habsent : (Marker.search c.chars).isAbsent = true) :
    (Marker.search s).isAbsent = true ∨ HasStable s := by
  cases h with
  | master => exact absurd habsent (by decide)
  | branch name => exact absurd hb (isBranch_branch_ne_false name)
  | numeric hdev =>
    obtain ⟨hgs, -, hm⟩ := hc.release_row
    rw [chars, Release.text, ← dotted, Marker.search_row hgs hm] at habsent
    cases habsent
  | @release r t ht hsearch hmarker =>
    obtain ⟨hgs, -, hm⟩ := hc.release_row
    -- In the canonical text the search finds the canonical form of the marker.
    rw [chars, Release.text, ← dotted, Marker.search_row hgs hm, hmarker] at habsent
    rw [hsearch]
    refine (Marker.hasStable_of_canonical habsent).imp_right ?_
    rintro ⟨word, hword, hplain⟩
    exact ⟨word, hword.trans ht.isInfix, hplain⟩

end Canonical

end VersionRange
