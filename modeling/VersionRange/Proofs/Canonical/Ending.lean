import VersionRange.Proofs.Canonical.Build

namespace VersionRange

/-!
# Versions without a marker

The canonical text of a version shows whether anything follows its numbers.

* `isUnmarked`: whether a text is a numbered version without a marker.
* `hyphen_not_mem_of_isUnmarked`, `hyphen_mem_append_dev`: by its canonical text such a version
  differs from the one with `-dev` behind it.
-/

/-- Whether a text is a numbered version without a marker. Where such a version is the bound of a
    range, `-dev` is put behind it. -/
def isUnmarked (s : List Char) : Bool := (Written.read? s).any fun w => w.marker.isAbsent

variable {s full : List Char} {c : Canonical}

/-- The test of the program, on texts, says what the statement asks: the text is a version, and its
    marker is absent. -/
theorem isUnmarked_iff :
    isUnmarked s = true ↔ ∃ w, Written.read? s = some w ∧ w.marker.isAbsent = true := by
  simp [isUnmarked, Option.any_eq_true]

/-- Nothing but a `v`, digits and separators is written in it. A point is a separator, too. -/
theorem mem_of_isUnmarked (h : isUnmarked s = true) (hplus : '+' ∉ s) {d : Char} (hd : d ∈ s) :
    Text.plain d = 'v' ∨ Text.isDigit d = true ∨ Marker.isSeparator d = true := by
  obtain ⟨w, hw, habsent⟩ := isUnmarked_iff.1 h
  obtain ⟨t, hsplit, hmarker, hbuild, hgs, -, -⟩ := Written.exists_of_read? hw
  rcases mem_skipV hd with hv | hd
  · exact .inl hv
  · right
    have hsuffix : t <:+ s := List.IsSuffix.trans ⟨_, hsplit.symm⟩ (skipV_suffix s)
    -- The marker is read to the end of the text, and it is absent, so only separators are left.
    have hbare : '+' ∉ (Marker.read t).2 := fun hmem =>
      hplus (hsuffix.subset ((Marker.read_suffix t).subset hmem))
    have hwhole : (Marker.read t).2 = [] := by
      rw [readBuild_of_not_mem hbare] at hbuild
      exact congrArg Prod.snd hbuild
    rw [hsplit, List.mem_append] at hd
    rcases hd with hd | hd
    · rcases mem_dotted hgs hd with rfl | hd
      · exact .inr (by decide)
      · exact .inl hd
    · exact .inr (Marker.isSeparator_of_absent hwhole (hmarker ▸ habsent) d hd)

/-- None of these characters begins a marker. -/
theorem letterless_of_isUnmarked (h : isUnmarked s = true) (hplus : '+' ∉ s) {d : Char}
    (hd : d ∈ s) : Text.plain d ∉ 'd' :: Marker.initials := by
  rcases mem_of_isUnmarked h hplus hd with hv | hd | hd
  · rw [hv]
    decide
  · exact Marker.letterless_of_isDigit hd
  · rcases Marker.isSeparator_iff.1 hd with rfl | rfl | rfl <;> decide

/-- A numbered version is no name of a branch, whatever stands behind it. -/
theorem isMaster_of_read? {w : Written} (h : Written.read? s = some w) (t : List Char) :
    isMaster (s ++ t) = false ∧ devName? (s ++ t) = none := by
  obtain ⟨c, r, rfl, hc⟩ := Written.exists_head_of_read? h
  refine isMaster_cons (r := r ++ t) ?_
  rcases hc with hv | hdigit
  · rw [hv]
    decide
  · exact not_mem_branchInitials hdigit

/-- **Without a marker** the canonical text is made of numbers. There is no hyphen, as only a
    marker brings one. -/
theorem hyphen_not_mem_of_isUnmarked (h : isUnmarked s = true) (hplus : '+' ∉ s)
    (hc : (normalizePlain s full).outcome = .ok c) : '-' ∉ c.chars := by
  have hbare : withoutBuild s = s := by simp only [withoutBuild, Text.cut_of_not_mem hplus]
  obtain ⟨w, hw, -⟩ := isUnmarked_iff.1 h
  obtain ⟨hmaster, hname⟩ := isMaster_of_read? hw []
  rw [List.append_nil] at hmaster hname
  -- No letter of `dev` stands in it.
  have hstem : devStem? s = none := by
    rw [Option.eq_none_iff_forall_ne_some]
    intro stem hstem
    obtain ⟨t, d, e, v, rfl, hd, -⟩ := exists_append_dev_of_devStem? hstem
    have hforeign := letterless_of_isUnmarked h hplus (d := d) (by simp)
    exact hforeign (by rw [hd]; exact List.mem_cons_self)
  simp only [normalizePlain, hmaster, hname, hbare, hstem, Bool.false_eq_true, if_false] at hc
  split at hc
  case h_2 => cases hc
  case h_1 r hr =>
    cases hc
    obtain ⟨numbers, t, hsplit, -, -, -, hmarker⟩ := Release.exists_of_ofText? hr
    have hsuffix : t <:+ s := List.IsSuffix.trans ⟨_, hsplit.symm⟩ (skipV_suffix s)
    have hnone : r.marker = {} := by
      rw [hmarker, Marker.read_of_letterless fun d hd =>
        letterless_of_isUnmarked h hplus (hsuffix.subset hd)]
      rfl
    have htext : r.text = dotted r.groups := by
      rw [Release.text, hnone]
      exact List.append_nil _
    show '-' ∉ r.text
    rw [htext]
    exact not_mem_dotted (Release.isNormal_of_ofText? hr).groups (by decide) (by decide)

/-- The name of a branch has a hyphen in its canonical text. -/
theorem hyphen_mem_of_normalizeBranch {ε : Type} {b : String}
    (h : (normalizeBranch b : Traced ε Canonical).outcome = .ok c) : '-' ∈ c.chars := by
  cases ofBranch_of_normalizeBranch h with
  | master => decide
  | @numeric gs hgs => exact List.mem_append_right (dotted gs) List.mem_cons_self
  | @named name hname => exact List.mem_append_left name (by decide)

/-- Without the letter that begins one there is no keyword. All keywords are looked for at the same
    place. -/
theorem Marker.keyword_eq_none (h : ∀ d ∈ s, Text.plain d ∉ initials) :
    (read s).1.keyword = none := by
  rw [Option.eq_none_iff_forall_ne_some]
  intro word hword
  have hspelled := (isRead_read s).spelled word hword
  have hkeywords : ∀ key ∈ keywords, key ≠ [] ∧ key.headD 's' ∈ initials := by decide
  obtain ⟨hne, hinitial⟩ := hkeywords _ hspelled
  obtain ⟨d, r, rfl⟩ : ∃ d r, word = d :: r :=
    List.exists_cons_of_ne_nil fun hnil => hne (by rw [hnil]; rfl)
  obtain ⟨lead, dev, hs, -, -⟩ := exists_append_of_read s
  refine h d ?_ hinitial
  rw [hs, spelling, hword]
  simp

/-- **With `-dev` behind it** the canonical text has more than numbers. Together with the lemma
    above this tells apart what is normalized with and without the letters. -/
theorem hyphen_mem_append_dev (h : isUnmarked s = true) (hplus : '+' ∉ s)
    (hc : (normalizePlain (s ++ "-dev".toList) full).outcome = .ok c) : '-' ∈ c.chars := by
  have hplus' : '+' ∉ s ++ "-dev".toList := by simp [hplus]
  have hbare : withoutBuild (s ++ "-dev".toList) = s ++ "-dev".toList := by
    simp only [withoutBuild, Text.cut_of_not_mem hplus']
  obtain ⟨w, hw, -⟩ := isUnmarked_iff.1 h
  obtain ⟨hmaster, hname⟩ := isMaster_of_read? hw "-dev".toList
  simp only [normalizePlain, hmaster, hname, hbare, Bool.false_eq_true, if_false] at hc
  split at hc
  case h_2 =>
    split at hc
    case h_1 => exact hyphen_mem_of_normalizeBranch hc
    case h_2 => cases hc
  case h_1 r hr =>
    cases hc
    obtain ⟨numbers, t, hsplit, hnumbered, -, hwhole, hmarker⟩ := Release.exists_of_ofText? hr
    have hsuffix : t <:+ s ++ "-dev".toList := List.IsSuffix.trans ⟨_, hsplit.symm⟩ (skipV_suffix _)
    have hrest : (Marker.read t).2 = [] := by
      rwa [readBuild_of_not_mem fun hmem =>
        hplus' (hsuffix.subset ((Marker.read_suffix t).subset hmem))] at hwhole
    -- The marker of this text is `dev` without a keyword.
    have hkeyword : (Marker.read t).1.keyword = none := by
      refine Marker.keyword_eq_none fun d hd => ?_
      rcases List.mem_append.1 (hsuffix.subset hd) with hd | hd
      · exact fun hinitial => letterless_of_isUnmarked h hplus hd
          (List.mem_cons_of_mem 'd' hinitial)
      · have hdev : ∀ d ∈ "-dev".toList, Text.plain d ∉ Marker.initials := by decide
        exact hdev d hd
    have hdev : (Marker.read t).1.dev = true := by
      rw [← Bool.not_eq_false]
      intro hfalse
      have habsent := Marker.isAbsent_iff.2 ⟨hkeyword, hfalse⟩
      -- The last letter of the text is neither among the numbers nor a separator.
      have hlast : 'v' ∈ skipV (s ++ "-dev".toList) := by
        obtain ⟨c, r, rfl, -⟩ := Written.exists_head_of_read? hw
        rw [List.cons_append, skipV]
        split <;> simp
      rw [hsplit, List.mem_append] at hlast
      rcases hlast with hlast | hlast
      · exact absurd (isMarked_of_numbered hnumbered 'v' hlast) (by decide)
      · exact absurd (Marker.isSeparator_of_absent hrest habsent 'v' hlast) (by decide)
    have htext : r.text = dotted r.groups ++ "-dev".toList := by
      rw [Release.text, hmarker, Marker.canonical_of_keyword_none hkeyword, hdev]
      rfl
    show '-' ∈ r.text
    rw [htext]
    exact List.mem_append_right _ (by decide)

end VersionRange
