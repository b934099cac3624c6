import VersionRange.Proofs.Canonical.Ending
import VersionRange.Proofs.Canonical.Readable

namespace VersionRange

/-!
# What the report of a version points at

A text that is no version is reported with the part of it that was read last.

* `Text.eq_space_of_sameLetter`: no letter but the space itself is the same as a space up to case.
* `aliasHint?_eq_none`: a text that is no alias is not explained as one.
* `versionReport_eq`: the report of a version, field by field.
* `error_of_normalizePlain`: the one report of a version.
* `report_normalize`: a report points into the version, and explains only a source of an alias.
* `isPrefix_of_normalize_append_dev`: with `-dev` behind a version the report points into the
  version alone.
-/

/-! ### Spaces up to case -/

namespace Text

/-- The table of capitals leads to nothing in front of the letters. So a text with a space in it is
    like another one only if that one has a space there. -/
theorem eq_space_of_lowerChar {c : Char} (h : lowerChar c = ' ') : c = ' ' := by
  by_cases hc : c.toNat < 128
  · revert h
    exact forall_ascii (P := fun c => lowerChar c = ' ' → c = ' ') (by decide) hc
  · rw [lowerChar, if_neg hc] at h
    cases hshift : shifted? capitals c.toNat with
    | none =>
      rw [hshift] at h
      exact h
    | some n =>
      obtain ⟨sh, hmem, hmove⟩ := List.exists_of_findSome?_eq_some hshift
      simp only [Shift.move?, Option.ite_none_right_eq_some, Option.some.injEq] at hmove
      obtain ⟨⟨hfirst, -, -⟩, hn⟩ := hmove
      -- Whatever the table leads to, the space comes before it.
      have hletters : capitals.all (fun sh => 32 < (sh.first : Int) + sh.offset) = true := by
        decide +kernel
      have hbound := of_decide_eq_true (List.all_eq_true.1 hletters sh hmem)
      rw [hshift] at h
      have hspace : Char.ofNat n = ' ' := h
      by_cases hvalid : n.isValidChar
      · rw [Char.ofNat, dif_pos hvalid] at hspace
        have hn : n = 32 := congrArg Char.toNat hspace
        omega
      · rw [Char.ofNat, dif_neg hvalid] at hspace
        cases hspace

/-- No other character is a space up to case, in either of the two tables. -/
theorem eq_space_of_sameLetter {c : Char} (h : sameLetter ' ' c = true) : c = ' ' := by
  simp only [sameLetter, Bool.or_eq_true, beq_iff_eq, List.any_eq_true, Bool.and_eq_true] at h
  rcases h with h | ⟨k, hk, hspace, -⟩
  · exact eq_space_of_lowerChar h.symm
  · have hkindred : ∀ k ∈ kindred, k.contains (lowerChar ' ').toNat = false := by decide
    rw [hkindred k hk] at hspace
    cases hspace

variable {s t : List Char}

/-- Texts that differ in case only are equally long. -/
theorem length_of_sameText (h : sameText s t = true) : s.length = t.length := by
  fun_induction sameText s t with
  | case1 => rfl
  | case2 a s b t ih =>
    rw [Bool.and_eq_true] at h
    rw [List.length_cons, List.length_cons, ih h.2]
  | case3 => cases h

/-- They have their spaces in the same places. -/
theorem space_mem_of_sameText (h : sameText s t = true) (hs : ' ' ∈ s) : ' ' ∈ t := by
  fun_induction sameText s t with
  | case1 => exact hs
  | case2 a s b t ih =>
    rw [Bool.and_eq_true] at h
    rcases List.mem_cons.1 hs with rfl | hs
    · rw [eq_space_of_sameLetter h.1]
      exact List.mem_cons_self
    · exact List.mem_cons_of_mem b (ih h.2 hs)
  | case3 => cases h

end Text

/-! ### Aliases that are explained -/

section Misuse

variable {s full : List Char}

/-- What a text ends with up to case stands in it; a line end behind it does not count. -/
theorem sameText_of_endsLike {tail : List Char} (h : endsLike tail full = true) :
    ∃ t, t <:+: full ∧ Text.sameText tail t = true := by
  simp only [endsLike, Bool.or_eq_true, Bool.and_eq_true] at h
  rcases h with h | ⟨-, h⟩
  · exact ⟨_, (List.drop_suffix _ _).isInfix, h⟩
  · exact ⟨_, (List.drop_suffix _ _).isInfix.trans (List.dropLast_prefix full).isInfix, h⟩

/-- An explained alias has the word `as` in it, and the text on one side of that word. So it has a
    space, and it is longer than the text. -/
theorem space_mem_of_aliasHint? {hint : String} (h : aliasHint? s full = some hint) :
    ' ' ∈ full ∧ s.length < full.length := by
  -- The part of the text that is compared has the length of what it is compared with, and a space
  -- wherever that has one.
  have hpart {p t : List Char} (ht : t <:+: full) (hsame : Text.sameText p t = true)
      (hspace : ' ' ∈ p) (hlen : s.length < p.length) : ' ' ∈ full ∧ s.length < full.length :=
    ⟨ht.subset (Text.space_mem_of_sameText hsame hspace),
      Nat.lt_of_lt_of_le hlen (Text.length_of_sameText hsame ▸ ht.length_le)⟩
  unfold aliasHint? at h
  split at h
  case isTrue htarget =>
    obtain ⟨t, ht, hsame⟩ := sameText_of_endsLike htarget
    exact hpart ht hsame (by simp) (by simp; omega)
  case isFalse =>
    split at h
    case isTrue hsource =>
      exact hpart (List.take_prefix _ _).isInfix hsource (by simp) (by simp)
    case isFalse => cases h

/-- A text is not explained by itself, as there is no room for an alias around it. The metadata
    that is cut off has no space. -/
theorem aliasHint?_eq_none (s : List Char) : aliasHint? (withoutBuild s) s = none := by
  rw [Option.eq_none_iff_forall_ne_some]
  intro hint hsome
  obtain ⟨hspace, hlen⟩ := space_mem_of_aliasHint? hsome
  rcases Canonical.withoutBuild_cases s with hwhole | ⟨build, hs, -, hfront, hbuild⟩
  · rw [hwhole] at hlen
    omega
  · -- Neither the version nor the build metadata behind it holds a space.
    rw [hs] at hspace
    rcases List.mem_append.1 hspace with hspace | hspace
    · exact absurd (hfront ' ' hspace) (by decide)
    · rcases List.mem_cons.1 hspace with hplus | hspace
      · cases hplus
      · exact absurd (hbuild ' ' hspace) (by decide)

/-- A report of a version is about the version itself.  It is made for no other report, and its
    explanation is the one about aliases, if there is any. -/
theorem versionReport_eq (s full : List Char) :
    (versionReport s full).fragment.toList = s ∧
      (versionReport s full).hint? = aliasHint? s full ∧
      (versionReport s full).cause? = none := by
  unfold versionReport
  cases aliasHint? s full with
  | some hint => exact ⟨String.toList_ofList, rfl, rfl⟩
  | none => exact ⟨String.toList_ofList, rfl, rfl⟩

end Misuse

/-! ### Reports of versions -/

section Report

variable {s full : List Char} {v : String} {e : ParseError}

/-- The one report of a version: of the text without build metadata, if it is no stem of a branch
    either. -/
theorem error_of_normalizePlain (h : (normalizePlain s full).outcome = .error e) :
    devStem? (withoutBuild s) = none ∧
      e = versionReport (withoutBuild s) full := by
  unfold normalizePlain at h
  split at h
  case isTrue => cases h
  case isFalse =>
    split at h
    case h_1 => cases h
    case h_2 =>
      dsimp only at h
      split at h
      case h_1 => cases h
      case h_2 =>
        split at h
        case h_1 stem _ =>
          -- A branch is read whatever its name, so no report comes from there.
          obtain ⟨c, hc⟩ := outcome_normalizeBranch (ε := ParseError) (String.ofList stem)
          rw [hc] at h
          cases h
        case h_2 hstem => exact ⟨hstem, (Except.error.inj h).symm⟩

/-- **What a report of a version points at.** It points into the version. Without a text that the
    version was taken from it explains the source of an alias and nothing else. -/
theorem report_normalize {full : Option String} (h : (normalize v full).outcome = .error e) :
    e.fragment.toList <:+: v.toList ∧
      (full = none → ∀ hint, e.hint? = some hint →
        ∃ source, AliasOf source (Text.trim v.toList) ∧
          e.fragment.toList = withoutBuild source) := by
  rw [outcome_normalize] at h
  obtain ⟨-, rfl⟩ := error_of_normalizePlain h
  obtain ⟨hfragment, hexplained, -⟩ := versionReport_eq (withoutBuild
    ((aliasSource? (Text.trim v.toList)).getD (Text.trim v.toList)))
    ((full.map String.toList).getD (Text.trim v.toList))
  rw [hfragment, hexplained]
  refine ⟨(Canonical.withoutBuild_isPrefix _).isInfix.trans (Canonical.infix_source v.toList), ?_⟩
  rintro rfl hint hhint
  -- Nothing is explained of a text that is taken from none and is no alias: it is compared with
  -- itself.
  cases halias : aliasSource? (Text.trim v.toList) with
  | some source => exact ⟨source, aliasSource?_eq_some_iff.1 halias, by rw [Option.getD_some]⟩
  | none =>
    rw [halias] at hhint
    simp only [Option.getD_none, Option.map_none, aliasHint?_eq_none] at hhint
    cases hhint

/-- No reader of a version takes a comma or white space, and they take everything. So a text that
    is read as a version has neither. -/
theorem Written.isSolid_of_read? {w : Written} (h : read? s = some w) :
    ∀ c ∈ s, isSolid c = true := by
  obtain ⟨t, hsplit, -, hbuild, hgs, -⟩ := exists_of_read? h
  intro c hc
  rcases mem_skipV hc with hv | hc
  · exact Text.isSolid_of_plain (by rw [hv]; decide)
  · rw [hsplit] at hc
    rcases List.mem_append.1 hc with hc | hc
    · exact isSolid_of_mem_dotted hgs hc
    · -- A foreign character behind the groups would be left by the reader of the marker, and then
      -- by that of the metadata, which leaves nothing.
      by_contra hforeign
      have hmarker : Marker.isMarkerChar c = false :=
        Bool.eq_false_iff.2 fun h => hforeign (Marker.isSolid_of_isMarkerChar h)
      have hbuildChar : isBuildChar c = false :=
        Bool.eq_false_iff.2 fun h => hforeign (isSolid_of_isBuildChar h)
      have hplus : c ≠ '+' := by
        rintro rfl
        exact hforeign (by decide)
      have hleft := mem_readBuild hplus hbuildChar (Marker.mem_read hmarker hc)
      rw [hbuild] at hleft
      cases hleft

/-- With the letters of a lower end behind it, a text without white space and commas is still one. -/
theorem isSolid_append_dev (hs : ∀ c ∈ s, isSolid c = true) :
    ∀ c ∈ s ++ "-dev".toList, isSolid c = true :=
  List.forall_mem_append.2 ⟨hs, by decide⟩

/-- No report is about the letters that a lower end of a range is read with. If one is made, the
    text was cut in front of them, at a plus. -/
theorem isPrefix_of_normalize_append_dev {full : Option String} (hs : ∀ c ∈ s, isSolid c = true)
    (h : (normalize (String.ofList (s ++ "-dev".toList)) full).outcome = .error e) :
    e.fragment.toList <+: s := by
  rw [outcome_normalize_of_isSolid (isSolid_append_dev hs)] at h
  obtain ⟨hstem, rfl⟩ := error_of_normalizePlain h
  rw [(versionReport_eq _ _).1]
  rcases Canonical.withoutBuild_cases (s ++ "-dev".toList) with hwhole | ⟨build, hsplit, -⟩
  · -- Nothing is cut off, and then the text is a branch.
    have hline : '\n' ∉ s := fun hmem => absurd (hs '\n' hmem) (by decide)
    rw [hwhole, devStem?_append_dev hline] at hstem
    cases hstem
  · -- The plus is none of the letters, so it stands in front of them.
    rcases List.append_eq_append_iff.1 hsplit with ⟨t, hfront, hdev⟩ | ⟨t, hs', -⟩
    · have hplus : '+' ∈ "-dev".toList := by
        rw [hdev]
        exact List.mem_append_right t List.mem_cons_self
      exact absurd hplus (by decide)
    · exact ⟨t, hs'.symm⟩

end Report

end VersionRange
