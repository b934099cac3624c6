import VersionRange.Proofs.Canonical.Spelling
import VersionRange.Proofs.Text.Readable
import VersionRange.Proofs.Version.Canonical

namespace VersionRange

/-!
# Canonical texts of readable versions

Canonical texts are put together from parts of what they are read from and a few words.  So a
readable text leads to a canonical text that can be compared.

* `Marker.readable_canonical`, `Release.isReadable_of_ofText?`: the parts of a readable text.
* `Canonical.isReadable_of_normalize`: what a readable text is normalized to.
* `comparable_of_normalized`: such a canonical text can be compared, and so it can with a tag behind
  it, `comparable_append_tag`.
* `isSome_read?_iff_of_normalized`: a canonical text of any version has the form of a version if it
  is ASCII.
-/

/-! ### Markers -/

/-- A letter of a keyword is no digit. -/
theorem isAsciiDigit_of_isLower_plain {c : Char} (h : (Text.plain c).isLower = true) :
    Text.isAsciiDigit c = false := by
  rw [Bool.eq_false_iff]
  intro hd
  rw [Text.plain_of_isDigit (Text.isDigit_of_isAsciiDigit hd)] at h
  have hascii := Text.isAsciiDigit_lt hd
  revert h hd
  exact Text.forall_ascii (P := fun c => c.isLower = true → Text.isAsciiDigit c = true → False)
    (by decide) hascii

namespace Marker

/-- Numbers behind a keyword stay as they are, or their marks are left out. -/
theorem identifier_canonical_suffix (m : Marker) : m.canonical.identifier <:+ m.identifier := by
  unfold canonical
  split
  case h_1 => exact List.nil_suffix
  case h_2 =>
    dsimp only
    split
    · exact List.nil_suffix
    · exact List.dropWhile_suffix _

/-- The text of a marker has no longer runs of digits than its identifier: the letters of the
    keyword stand in front of them. -/
theorem readable_text {m : Marker} (hm : m.IsRead) (hascii : ∀ c ∈ m.text, c.toNat < 128)
    (hidentifier : ReadableText m.identifier) : ReadableText m.text := by
  obtain ⟨keyword, identifier, dev⟩ := m
  have hdev : ReadableText (if dev then "-dev".toList else []) := by
    cases dev <;> exact .of_length_le (by decide) (by decide)
  have hhead : ∀ c, (if dev then "-dev".toList else []).head? = some c →
      Text.isAsciiDigit c = false := by
    cases dev <;> simp [Text.isAsciiDigit]
  cases keyword with
  | none => exact hdev
  | some word =>
    refine ReadableText.append ?_ hdev hhead
    -- The keyword has no digits, so the runs are those of the numbers.
    refine (hidentifier.append_left fun c hc => ⟨hascii c ?_, ?_⟩).cons (by decide) (by decide)
    · simp [text, hc]
    · exact isAsciiDigit_of_isLower_plain (isLower_of_mem_keyword (hm.spelled word rfl) hc)

/-- The canonical form of a marker that was read from a readable text is readable. Its numbers are
    in the text, and keywords have no digits. -/
theorem readable_canonical {t : List Char} (ht : ReadableText t) :
    ReadableText (read t).1.canonical.text := by
  obtain ⟨lead, dev, hsplit, -, -⟩ := exists_append_of_read t
  have hspelling : (read t).1.spelling <:+: t := ⟨lead, dev ++ (read t).2, by
    rw [← List.append_assoc]
    exact hsplit.symm⟩
  have hidentifier : (read t).1.canonical.identifier <:+: t :=
    (identifier_canonical_suffix _).isInfix.trans
      ((List.suffix_append _ _).isInfix.trans hspelling)
  refine readable_text (isRead_read t).canonical.toIsRead ?_ (ht.part hidentifier)
  exact ascii_canonical fun c hc => ht.ascii c (hspelling.subset hc)

end Marker

/-! ### Releases -/

/-- Points keep the runs of digits of different groups apart. So no run is longer in the row than
    in its groups. -/
theorem RunsWithin.dotted {n : Nat} {gs : List (List Char)} (h : ∀ g ∈ gs, RunsWithin n g) :
    RunsWithin n (dotted gs) := by
  induction gs with
  | nil => exact .of_length_le (Nat.zero_le n)
  | cons g gs ih =>
    have hg := h g List.mem_cons_self
    cases gs with
    | nil => rwa [dotted_singleton]
    | cons k gs =>
      have hrest := ih fun j hj => h j (List.mem_cons_of_mem g hj)
      rw [dotted_cons_cons]
      refine hg.append (hrest.cons (by decide)) ?_
      rintro c ⟨⟩
      decide

/-- So dotted groups are readable if each group is. -/
theorem ReadableText.dotted {gs : List (List Char)} (h : ∀ g ∈ gs, ReadableText g) :
    ReadableText (dotted gs) where
  ascii c hc := by
    rcases mem_intercalate hc with rfl | ⟨g, hg, hc⟩
    · decide
    · exact (h g hg).ascii c hc
  runs := .dotted fun g hg => (h g hg).runs

namespace Release

/-- A release whose groups and whose marker are readable, that is, in ASCII and without a run of
    digits that is too long to be converted. -/
structure IsReadable (r : Release) : Prop where
  groups : ∀ g ∈ r.groups, ReadableText g
  marker : ReadableText r.marker.text

variable {r : Release} {s : List Char}

/-- A release with readable parts has a readable text. -/
theorem IsReadable.text (h : r.IsReadable) (hm : r.marker.IsCanonical) : ReadableText r.text := by
  refine ReadableText.append (.dotted h.groups) h.marker fun c hc => ?_
  rcases Marker.text_cases hm with hnil | ⟨d, t, hcons, -⟩
  · rw [hnil] at hc
    cases hc
  · rw [hcons] at hc
    cases hc
    decide

/-- The zeros that groups are padded with are short enough. -/
theorem isReadable_padGroups {gs : List (List Char)} {m : Marker}
    (hgs : ∀ g ∈ gs, ReadableText g) (hm : ReadableText m.text) : IsReadable ⟨padGroups gs, m⟩ :=
  ⟨forall_mem_padGroups hgs (.of_length_le (by decide) (by decide)), hm⟩

/-- What is read as a numbered version has its groups and its marker from the text. -/
theorem readable_of_written {w : Written} (hs : ReadableText s) (hw : Written.read? s = some w) :
    (∀ g ∈ w.groups, ReadableText g) ∧ ReadableText w.marker.canonical.text := by
  obtain ⟨t, hsplit, hmarker, -⟩ := Written.exists_of_read? hw
  have hbehind : ReadableText (dotted w.groups ++ t) := hsplit ▸ hs.part (skipV_suffix s).isInfix
  constructor
  · intro g hg
    exact hbehind.part ((infix_dotted hg).trans (List.prefix_append _ _).isInfix)
  · rw [← hmarker]
    exact Marker.readable_canonical (hbehind.part (List.suffix_append _ _).isInfix)

/-- A classic version that is read from a readable text is a readable release. -/
theorem isReadable_of_written {w : Written} (hs : ReadableText s)
    (hw : Written.read? s = some w) (hr : w.release? = some r) : r.IsReadable := by
  obtain ⟨-, -, -, -, -, hne, -⟩ := Written.exists_of_read? hw
  obtain ⟨hgs, hm⟩ := readable_of_written hs hw
  rw [Written.release?_eq hne] at hr
  split at hr
  case isTrue =>
    cases hr
    exact isReadable_padGroups hgs hm
  case isFalse => cases hr

/-- The release of a dated text is readable: its groups are the runs of digits in the date. -/
theorem isReadable_of_dated {d : Dated} (hs : ReadableText s) (hd : Dated.read? s = some d) :
    d.release.IsReadable := by
  obtain ⟨t, hread, hmarker, -⟩ := Dated.exists_of_read? hd
  obtain ⟨hsplit, -, -⟩ := readDate_sound hread
  have hbehind : ReadableText (d.date ++ t) := hsplit ▸ hs.part (skipV_suffix s).isInfix
  have hm := Marker.readable_canonical (hbehind.part (List.suffix_append _ _).isInfix)
  rw [hmarker] at hm
  have hgs : ∀ g ∈ dateGroups d.date, ReadableText g := fun g hg =>
    hbehind.part (((piecesOf_splitOnP _ _).parts g hg).trans (List.prefix_append _ _).isInfix)
  rw [Dated.release, groups_eq]
  split
  · exact isReadable_padGroups hgs hm
  · exact ⟨hgs, hm⟩

/-- So is every release, as it is one of the two. -/
theorem isReadable_of_ofText? (hs : ReadableText s) (h : ofText? s = some r) : r.IsReadable := by
  rcases cases_of_ofText? h with ⟨w, hw, hr⟩ | ⟨d, hd, rfl⟩
  · exact isReadable_of_written hs hw hr
  · exact isReadable_of_dated hs hd

/-- The groups of a numeric branch are in its name, or they are open. -/
theorem isReadable_numericBranch {gs : List (List Char)} (hs : ReadableText s)
    (h : branchGroups? s = some gs) : (numericBranch gs).IsReadable := by
  have hmax : ReadableText maxField.toList := .of_length_le (by decide) (by decide)
  have hdev : ReadableText ({ dev := true } : Marker).text := .of_length_le (by decide) (by decide)
  refine ⟨fun g hg => ?_, hdev⟩
  rcases cases_of_mem_branchGroups? h hg with rfl | ⟨hg, -⟩
  · exact hmax
  · exact hs.part (((piecesOf_splitOnP _ _).parts g hg).trans (skipV_suffix s).isInfix)

end Release

/-! ### Canonical forms -/

namespace Canonical

/-- A release is readable; of anything else nothing is asked, since no numbers are read from the
    name of a branch. -/
def IsReadable : Canonical → Prop
  | release r => r.IsReadable
  | _ => True

variable {s full : List Char} {c : Canonical}

/-- What a branch of a readable name means has a readable text. -/
theorem OfBranch.isReadable {b : List Char} (h : c.OfBranch b) (hb : ReadableText b) :
    c.IsReadable := by
  cases h with
  | master => trivial
  | numeric h => exact Release.isReadable_numericBranch (hb.part (infix_trim _)) h
  | named => trivial

/-- Build metadata is cut off at the first plus, or nothing is cut off. Neither side of the plus
    has white space then. -/
theorem withoutBuild_cases (s : List Char) :
    withoutBuild s = s ∨
      ∃ build, s = withoutBuild s ++ '+' :: build ∧ '+' ∉ withoutBuild s ∧
        (∀ c ∈ withoutBuild s, isSolid c = true) ∧ ∀ c ∈ build, Text.isBlank c = false := by
  unfold withoutBuild
  split
  case h_1 front build hcut =>
    obtain ⟨rfl, hfront⟩ := Text.eq_append_of_cut hcut
    split
    case isTrue hcond =>
      simp only [Bool.and_eq_true, List.all_eq_true, Bool.not_eq_true'] at hcond
      exact .inr ⟨build, rfl, hfront, hcond.1.1.2, hcond.2⟩
    case isFalse => exact .inl rfl
  case h_2 => exact .inl rfl

/-- Cutting off build metadata leaves the front of the text. -/
theorem withoutBuild_isPrefix (s : List Char) : withoutBuild s <+: s := by
  rcases withoutBuild_cases s with hwhole | ⟨build, hs, -⟩
  · simp only [hwhole, List.prefix_refl]
  · exact ⟨'+' :: build, hs.symm⟩

/-- Behind the stem of a branch there are the letters `dev` at least. That is more than the names
    of the main line differ by in length. -/
theorem exists_append_of_devStem? {stem : List Char} (h : devStem? s = some stem) :
    ∃ r, s = stem ++ r ∧ 3 ≤ r.length := by
  unfold devStem? at h
  split at h
  case h_1 v e d r hrev =>
    have hs : s = r.reverse ++ [d, e, v] := by
      rw [← List.reverse_reverse s, hrev]
      simp
    split at h
    case isTrue =>
      simp only [Option.ite_none_left_eq_some, Option.some.injEq] at h
      obtain ⟨-, rfl⟩ := h
      rw [hs]
      cases r with
      | nil => exact ⟨[d, e, v], by simp⟩
      | cons c t =>
        dsimp only
        split
        · exact ⟨[c, d, e, v], by simp⟩
        · exact ⟨[d, e, v], by simp⟩
    case isFalse => cases h
  case h_2 => cases h

/-- So does taking off a final `dev`. -/
theorem isPrefix_of_devStem? {stem : List Char} (h : devStem? s = some stem) : stem <+: s := by
  obtain ⟨r, rfl, -⟩ := exists_append_of_devStem? h
  exact List.prefix_append stem r

/-- What a readable version text means has a readable text, in each of its forms. -/
theorem OfPlain.isReadable (h : c.OfPlain s) (hs : ReadableText s) : c.IsReadable := by
  have hbare : ReadableText (withoutBuild s) := hs.part (withoutBuild_isPrefix s).isInfix
  cases h with
  | master => trivial
  | branch => trivial
  | release hr => exact Release.isReadable_of_ofText? hbare hr
  | stem hstem hc => exact hc.isReadable (hbare.part (isPrefix_of_devStem? hstem).isInfix)

/-- The version that counts stands in the text, alias or not. -/
theorem infix_source (v : List Char) :
    (aliasSource? (Text.trim v)).getD (Text.trim v) <:+: v := by
  cases halias : aliasSource? (Text.trim v) with
  | none => exact infix_trim v
  | some source =>
    obtain ⟨word, target, hsplit, -⟩ := aliasSource?_eq_some_iff.1 halias
    have hsource : source <:+: Text.trim v := ⟨[], word ++ target, by simp [hsplit]⟩
    exact hsource.trans (infix_trim v)

/-- What a readable text is normalized to. -/
theorem isReadable_of_normalize {v : String} {full : Option String} (hv : ReadableText v.toList)
    (h : (normalize v full).outcome = .ok c) : c.IsReadable := by
  rw [outcome_normalize] at h
  exact (ofPlain_of_normalizePlain h).isReadable (hv.part (infix_source v.toList))

end Canonical

/-! ### Canonical texts as versions -/

/-- In a readable text no number has more digits than are converted. -/
theorem ReadableText.digitsBounded {s : List Char} (h : ReadableText s) : DigitsBounded s :=
  h.runs.mono (Nat.sub_le _ _)

/-- A group has room for another digit. -/
theorem ReadableText.length_lt {g : List Char} (h : ReadableText g) (hg : IsGroup g) :
    g.length < Numeral.limit := by
  have hdigits := isNumeral_of_isGroup hg h.ascii
  simp only [Version.isNumeral, Bool.and_eq_true] at hdigits
  exact Nat.lt_of_le_of_lt (h.runs g (List.infix_refl g) hdigits.2) (by decide)

/-- The canonical text of a readable version is readable, if it is no branch. -/
theorem readable_of_normalized {v w : String} (hv : ReadableText v.toList)
    (hw : (normalized v).outcome = .ok w) (hb : isBranch w = false) : ReadableText w.toList := by
  obtain ⟨c, hc, rfl⟩ := outcome_normalized_eq_ok_iff.1 hw
  have hreadable := Canonical.isReadable_of_normalize hv hc
  rw [Canonical.toList_text]
  cases isNormal_of_normalize hc with
  | master => exact .of_length_le (by decide) (by decide)
  | @branch name h => exact absurd hb (isBranch_branch_ne_false name)
  | @release r h => exact hreadable.text h.marker
  | @numeric gs hgs hlen => exact hreadable.text (Marker.isCanonical_dev true)

/-- **Comparability.** The canonical text of a readable version can be compared with every other
    one. -/
theorem comparable_of_normalized {v w : String} (hv : ReadableText v.toList)
    (hw : (normalized v).outcome = .ok w) : ComparableText w := by
  cases hb : isBranch w with
  | true => exact .inl hb
  | false =>
    have hreadable := readable_of_normalized hv hw hb
    obtain ⟨x, hx, -⟩ :=
      exists_parse_of_normalized hw hb hreadable.ascii hreadable.digitsBounded
    exact .inr ⟨hreadable.digitsBounded, x, hx⟩

/-- A branch with something behind its name is a branch. -/
theorem isBranch_append {w : String} (h : isBranch w = true) (t : String) :
    isBranch (w ++ t) = true := by
  obtain ⟨r, hr⟩ := Text.startsWith_iff.1 h
  refine Text.startsWith_iff.2 ⟨r ++ t.toList, ?_⟩
  rw [String.toList_append, hr, List.append_assoc]

/-- A tag behind a prerelease, or behind no prerelease, makes up a prerelease with it. The hyphen
    between them may stand in a prerelease, too. -/
theorem exists_marked_append {t tag : List Char} (ht : t.all Version.isTagChar = true)
    (htag : Version.isTag tag = true) :
    ∃ t', Version.marked '-' t ++ '-' :: tag = Version.marked '-' t' ∧
      t'.all Version.isTagChar = true := by
  simp only [Version.isTag, Bool.and_eq_true, Bool.not_eq_true', List.isEmpty_eq_false_iff] at htag
  obtain ⟨hne, hall⟩ := htag
  by_cases hnil : t = []
  · exact ⟨tag, by simp [Version.marked, hnil, hne], hall⟩
  · refine ⟨t ++ '-' :: tag, by simp [Version.marked, hnil], ?_⟩
    rw [List.all_append, List.all_cons, ht, hall]
    decide

/-- A tag without digits may be put behind a canonical text that is no branch, which then is still
    read as a version. -/
theorem release_append_tag {v w : String} {tag : List Char} (hv : ReadableText v.toList)
    (hw : (normalized v).outcome = .ok w) (hb : isBranch w = false)
    (htag : Version.isTag tag = true) (hdigits : ∀ c ∈ tag, Text.isAsciiDigit c = false) :
    DigitsBounded (w ++ String.ofList ('-' :: tag)).toList ∧
      ∃ x, Version.parse (w ++ String.ofList ('-' :: tag)) = .ok x := by
  -- The tag brings no digits and is ASCII, so the longer text is as readable as the canonical
  -- one.
  have hreadable := readable_of_normalized hv hw hb
  have hall : ∀ c ∈ tag, Version.isTagChar c = true := by
    simp only [Version.isTag, Bool.and_eq_true, List.all_eq_true] at htag
    exact htag.2
  have hbehind : ReadableText ('-' :: tag) := by
    have hnil : ReadableText [] := .of_length_le (by simp) (by decide)
    have htail := hnil.append_left fun c hc =>
      ⟨Version.ascii_of_isTagChar (hall c hc), hdigits c hc⟩
    rw [List.append_nil] at htail
    exact htail.cons (by decide) (by decide)
  -- What is no branch is written as groups with a marker, and the tag goes on with the marker.
  obtain ⟨gs, m, rfl, hne, hgs, -, hm⟩ := exists_marked_of_normalized hw hb hreadable.ascii
  obtain ⟨t', ht', htags⟩ := exists_marked_append hm htag
  have htext : String.ofList (dotted gs ++ Version.marked '-' m.tag) ++ String.ofList ('-' :: tag)
      = String.ofList (dotted gs ++ Version.marked '-' t') := by
    rw [← String.ofList_append, List.append_assoc, ht']
  rw [String.toList_ofList] at hreadable
  have hwhole : ReadableText (dotted gs ++ Version.marked '-' t') := by
    rw [← ht', ← List.append_assoc]
    exact hreadable.append hbehind (by rintro c ⟨⟩; decide)
  rw [htext]
  refine ⟨?_, _, Version.parse_dotted hne hgs ?_ htags⟩
  · rw [String.toList_ofList]
    exact hwhole.digitsBounded
  · exact length_le_of_dotted hgs hwhole.digitsBounded

/-- A tag without digits may be put behind a canonical text. -/
theorem comparable_append_tag {v w : String} {tag : List Char} (hv : ReadableText v.toList)
    (hw : (normalized v).outcome = .ok w) (htag : Version.isTag tag = true)
    (hdigits : ∀ c ∈ tag, Text.isAsciiDigit c = false) :
    ComparableText (w ++ String.ofList ('-' :: tag)) := by
  cases hb : isBranch w with
  | true => exact .inl (isBranch_append hb _)
  | false => exact .inr (release_append_tag hv hw hb htag hdigits)

/-- **Form.** A canonical text that is no branch has the form of a version if it is ASCII, and only
    then. -/
theorem isSome_read?_iff_of_normalized {v w : String} (hw : (normalized v).outcome = .ok w)
    (hb : isBranch w = false) :
    (Version.Parts.read? w.toList).isSome = true ↔ ∀ c ∈ w.toList, c.toNat < 128 := by
  constructor
  · intro h
    obtain ⟨p, hp⟩ := Option.isSome_iff_exists.1 h
    exact Version.Parts.ascii_of_read? hp
  · intro hascii
    obtain ⟨gs, m, rfl, hne, hgs, -, hm⟩ := exists_marked_of_normalized hw hb hascii
    rw [String.toList_ofList, show dotted gs = ['.'].intercalate gs from rfl,
      Version.Parts.read?_dotted hne hgs hm]
    rfl

end VersionRange
