import VersionRange.Proofs.Canonical.Ending
import VersionRange.Proofs.Expression.Agreement
import VersionRange.Proofs.Expression.Hyphen

namespace VersionRange

/-!
# Decorated versions

Build metadata and the target of an alias are left out when a version is normalized.  Whether it
gets the ending `-dev` as a bound is decided elsewhere, and there they may count.

* `Bare`: a version without decorations; it is not read as wildcards.
* `Bare.agree_build_iff`, `Bare.agree_range_build_iff`: where build metadata changes nothing, behind
  an operator and behind the sign of a range.
* `Bare.agree_alias_iff`: where the target of an alias changes nothing.
* `agree_decorated`: the main result.
-/

/-! ### Versions that are no wildcards -/

/-- What starts like a branch does not start like wildcards. Those start with a `v`, a digit or a
    wildcard. -/
theorem Term.wildcards_of_initial {c : Char} {r : List Char} (h : Text.plain c ∈ branchInitials) :
    isAnything (c :: r) = false ∧ wildcardGroups? (c :: r) = none := by
  -- Wildcards begin with a `v`, a digit or one of themselves, and no branch does.
  have hv : Text.plain c ≠ 'v' := by
    intro heq
    rw [heq] at h
    exact absurd h (by decide)
  have hdigit : Text.isDigit c = false := by
    rw [Bool.eq_false_iff]
    exact fun hd => not_mem_branchInitials hd h
  have hwildcard : isWildcard c = false := by
    rw [Bool.eq_false_iff]
    intro hw
    rcases isWildcard_iff.1 hw with rfl | rfl | rfl <;> exact absurd h (by decide)
  have hskip : skipV (c :: r) = c :: r := by rw [skipV, if_neg hv]
  constructor
  · rw [isAnything, hskip]
    simp [hwildcard]
  · simp only [wildcardGroups?, hskip, List.takeWhile_cons, hdigit]
    simp

/-- No marker is written with wildcards. They are left behind the separator in front of them. -/
theorem Marker.not_whole_of_isWildcardTail {t : List Char} (h : Term.isWildcardTail t = true) :
    numberAhead t = false ∧ (readBuild (read t).2).2 ≠ [] := by
  unfold Term.isWildcardTail at h
  split at h
  case h_2 => cases h
  case h_1 c r =>
    have hforeign : isSeparator c = false ∧ Text.plain c ∉ initials ∧ Text.plain c ≠ 'd' ∧
        Text.isDigit c = false ∧ c ≠ '+' := by
      rcases isWildcard_iff.1 (Bool.and_eq_true_iff.1 h).1 with rfl | rfl | rfl <;> decide
    obtain ⟨hsep, hinitial, hd, hdigit, hplus⟩ := hforeign
    -- The point is taken as a separator, and nothing of a marker follows.
    have hread : read ('.' :: c :: r) = ({}, c :: r) := by
      rw [← read_of_foreign hsep hinitial hd]
      apply read_congr
      rw [skipSeparator_cons (by decide), skipSeparator, hsep]
      rfl
    constructor
    · show (Text.isDigit '.' || (isDateMark '.' && Text.isDigit c)) = false
      rw [hdigit]
      decide
    · rw [hread, readBuild_of_ne hplus]
      simp

/-- A release is no range of wildcards. In place of a wildcard it has a number or a marker. -/
theorem Term.wildcards_of_release {s : List Char} {r : Release} (h : Release.ofText? s = some r) :
    isAnything s = false ∧ wildcardGroups? s = none := by
  obtain ⟨numbers, t, hsplit, hnumbered, hahead, hwhole, -⟩ := Release.exists_of_ofText? h
  constructor
  · obtain ⟨c, ns, rfl⟩ : ∃ c ns, numbers = c :: ns :=
      List.exists_cons_of_ne_nil fun hnil => by rw [hnil] at hahead; cases hahead
    exact isAnything_of_isDigit hsplit hahead
  · rw [Option.eq_none_iff_forall_ne_some]
    intro gs hgs
    obtain ⟨tail, heq, hwildcards, -, -, hgroups⟩ := eq_dotted_of_wildcardGroups? hgs
    -- The numbers end where the wildcards would begin, but there is a marker.
    obtain ⟨hnumber, hrest⟩ := Marker.not_whole_of_isWildcardTail hwildcards
    obtain ⟨-, rfl⟩ := eq_of_numbered_append hnumbered (numbered_dotted hgroups)
      (Marker.numberAhead_of_whole hwhole) hnumber (hsplit.symm.trans heq)
    exact hrest hwhole

/-- What ends with `dev` does not end with wildcards. The letters stand where the last wildcard
    would. -/
theorem Term.wildcards_of_devStem? {s stem : List Char} (h : devStem? s = some stem) :
    isAnything s = false ∧ wildcardGroups? s = none := by
  obtain ⟨t, d, e, v, rfl, -, -, hv⟩ := exists_append_dev_of_devStem? h
  -- The last letter is no part of any wildcards.
  have hmem : v ∈ skipV (t ++ [d, e, v]) := by
    cases t with
    | nil => rw [List.nil_append, skipV]; split <;> simp
    | cons c t => rw [List.cons_append, skipV]; split <;> simp
  have hdigit : Text.isDigit v = false := by
    rw [Bool.eq_false_iff]
    intro hd
    rw [Text.plain_of_isDigit hd] at hv
    rw [hv] at hd
    exact absurd hd (by decide)
  have hpoint : v ≠ '.' := by
    rintro rfl
    exact absurd hv (by decide)
  have hwildcard : isWildcard v = false := by
    rw [Bool.eq_false_iff]
    intro hw
    rcases isWildcard_iff.1 hw with rfl | rfl | rfl <;> exact absurd hv (by decide)
  exact wildcards_of_mem hmem hpoint hdigit hwildcard

/-- A version as it may be decorated: it has no character with a meaning of its own in an expression
    and no build metadata, and it is normalized to something else than a branch. -/
structure Bare (v nv : String) : Prop where
  inert : ∀ c ∈ v.toList, isInert c = true
  plus_not_mem : '+' ∉ v.toList
  normal : (normalized v).outcome = .ok nv
  release : isBranch nv = false

namespace Bare

variable {v nv : String} (h : Bare v nv)

include h

/-- A bare version holds no white space and no comma. -/
theorem solid : ∀ c ∈ v.toList, isSolid c = true := isSolid_of_isInert h.inert

/-- In particular it does not begin with white space. -/
theorem isBlank_head {c : Char} (hc : v.toList.head? = some c) : Text.isBlank c = false :=
  isBlank_of_isSolid (h.solid c (List.mem_of_mem_head? hc))

/-- It is not empty, as the empty text is no version. -/
theorem ne_nil : v.toList ≠ [] := ne_nil_of_normalized h.normal

/-- What the version means. -/
theorem exists_canonical : ∃ c : Canonical, c.text = nv ∧
    (normalize (String.ofList v.toList) none).outcome = .ok c ∧
    (normalizePlain v.toList v.toList).outcome = .ok c ∧
    (isMaster v.toList = true ∧ c = .master ∨
      isMaster v.toList = false ∧ devName? v.toList = none) := by
  obtain ⟨c, hc, htext⟩ := outcome_normalized_eq_ok_iff.1 h.normal
  have hsolid := outcome_normalize_of_isSolid h.solid none
  rw [String.ofList_toList] at hsolid ⊢
  refine ⟨c, htext, hc, ?_⟩
  rw [hsolid] at hc
  refine ⟨hc, ?_⟩
  cases hmaster : isMaster v.toList with
  | true =>
    rw [normalizePlain, if_pos hmaster] at hc
    cases hc
    exact .inl ⟨rfl, rfl⟩
  | false =>
    refine .inr ⟨rfl, ?_⟩
    rw [Option.eq_none_iff_forall_ne_some]
    -- The name of another branch would be kept as it is.
    intro name hname
    simp only [normalizePlain, hmaster, hname, Bool.false_eq_true, if_false] at hc
    cases hc
    have hbranch := h.release
    rw [← htext, isBranch_branch name] at hbranch
    cases hbranch

/-- It is not made of wildcards. A version that can be normalized could be, if it were read in
    another way. -/
theorem wildcards : Term.isAnything v.toList = false ∧ Term.wildcardGroups? v.toList = none := by
  have hbare : withoutBuild v.toList = v.toList := by
    simp only [withoutBuild, Text.cut_of_not_mem h.plus_not_mem]
  -- A text that is normalized is a name of the main line, a release or a name with `dev` behind it.
  obtain ⟨c, -, -, hc, ⟨hmaster, -⟩ | ⟨hmaster, hname⟩⟩ := h.exists_canonical
  · obtain ⟨d, r, hd⟩ := List.exists_cons_of_ne_nil h.ne_nil
    rw [hd] at hmaster ⊢
    refine Term.wildcards_of_initial ?_
    by_contra hinitial
    rw [(isMaster_cons hinitial).1] at hmaster
    cases hmaster
  · simp only [normalizePlain, hmaster, hname, hbare, Bool.false_eq_true, if_false] at hc
    cases hr : Release.ofText? v.toList with
    | some r => exact Term.wildcards_of_release hr
    | none =>
      cases hstem : devStem? v.toList with
      | some stem => exact Term.wildcards_of_devStem? hstem
      | none =>
        simp only [hr, hstem] at hc
        cases hc

end Bare

/-! ### Build metadata -/

/-- The characters of build metadata have no meaning in an expression. -/
theorem isInert_of_isTagChar {c : Char} (h : Version.isTagChar c = true) : isInert c = true := by
  have hascii := Version.ascii_of_isTagChar h
  revert h
  exact Text.forall_ascii (P := fun c => Version.isTagChar c = true → isInert c = true)
    (by decide) hascii

/-- So build metadata has none as a whole. -/
theorem isInert_of_isTag {t : List Char} (h : Version.isTag t = true) :
    ∀ c ∈ t, isInert c = true := by
  simp only [Version.isTag, Bool.and_eq_true, List.all_eq_true] at h
  exact fun c hc => isInert_of_isTagChar (h.2 c hc)

/-- Metadata is not empty. -/
theorem ne_nil_of_isTag {t : List Char} (h : Version.isTag t = true) : t ≠ [] := by
  rintro rfl
  cases h

/-- With `-dev` behind it build metadata is build metadata. -/
theorem isTag_append_dev {m : List Char} (hm : Version.isTag m = true) :
    Version.isTag (m ++ "-dev".toList) = true := by
  simp only [Version.isTag, Bool.and_eq_true, Bool.not_eq_true', List.isEmpty_eq_false_iff,
    List.all_eq_true] at hm ⊢
  refine ⟨by simp, ?_⟩
  rw [List.forall_mem_append]
  exact ⟨hm.2, by decide⟩

/-- The characters of a sign do not structure an expression either. -/
theorem isInert_sign {sign : Sign} (h : sign ∈ ⟨[], .eq⟩ :: Term.signs) :
    ∀ c ∈ sign.chars, isInert c = true := by
  have hsigns : ∀ sign ∈ (⟨[], .eq⟩ :: Term.signs : List Sign), ∀ c ∈ sign.chars,
      isInert c = true := by
    decide
  exact hsigns sign h

/-- What stands in front of a text is one term with it. -/
theorem isSingle_append {front s : List Char} (hfront : ∀ c ∈ front, isInert c = true)
    (hs : ∀ c ∈ s, isInert c = true) (hne : s ≠ []) : IsSingle (front ++ s) := by
  refine isSingle_of_inert (by simp [hne]) ?_
  rw [List.forall_mem_append]
  exact ⟨hfront, hs⟩

/-- Nor does the sign of a range in front of a version. -/
theorem RangeSign.isInert_cons (sign : RangeSign) {s : List Char}
    (hs : ∀ c ∈ s, isInert c = true) : ∀ c ∈ sign.char :: s, isInert c = true := by
  rw [List.forall_mem_cons]
  exact ⟨by cases sign <;> decide, hs⟩

/-- So a version with the sign of a range is an expression of a single term. -/
theorem RangeSign.isSingle_cons (sign : RangeSign) {s : List Char}
    (hs : ∀ c ∈ s, isInert c = true) : IsSingle (sign.char :: s) :=
  isSingle_of_inert (by simp) (sign.isInert_cons hs)

namespace Bare

variable {v nv : String} {m : List Char} {sign : Sign} (h : Bare v nv)

include h

/-- A bare version begins like no sign, whatever stands behind it. -/
theorem head_ne (t : List Char) : ∀ k ∈ termMarks, (v.toList ++ t).head? ≠ some k := by
  intro k hk hhead
  rw [List.head?_append_of_ne_nil _ h.ne_nil] at hhead
  exact head_ne_of_normalized h.solid h.normal h.release k hk hhead

/-- It begins without white space, whatever stands behind it. -/
theorem isBlank_head_append (t : List Char) :
    ∀ c, (v.toList ++ t).head? = some c → Text.isBlank c = false := by
  intro c hc
  rw [List.head?_append_of_ne_nil _ h.ne_nil] at hc
  exact h.isBlank_head hc

/-- A bare version with metadata behind it is inert from end to end. -/
theorem inert_build (hm : Version.isTag m = true) :
    ∀ c ∈ v.toList ++ '+' :: m, isInert c = true := by
  rw [List.forall_mem_append, List.forall_mem_cons]
  exact ⟨h.inert, by decide, isInert_of_isTag hm⟩

/-- With build metadata the text has no other form than without it. -/
theorem read_build (hm : Version.isTag m = true) (hsign : sign ∈ ⟨[], .eq⟩ :: Term.signs) :
    Term.read (sign.chars ++ (v.toList ++ '+' :: m)) = .comparison sign (v.toList ++ '+' :: m) := by
  have hplus : '+' ∈ skipV (v.toList ++ '+' :: m) := by
    rw [skipV_append_build]
    simp
  obtain ⟨hanything, hwildcards⟩ :=
    Term.wildcards_of_mem hplus (by decide) (by decide) (by decide)
  exact Term.read_comparison hsign (h.head_ne _) (h.isBlank_head_append _) hanything hwildcards
    (Term.hyphen?_of_no_space (not_mem_of_isInert (h.inert_build hm) (by decide)))

/-- A bare version behind a sign, or without one, is read as a comparison. -/
theorem read_bare (hsign : sign ∈ ⟨[], .eq⟩ :: Term.signs) :
    Term.read (sign.chars ++ v.toList) = .comparison sign v.toList := by
  have hhead := h.head_ne []
  have hblank := h.isBlank_head_append []
  rw [List.append_nil] at hhead hblank
  exact Term.read_comparison hsign hhead hblank h.wildcards.1 h.wildcards.2
    (Term.hyphen?_of_no_space (not_mem_of_isInert h.inert (by decide)))

/-- A version that is no name of a branch means the same with build metadata. -/
theorem normalize_build {c : Canonical} (hm : Version.isTag m = true)
    (hmaster : isMaster v.toList = false) (hname : devName? v.toList = none)
    (hc : (normalizePlain v.toList v.toList).outcome = .ok c) :
    (normalize (String.ofList (v.toList ++ '+' :: m)) none).outcome = .ok c := by
  rw [outcome_normalize_of_isSolid (isSolid_of_isInert (h.inert_build hm))]
  exact (normalizePlain_append_build h.ne_nil h.solid h.plus_not_mem hm hmaster hname).2 hc

/-- **Build metadata behind a compared version** changes the constraint only of a name of the main
    line of development. -/
theorem agree_build_iff (hm : Version.isTag m = true) (hsign : sign ∈ ⟨[], .eq⟩ :: Term.signs) :
    Expression.Agree (String.ofList (sign.chars ++ v.toList))
      (String.ofList (sign.chars ++ (v.toList ++ '+' :: m))) ↔ isMaster v.toList = false := by
  obtain ⟨c, -, hc, hplain, hkind⟩ := h.exists_canonical
  have hs := isSingle_append (isInert_sign hsign) h.inert h.ne_nil
  have hs' := isSingle_append (isInert_sign hsign) (h.inert_build hm) (by simp)
  rcases hkind with ⟨hmaster, rfl⟩ | ⟨hmaster, hname⟩
  · rw [hmaster]
    refine iff_of_false ?_ (by simp)
    intro hagree
    obtain ⟨d, d', hd, hd', hsame⟩ := hagree
    -- With build metadata it is another branch, if it is anything at all.
    obtain ⟨c', hc'⟩ := Expression.exists_of_parse_comparison hs' (h.read_build hm hsign) hd'
    have hplain' := hc'
    rw [outcome_normalize_of_isSolid (isSolid_of_isInert (h.inert_build hm))] at hplain'
    obtain ⟨name, rfl⟩ := exists_branch_of_master_append_build h.solid hm hmaster hplain'
    exact not_agree_of_branch hs hs' (h.read_bare hsign) (h.read_build hm hsign) hc hc'
      ⟨d, d', hd, hd', hsame⟩
  · have hc' := h.normalize_build hm hmaster hname hplain
    rw [agree_comparison_iff hs hs' (h.read_bare hsign) (h.read_build hm hsign) hc hc']
    refine iff_of_true (fun _ _ _ => ?_) hmaster
    rw [Marker.search_append_build h.plus_not_mem (not_mem_of_isInert h.inert (by decide)) hm]

/-! ### Build metadata in ranges -/

/-- What is no numbered version is compared together with the sign, where nothing ends with `-dev`
    and build metadata changes nothing. -/
theorem agree_range_of_read?_eq_none (hm : Version.isTag m = true) {sign : RangeSign}
    (hnone : Written.read? v.toList = none)
    (hparse : ∃ d, (Expression.parse (String.ofList (sign.char :: v.toList))).outcome = .ok d) :
    Expression.Agree (String.ofList (sign.char :: v.toList))
      (String.ofList (sign.char :: (v.toList ++ '+' :: m))) := by
  have hmark : sign.char ∈ termMarks ∧ sign.char ≠ '+' := by
    cases sign <;> decide
  obtain ⟨hmark, hforeign⟩ := hmark
  have hs := sign.isSingle_cons h.inert
  have hs' := sign.isSingle_cons (h.inert_build hm)
  have hread := sign.read_eq v.toList
  have hread' := sign.read_eq (v.toList ++ '+' :: m)
  rw [Term.spelled?, hnone] at hread
  rw [Term.spelled?, Written.read?_append_build h.plus_not_mem hm, hnone] at hread'
  obtain ⟨d, hd⟩ := hparse
  obtain ⟨c, hc⟩ := Expression.exists_of_parse_comparison hs hread hd
  have hsolid := isSolid_of_isInert (sign.isInert_cons h.inert)
  have hsolid' := isSolid_of_isInert (sign.isInert_cons (h.inert_build hm))
  have hplus : '+' ∉ sign.char :: v.toList := by
    rw [List.mem_cons, not_or]
    exact ⟨Ne.symm hforeign, h.plus_not_mem⟩
  -- With the sign in front the text is no name of a branch.
  obtain ⟨-, -, -, -, hinitial⟩ := termMarks_foreign sign.char hmark
  obtain ⟨hmaster, hname⟩ := isMaster_cons (r := v.toList) hinitial
  have hc' : (normalize (String.ofList (sign.char :: (v.toList ++ '+' :: m))) none).outcome
      = .ok c := by
    rw [outcome_normalize_of_isSolid hsolid] at hc
    rw [outcome_normalize_of_isSolid hsolid', ← List.cons_append]
    exact (normalizePlain_append_build (by simp) hsolid hplus hm hmaster hname).2 hc
  rw [agree_comparison_iff hs hs' hread hread' hc hc']
  intro hcounts
  exact absurd hcounts (by decide)

/-- **Build metadata in a range** changes the constraint of every numbered version without a marker,
    and of no other version: the ending `-dev` of its lower end becomes part of the metadata. -/
theorem agree_range_build_iff (hm : Version.isTag m = true) (sign : RangeSign)
    (hparse : ∃ d, (Expression.parse (String.ofList (sign.char :: v.toList))).outcome = .ok d) :
    Expression.Agree (String.ofList (sign.char :: v.toList))
      (String.ofList (sign.char :: (v.toList ++ '+' :: m))) ↔ isUnmarked v.toList = false := by
  cases hw : Written.read? v.toList with
  | none =>
    have hunmarked : isUnmarked v.toList = false := by rw [isUnmarked, hw, Option.any_none]
    exact iff_of_true (h.agree_range_of_read?_eq_none hm hw hparse) hunmarked
  | some w =>
    obtain ⟨c, -, hc, hplain, -⟩ := h.exists_canonical
    have hs := sign.isSingle_cons h.inert
    have hs' := sign.isSingle_cons (h.inert_build hm)
    have hread := sign.read_eq v.toList
    have hread' := sign.read_eq (v.toList ++ '+' :: m)
    rw [Term.spelled?, hw] at hread
    rw [Term.spelled?, Written.read?_append_build h.plus_not_mem hm, hw] at hread'
    obtain ⟨-, -, -, -, -, hne, -⟩ := Written.exists_of_read? hw
    -- The lower end of the decorated range is what the version is without its decoration.
    have hlow' : (Term.lowerEnd ⟨{ w with build := m }, v.toList ++ '+' :: m⟩).outcome
        = .ok ⟨.ge, c.text⟩ := by
      rw [Term.outcome_lowerEnd_eq_ok_iff]
      refine ⟨c, ?_, rfl⟩
      obtain ⟨hmaster, hname⟩ := isMaster_of_read? hw []
      rw [List.append_nil] at hmaster hname
      split
      case isTrue =>
        have hpasted := h.normalize_build (isTag_append_dev hm) hmaster hname hplain
        rwa [← List.cons_append, ← List.append_assoc] at hpasted
      case isFalse => exact h.normalize_build hm hmaster hname hplain
    obtain ⟨d, hd⟩ := hparse
    obtain ⟨-, low, -, hlow, -⟩ := (Expression.outcome_parse_range hs hread hne).1 hd
    rw [agree_range_iff hs hs' hread hread' hne rfl ⟨d, hd⟩ hlow hlow']
    obtain ⟨c₀, hc₀, rfl⟩ := Term.outcome_lowerEnd_eq_ok_iff.1 hlow
    cases habsent : w.marker.isAbsent with
    | false =>
      have hunmarked : isUnmarked v.toList = false := by
        rw [isUnmarked, hw, Option.any_some, habsent]
      rw [if_neg (by simp [habsent]), outcome_normalize_of_isSolid h.solid] at hc₀
      obtain rfl := Except.ok.inj (hc₀.symm.trans hplain)
      exact iff_of_true rfl hunmarked
    | true =>
      have hunmarked : isUnmarked v.toList = true := isUnmarked_iff.2 ⟨w, hw, habsent⟩
      have hsolid : ∀ d ∈ v.toList ++ "-dev".toList, isSolid d = true := by
        rw [List.forall_mem_append]
        exact ⟨h.solid, by decide⟩
      rw [if_pos habsent, outcome_normalize_of_isSolid hsolid] at hc₀
      refine iff_of_false ?_ (by simp [hunmarked])
      intro hlows
      have htext : c₀.text = c.text := congrArg Comparator.version hlows
      have hmem := hyphen_mem_append_dev hunmarked h.plus_not_mem hc₀
      rw [← Canonical.toList_text, htext, Canonical.toList_text] at hmem
      exact hyphen_not_mem_of_isUnmarked hunmarked h.plus_not_mem hplain hmem

/-! ### Aliases -/

/-- A version as the source of an alias has no other form, either. The spaces in it rule out
    ranges, and there is no hyphen between them. -/
theorem read_alias {a : List Char} (hsign : sign ∈ ⟨[], .eq⟩ :: Term.signs) :
    Term.read (sign.chars ++ (v.toList ++ " as ".toList ++ a))
      = .comparison sign (v.toList ++ " as ".toList ++ a) := by
  have hspace : ' ' ∈ skipV (v.toList ++ " as ".toList ++ a) := by
    obtain ⟨c, r, heq⟩ := List.exists_cons_of_ne_nil h.ne_nil
    rw [heq, List.cons_append, List.cons_append, skipV]
    split <;> simp
  obtain ⟨hanything, hwildcards⟩ :=
    Term.wildcards_of_mem hspace (by decide) (by decide) (by decide)
  -- Behind the first space there is no hyphen.
  have hhyphen : Term.hyphen? (v.toList ++ " as ".toList ++ a) = none := by
    have hfront : ∀ c ∈ v.toList, (c != ' ') = true := fun c hc =>
      bne_iff_ne.2 fun heq => not_mem_of_isInert h.inert (by decide) (heq ▸ hc)
    have hdrop : ((v.toList ++ " as ".toList ++ a).dropWhile (· != ' ')).dropWhile (· == ' ')
        = 'a' :: 's' :: ' ' :: a := by
      rw [List.append_assoc, List.dropWhile_append_of_pos hfront]
      rfl
    rw [Term.hyphen?, hdrop]
    cases Term.spelled? ((v.toList ++ " as ".toList ++ a).takeWhile (· != ' ')) <;> rfl
  rw [List.append_assoc] at hanything hwildcards hhyphen ⊢
  exact Term.read_comparison hsign (h.head_ne _) (h.isBlank_head_append _) hanything hwildcards
    hhyphen

/-- Of an alias the source is normalized. It is the version, so the canonical text is the same. -/
theorem normalize_alias {a : List Char} {c : Canonical} (ha : Version.isTag a = true)
    (hc : (normalizePlain v.toList v.toList).outcome = .ok c) :
    (normalize (String.ofList (v.toList ++ " as ".toList ++ a)) none).outcome = .ok c := by
  have htarget := isSolid_of_isInert (isInert_of_isTag ha)
  have hne := ne_nil_of_isTag ha
  have haliased : aliased v.toList a = v.toList ++ " as ".toList ++ a := by
    rw [aliased, if_neg hne]
  have hsource := aliasSource?_aliased h.ne_nil h.solid htarget
  -- There is no white space at either end.
  have htrim : Text.trim (v.toList ++ " as ".toList ++ a) = v.toList ++ " as ".toList ++ a := by
    obtain ⟨d, r, heq⟩ := List.exists_cons_of_ne_nil h.ne_nil
    have hd := h.isBlank_head (c := d) (by rw [heq]; rfl)
    have hsettled := (settled_of_isSolid htarget).append_left (v.toList ++ " as ".toList) hne
    rw [heq] at hsettled ⊢
    exact trim_of_settled hd hsettled
  rw [haliased] at hsource
  rw [outcome_normalize]
  simp only [String.toList_ofList, htrim, hsource]
  exact normalizePlain_context.1 hc

/-- **The target of an alias behind a compared version** changes the constraint where the operator
    counts prereleases and just one of the version and the target has a marker. -/
theorem agree_alias_iff {a : List Char} (ha : Version.isTag a = true)
    (hsign : sign ∈ ⟨[], .eq⟩ :: Term.signs) :
    Expression.Agree (String.ofList (sign.chars ++ v.toList))
      (String.ofList (sign.chars ++ (v.toList ++ " as ".toList ++ a))) ↔
      (sign.operator.countsPrereleases = true → nv ≠ master →
        (Marker.search v.toList).isAbsent = (Marker.search a).isAbsent) := by
  obtain ⟨c, htext, hc, hplain, -⟩ := h.exists_canonical
  have hs := isSingle_append (isInert_sign hsign) h.inert h.ne_nil
  have hs' : IsSingle (sign.chars ++ (v.toList ++ " as ".toList ++ a)) := by
    have hfront : ∀ c ∈ sign.chars ++ v.toList, isInert c = true := by
      rw [List.forall_mem_append]
      exact ⟨isInert_sign hsign, h.inert⟩
    have hjoined := isSingle_joined hfront (by decide) (isInert_of_isTag ha)
      (by simp [h.ne_nil]) (ne_nil_of_isTag ha) fun before => splitTermsFrom_alias before a
    simpa only [List.append_assoc] using hjoined
  -- A marker has to reach to the end of the text, so it is looked for in the target.
  have hsearch : Marker.search (v.toList ++ " as ".toList ++ a) = Marker.search a := by
    have hspaces : v.toList ++ " as ".toList ++ a
        = v.toList ++ ' ' :: ("as".toList ++ ' ' :: a) := by
      simp
    rw [hspaces, Marker.search_append_space, Marker.search_append_space]
  rw [agree_comparison_iff hs hs' (h.read_bare hsign) (h.read_alias hsign) hc
    (h.normalize_alias ha hplain), hsearch, htext]
  exact ⟨fun hall hop hmaster => hall hop h.release hmaster, fun hall hop _ => hall hop⟩

end Bare

/-- **Decorated versions.** Build metadata and the target of an alias behind a version leave the
    constraint as it is, with these exceptions:

    * behind an operator, build metadata that makes another name of a name of the main line;
    * behind an operator that counts prereleases, a target that has a marker where the version has
      none, or the other way round;
    * in a range, build metadata behind a numbered version without a marker. -/
theorem agree_decorated {v nv : String} (h : Bare v nv) {m a : List Char}
    (hm : Version.isTag m = true) (ha : Version.isTag a = true) :
    (∀ sign ∈ ⟨[], .eq⟩ :: Term.signs,
      (Expression.Agree (String.ofList (sign.chars ++ v.toList))
        (String.ofList (sign.chars ++ (v.toList ++ '+' :: m))) ↔ isMaster v.toList = false) ∧
      (Expression.Agree (String.ofList (sign.chars ++ v.toList))
        (String.ofList (sign.chars ++ (v.toList ++ " as ".toList ++ a))) ↔
          (sign.operator.countsPrereleases = true → nv ≠ master →
            (Marker.search v.toList).isAbsent = (Marker.search a).isAbsent))) ∧
    ∀ sign : RangeSign,
      (∃ d, (Expression.parse (String.ofList (sign.char :: v.toList))).outcome = .ok d) →
      (Expression.Agree (String.ofList (sign.char :: v.toList))
        (String.ofList (sign.char :: (v.toList ++ '+' :: m))) ↔ isUnmarked v.toList = false) := by
  constructor
  · intro sign hsign
    exact ⟨h.agree_build_iff hm hsign, h.agree_alias_iff ha hsign⟩
  · intro sign hparse
    exact h.agree_range_build_iff hm sign hparse

/-- Behind an operator `1.0+foo` is `1.0`; in a range it is not, and neither is an alias to a
    prerelease. -/
theorem agree_decorated_release :
    Expression.Agree ">=1.0" ">=1.0+foo" ∧ ¬ Expression.Agree ">=1.0" ">=1.0 as 2.0-beta" ∧
      ¬ Expression.Agree "~1.0" "~1.0+foo" := by
  have hbare : Bare "1.0" "1.0.0.0" :=
    ⟨by decide, by decide, eq_ok_of_toOption (by decide), by decide⟩
  have hparse : ((Expression.parse "~1.0").outcome.toOption).isSome = true := by decide +kernel
  obtain ⟨hoperator, hrange⟩ :=
    @agree_decorated _ _ hbare "foo".toList "2.0-beta".toList (by decide) (by decide)
  obtain ⟨hbuild, halias⟩ := hoperator ⟨">=".toList, .ge⟩ (by decide)
  refine ⟨hbuild.2 (by decide), fun h => ?_, fun h => ?_⟩
  · exact absurd (halias.1 h rfl (by decide)) (by decide)
  · obtain ⟨d, hd⟩ := Option.isSome_iff_exists.1 hparse
    exact absurd ((hrange .tilde ⟨d, eq_ok_of_toOption hd⟩).1 h) (by decide)

/-- A prerelease is lost to a range with build metadata, and a lower bound to its alias. -/
theorem satisfies_decorated_beta :
    (satisfies "1.0-beta" "~1.0").outcome = .ok true ∧
      (satisfies "1.0-beta" "~1.0+foo").outcome = .ok false ∧
      (satisfies "1.0-beta" ">=1.0-beta").outcome = .ok true ∧
      (satisfies "1.0-beta" ">=1.0-beta as 2.0").outcome = .ok false :=
  ⟨eq_ok_of_toOption (by decide +kernel), eq_ok_of_toOption (by decide +kernel),
    eq_ok_of_toOption (by decide +kernel), eq_ok_of_toOption (by decide +kernel)⟩

end VersionRange
