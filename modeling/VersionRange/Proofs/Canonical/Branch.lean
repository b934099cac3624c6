import VersionRange.Proofs.Canonical.Release
import VersionRange.Proofs.Text.Trim

namespace VersionRange

/-!
# Branches and aliases read back

* `AliasOf source s`: `s` is an alias `source as target`; `aliasSource?_eq_some_iff`.
* `branchGroups?_dotted`, `branchGroups?_sound`: the groups of a numeric branch.
* `devStem?_append_dev`: the stem in front of `-dev`.
-/

/-! ### Aliases -/

/-- A text is an alias of a source: the source, the word `as` in any case between two spaces, and a
    target.  Neither the source nor the target holds a comma or white space. -/
def AliasOf (source s : List Char) : Prop :=
  ∃ word target, s = source ++ word ++ target ∧ word.map Text.plain = " as ".toList ∧
    source ≠ [] ∧ target ≠ [] ∧ (∀ c ∈ source, isSolid c = true) ∧
    ∀ c ∈ target, isSolid c = true

/-- Only the space itself stands for a space. -/
theorem eq_space_of_plain {c : Char} (h : Text.plain c = ' ') : c = ' ' := by
  have hlow : c.toLower = ' ' := Text.toLower_of_plain h (by decide) (by decide) (by decide)
    (by decide)
  have hc : c.toNat < 128 := Text.ascii_of_toLower (by rw [hlow]; decide)
  revert hlow
  exact Text.forall_ascii (P := fun c => c.toLower = ' ' → c = ' ') (by decide) hc

/-- The source ends where the first space stands. The word between source and target begins with
    one, whatever the case of its letters. -/
theorem takeWhile_isSolid {source word : List Char} (t : List Char)
    (hs : ∀ c ∈ source, isSolid c = true) (hw : word.map Text.plain = " as ".toList) :
    (source ++ word ++ t).takeWhile isSolid = source ∧
      (source ++ word ++ t).dropWhile isSolid = word ++ t := by
  cases word with
  | nil => cases hw
  | cons c w =>
    have hc : isSolid c = false := by
      rw [eq_space_of_plain (List.cons.inj hw).1]
      decide
    rw [List.append_assoc, List.takeWhile_append_of_pos hs, List.dropWhile_append_of_pos hs]
    simp [hc]

/-- The source that is taken from an alias is the one in front of the word `as`: reading it forwards
    and describing the whole text come to the same. -/
theorem aliasSource?_eq_some_iff {source s : List Char} :
    aliasSource? s = some source ↔ AliasOf source s := by
  constructor
  · intro h
    simp only [aliasSource?] at h
    split at h
    case h_1 => cases h
    case h_2 raw target hlead =>
      split at h
      case isFalse => cases h
      case isTrue hcond =>
        cases h
        simp only [Bool.and_eq_true, Bool.not_eq_true', List.isEmpty_eq_false_iff,
          List.all_eq_true] at hcond
        obtain ⟨heq, hword⟩ := Text.eq_append_of_keywordLead? hlead
        refine ⟨raw, target, ?_, hword, hcond.1.1, hcond.1.2, ?_, hcond.2⟩
        · rw [List.append_assoc, ← heq, List.takeWhile_append_dropWhile]
        · exact fun c hc => List.mem_takeWhile_imp hc
  -- The source has no white space, so the reader takes all of it and stops in front of the word.
  · rintro ⟨word, target, rfl, hword, hsource, htarget, hs, ht⟩
    obtain ⟨htake, hdrop⟩ := takeWhile_isSolid target hs hword
    simp only [aliasSource?, htake, hdrop, Text.keywordLead?_append target hword]
    simpa [hsource, htarget] using ht

/-- Around the word `as` there are spaces, so a text without white space and commas is no alias. -/
theorem aliasSource?_eq_none_of_isSolid {s : List Char} (h : ∀ c ∈ s, isSolid c = true) :
    aliasSource? s = none := by
  have hdrop : s.dropWhile isSolid = [] := List.dropWhile_eq_nil_iff.2 h
  simp only [aliasSource?, hdrop]
  rfl

/-! ### Numeric branches -/

/-- A group of digits stands for itself in a numeric branch. It is not empty and begins with a
    digit, so it is not taken for an open group. -/
theorem branchGroup?_of_isGroup {g : List Char} (h : IsGroup g) : branchGroup? g = some g := by
  obtain ⟨hne, hd⟩ := h
  have hopen : isOpenGroup g = false := by
    rw [Bool.eq_false_iff]
    intro ho
    simp only [isOpenGroup, Bool.or_eq_true, beq_iff_eq] at ho
    rcases ho with (rfl | rfl) | rfl
    · exact absurd (hd 'x' (by simp)) (by decide)
    · exact absurd (hd 'X' (by simp)) (by decide)
    · exact absurd (hd '*' (by simp)) (by decide)
  simp only [branchGroup?, hopen]
  simpa [hne] using hd

/-- A group of a numeric branch is kept, or it is open. -/
theorem cases_of_branchGroup? {g k : List Char} (h : branchGroup? g = some k) :
    k = maxField.toList ∨ k = g ∧ IsGroup g := by
  simp only [branchGroup?] at h
  split at h
  case isTrue => exact .inl (Option.some.inj h).symm
  case isFalse =>
    split at h
    case isTrue hg => exact .inr ⟨(Option.some.inj h).symm, by simpa [IsGroup] using hg⟩
    case isFalse => cases h

/-- Groups of digits are taken over one by one; none of them is open. -/
theorem mapM_branchGroup? {gs : List (List Char)} (hgs : ∀ g ∈ gs, IsGroup g) :
    gs.mapM branchGroup? = some gs := by
  induction gs with
  | nil => rfl
  | cons g gs ih =>
    rw [List.mapM_cons, branchGroup?_of_isGroup (hgs g (by simp)),
      ih fun h hh => hgs h (by simp [hh])]
    rfl

/-- The groups of a numeric branch are those of its name and open ones. An open one is written as
    the largest number, whether the name has a wildcard there or nothing. -/
theorem cases_of_mem_branchGroups? {s : List Char} {gs : List (List Char)}
    (h : branchGroups? s = some gs) {g : List Char} (hg : g ∈ gs) :
    g = maxField.toList ∨ g ∈ (skipV s).splitOn '.' ∧ IsGroup g := by
  simp only [branchGroups?, Option.bind_eq_bind, Option.bind_eq_some_iff, Option.guard_eq_some',
    Option.pure_def, Option.some.injEq] at h
  obtain ⟨ks, hks, -, -, rfl⟩ := h
  rcases List.mem_append.1 hg with hg | hg
  · obtain ⟨k, hk, hgroup⟩ := exists_of_mem_mapM hks hg
    rcases cases_of_branchGroup? hgroup with rfl | ⟨rfl, hkept⟩
    · exact .inl rfl
    · exact .inr ⟨hk, hkept⟩
  · exact .inl (List.eq_of_mem_replicate hg)

/-- A numeric branch has four groups. Those that the name does not have are added as open ones. -/
theorem branchGroups?_sound {s : List Char} {gs : List (List Char)}
    (h : branchGroups? s = some gs) : (∀ g ∈ gs, IsGroup g) ∧ gs.length = 4 := by
  constructor
  · intro g hg
    rcases cases_of_mem_branchGroups? h hg with rfl | ⟨-, hgroup⟩
    · exact ⟨by decide, by decide⟩
    · exact hgroup
  · simp only [branchGroups?, Option.bind_eq_bind, Option.bind_eq_some_iff, Option.guard_eq_some',
      Option.pure_def, Option.some.injEq] at h
    obtain ⟨ks, -, -, hlen, rfl⟩ := h
    rw [List.length_append, List.length_replicate]
    omega

/-- A group holds digits and nothing else, in particular no point. -/
theorem point_not_mem {g : List Char} (h : IsGroup g) : '.' ∉ g := fun hmem =>
  absurd (h.2 _ hmem) (by decide)

/-- Four groups with points between them are a numeric branch. -/
theorem branchGroups?_dotted {gs : List (List Char)} (hgs : ∀ g ∈ gs, IsGroup g)
    (hlen : gs.length = 4) : branchGroups? (dotted gs) = some gs := by
  have hne : gs ≠ [] := List.ne_nil_of_length_eq_add_one hlen
  have hskip : skipV (dotted gs) = dotted gs := by
    simpa using skipV_dotted (t := []) hgs hne
  have hsplit : (dotted gs).splitOn '.' = gs :=
    List.splitOn_intercalate '.' (fun g hg => point_not_mem (hgs g hg)) hne
  rw [branchGroups?, hskip, hsplit, mapM_branchGroup? hgs]
  simp [hlen]

/-- In front of `-dev` stands the stem, if it is one line. -/
theorem devStem?_append_dev {s : List Char} (hline : '\n' ∉ s) :
    devStem? (s ++ "-dev".toList) = some s := by
  have hrev : (s ++ "-dev".toList).reverse = 'v' :: 'e' :: 'd' :: '-' :: s.reverse := by
    simp
  have hdev : Text.isKeyword "dev".toList ['d', 'e', 'v'] = true := by decide
  simp only [devStem?, hrev, hdev, Marker.isMark]
  simp [hline]

end VersionRange
