import VersionRange.Proofs.Canonical.Calendar

namespace VersionRange

/-!
# Build metadata behind a version

No reader goes on behind a plus, so a version is read in front of build metadata as it is read
alone.

* `Marker.read_append_build`, `Written.read?_append_build`: what is read in front of a plus.
* `Marker.search_append_build`: the marker that a text ends with is found in front of a plus, too.
* `Marker.search_append_space`: behind a space only the rest of the text counts.
* `normalizePlain_append_build`: what is no name of a branch is normalized as it is without build
  metadata.
* `exists_branch_of_master_append_build`: a name of the main line gets another name by it.
-/

variable {s m : List Char}

/-! ### Readers in front of a plus -/

/-- A word without a plus is found at the front whether build metadata follows or not. The metadata
    stays behind what is left. -/
theorem Text.keywordLead?_append_build {word : List Char} (h : '+' ∉ word) (s m : List Char) :
    keywordLead? word (s ++ '+' :: m)
      = (keywordLead? word s).map fun p => (p.1, p.2 ++ '+' :: m) := by
  induction word generalizing s with
  | nil => rfl
  | cons a word ih =>
    rw [List.mem_cons, not_or] at h
    cases s with
    -- The text is at its end and the word is not, but the plus is none of its letters.
    | nil => exact keywordLead?_eq_none (Ne.symm (show a ≠ '+' from Ne.symm h.1))
    | cons c r =>
      rw [List.cons_append, keywordLead?, keywordLead?]
      split
      case isTrue =>
        rw [ih h.2]
        cases keywordLead? word r <;> rfl
      case isFalse => rfl

namespace Marker

/-- A plus is no separator, so nothing of the metadata is skipped. -/
theorem skipSeparator_append_build (s m : List Char) :
    skipSeparator (s ++ '+' :: m) = skipSeparator s ++ '+' :: m := by
  cases s with
  | nil => rfl
  | cons c r =>
    rw [List.cons_append, skipSeparator, skipSeparator]
    split <;> rfl

/-- No keyword holds a plus: the same one is read, and the metadata stays behind what is left. -/
theorem readKeyword_append_build (s m : List Char) :
    readKeyword (s ++ '+' :: m) = (readKeyword s).map fun p => (p.1, p.2 ++ '+' :: m) := by
  have hkeywords : ∀ word ∈ keywords, '+' ∉ word := by decide
  unfold readKeyword
  generalize keywords = words at hkeywords
  induction words with
  | nil => rfl
  | cons word words ih =>
    rw [List.findSome?_cons, List.findSome?_cons,
      Text.keywordLead?_append_build (hkeywords word List.mem_cons_self)]
    cases Text.keywordLead? word s with
    | none => exact ih fun w hw => hkeywords w (List.mem_cons_of_mem word hw)
    | some p => rfl

/-- Numbers and the marks between them end in front of the plus at the latest. -/
theorem readIdentifier_append_build (s m : List Char) :
    readIdentifier (s ++ '+' :: m) = ((readIdentifier s).1, (readIdentifier s).2 ++ '+' :: m) := by
  induction s with
  | nil => rfl
  | cons c r ih =>
    have hahead : digitAhead (r ++ '+' :: m) = digitAhead r := by cases r <;> rfl
    rw [List.cons_append, readIdentifier, readIdentifier, hahead, ih]
    split <;> rfl

/-- The `dev` of a marker is found with metadata behind it just as without. Neither the mark nor
    the word has a plus, so nothing of the metadata is taken. -/
theorem afterDev?_append_build (s m : List Char) :
    afterDev? (s ++ '+' :: m) = (afterDev? s).map (· ++ '+' :: m) := by
  cases s with
  | nil => rfl
  | cons c r =>
    have hplus : '+' ∉ "dev".toList := by decide
    have hlead := Text.keywordLead?_append_build hplus (if isMark c then r else c :: r) m
    have hbehind : (if isMark c then r else c :: r) ++ '+' :: m
        = if isMark c then r ++ '+' :: m else c :: (r ++ '+' :: m) := by
      split <;> rfl
    rw [hbehind] at hlead
    rw [List.cons_append, afterDev?, afterDev?, hlead, Option.map_map, Option.map_map]
    rfl

/-- In front of a plus a marker is read as it is read alone. -/
theorem read_append_build (s m : List Char) :
    read (s ++ '+' :: m) = ((read s).1, (read s).2 ++ '+' :: m) := by
  simp only [read, skipSeparator_append_build, readKeyword_append_build]
  cases readKeyword (skipSeparator s) with
  | none =>
    simp only [Option.map_none, afterDev?_append_build]
    cases afterDev? (skipSeparator s) <;> rfl
  | some p =>
    simp only [Option.map_some, readIdentifier_append_build, afterDev?_append_build]
    cases afterDev? (readIdentifier p.2).2 <;> rfl

/-- What the reader of markers leaves is the end of what it was given. -/
theorem read_suffix (s : List Char) : (read s).2 <:+ s := by
  obtain ⟨lead, dev, hs, -, -⟩ := exists_append_of_read s
  exact ⟨_, hs.symm⟩

/-- A character that no marker is written with is left over. -/
theorem mem_read {c : Char} (hc : isMarkerChar c = false) (h : c ∈ s) : c ∈ (read s).2 := by
  obtain ⟨lead, dev, hs, hlead, hdev⟩ := exists_append_of_read s
  rw [hs, List.mem_append, List.mem_append, List.mem_append] at h
  have hforeign : isMarkerChar c ≠ true := by simp [hc]
  rcases h with ((h | h) | h) | h
  · exact absurd (isMarkerChar_iff.2 (.inl (hlead c h))) hforeign
  · exact absurd (isMarkerChar_of_mem_spelling (isRead_read s) h) hforeign
  · exact absurd (hdev c h) hforeign
  · exact h

end Marker

/-- The characters of build metadata are known in any case. -/
theorem isBuildChar_of_isTagChar {c : Char} (h : Version.isTagChar c = true) :
    isBuildChar c = true := by
  have hascii := Version.ascii_of_isTagChar h
  revert h
  exact Text.forall_ascii (P := fun c => Version.isTagChar c = true → isBuildChar c = true)
    (by decide) hascii

/-- A character of build metadata may stand in a version. Letters that spell one of ASCII are among
    them, and no white space does. -/
theorem isSolid_of_isBuildChar {c : Char} (h : isBuildChar c = true) : isSolid c = true := by
  by_cases hc : c.toNat < 128
  · revert h
    exact Text.forall_ascii (P := fun c => isBuildChar c = true → isSolid c = true) (by decide) hc
  · -- Beyond ASCII only the characters that stand for letters are known.
    have hascii := Version.ascii_of_isTagChar h
    rcases Text.plain_beyond_ascii hc with ⟨-, hp⟩ | ⟨-, hp⟩ | ⟨-, hp⟩ | hp
    · exact Text.isSolid_of_plain (by rw [hp]; decide)
    · exact Text.isSolid_of_plain (by rw [hp]; decide)
    · exact Text.isSolid_of_plain (by rw [hp]; decide)
    · exact absurd (hp ▸ hascii) hc

/-- Build metadata is read whole. -/
theorem readBuild_of_isTag (hm : Version.isTag m = true) : readBuild ('+' :: m) = (m, []) := by
  simp only [Version.isTag, Bool.and_eq_true, Bool.not_eq_true', List.all_eq_true] at hm
  have hbuild : ∀ c ∈ m, isBuildChar c = true := fun c hc => isBuildChar_of_isTagChar (hm.2 c hc)
  have htake : m.takeWhile isBuildChar = m := List.takeWhile_eq_self_iff.2 hbuild
  have hdrop : m.dropWhile isBuildChar = [] := List.dropWhile_eq_nil_iff.2 hbuild
  rw [readBuild]
  simp only [htake, hdrop, hm.1, Bool.false_eq_true, if_false]

/-- Build metadata begins nowhere but at a plus. -/
theorem readBuild_of_not_mem {r : List Char} (h : '+' ∉ r) : readBuild r = ([], r) := by
  cases r with
  | nil => rfl
  | cons c r =>
    rw [List.mem_cons, not_or] at h
    exact Marker.readBuild_of_ne (Ne.symm h.1)

/-- A character that no build metadata is written with is left over, too. The reader stops in front
    of it, or does not begin. -/
theorem mem_readBuild {c : Char} {r : List Char} (hplus : c ≠ '+') (hc : isBuildChar c = false)
    (h : c ∈ r) : c ∈ (readBuild r).2 := by
  unfold readBuild
  split
  case h_2 => exact h
  case h_1 t =>
    dsimp only
    split
    case isTrue => exact h
    case isFalse =>
      -- The character is not among those that are taken.
      have hmem : c ∈ t.takeWhile isBuildChar ++ t.dropWhile isBuildChar := by
        rw [List.takeWhile_append_dropWhile]
        exact (List.mem_cons.1 h).resolve_left hplus
      refine (List.mem_append.1 hmem).resolve_left fun htaken => ?_
      exact absurd (List.mem_takeWhile_imp htaken) (by simp [hc])

namespace Marker

/-- A marker makes up a whole text with metadata behind it exactly when it does without. Only a
    line end is excluded, as one may follow the marker but not stand in front of the metadata. -/
theorem whole?_append_build (hplus : '+' ∉ s) (hline : '\n' ∉ s) (hm : Version.isTag m = true) :
    whole? (s ++ '+' :: m) = whole? s := by
  have hbare : '+' ∉ (read s).2 := fun h => hplus ((read_suffix s).subset h)
  have hlast : (read s).2 ≠ ['\n'] := fun h => hline ((read_suffix s).subset (by rw [h]; simp))
  simp only [whole?, read_append_build, readBuild_of_not_mem hbare]
  cases hrest : (read s).2 with
  | nil => simp only [List.nil_append, readBuild_of_isTag hm]
  | cons c r =>
    rw [hrest] at hbare hlast
    rw [List.mem_cons, not_or] at hbare
    rw [List.cons_append, readBuild_of_ne (Ne.symm hbare.1)]
    simp_all

/-- **The marker of a text with build metadata** is the one in front of the plus. -/
theorem search_append_build (hplus : '+' ∉ s) (hline : '\n' ∉ s) (hm : Version.isTag m = true) :
    search (s ++ '+' :: m) = search s := by
  induction s with
  | nil =>
    have hnone : whole? ('+' :: m) = some {} := whole?_append_build (s := []) hplus hline hm
    show (whole? ('+' :: m)).getD (search m) = {}
    rw [hnone, Option.getD_some]
  | cons c r ih =>
    have hwhole := whole?_append_build hplus hline hm
    rw [List.mem_cons, not_or] at hplus hline
    rw [List.cons_append] at hwhole ⊢
    rw [search, search, hwhole, ih hplus.2 hline.2]

/-- A space belongs neither to a marker nor to metadata, so no text with one is read to its end.
    Where an alias is written no marker is found in front of the target. -/
theorem whole?_of_space (h : ' ' ∈ s) : whole? s = none := by
  have hspace := mem_readBuild (by decide) (by decide) (mem_read (c := ' ') (by decide) h)
  unfold whole?
  split
  case h_1 mk r hread =>
    rw [hread] at hspace
    dsimp only at hspace
    split
    case h_1 hnil => rw [hnil] at hspace; cases hspace
    case h_2 hline => rw [hline] at hspace; exact absurd hspace (by decide)
    case h_3 => rfl

/-- Behind a space only the rest of the text counts. -/
theorem search_append_space (s t : List Char) : search (s ++ ' ' :: t) = search t := by
  induction s with
  | nil => rw [List.nil_append, search, whole?_of_space List.mem_cons_self, Option.getD_none]
  | cons c r ih =>
    have hspace : ' ' ∈ c :: (r ++ ' ' :: t) := by simp
    rw [List.cons_append, search, whole?_of_space hspace, Option.getD_none, ih]

end Marker

/-! ### Numbered versions in front of build metadata -/

/-- Digits end in front of the plus at the latest. Both the digits and what is left behind them are
    as without the metadata. -/
theorem digits_append_build (s m : List Char) :
    (s ++ '+' :: m).takeWhile Text.isDigit = s.takeWhile Text.isDigit ∧
      (s ++ '+' :: m).dropWhile Text.isDigit = s.dropWhile Text.isDigit ++ '+' :: m := by
  induction s with
  | nil =>
    have hplus : Text.isDigit '+' = false := by decide
    simp [hplus]
  | cons c r ih =>
    rw [List.cons_append, List.takeWhile_cons, List.dropWhile_cons, List.takeWhile_cons,
      List.dropWhile_cons, ih.1, ih.2]
    split <;> exact ⟨rfl, rfl⟩

/-- The groups behind a number are the same, and the metadata stays behind what is left. The
    induction is on the number of groups that may still come. -/
theorem readGroups_append_build (n : Nat) (s m : List Char) :
    readGroups n (s ++ '+' :: m) = ((readGroups n s).1, (readGroups n s).2 ++ '+' :: m) := by
  induction n generalizing s with
  | zero => simp
  | succ n ih =>
    by_cases hpoint : ∃ r, s = '.' :: r
    · obtain ⟨r, rfl⟩ := hpoint
      obtain ⟨htake, hdrop⟩ := digits_append_build r m
      rw [List.cons_append, readGroups_point, readGroups_point, htake, hdrop, ih]
      split <;> rfl
    · -- Without a point in front nothing is read, and the plus of the metadata is no point.
      have hother : ∀ r, s ++ '+' :: m ≠ '.' :: r := by
        intro r heq
        cases s with
        | nil => exact absurd (List.cons.inj heq).1 (by decide)
        | cons c t => exact hpoint ⟨t, by rw [(List.cons.inj heq).1]⟩
      rw [readGroups_of_ne hother, readGroups_of_ne fun r hr => hpoint ⟨r, hr⟩]

/-- A leading `v` is skipped whether metadata follows or not. -/
theorem skipV_append_build (s m : List Char) : skipV (s ++ '+' :: m) = skipV s ++ '+' :: m := by
  cases s with
  | nil => rfl
  | cons c r =>
    rw [List.cons_append, skipV, skipV]
    split <;> rfl

/-- **A numbered version with build metadata** is the version in front of the plus. -/
theorem Written.read?_append_build (hplus : '+' ∉ s) (hm : Version.isTag m = true) :
    read? (s ++ '+' :: m) = (read? s).map fun w => { w with build := m } := by
  have hrest : ∀ t, t <:+ s → '+' ∉ t := fun t ht h => hplus (ht.subset h)
  obtain ⟨htake, hdrop⟩ := digits_append_build (skipV s) m
  simp only [read?, skipV_append_build, htake, hdrop, readGroups_append_build,
    Marker.read_append_build]
  -- What the readers leave is a part of the text, so the first plus is the one behind it.
  have hsuffix : (readGroups 3 ((skipV s).dropWhile Text.isDigit)).2 <:+ s := by
    obtain ⟨heq, -, -⟩ := readGroups_sound (n := 3) (s := (skipV s).dropWhile Text.isDigit) rfl
    exact (List.IsSuffix.trans ⟨_, heq.symm⟩ (List.dropWhile_suffix _)).trans (skipV_suffix s)
  have hbare := hrest _ ((Marker.read_suffix _).trans hsuffix)
  rw [readBuild_of_not_mem hbare]
  cases hleft : (Marker.read (readGroups 3 ((skipV s).dropWhile Text.isDigit)).2).2 with
  | nil =>
    simp only [List.nil_append, readBuild_of_isTag hm]
    split <;> rfl
  | cons c r =>
    rw [hleft, List.mem_cons, not_or] at hbare
    rw [List.cons_append, Marker.readBuild_of_ne (Ne.symm hbare.1)]
    rfl

/-! ### Normalizing in front of build metadata -/

/-- A name of the main line of development, in any case, behind `dev-` or not. With `dev-` in front
    it would also be read as the name of a branch. -/
theorem exists_name_of_isMaster (h : isMaster s = true) :
    ∃ lead name, s = lead ++ name ∧ name.map Text.plain ∈ masterBranches ∧
      (lead = [] ∧ devName? s = none ∨
        lead.map Text.plain = "dev-".toList ∧ devName? s = some name) := by
  obtain ⟨key, hkey, hname⟩ := List.any_eq_true.1 h
  cases hlead : Text.keywordLead? "dev-".toList s with
  | none =>
    simp only [hlead, Text.isKeyword_iff] at hname
    exact ⟨[], s, rfl, hname ▸ hkey, .inl ⟨rfl, by rw [devName?, hlead]; rfl⟩⟩
  | some p =>
    obtain ⟨lead, name⟩ := p
    simp only [hlead, Text.isKeyword_iff] at hname
    obtain ⟨heq, hword⟩ := Text.eq_append_of_keywordLead? hlead
    exact ⟨lead, name, heq, hname ▸ hkey, .inr ⟨hword, by rw [devName?, hlead]; rfl⟩⟩

/-- No such name has a plus. So with metadata behind it a name of the main line is an ordinary
    name. -/
theorem isMaster_append_build (s m : List Char) : isMaster (s ++ '+' :: m) = false := by
  rw [Bool.eq_false_iff]
  intro h
  obtain ⟨lead, name, heq, hname, hlead⟩ := exists_name_of_isMaster h
  have hplus : '+' ∈ lead ++ name := heq ▸ by simp
  have hletters : ∀ n ∈ masterBranches, Text.plain '+' ∉ n := by decide
  rcases List.mem_append.1 hplus with hmem | hmem
  · have hmem := List.mem_map_of_mem (f := Text.plain) hmem
    rcases hlead with ⟨rfl, -⟩ | ⟨hword, -⟩
    · cases hmem
    · rw [hword] at hmem
      exact absurd hmem (by decide)
  · exact hletters _ hname (List.mem_map_of_mem hmem)

/-- The name of a branch takes in the metadata behind it. -/
theorem devName?_append_build (s m : List Char) :
    devName? (s ++ '+' :: m) = (devName? s).map (· ++ '+' :: m) := by
  rw [devName?, devName?, Text.keywordLead?_append_build (by decide), Option.map_map,
    Option.map_map]
  rfl

/-- What is named by a text with `dev` at its end has those letters. Other letters may stand for
    them if they are the same case aside. -/
theorem exists_append_dev_of_devStem? {stem : List Char} (h : devStem? s = some stem) :
    ∃ t d e v, s = t ++ [d, e, v] ∧ Text.plain d = 'd' ∧ Text.plain e = 'e' ∧
      Text.plain v = 'v' := by
  unfold devStem? at h
  split at h
  case h_2 => cases h
  case h_1 v e d r hrev =>
    split at h
    case isFalse => cases h
    case isTrue hkey =>
      have hplain : [Text.plain d, Text.plain e, Text.plain v] = ['d', 'e', 'v'] :=
        Text.isKeyword_iff.1 hkey
      simp only [List.cons.injEq, and_true] at hplain
      refine ⟨r.reverse, d, e, v, ?_, hplain⟩
      rw [← List.reverse_reverse s, hrev]
      simp

section Normalize

variable {full full' : List Char} {c : Canonical}

/-- Metadata behind a version without a plus, white space and commas is cut off, and nothing else
    is. -/
theorem withoutBuild_append_build (hne : s ≠ []) (hsolid : ∀ c ∈ s, isSolid c = true)
    (hplus : '+' ∉ s) (hm : Version.isTag m = true) : withoutBuild (s ++ '+' :: m) = s := by
  simp only [Version.isTag, Bool.and_eq_true, Bool.not_eq_true', List.isEmpty_eq_false_iff,
    List.all_eq_true] at hm
  have hmarked : Version.marked '+' m = '+' :: m := by rw [Version.marked, if_neg hm.1]
  have hbuild := withoutBuild_marked hne hsolid hplus fun c hc => isSolid_of_isTagChar (hm.2 c hc)
  rwa [hmarked] at hbuild

/-- Which text a version was taken from shows in the error only. What is read does not depend on
    it. -/
theorem normalizePlain_context :
    (normalizePlain s full).outcome = .ok c ↔ (normalizePlain s full').outcome = .ok c := by
  simp only [normalizePlain]
  cases isMaster s with
  | true => rfl
  | false =>
    cases devName? s with
    | some name => rfl
    | none =>
      cases Release.ofText? (withoutBuild s) with
      | some r => rfl
      | none => cases devStem? (withoutBuild s) <;> simp

/-- **Build metadata does not count.** A text that is no name of a branch is read as it is read
    without build metadata. -/
theorem normalizePlain_append_build (hne : s ≠ []) (hsolid : ∀ c ∈ s, isSolid c = true)
    (hplus : '+' ∉ s) (hm : Version.isTag m = true) (hmaster : isMaster s = false)
    (hname : devName? s = none) :
    (normalizePlain (s ++ '+' :: m) full).outcome = .ok c ↔
      (normalizePlain s full').outcome = .ok c := by
  have hbare : withoutBuild s = s := by simp only [withoutBuild, Text.cut_of_not_mem hplus]
  simp only [normalizePlain, isMaster_append_build, devName?_append_build, hmaster, hname, hbare,
    withoutBuild_append_build hne hsolid hplus hm, Option.map_none, Bool.false_eq_true, if_false]
  cases Release.ofText? s with
  | some r => rfl
  | none =>
    cases devStem? s with
    | some stem => rfl
    | none => simp

/-- Behind a name of the main line of development it makes another name, or nothing that is read.
    So such a name does not keep its meaning, as a version does. -/
theorem exists_branch_of_master_append_build (hsolid : ∀ c ∈ s, isSolid c = true)
    (hm : Version.isTag m = true) (hmaster : isMaster s = true)
    (h : (normalizePlain (s ++ '+' :: m) full).outcome = .ok c) : ∃ name, c = .branch name := by
  obtain ⟨lead, name, hs, hname, ⟨rfl, hnone⟩ | ⟨-, hsome⟩⟩ := exists_name_of_isMaster hmaster
  · obtain rfl : s = name := hs
    have hnames : ∀ n ∈ masterBranches, n ≠ [] ∧ '+' ∉ n ∧ n.headD 'm' ∈ branchInitials ∧
        n.getLast? ≠ some 'v' := by decide
    obtain ⟨hne, hplus, hhead, hlast⟩ := hnames _ hname
    have hplus : '+' ∉ s := fun hmem => hplus (List.mem_map_of_mem (f := Text.plain) hmem)
    have hne : s ≠ [] := fun hnil => hne (by rw [hnil]; rfl)
    -- Such a name neither starts with a digit nor ends with `dev`, so no form is left for it.
    have hrelease : Release.ofText? s = none := by
      rw [Option.eq_none_iff_forall_ne_some]
      intro r hr
      obtain ⟨d, t, rfl, hd⟩ := Release.exists_head_of_ofText? hr
      have hforeign : 'v' ∉ branchInitials := by decide
      rcases hd with hv | hdigit
      · exact hforeign (hv ▸ hhead)
      · exact not_mem_branchInitials hdigit hhead
    have hstem : devStem? s = none := by
      rw [Option.eq_none_iff_forall_ne_some]
      intro stem hstem
      obtain ⟨t, d, e, v, rfl, -, -, hv⟩ := exists_append_dev_of_devStem? hstem
      exact hlast (by simp [hv])
    simp only [normalizePlain, isMaster_append_build, devName?_append_build, hnone,
      withoutBuild_append_build hne hsolid hplus hm, hrelease, hstem, Option.map_none,
      Bool.false_eq_true, if_false] at h
    cases h
  · simp only [normalizePlain, isMaster_append_build, devName?_append_build, hsome, Option.map_some,
      Bool.false_eq_true, if_false] at h
    cases h
    exact ⟨_, rfl⟩

end Normalize

end VersionRange
