import VersionRange.Proofs.Canonical.Branch
import VersionRange.Proofs.Outcome
import VersionRange.Query

namespace VersionRange

/-!
# Canonical texts are stable

What comes out of normalizing may be normalized again.  A version comes back as it is, a branch as
the name that it is read as, and after that nothing changes any more.

* `Canonical.OfPlain`, `Canonical.OfBranch`: what a version text and the name of a branch may mean,
  by their forms.
* `Canonical.IsNormal`: the canonical forms that reading gives.
* `normalize_numeric`, `normalize_branch`: what the text of such a form is read as.
* `branchReading`: the text that a branch is read as.
* `StableText`: what normalizing such a text again gives.
* `normalized_stable`: the main result.
-/

/-! ### What normalizing gives -/

/-- The numeric branch with four groups: a release that is in development. -/
def numericBranch (gs : List (List Char)) : Release := ⟨gs, { dev := true }⟩

/-- A canonical form as normalizing gives it: a release, or a branch whose name does not end with
    white space. -/
inductive Canonical.IsNormal : Canonical → Prop where
  | master : IsNormal .master
  | branch {name : List Char} (h : Settled name) : IsNormal (.branch name)
  | release {r : Release} (h : r.IsNormal) : IsNormal (.release r)
  | numeric {gs : List (List Char)} (hgs : ∀ g ∈ gs, IsGroup g) (hlen : gs.length = 4) :
      IsNormal (.release (numericBranch gs))

/-- What the name of a branch may mean: the main line, a numeric branch or the end of the name. A
    name loses at most what stands in front of it, which is why the last case has an end of `b`. -/
inductive Canonical.OfBranch (b : List Char) : Canonical → Prop where
  | master : OfBranch b .master
  | numeric {gs : List (List Char)} (h : branchGroups? (Text.trim b) = some gs) :
      OfBranch b (.release (numericBranch gs))
  | named {name : List Char} (h : name <:+ Text.trim b) : OfBranch b (.branch name)

/-- What a version text that is no alias may mean, by the form that it has. The forms are those of
    the normalizer, in the sequence in which it tries them. -/
inductive Canonical.OfPlain (s : List Char) : Canonical → Prop where
  | master (h : isMaster s = true) : OfPlain s .master
  | branch {name : List Char} (h : devName? s = some name) : OfPlain s (.branch name)
  | release {r : Release} (h : Release.ofText? (withoutBuild s) = some r) : OfPlain s (.release r)
  | stem {stem : List Char} {c : Canonical} (h : devStem? (withoutBuild s) = some stem)
      (hc : OfBranch stem c) : OfPlain s c

/-- The three ways in which the name of a branch is read are the three forms of what it may mean.
    There is no fourth one, and no name is refused. -/
theorem ofBranch_of_normalizeBranch {ε : Type} {b : String} {c : Canonical}
    (h : (normalizeBranch b : Traced ε Canonical).outcome = .ok c) : c.OfBranch b.toList := by
  unfold normalizeBranch at h
  dsimp only at h
  split at h
  case isTrue =>
    simp only [Traced.outcome_bind, Traced.outcome_receive, Except.bind, Traced.outcome_pure,
      Except.ok.injEq] at h
    exact h ▸ .master
  case isFalse =>
    split at h
    case h_1 gs hgs =>
      cases h
      exact .numeric hgs
    case h_2 =>
      split at h
      case h_1 name hname =>
        cases h
        exact .named ⟨_, (Text.afterLead?_eq_some_iff.1 hname).symm⟩
      case h_2 =>
        cases h
        exact .named (List.dropWhile_suffix _)

/-- The forms of a version text are tried in this order; which one comes first is not said here. -/
theorem ofPlain_of_normalizePlain {s full : List Char} {c : Canonical}
    (h : (normalizePlain s full).outcome = .ok c) : c.OfPlain s := by
  unfold normalizePlain at h
  split at h
  case isTrue hmaster =>
    cases h
    exact .master hmaster
  case isFalse =>
    split at h
    case h_1 name hname =>
      cases h
      exact .branch hname
    case h_2 =>
      dsimp only at h
      split at h
      case h_1 r hr =>
        cases h
        exact .release hr
      case h_2 =>
        split at h
        case h_1 stem hstem =>
          have hbranch := ofBranch_of_normalizeBranch h
          rw [String.toList_ofList] at hbranch
          exact .stem hstem hbranch
        case h_2 => cases h

/-- The name of a branch is the end of its text. -/
theorem devName?_isSuffix {s name : List Char} (h : devName? s = some name) : name <:+ s := by
  obtain ⟨p, hp, rfl⟩ := Option.map_eq_some_iff.1 h
  obtain ⟨raw, name⟩ := p
  exact ⟨raw, (Text.eq_append_of_keywordLead? hp).1.symm⟩

/-- Whatever a branch means is of normal form. -/
theorem Canonical.OfBranch.isNormal {b : List Char} {c : Canonical} (h : c.OfBranch b) :
    c.IsNormal := by
  cases h with
  | master => exact .master
  | numeric h =>
    obtain ⟨hgroups, hlen⟩ := branchGroups?_sound h
    exact .numeric hgroups hlen
  | named h => exact .branch ((settled_trim b).of_suffix h)

/-- So what the name of a branch is normalized to is of normal form. -/
theorem isNormal_of_normalizeBranch {ε : Type} {b : String} {c : Canonical}
    (h : (normalizeBranch b : Traced ε Canonical).outcome = .ok c) : c.IsNormal :=
  (ofBranch_of_normalizeBranch h).isNormal

/-- So is what a version text is normalized to, if it does not end with white space: a branch keeps
    the end of the text. -/
theorem isNormal_of_normalizePlain {s full : List Char} {c : Canonical} (hs : Settled s)
    (h : (normalizePlain s full).outcome = .ok c) : c.IsNormal := by
  cases ofPlain_of_normalizePlain h with
  | master => exact .master
  | branch hname => exact .branch (hs.of_suffix (devName?_isSuffix hname))
  | release hr => exact .release (Release.isNormal_of_ofText? hr)
  | stem _ hc => exact hc.isNormal

/-- The text that counts, which is the source of an alias, has no white space at its end. -/
theorem settled_source (v : List Char) :
    Settled ((aliasSource? (Text.trim v)).getD (Text.trim v)) := by
  cases h : aliasSource? (Text.trim v) with
  | none => exact settled_trim v
  | some source =>
    obtain ⟨-, -, -, -, -, -, hsource, -⟩ := aliasSource?_eq_some_iff.1 h
    exact settled_of_isSolid hsource

/-- **Normal forms.** Whatever normalizing gives is of normal form, for aliases and all
    other texts. -/
theorem isNormal_of_normalize {v : String} {full : Option String} {c : Canonical}
    (h : (normalize v full).outcome = .ok c) : c.IsNormal := by
  rw [outcome_normalize] at h
  exact isNormal_of_normalizePlain (settled_source v.toList) h

/-! ### Numbers come back -/

/-- The letters that names of branches begin with: of the main line of development and behind
    `dev-`. -/
def branchInitials : List Char := ['d', 'm', 't']

/-- A text that starts like no branch and holds no white space, no comma and no plus. Neither an
    alias nor build metadata is found in it. -/
structure IsPlain (s : List Char) : Prop where
  head : ∃ c r, s = c :: r ∧ Text.plain c ∉ branchInitials
  solid : ∀ c ∈ s, isSolid c = true
  bare : '+' ∉ s

/-- A digit is no letter of a branch. -/
theorem not_mem_branchInitials {c : Char} (h : Text.isDigit c = true) :
    Text.plain c ∉ branchInitials := by
  rw [Text.plain_of_isDigit h]
  exact Marker.not_mem_of_isDigit h (by decide)

/-- A text that starts like no branch spells none. Its first letter is neither that of `dev-` nor
    that of a name of the main line. -/
theorem isMaster_cons {c : Char} {r : List Char} (h : Text.plain c ∉ branchInitials) :
    isMaster (c :: r) = false ∧ devName? (c :: r) = none := by
  have hd : Text.plain c ≠ 'd' := by
    intro heq
    exact h (by rw [heq]; decide)
  have hlead : Text.keywordLead? "dev-".toList (c :: r) = none := keywordLead?_eq_none hd
  have hword : ∀ m ∈ masterBranches, Text.isKeyword m (c :: r) = false := by
    intro m hm
    rw [Bool.eq_false_iff]
    intro hkey
    rw [Text.isKeyword_iff, List.map_cons] at hkey
    -- The names of the main line begin with letters that this text does not begin with.
    have hinitial : ∀ m ∈ masterBranches, m.headD 'm' ∈ branchInitials := by decide
    have hhead := hinitial m hm
    rw [← hkey] at hhead
    exact h hhead
  constructor
  · simp only [isMaster, hlead, List.any_eq_false, Bool.not_eq_true]
    exact hword
  · simp only [devName?, hlead]
    rfl

/-- A plain text is no branch. -/
theorem IsPlain.isBranch_eq_false {s : List Char} (h : IsPlain s) :
    isBranch (String.ofList s) = false := by
  rw [isBranch, String.toList_ofList (l := s), Bool.eq_false_iff]
  intro hlead
  obtain ⟨r, rfl⟩ := Text.startsWith_iff.1 hlead
  obtain ⟨c, t, heq, hc⟩ := h.head
  have hd : 'd' = c := (List.cons.inj heq).1
  exact hc (hd ▸ by decide)

/-- A text without white space and commas is no alias, and nothing is cut off at its ends. -/
theorem outcome_normalize_of_isSolid {s : List Char} (h : ∀ c ∈ s, isSolid c = true)
    (full : Option String) :
    (normalize (String.ofList s) full).outcome
      = (normalizePlain s ((full.map String.toList).getD s)).outcome := by
  rw [outcome_normalize]
  simp only [String.toList_ofList, trim_of_isSolid h, aliasSource?_eq_none_of_isSolid h,
    Option.getD_none]

/-- A plain text is a release or a numeric branch. If it is neither, the report is about the text
    as it stands. -/
theorem normalize_plain {s : List Char} (h : IsPlain s) (full : Option String) :
    (normalize (String.ofList s) full).outcome =
      match Release.ofText? s with
      | some r => .ok (.release r)
      | none =>
        match devStem? s with
        | some stem => (normalizeBranch (String.ofList stem)).outcome
        | none => .error (versionReport s ((full.map String.toList).getD s)) := by
  -- Of the ways to read a text those of branches are out at once, and there is no metadata to
  -- take off.
  have hmaster : isMaster s = false ∧ devName? s = none := by
    obtain ⟨c, r, rfl, hc⟩ := h.head
    exact isMaster_cons hc
  have hbuild : withoutBuild s = s := by
    simp only [withoutBuild, Text.cut_of_not_mem h.bare]
  rw [outcome_normalize_of_isSolid h.solid]
  simp only [normalizePlain, hmaster.1, hmaster.2, hbuild]
  cases Release.ofText? s with
  | some r => rfl
  | none => cases devStem? s <;> rfl

/-- The text of a release starts with a digit and holds no white space, no comma and no plus. So
    the ways to read branches and aliases are out. -/
theorem isPlain_dotted {gs : List (List Char)} {m : Marker} (hgs : ∀ g ∈ gs, IsGroup g)
    (hne : gs ≠ []) (hm : m.IsCanonical) : IsPlain (dotted gs ++ m.text) where
  head := by
    obtain ⟨c, r, heq, hc⟩ := exists_head_dotted hgs hne
    exact ⟨c, r ++ m.text, by rw [heq]; rfl, not_mem_branchInitials hc⟩
  solid c hc := by
    rcases List.mem_append.1 hc with hc | hc
    · exact isSolid_of_mem_dotted hgs hc
    · exact Marker.isSolid_of_isMarkerChar (Marker.isMarkerChar_of_mem_text hm hc)
  bare := by
    rw [List.mem_append, not_or]
    refine ⟨not_mem_dotted hgs (by decide) (by decide), fun hc => ?_⟩
    exact absurd (Marker.isMarkerChar_of_mem_text hm hc) (by decide)

/-- The text of a release is read as that release again. -/
theorem normalize_release {r : Release} (h : r.IsNormal) (full : Option String) :
    (normalize (String.ofList r.text) full).outcome = .ok (.release r) := by
  have hplain : IsPlain r.text := isPlain_dotted h.groups h.groups_ne_nil h.marker
  rw [normalize_plain hplain, Release.ofText?_text h]

/-- Four groups of digits are the name of the numeric branch with these groups. None of them is
    open, so they stay as they are. -/
theorem normalizeBranch_dotted {ε : Type} {gs : List (List Char)} (hgs : ∀ g ∈ gs, IsGroup g)
    (hlen : gs.length = 4) :
    (normalizeBranch (String.ofList (dotted gs)) : Traced ε Canonical).outcome
      = .ok (.release (numericBranch gs)) := by
  have hne : gs ≠ [] := List.ne_nil_of_length_eq_add_one hlen
  have hsolid : ∀ c ∈ dotted gs, isSolid c = true := fun c hc => isSolid_of_mem_dotted hgs hc
  have hmaster : masterBranches.contains (dotted gs) = false := by
    obtain ⟨c, r, heq, hc⟩ := exists_head_dotted hgs hne
    rw [List.contains_eq_mem, decide_eq_false_iff_not, heq]
    intro hmem
    -- The names of the main line hold no digit, and this text begins with one.
    have hletter : ∀ m ∈ masterBranches, ∀ d ∈ m, Text.isDigit d = false := by decide
    have := hletter _ hmem c (by simp)
    rw [hc] at this
    cases this
  simp only [normalizeBranch, String.toList_ofList, trim_of_isSolid hsolid, hmaster,
    branchGroups?_dotted hgs hlen]
  rfl

/-- The release of a numeric branch comes back: as a release, or else as the branch again. The
    latter is so if the first group is too long for a major number. -/
theorem normalize_numeric {gs : List (List Char)} (hgs : ∀ g ∈ gs, IsGroup g)
    (hlen : gs.length = 4) (full : Option String) :
    (normalize (String.ofList (numericBranch gs).text) full).outcome
      = .ok (.release (numericBranch gs)) := by
  have hne : gs ≠ [] := List.ne_nil_of_length_eq_add_one hlen
  have hm := Marker.isCanonical_dev true
  have hpad : padGroups gs = gs := padGroups_of_four_le (by omega)
  by_cases hmajor : isMajor gs = true
  · exact normalize_release ⟨hgs, hm, .inl ⟨hlen, hmajor⟩⟩ full
  · have hlong : 4 < gs.length ∨ isMajor gs = false := .inr (by simpa using hmajor)
    by_cases hdate : IsDate (dotted gs)
    · exact normalize_release ⟨hgs, hm, .inr ⟨hdate, hlong⟩⟩ full
    · -- No release has this text, so its `dev` is taken off and the groups are read as a branch.
      have hplain : IsPlain (numericBranch gs).text := isPlain_dotted hgs hne hm
      have hnone : Release.ofText? (numericBranch gs).text = none :=
        Release.ofText?_neither hgs hne hm hlong hdate
      have hstem : devStem? (numericBranch gs).text = some (dotted gs) :=
        devStem?_append_dev (not_mem_dotted hgs (by decide) (by decide))
      rw [normalize_plain hplain, hnone, hstem]
      exact normalizeBranch_dotted hgs hlen

/-- The main line of development comes back as a release with the same text. -/
theorem normalize_master (full : Option String) :
    ∃ c, (normalize "9999999-dev" full).outcome = .ok c ∧ c.text = "9999999-dev" := by
  have hnormal : Release.IsNormal ⟨[maxField.toList], { dev := true }⟩ :=
    Release.isNormal_of_ofText? (s := master.toList) (by decide)
  exact ⟨_, normalize_release hnormal full, by decide⟩

/-! ### Branches come back as what they are read as -/

/-- Whether a text spells `dev-` and a name of the main line of development, in any case. -/
def spellsMaster (s : List Char) : Bool :=
  ["dev-master", "dev-trunk", "dev-default"].any fun m => Text.isKeyword m.toList s

/-- The text that the text of a branch is read as: `9999999-dev` for the main line of development,
    and the text itself for all other branches. -/
def branchReading (s : List Char) : String :=
  if spellsMaster s then "9999999-dev" else String.ofList s

/-- With `dev-` in front the program's test is about the three names that are written out. The
    letters `dev-` are taken off first in both. -/
theorem isMaster_branch (name : List Char) :
    isMaster ("dev-".toList ++ name) = spellsMaster ("dev-".toList ++ name) := by
  have hlead : Text.keywordLead? "dev-".toList ("dev-".toList ++ name)
      = some ("dev-".toList, name) :=
    Text.keywordLead?_append name (by decide)
  -- The names that are written out are those of the table, each behind `dev-`.
  have hnames : ["dev-master", "dev-trunk", "dev-default"].map String.toList
      = masterBranches.map ("dev-".toList ++ ·) := by decide
  have hspells : spellsMaster ("dev-".toList ++ name)
      = (masterBranches.map ("dev-".toList ++ ·)).any
          fun m => Text.isKeyword m ("dev-".toList ++ name) := by
    rw [← hnames, List.any_map]
    rfl
  rw [isMaster, hlead, hspells, List.any_map]
  congr 1
  funext m
  rw [Function.comp, Bool.eq_iff_iff, Text.isKeyword_iff, Text.isKeyword_iff, List.map_append,
    show "dev-".toList.map Text.plain = "dev-".toList by decide]
  exact (List.append_cancel_left_eq _ _ _).symm.to_iff

/-- A text that starts with `dev-` and is no alias is the name of a branch. A name of the main line
    is that line, in any case. -/
theorem normalizePlain_branch (name full : List Char) :
    ∃ c, (normalizePlain ("dev-".toList ++ name) full).outcome = .ok c ∧
      c.text = branchReading ("dev-".toList ++ name) := by
  have hname : devName? ("dev-".toList ++ name) = some name := by
    rw [devName?, Text.keywordLead?_append name (by decide)]
    rfl
  unfold normalizePlain branchReading
  rw [← isMaster_branch]
  by_cases hmaster : isMaster ("dev-".toList ++ name) = true
  · rw [if_pos hmaster, if_pos hmaster]
    exact ⟨.master, rfl, by decide⟩
  · rw [if_neg hmaster, if_neg hmaster, hname]
    exact ⟨.branch name, rfl, rfl⟩

/-- The source of an alias that starts with `dev-` starts with it, too. The word of the alias
    cannot stand inside these letters. -/
theorem exists_name_of_aliasOf {source name : List Char}
    (h : AliasOf source ("dev-".toList ++ name)) : ∃ k, source = "dev-".toList ++ k := by
  have hsource := aliasSource?_eq_some_iff.2 h
  have hsolid : ∀ c ∈ "dev-".toList, isSolid c = true := by decide
  simp only [aliasSource?] at hsource
  split at hsource
  case h_1 => cases hsource
  case h_2 =>
    split at hsource
    case isTrue =>
      cases hsource
      exact ⟨_, List.takeWhile_append_of_pos hsolid⟩
    case isFalse => cases hsource

/-- What the text of a branch is read as: of an alias its source counts. Either way it is a text
    with `dev-` in front. -/
theorem normalize_branch {name : List Char} (h : Settled name) (full : Option String) :
    ∃ s c, (∃ k, s = "dev-".toList ++ k) ∧
      (aliasSource? ("dev-".toList ++ name)).getD ("dev-".toList ++ name) = s ∧
      (normalize (String.ofList ("dev-".toList ++ name)) full).outcome = .ok c ∧
      c.text = branchReading s := by
  have htrim : Text.trim ("dev-".toList ++ name) = "dev-".toList ++ name :=
    trim_of_settled (by decide) ((settled_of_isSolid (s := "dev-".toList) (by decide)).append h)
  -- The source of an alias begins as the alias does, so either way a branch is read.
  have hlead : ∃ k, (aliasSource? ("dev-".toList ++ name)).getD ("dev-".toList ++ name)
      = "dev-".toList ++ k := by
    cases halias : aliasSource? ("dev-".toList ++ name) with
    | none => exact ⟨name, rfl⟩
    | some source => exact exists_name_of_aliasOf (aliasSource?_eq_some_iff.1 halias)
  obtain ⟨k, hk⟩ := hlead
  rw [outcome_normalize]
  simp only [String.toList_ofList, htrim, hk]
  obtain ⟨c, hc, htext⟩ := normalizePlain_branch k ((full.map String.toList).getD
    ("dev-".toList ++ name))
  exact ⟨_, c, ⟨k, rfl⟩, rfl, hc, htext⟩

/-- The text of a branch that is no alias is stable. A name of the main line has become that line,
    and another one is read as itself. -/
theorem normalize_branchReading {k : List Char} (h : Settled k)
    (halias : aliasSource? ("dev-".toList ++ k) = none) (full : Option String) :
    ∃ c, (normalize (branchReading ("dev-".toList ++ k)) full).outcome = .ok c ∧
      c.text = branchReading ("dev-".toList ++ k) := by
  by_cases hmaster : spellsMaster ("dev-".toList ++ k) = true
  · rw [branchReading, if_pos hmaster]
    exact normalize_master full
  · obtain ⟨s, c, -, hs, hc, htext⟩ := normalize_branch h full
    obtain rfl : "dev-".toList ++ k = s := by rw [← hs, halias, Option.getD_none]
    have hreading : branchReading ("dev-".toList ++ k) = String.ofList ("dev-".toList ++ k) := by
      rw [branchReading, if_neg hmaster]
    exact ⟨c, hreading ▸ hc, htext⟩

/-! ### Stability -/

/-- The text of a branch says that it is one. -/
theorem isBranch_branch (name : List Char) : isBranch (Canonical.branch name).text = true := by
  rw [isBranch, Canonical.toList_text]
  exact Text.startsWith_iff.2 ⟨name, rfl⟩

/-- So it is not taken for a number. -/
theorem isBranch_branch_ne_false (name : List Char) :
    isBranch (Canonical.branch name).text ≠ false := by
  rw [isBranch_branch]
  decide

/-- The canonical text of a version is that of what the version means. -/
theorem outcome_normalized_eq_ok_iff {v w : String} :
    (normalized v).outcome = .ok w ↔
      ∃ c, (normalize v none).outcome = .ok c ∧ c.text = w := by
  simp only [normalized, Traced.outcome_bind, Traced.outcome_mapError, Traced.outcome_pure]
  cases (normalize v none).outcome with
  | error e => simp [Except.mapError, Except.bind]
  | ok c => simp [Except.mapError, Except.bind]

/-- What normalizing a canonical text again gives, and that it stays so. A release stays as it is;
    a branch may lose an alias or be the main line under another name, and then the second result
    is final. -/
def StableText (w : String) : Prop :=
  ∃ w₂, (normalized w).outcome = .ok w₂ ∧
    (isBranch w = false → w₂ = w) ∧
    (isBranch w = true →
      (∀ source, AliasOf source w.toList → w₂ = branchReading source) ∧
      ((∀ source, ¬ AliasOf source w.toList) → w₂ = branchReading w.toList)) ∧
    (normalized w₂).outcome = .ok w₂

/-- A text that is no branch and is read as itself stays as it is. -/
theorem stableText_of_eq {w : String} (h : (normalized w).outcome = .ok w)
    (hb : isBranch w = false) : StableText w := by
  refine ⟨w, h, fun _ => rfl, fun hw => ?_, h⟩
  rw [hb] at hw
  cases hw

/-- What is left of the text of a branch, once an alias is read as its source, is no alias. The
    source has no white space, and an alias has. -/
theorem aliasSource?_eq_none_of_branch {name k : List Char} (hname : Settled name)
    (h : (aliasSource? ("dev-".toList ++ name)).getD ("dev-".toList ++ name) = "dev-".toList ++ k) :
    Settled k ∧ aliasSource? ("dev-".toList ++ k) = none := by
  cases halias : aliasSource? ("dev-".toList ++ name) with
  | none =>
    rw [halias, Option.getD_none] at h
    obtain rfl := List.append_cancel_left h
    exact ⟨hname, halias⟩
  | some source =>
    rw [halias, Option.getD_some] at h
    obtain ⟨-, -, -, -, -, -, hsolid, -⟩ := aliasSource?_eq_some_iff.1 halias
    rw [h] at hsolid
    exact ⟨settled_of_isSolid fun c hc => hsolid c (by simp [hc]),
      aliasSource?_eq_none_of_isSolid hsolid⟩

/-- The text of a branch is read as the branch, or as the source of the alias that it is. After
    that nothing changes any more. -/
theorem stableText_branch {name : List Char} (hname : Settled name) :
    StableText (Canonical.branch name).text := by
  obtain ⟨s, c, ⟨k, rfl⟩, hs, hc, htext⟩ := normalize_branch hname none
  have hwtext : (Canonical.branch name).text.toList = "dev-".toList ++ name := by
    rw [Canonical.toList_text]
    rfl
  refine ⟨branchReading ("dev-".toList ++ k), ?_, ?_, fun _ => ⟨?_, ?_⟩, ?_⟩
  · exact outcome_normalized_eq_ok_iff.2 ⟨c, hc, htext⟩
  · exact fun hfalse => absurd hfalse (isBranch_branch_ne_false name)
  · intro source hsource
    rw [hwtext, ← aliasSource?_eq_some_iff] at hsource
    rw [← hs, hsource, Option.getD_some]
  · intro hnone
    have halias : aliasSource? ("dev-".toList ++ name) = none := by
      rw [Option.eq_none_iff_forall_ne_some]
      intro source hsource
      exact hnone source (hwtext ▸ aliasSource?_eq_some_iff.1 hsource)
    rw [← hs, halias, Option.getD_none, hwtext]
  · -- The second time there is no alias left to take the source of.
    obtain ⟨hk, halias⟩ := aliasSource?_eq_none_of_branch hname hs
    exact outcome_normalized_eq_ok_iff.2 (normalize_branchReading hk halias none)

/-- **Stability.** The text that a version or branch name is normalized to can be normalized again.
    A version comes back as it is.  Of a branch, or of the source of an alias if the text of the
    branch is one, the name counts; a name of the main line of development becomes that line.  The
    text that comes out then is left alone. -/
theorem normalized_stable {v w : String}
    (h : (normalized v).outcome = .ok w ∨
      ∃ c, (normalizeBranch v : Traced Fault Canonical).outcome = .ok c ∧ c.text = w) :
    ∃ w₂, (normalized w).outcome = .ok w₂ ∧
      (isBranch w = false → w₂ = w) ∧
      (isBranch w = true →
        (∀ source, AliasOf source w.toList → w₂ = branchReading source) ∧
        ((∀ source, ¬ AliasOf source w.toList) → w₂ = branchReading w.toList)) ∧
      (normalized w₂).outcome = .ok w₂ := by
  obtain ⟨c, hnormal, rfl⟩ : ∃ c : Canonical, c.IsNormal ∧ c.text = w := by
    rcases h with h | ⟨c, hc, htext⟩
    · obtain ⟨c, hc, htext⟩ := outcome_normalized_eq_ok_iff.1 h
      exact ⟨c, isNormal_of_normalize hc, htext⟩
    · exact ⟨c, isNormal_of_normalizeBranch hc, htext⟩
  show StableText c.text
  -- What normalizing gives is of one of four forms, and only of a branch more than the text comes
  -- back.
  cases hnormal with
  | master =>
    exact stableText_of_eq (outcome_normalized_eq_ok_iff.2 (normalize_master none)) (by decide)
  | release hr =>
    exact stableText_of_eq (outcome_normalized_eq_ok_iff.2 ⟨_, normalize_release hr none, rfl⟩)
      (isPlain_dotted hr.groups hr.groups_ne_nil hr.marker).isBranch_eq_false
  | @numeric gs hgs hlen =>
    have hne : gs ≠ [] := List.ne_nil_of_length_eq_add_one hlen
    have hnumeric := normalize_numeric hgs hlen none
    exact stableText_of_eq (outcome_normalized_eq_ok_iff.2 ⟨_, hnumeric, rfl⟩)
      (isPlain_dotted hgs hne (Marker.isCanonical_dev true)).isBranch_eq_false
  | branch hname => exact stableText_branch hname

/-- The text of a branch that is an alias is read as its source, and one that spells the main line
    of development as that line. -/
theorem normalized_stable_alias :
    ((normalized "x as y -dev").outcome = .ok "dev-x as y" ∧
      ∃ w₂, (normalized "dev-x as y").outcome = .ok w₂ ∧ w₂ = "dev-x" ∧
        (normalized w₂).outcome = .ok w₂) ∧
    (normalized "MASTER-dev").outcome = .ok "dev-MASTER" ∧
      ∃ w₂, (normalized "dev-MASTER").outcome = .ok w₂ ∧ w₂ = "9999999-dev" ∧
        (normalized w₂).outcome = .ok w₂ := by
  constructor
  · have hfirst : (normalized "x as y -dev").outcome = .ok "dev-x as y" :=
      eq_ok_of_toOption (by decide)
    obtain ⟨w₂, hw, -, hbranch, hstable⟩ := normalized_stable (.inl hfirst)
    have halias : AliasOf "dev-x".toList "dev-x as y".toList :=
      ⟨" as ".toList, "y".toList, by decide, by decide, by decide, by decide, by decide, by decide⟩
    have hsource := (hbranch (by decide)).1 _ halias
    exact ⟨hfirst, w₂, hw, hsource.trans (by decide), hstable⟩
  · have hfirst : (normalized "MASTER-dev").outcome = .ok "dev-MASTER" :=
      eq_ok_of_toOption (by decide)
    obtain ⟨w₂, hw, -, hbranch, hstable⟩ := normalized_stable (.inl hfirst)
    have hnone : ∀ source, ¬ AliasOf source "dev-MASTER".toList := by
      intro source halias
      have hsource : aliasSource? "dev-MASTER".toList = none := by decide
      rw [aliasSource?_eq_some_iff.2 halias] at hsource
      cases hsource
    have hmain := (hbranch (by decide)).2 hnone
    exact ⟨hfirst, w₂, hw, hmain.trans (by decide), hstable⟩

end VersionRange
