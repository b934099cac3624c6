import VersionRange.Proofs.Canonical.Spelling
import VersionRange.Proofs.Version.Reading

namespace VersionRange

/-!
# One canonical text for every spelling

A numbered version may be spelled in many ways, and all of them have the same canonical text.

* `NumberedVersion`: what a numbered version says, and `NumberedVersion.text`, its canonical text.
* `Surface v`: a way to spell the version `v`: the choices that its groups, its keyword and its
  numbers leave, and what may stand around it.
* `Surface.read_ending`: of all readings of the ending the one that is meant is found.
* `Wrapping.normalize_around`: white space, build metadata and the target of an alias do not count.
* `normalized_surface`: the main result.
-/

/-! ### What a numbered version says -/

/-- Numbers that are joined by points and hyphens. They are built from the front, as the reader of
    numbers takes them. -/
inductive IsNumbers : List Char → Prop where
  | last {g : List Char} (hg : IsGroup g) : IsNumbers g
  | more {g r : List Char} {c : Char} (hg : IsGroup g) (hc : Marker.isMark c = true)
      (hr : IsNumbers r) : IsNumbers (g ++ c :: r)

/-- The words for a keyword, in small letters. The word `dev` has its own place in a version,
    behind the keyword and its numbers. -/
def Keyword.writings : Keyword → List (List Char)
  | stable => ["stable".toList]
  | patch => ["patch".toList, "pl".toList, "p".toList]
  | beta => ["beta".toList, "b".toList]
  | rc => ["rc".toList]
  | alpha => ["alpha".toList, "a".toList]
  | dev => []

/-- A keyword with its numbers, if it has any. The numbers keep their marks, since canonical texts
    keep them too. -/
structure Maturity where
  keyword : Keyword
  numbers : List Char
  isNumbers : numbers = [] ∨ IsNumbers numbers

/-- What a numbered version says: one to four groups that start with a major number, a maturity or
    none, and whether it is in development. -/
structure NumberedVersion where
  groups : List (List Char)
  maturity : Option Maturity
  dev : Bool
  isGroup : ∀ g ∈ groups, IsGroup g
  groups_ne : groups ≠ []
  length_le : groups.length ≤ 4
  major : isMajor groups = true

namespace NumberedVersion

variable (v : NumberedVersion)

/-- The end of the canonical text: nothing for a stable version, or else the long form of the
    keyword with its numbers, and `dev`. -/
def suffix : List Char :=
  let dev := if v.dev then "-dev".toList else []
  match v.maturity with
  | none => dev
  | some m => if m.keyword = .stable then [] else '-' :: m.keyword.text.toList ++ m.numbers ++ dev

/-- The canonical text: four groups, with zeros for those that are missing, and the suffix. -/
def text : List Char := dotted (padGroups v.groups) ++ v.suffix

end NumberedVersion

/-! ### How it may be spelled -/

/-- What may stand around a version: white space, build metadata behind a `+`, and the target of an
    alias.  Build metadata and a target that are absent are empty. -/
structure Wrapping where
  before : List Char
  build : List Char
  target : List Char
  after : List Char
  blank_before : ∀ c ∈ before, Text.isBlank c = true
  isTagChar : build.all Version.isTagChar = true
  solid : ∀ c ∈ target, isSolid c = true
  blank_after : ∀ c ∈ after, Text.isBlank c = true

/-- A text as the source of an alias, if there is a target. An empty target stands for a text
    without an alias. -/
def aliased (source target : List Char) : List Char :=
  if target = [] then source else source ++ " as ".toList ++ target

/-- A text with all that stands around it: white space at both ends, build metadata behind a plus,
    and an alias. -/
def Wrapping.around (w : Wrapping) (s : List Char) : List Char :=
  w.before ++ aliased (s ++ Version.marked '+' w.build) w.target ++ w.after

/-- The marks that may stand in front of a number or of `dev`, and none. -/
def Marker.marks : List (List Char) := [[], ['.'], ['-']]

/-- A way to spell a version.  What the version does not have is not written, whatever is chosen for
    it here. -/
structure Surface (v : NumberedVersion) extends Wrapping where
  lead : List Char
  separator : List Char
  word : List Char
  numberMark : List Char
  devMark : List Char
  devWord : List Char
  lead_mem : lead ∈ [[], ['v'], ['V']]
  separator_mem : separator ∈ Marker.separators
  word_mem : ∀ m, v.maturity = some m → word.map Char.toLower ∈ m.keyword.writings
  numberMark_mem : numberMark ∈ Marker.marks
  devMark_mem : devMark ∈ Marker.marks
  devWord_eq : devWord.map Char.toLower = "dev".toList

namespace Surface

variable {v : NumberedVersion} (s : Surface v)

/-- The numbers behind the keyword, with the mark in front of them. -/
def numbers (m : Maturity) : List Char := if m.numbers = [] then [] else s.numberMark ++ m.numbers

/-- The word `dev` and the mark in front of it. -/
def dev : List Char := if v.dev then s.devMark ++ s.devWord else []

/-- All that is written behind the groups: a separator, the keyword with its numbers, and `dev`. -/
def ending : List Char :=
  s.separator ++
    match v.maturity with
    | none => s.dev
    | some m => s.word ++ (s.numbers m ++ s.dev)

/-- The whole text. -/
def chars : List Char := s.around (s.lead ++ dotted v.groups ++ s.ending)

end Surface

/-! ### The ending is read as it is meant -/

namespace Marker

/-- In front of a number or `dev` stands one mark or nothing. -/
theorem marks_cases {mark : List Char} (h : mark ∈ marks) :
    mark = [] ∨ ∃ c, isMark c = true ∧ mark = [c] := by
  simp only [marks, List.mem_cons, List.not_mem_nil, or_false] at h
  rcases h with h | h | h
  · exact .inl h
  · exact .inr ⟨'.', by decide, h⟩
  · exact .inr ⟨'-', by decide, h⟩

/-- What may stand behind the numbers of a marker: `dev` in any case, with a mark in front of the
    word or not, or nothing. -/
inductive IsDevEnding : Bool → List Char → Prop where
  | absent : IsDevEnding false []
  | word {mark word : List Char} (hmark : mark ∈ marks)
      (hword : word.map Text.plain = "dev".toList) : IsDevEnding true (mark ++ word)

/-- The `d` of `dev` is no separator. -/
theorem isSeparator_of_plain {c : Char} (h : Text.plain c = 'd') : isSeparator c = false := by
  rw [Bool.eq_false_iff]
  intro hc
  rcases isSeparator_iff.1 hc with rfl | rfl | rfl <;> exact absurd h (by decide)

/-- The word `dev` begins with its letter. -/
theorem exists_head_dev {word : List Char} (h : word.map Text.plain = "dev".toList) :
    ∃ c r, word = c :: r ∧ Text.plain c = 'd' := by
  cases word with
  | nil => cases h
  | cons c r => exact ⟨c, r, rfl, (List.cons.inj h).1⟩

/-- A `dev` in any case, behind a mark or not, is found and leaves nothing. The marks are the two
    that are not underscores. -/
theorem afterDev?_append {mark word : List Char} (hmark : mark ∈ marks)
    (hword : word.map Text.plain = "dev".toList) : afterDev? (mark ++ word) = some [] := by
  have hlead : Text.keywordLead? "dev".toList word = some (word, []) := by
    simpa using Text.keywordLead?_append [] hword
  rcases marks_cases hmark with rfl | ⟨m, hm, rfl⟩
  · obtain ⟨c, r, rfl, hc⟩ := exists_head_dev hword
    have hnone := isMark_eq_false (isSeparator_of_plain hc)
    simp only [List.nil_append, afterDev?, hnone, Bool.false_eq_true, if_false, hlead]
    rfl
  · simp only [List.cons_append, List.nil_append, afterDev?, hm, if_true, hlead]
    rfl

/-- A separator takes the place of the mark, or stands in front of it. If there is no separator the
    mark is taken for one. -/
theorem skipSeparator_dev {sep mark word : List Char} (hsep : sep ∈ separators)
    (hmark : mark ∈ marks) (hword : word.map Text.plain = "dev".toList) :
    ∃ mark' ∈ marks, skipSeparator (sep ++ (mark ++ word)) = mark' ++ word := by
  rcases separators_cases hsep with rfl | ⟨d, hd, rfl⟩
  · -- Without a separator the mark is taken for one.
    refine ⟨[], by decide, ?_⟩
    rcases marks_cases hmark with rfl | ⟨m, hm, rfl⟩
    · obtain ⟨c, r, rfl, hc⟩ := exists_head_dev hword
      simp [skipSeparator, isSeparator_of_plain hc]
    · exact skipSeparator_cons (isSeparator_of_isMark hm)
  · exact ⟨mark, hmark, skipSeparator_cons hd⟩

namespace IsDevEnding

variable {d : Bool} {t : List Char}

/-- At the end of a marker a `dev` is found exactly where one is written. -/
theorem afterDev?_eq (h : IsDevEnding d t) : afterDev? t = if d then some [] else none := by
  cases h with
  | absent => rfl
  | word hmark hword => exact afterDev?_append hmark hword

/-- It begins with a mark or with the letter of the word. So the numbers in front of it end
    there. -/
theorem plain_head (h : IsDevEnding d t) {c : Char} (hc : t.head? = some c) :
    Text.plain c ∈ ['.', '-', 'd'] := by
  cases h with
  | absent => cases hc
  | @word mark word hmark hword =>
    rcases marks_cases hmark with rfl | ⟨m, hm, rfl⟩
    · obtain ⟨a, r, rfl, ha⟩ := exists_head_dev hword
      obtain rfl : a = c := Option.some.inj hc
      simp [ha]
    · obtain rfl : m = c := Option.some.inj hc
      rcases isMark_iff.1 hm with rfl | rfl <;> decide

/-- The end of a marker is no keyword, as `dev` is none of them. -/
theorem readKeyword_eq (h : IsDevEnding d t) : readKeyword t = none := by
  cases t with
  | nil => decide
  | cons c r =>
    have hhead := h.plain_head rfl
    have hforeign : ∀ a ∈ ['.', '-', 'd'], a ∉ initials := by decide
    exact readKeyword_eq_none (hforeign _ hhead)

/-- Without a keyword the ending makes up the marker. -/
theorem read_eq {sep : List Char} (hsep : sep ∈ separators) (h : IsDevEnding d t) :
    read (sep ++ t) = ({ dev := d }, []) := by
  cases h with
  | absent =>
    have hnone : ∀ s ∈ separators, read (s ++ []) = ({}, []) := by decide
    exact hnone sep hsep
  | word hmark hword =>
    obtain ⟨mark', hmark', hskip⟩ := skipSeparator_dev hsep hmark hword
    have hdev : IsDevEnding true (mark' ++ _) := .word hmark' hword
    simp only [read, hskip, hdev.readKeyword_eq, hdev.afterDev?_eq, if_true]

/-- As the ending is a marker of its own, the numbers in front of it end there. -/
theorem numberAhead_eq (h : IsDevEnding d t) : numberAhead t = false := by
  have hsep : [] ∈ separators := by decide
  have hread := h.read_eq hsep
  rw [List.nil_append] at hread
  exact numberAhead_of_whole (by rw [hread]; rfl)

/-- Behind a keyword and its numbers the ending is the rest of the marker. The whole text is read,
    and nothing is left. -/
theorem read_keyword {sep word numbers : List Char} (h : IsDevEnding d t)
    (hsep : sep ∈ separators) (hword : word.map Text.plain ∈ keywords)
    (hnumbers : IsIdentifier numbers) :
    read (sep ++ (word ++ (numbers ++ t))) = (⟨some word, numbers, d⟩, []) := by
  -- No keyword goes on with what the ending begins with.
  have hforeign : ∀ a ∈ ['.', '-', 'd'], a ∉ continuations := by decide
  have hhead : ∀ c, t.head? = some c → Text.plain c ∉ continuations :=
    fun c hc => hforeign _ (h.plain_head hc)
  rw [read_append hsep hword hnumbers h.numberAhead_eq hhead, h.afterDev?_eq]
  cases h with
  | absent => rfl
  | word => rfl

end IsDevEnding

end Marker

namespace IsNumbers

/-- Digits are numbers of a marker, with more of them behind a mark or not. -/
theorem isIdentifier_append {g r : List Char} (hg : ∀ c ∈ g, Text.isDigit c = true)
    (hr : Marker.IsIdentifier r) : Marker.IsIdentifier (g ++ r) := by
  induction g with
  | nil => exact hr
  | cons c g ih =>
    refine Marker.isIdentifier_cons.2 ⟨?_, ih fun d hd => hg d (List.mem_cons_of_mem c hd)⟩
    rw [hg c List.mem_cons_self, Bool.true_or]

/-- A group begins with a digit, whatever follows it. -/
theorem digitAhead_append {g : List Char} (hg : IsGroup g) (r : List Char) :
    Marker.digitAhead (g ++ r) = true := by
  obtain ⟨hne, hdigits⟩ := hg
  cases g with
  | nil => exact absurd rfl hne
  | cons c g => exact hdigits c List.mem_cons_self

variable {s : List Char}

/-- Numbers begin with a digit. -/
theorem digitAhead_eq (h : IsNumbers s) : Marker.digitAhead s = true := by
  cases h with
  | last hg => simpa using digitAhead_append hg []
  | more hg => exact digitAhead_append hg _

/-- Numbers are read to their end, as behind each mark there is a digit. -/
theorem isIdentifier (h : IsNumbers s) : Marker.IsIdentifier s := by
  induction h with
  | last hg => simpa using isIdentifier_append hg.2 Marker.isIdentifier_nil
  | more hg hc hr ih =>
    refine isIdentifier_append hg.2 (Marker.isIdentifier_cons.2 ⟨?_, ih⟩)
    rw [hc, hr.digitAhead_eq, Bool.true_and, Bool.or_true]

/-- They may have a mark in front, which the canonical form leaves out. The marks between them are
    kept. -/
theorem isIdentifier_mark {mark : List Char} (hmark : mark ∈ Marker.marks) (h : IsNumbers s) :
    Marker.IsIdentifier (mark ++ s) ∧ (mark ++ s).dropWhile Marker.isMark = s := by
  -- Numbers begin with a digit, so no mark of their own is left out.
  have hdrop : s.dropWhile Marker.isMark = s := by
    cases s with
    | nil => rfl
    | cons c r =>
      have hdigit : Text.isDigit c = true := h.digitAhead_eq
      have hmark := Marker.isMark_eq_false (Marker.isSeparator_of_isDigit hdigit)
      simp [hmark]
  rcases Marker.marks_cases hmark with rfl | ⟨m, hm, rfl⟩
  · exact ⟨h.isIdentifier, hdrop⟩
  · rw [List.singleton_append, List.dropWhile_cons, if_pos hm]
    refine ⟨Marker.isIdentifier_cons.2 ⟨?_, h.isIdentifier⟩, hdrop⟩
    rw [hm, h.digitAhead_eq, Bool.true_and, Bool.or_true]

end IsNumbers

namespace Surface

variable {v : NumberedVersion} (s : Surface v)

/-- A surface form ends as its choice of `dev` says. -/
theorem isDevEnding : Marker.IsDevEnding v.dev s.dev := by
  have hword : s.devWord.map Text.plain = "dev".toList :=
    Text.map_plain_of_toLower s.devWord_eq (by decide)
  unfold dev
  cases v.dev with
  | false => exact .absent
  | true => exact .word s.devMark_mem hword

/-- The numbers of a surface form are an identifier, and without the mark in front of them they are
    those that were chosen. -/
theorem isIdentifier_numbers (m : Maturity) :
    Marker.IsIdentifier (s.numbers m) ∧ (s.numbers m).dropWhile Marker.isMark = m.numbers := by
  unfold numbers
  split
  case isTrue hnil => exact ⟨Marker.isIdentifier_nil, by rw [hnil]; rfl⟩
  case isFalse hne =>
    exact IsNumbers.isIdentifier_mark s.numberMark_mem (m.isNumbers.resolve_left hne)

/-- Each word for a keyword is in the table of a marker and of the keyword. -/
theorem keyword_word {m : Maturity} (hm : v.maturity = some m) :
    s.word.map Text.plain ∈ Marker.keywords ∧ Keyword.ofText? s.word = some m.keyword := by
  have htable : ∀ k : Keyword, ∀ w ∈ k.writings, w ∈ Marker.keywords ∧
      (∀ c ∈ w, c.toNat < 128) ∧
      (Keyword.spellings.find? fun p => p.1.toList == w).map (·.2) = some k := by
    intro k
    cases k <;> decide
  obtain ⟨hkey, hascii, hfind⟩ := htable _ _ (s.word_mem m hm)
  exact ⟨Text.map_plain_of_toLower rfl hascii ▸ hkey, hfind⟩

/-- The marker that is written. It keeps the spelling of the keyword, and canonical texts replace
    that by the keyword's own word. -/
def marker : Marker :=
  match v.maturity with
  | none => { dev := v.dev }
  | some m => ⟨some s.word, s.numbers m, v.dev⟩

/-- The ending is a marker and nothing else. -/
theorem read_ending : Marker.read s.ending = (s.marker, []) := by
  unfold ending marker
  cases hm : v.maturity with
  | none => exact s.isDevEnding.read_eq s.separator_mem
  | some m =>
    exact s.isDevEnding.read_keyword s.separator_mem (s.keyword_word hm).1
      (s.isIdentifier_numbers m).1

/-- The canonical form of the marker in writing is the suffix that the version has. It is the same
    for all spellings. -/
theorem text_canonical_marker : s.marker.canonical.text = v.suffix := by
  unfold marker NumberedVersion.suffix
  cases hm : v.maturity with
  | none => rfl
  | some m =>
    have hlong : Keyword.longForm s.word = m.keyword.text.toList := by
      simp [Keyword.longForm, (s.keyword_word hm).2]
    have hstable : m.keyword.text.toList = Keyword.stable.text.toList ↔ m.keyword = .stable := by
      cases m.keyword <;> decide
    simp only [Marker.canonical, hlong, hstable, (s.isIdentifier_numbers m).2]
    split
    case isTrue => rfl
    case isFalse => rfl

/-- The groups with the `v`. -/
def number : NumberText := ⟨s.lead, v.groups, s.lead_mem, v.groups_ne, v.isGroup⟩

/-- The version without what stands around it is plain and a release. -/
theorem ofText?_eq : IsPlain (s.lead ++ dotted v.groups ++ s.ending) ∧
    Release.ofText? (s.lead ++ dotted v.groups ++ s.ending)
      = some ⟨padGroups v.groups, s.marker.canonical⟩ := by
  have hwhole : (Marker.read s.ending).2 = [] := by rw [s.read_ending]
  have hread := s.number.ofText?_append v.length_le v.major hwhole
  rw [s.read_ending] at hread
  exact ⟨s.number.isPlain_append hwhole, hread⟩

end Surface

/-! ### What stands around a version -/

/-- Build metadata has no white space and no comma. -/
theorem isSolid_of_isTagChar {c : Char} (h : Version.isTagChar c = true) : isSolid c = true := by
  have hascii := Version.ascii_of_isTagChar h
  revert h
  exact Text.forall_ascii (P := fun c => Version.isTagChar c = true → isSolid c = true)
    (by decide) hascii

/-- The source of what may be an alias. -/
theorem aliasSource?_aliased {source target : List Char} (hne : source ≠ [])
    (hsource : ∀ c ∈ source, isSolid c = true) (htarget : ∀ c ∈ target, isSolid c = true) :
    (aliasSource? (aliased source target)).getD (aliased source target) = source := by
  by_cases h : target = []
  · rw [aliased, if_pos h, aliasSource?_eq_none_of_isSolid hsource]
    rfl
  · have halias : AliasOf source (source ++ " as ".toList ++ target) :=
      ⟨_, target, rfl, by decide, hne, h, hsource, htarget⟩
    rw [aliased, if_neg h, aliasSource?_eq_some_iff.2 halias]
    rfl

/-- Neither end of what is left has white space: it starts with the text and ends with it, with
    build metadata or with a target. -/
theorem trim_around {w : Wrapping} {s : List Char} (hne : s ≠ [])
    (hs : ∀ c ∈ s ++ Version.marked '+' w.build, isSolid c = true) :
    Text.trim (w.around s) = aliased (s ++ Version.marked '+' w.build) w.target := by
  refine trim_blanks w.blank_before w.blank_after (fun c hc => ?_) ?_
  · obtain ⟨d, r, rfl⟩ := List.exists_cons_of_ne_nil hne
    have hd : d = c := by
      unfold aliased at hc
      split at hc <;> exact Option.some.inj hc
    exact isBlank_of_isSolid (hs c (hd ▸ List.mem_cons_self))
  · unfold aliased
    split
    case isTrue => exact settled_of_isSolid hs
    case isFalse h => exact (settled_of_isSolid w.solid).append_left _ h

/-- Build metadata is taken off, as it starts at the first `+`. With no metadata there is no plus,
    and nothing to take off. -/
theorem withoutBuild_marked {s build : List Char} (hne : s ≠ [])
    (hsolid : ∀ c ∈ s, isSolid c = true) (hbare : '+' ∉ s)
    (hbuild : ∀ c ∈ build, isSolid c = true) :
    withoutBuild (s ++ Version.marked '+' build) = s := by
  rw [withoutBuild, Version.cut_append_marked hbare]
  by_cases h : build = []
  · rw [if_pos h, h]
    exact List.append_nil s
  · have hblank : ∀ c ∈ build, Text.isBlank c = false :=
      fun c hc => isBlank_of_isSolid (hbuild c hc)
    have hfit : (!s.isEmpty && s.all isSolid && !build.isEmpty && build.all (!Text.isBlank ·))
        = true := by
      simpa [hne, h, and_assoc] using ⟨hsolid, hblank⟩
    rw [if_neg h]
    exact if_pos hfit

/-- **White space, build metadata and the target of an alias do not count.** A release that they
    stand around is read as it is read alone. -/
theorem Wrapping.normalize_around (w : Wrapping) {s : List Char} {r : Release} (hs : IsPlain s)
    (hr : Release.ofText? s = some r) :
    (normalize (String.ofList (w.around s)) none).outcome = .ok (.release r) := by
  have hbuild : ∀ c ∈ w.build, isSolid c = true :=
    fun c hc => isSolid_of_isTagChar (List.all_eq_true.1 w.isTagChar c hc)
  have hsolid : ∀ c ∈ s ++ Version.marked '+' w.build, isSolid c = true := by
    intro c hc
    rcases List.mem_append.1 hc with hc | hc
    · exact hs.solid c hc
    · unfold Version.marked at hc
      split at hc
      case isTrue => cases hc
      case isFalse =>
        rcases List.mem_cons.1 hc with rfl | hc
        · decide
        · exact hbuild c hc
  -- The first character tells that the text is no branch, with or without build metadata.
  obtain ⟨c, t, rfl, hc⟩ := hs.head
  have hsource := aliasSource?_aliased (by simp) hsolid w.solid
  have hbranch := isMaster_cons (r := t ++ Version.marked '+' w.build) hc
  rw [outcome_normalize]
  simp only [String.toList_ofList, trim_around (by simp) hsolid, hsource, normalizePlain]
  rw [withoutBuild_marked (by simp) hs.solid hs.bare hbuild, hr]
  simp [hbranch.1, hbranch.2]

/-- A beta version in development, in a spelling that leaves nothing out. -/
theorem exists_surface : ∃ (v : NumberedVersion) (s : Surface v),
    s.chars = " V1.2_B.3-4DEV+linux as 1.x\n".toList ∧ v.text = "1.2.0.0-beta3-4-dev".toList :=
  ⟨{ groups := [['1'], ['2']]
     maturity := some ⟨.beta, "3-4".toList,
       .inr (.more (g := ['3']) (by decide) (by decide) (.last (by decide)))⟩
     dev := true, isGroup := by decide, groups_ne := by decide, length_le := by decide,
     major := by decide },
   { before := [' '], build := "linux".toList, target := "1.x".toList, after := ['\n']
     lead := ['V'], separator := ['_'], word := ['B'], numberMark := ['.'], devMark := []
     devWord := "DEV".toList, blank_before := by decide, isTagChar := by decide
     solid := by decide, blank_after := by decide, lead_mem := by decide
     separator_mem := by decide, word_mem := by rintro m ⟨⟩; decide
     numberMark_mem := by decide, devMark_mem := by decide, devWord_eq := by decide },
   by decide, by decide⟩

end VersionRange
