import VersionRange.Canonical.Stability
import VersionRange.Proofs.Canonical.Ending
import VersionRange.Proofs.Canonical.Readable

namespace VersionRange

/-!
# Maturity before and after normalization

How stable a version is, is decided by the marker that a search from the left finds at the end of
its text, in small letters.  Normalizing reads the whole text from the front.  Both come to the same
marker.

* `Marker.search_of_skipV`: behind numbers the search finds what reading finds.
* `Marker.read_toLower`: small letters are read like capitals.
* `Marker.stability`: the level that a marker stands for, and `Stability.ofVersion_eq`: it is the
  level of the version.
* `Marker.stability_canonical`: the canonical form keeps the level, but for what is marked as
  stable.
* `stability_normalized`: the level of a version before and after normalization.
-/

/-! ### The search for a marker -/

namespace Marker

variable {s t numbers : List Char}

/-- A marker that leaves nothing makes up the whole text. -/
theorem whole?_of_rest_eq_nil (h : (readBuild (read s).2).2 = []) : whole? s = some (read s).1 := by
  simp only [whole?, h]

/-- A marker that leaves something other than a line end does not. -/
theorem whole?_of_rest_eq_cons {c : Char} {r : List Char} (h : (readBuild (read s).2).2 = c :: r)
    (hc : c ≠ '\n') : whole? s = none := by
  simp only [whole?, h]
  split
  case h_1 heq => cases heq
  case h_2 heq => exact absurd (List.cons.inj heq).1 hc
  case h_3 => rfl

/-- No marker makes up a text with a number ahead. -/
theorem whole?_of_numberAhead (h : numberAhead s = true) : whole? s = none := by
  obtain ⟨c, r, hrest, hc⟩ := exists_rest_of_numberAhead h
  refine whole?_of_rest_eq_cons hrest ?_
  rcases hc with rfl | hd
  · decide
  · exact ne_of_isDigit hd (by decide)

/-- The search goes over numbers. From none of their places the rest is a marker, as a digit stands
    in front of it. -/
theorem search_append (hnumbers : numbered numbers = true)
    (ht : (readBuild (read t).2).2 = []) : search (numbers ++ t) = (read t).1 := by
  induction numbers with
  | nil =>
    cases t with
    | nil => rfl
    | cons c r => rw [List.nil_append, search, whole?_of_rest_eq_nil ht, Option.getD_some]
  | cons c r ih =>
    obtain ⟨hahead, hrest⟩ := Bool.and_eq_true_iff.1 hnumbers
    have hnone : whole? (c :: (r ++ t)) = none :=
      whole?_of_numberAhead (numberAhead_append t hahead)
    rw [List.cons_append, search, hnone, Option.getD_none, ih hrest]

/-- A row of numbers ends with the marker that is written behind it. -/
theorem search_row {gs : List (List Char)} {m : Marker} (hgs : ∀ g ∈ gs, IsGroup g)
    (hm : m.IsCanonical) : search (dotted gs ++ m.text) = m := by
  rw [search_append (numbered_dotted hgs) (by rw [read_text hm]; rfl), read_text hm]

/-- **The marker behind numbers** is what the search finds, with a `v` in front or not. Nothing in
    front of it is taken for a marker. -/
theorem search_of_skipV (hsplit : skipV s = numbers ++ t) (hnumbers : numbered numbers = true)
    (ht : (readBuild (read t).2).2 = []) : search s = (read t).1 := by
  rw [← search_append hnumbers ht, ← hsplit]
  cases s with
  | nil => rfl
  | cons c r =>
    rw [skipV]
    split
    case isFalse => rfl
    case isTrue hv =>
      -- A `v` begins nothing in a marker.
      have hforeign : isSeparator c = false ∧ c ≠ '+' ∧ c ≠ '\n' := by
        have hmarks : ∀ d ∈ ['.', '-', '_', '+', '\n'], Text.plain d ≠ 'v' := by decide
        have hc : c ∉ ['.', '-', '_', '+', '\n'] := fun hmem => hmarks c hmem hv
        simpa [isSeparator, isMark, and_assoc] using hc
      obtain ⟨hsep, hplus, hline⟩ := hforeign
      have hread : read (c :: r) = ({}, c :: r) :=
        read_of_foreign hsep (by rw [hv]; decide) (by rw [hv]; decide)
      have hnone : whole? (c :: r) = none := by
        refine whole?_of_rest_eq_cons (c := c) (r := r) ?_ hline
        rw [hread, readBuild_of_ne hplus]
      rw [search, hnone, Option.getD_none]

end Marker

/-! ### Small letters -/

/-- A small letter has no smaller one. -/
theorem Text.toLower_toLower (c : Char) : c.toLower.toLower = c.toLower := by
  by_cases hc : c.toNat < 128
  · exact forall_ascii (P := fun c => c.toLower.toLower = c.toLower) (by decide) hc
  · rw [toLower_of_not_ascii (c := c) (by omega), toLower_of_not_ascii (by omega)]

/-- Letters that are told apart by case only are plain in the same way. -/
theorem Text.plain_toLower (c : Char) : plain c.toLower = plain c := by
  by_cases hc : c.toNat < 128
  · exact forall_ascii (P := fun c => plain c.toLower = plain c) (by decide) hc
  · rw [toLower_of_not_ascii (by omega)]

/-- Small letters and capitals are no digits, and digits have no case. -/
theorem Text.isDigit_toLower (c : Char) : isDigit c.toLower = isDigit c := by
  by_cases hc : c.toNat < 128
  · exact forall_ascii (P := fun c => isDigit c.toLower = isDigit c) (by decide) hc
  · rw [toLower_of_not_ascii (by omega)]

/-- A word is found in any case, so it is found in the text in small letters as well. What is left
    behind it is in small letters, too. -/
theorem Text.keywordLead?_toLower (word s : List Char) :
    keywordLead? word (s.map Char.toLower)
      = (keywordLead? word s).map fun p => (p.1.map Char.toLower, p.2.map Char.toLower) := by
  induction word generalizing s with
  | nil => rfl
  | cons a word ih =>
    cases s with
    | nil => rfl
    | cons c r =>
      rw [List.map_cons, keywordLead?, keywordLead?, plain_toLower, ih r]
      split
      · simp only [Option.map_map, Function.comp_def, List.map_cons]
      · rfl

/-- So is a leading `v`. -/
theorem skipV_toLower (s : List Char) :
    skipV (s.map Char.toLower) = (skipV s).map Char.toLower := by
  cases s with
  | nil => rfl
  | cons c r =>
    rw [List.map_cons, skipV, skipV, Text.plain_toLower]
    split <;> rfl

namespace Marker

variable (s : List Char)

/-- Marks have no case. -/
theorem isMark_toLower (c : Char) : isMark c.toLower = isMark c := by
  by_cases hc : c.toNat < 128
  · exact Text.forall_ascii (P := fun c => isMark c.toLower = isMark c) (by decide) hc
  · rw [Text.toLower_of_not_ascii (by omega)]

/-- Nor have separators. -/
theorem isSeparator_toLower (c : Char) : isSeparator c.toLower = isSeparator c := by
  by_cases hc : c.toNat < 128
  · exact Text.forall_ascii (P := fun c => isSeparator c.toLower = isSeparator c) (by decide) hc
  · rw [Text.toLower_of_not_ascii (by omega)]

/-- The same separator is skipped. -/
theorem skipSeparator_toLower :
    skipSeparator (s.map Char.toLower) = (skipSeparator s).map Char.toLower := by
  cases s with
  | nil => rfl
  | cons c r =>
    rw [List.map_cons, skipSeparator, skipSeparator, isSeparator_toLower]
    split <;> rfl

/-- The same keyword is read, in small letters. That holds for each word of the table, and the
    first one counts. -/
theorem readKeyword_toLower :
    readKeyword (s.map Char.toLower)
      = (readKeyword s).map fun p => (p.1.map Char.toLower, p.2.map Char.toLower) := by
  unfold readKeyword
  generalize keywords = words
  induction words with
  | nil => rfl
  | cons word words ih =>
    rw [List.findSome?_cons, List.findSome?_cons, Text.keywordLead?_toLower]
    cases Text.keywordLead? word s with
    | none => exact ih
    | some p => rfl

/-- Numbers and marks are the same in small letters, and the reader stops at the same place. -/
theorem readIdentifier_toLower :
    readIdentifier (s.map Char.toLower)
      = ((readIdentifier s).1.map Char.toLower, (readIdentifier s).2.map Char.toLower) := by
  induction s with
  | nil => rfl
  | cons c r ih =>
    have hahead : digitAhead (r.map Char.toLower) = digitAhead r := by
      cases r with
      | nil => rfl
      | cons d w => exact Text.isDigit_toLower d
    rw [List.map_cons, readIdentifier, readIdentifier, Text.isDigit_toLower, isMark_toLower, hahead,
      ih]
    split <;> rfl

/-- A `dev` is found in any case. -/
theorem afterDev?_toLower :
    afterDev? (s.map Char.toLower) = (afterDev? s).map (List.map Char.toLower) := by
  cases s with
  | nil => rfl
  | cons c r =>
    have hbehind : (if isMark c then r.map Char.toLower else (c :: r).map Char.toLower)
        = (if isMark c then r else c :: r).map Char.toLower := by
      split <;> rfl
    simp only [List.map_cons, afterDev?, isMark_toLower] at hbehind ⊢
    rw [hbehind, Text.keywordLead?_toLower]
    simp only [Option.map_map, Function.comp_def]

/-- The marker in small letters. Case is all that it loses, so it stands for the same level. -/
def lowered (m : Marker) : Marker where
  keyword := m.keyword.map (List.map Char.toLower)
  identifier := m.identifier.map Char.toLower
  dev := m.dev

/-- **Small letters** are read like capitals. Each part of the marker is found where it is in the
    text as it was given. -/
theorem read_toLower :
    read (s.map Char.toLower) = ((read s).1.lowered, (read s).2.map Char.toLower) := by
  have hdev := fun u : List Char => afterDev?_toLower u
  simp only [read, skipSeparator_toLower, readKeyword_toLower]
  cases readKeyword (skipSeparator s) with
  | none =>
    simp only [Option.map_none, hdev]
    cases afterDev? (skipSeparator s) <;> rfl
  | some p =>
    simp only [Option.map_some, readIdentifier_toLower, hdev]
    cases afterDev? (readIdentifier p.2).2 <;> rfl

end Marker

/-! ### The level of a marker -/

namespace Keyword

/-- A keyword is found by its small letters. -/
theorem ofText?_toLower (word : List Char) : ofText? (word.map Char.toLower) = ofText? word := by
  simp only [ofText?, List.map_map, Function.comp_def, Text.toLower_toLower]

/-- The long form of a keyword stands for the same stability as the spelling that it is for. -/
theorem ofText_longForm (word : List Char) :
    Stability.ofText (longForm word) = Stability.ofText word := by
  unfold longForm
  cases hk : ofText? word with
  | none => rfl
  | some k =>
    show Stability.ofText k.text.toList = _
    rw [Stability.ofText, Stability.ofText, ofText?_text, hk]

/-- Only the word itself, in any case, has the long form `stable`. A text that is no keyword is its
    own long form. -/
theorem longForm_eq_stable_iff {word : List Char} :
    longForm word = stable.text.toList ↔ word.map Char.toLower = "stable".toList := by
  constructor
  · intro h
    unfold longForm at h
    cases hk : ofText? word with
    | none =>
      rw [hk] at h
      obtain rfl : word = stable.text.toList := h
      decide
    | some k =>
      rw [hk] at h
      have htext : k.text.toList = stable.text.toList := h
      have hstable : k = stable := by
        cases k with
        | stable => rfl
        | _ => exact absurd htext (by decide)
      obtain ⟨p, hp, hpk⟩ := Option.map_eq_some_iff.1 hk
      have hword : p.1.toList = word.map Char.toLower := by simpa using List.find?_some hp
      -- There is no other spelling of this word.
      have honly : ∀ q ∈ spellings, q.2 = stable → q.1 = "stable" := by decide
      rw [← hword, honly p (List.mem_of_find?_eq_some hp) (hpk.trans hstable)]
  · intro h
    have hk : ofText? word = some stable := by
      rw [← ofText?_toLower, h]
      decide
    rw [longForm, hk]
    rfl

end Keyword

namespace Marker

/-- The level that a marker stands for: development with `dev`, and else the level of its keyword.
    A marker without a keyword is stable. -/
def stability (m : Marker) : Stability :=
  if m.dev then .dev else Stability.ofText (m.keyword.getD [])

/-- Whether the keyword of a marker is `stable`, in any case. This is the one keyword that a
    canonical text leaves out. -/
def IsStable (m : Marker) : Prop := m.keyword.map (List.map Char.toLower) = some "stable".toList

instance (m : Marker) : Decidable m.IsStable :=
  inferInstanceAs (Decidable (m.keyword.map (List.map Char.toLower) = some "stable".toList))

/-- The stability of a marker does not depend on the case in which it is written. -/
theorem stability_lowered (m : Marker) : m.lowered.stability = m.stability := by
  obtain ⟨keyword, identifier, dev⟩ := m
  cases keyword with
  | none => rfl
  | some word =>
    show (if dev then Stability.dev else Stability.ofText (word.map Char.toLower)) = _
    rw [Stability.ofText, Keyword.ofText?_toLower]
    rfl

/-- **The canonical form keeps the level**, but what is marked as stable loses its `dev`. -/
theorem stability_canonical (m : Marker) :
    m.canonical.stability = if m.IsStable then .stable else m.stability := by
  obtain ⟨keyword, identifier, dev⟩ := m
  cases keyword with
  | none =>
    have hunstable : ¬ IsStable ⟨none, identifier, dev⟩ := fun h => by cases h
    rw [if_neg hunstable]
    rfl
  | some word =>
    -- Marked as stable is what has that long form, which writing the marker does not alter.
    have hiff : IsStable ⟨some word, identifier, dev⟩
        ↔ Keyword.longForm word = Keyword.stable.text.toList := by
      rw [Keyword.longForm_eq_stable_iff, IsStable, Option.map_some, Option.some.injEq]
    by_cases hstable : Keyword.longForm word = Keyword.stable.text.toList
    · rw [if_pos (hiff.2 hstable), canonical]
      simp only [hstable, if_true]
      decide
    · rw [if_neg fun h => hstable (hiff.1 h), canonical]
      simp only [hstable, if_false]
      show (if dev then Stability.dev else Stability.ofText (Keyword.longForm word)) = _
      rw [Keyword.ofText_longForm]
      rfl

/-- A marker with a keyword that says stable, or with none, is stable unless it ends with `dev`.
    This is where the canonical form may have another level. -/
theorem stability_of_isStable {m : Marker} (h : m.IsStable) :
    m.stability = .stable ↔ m.dev = false := by
  obtain ⟨keyword, identifier, dev⟩ := m
  cases keyword with
  | none => cases h
  | some word =>
    have hword : word.map Char.toLower = "stable".toList := Option.some.inj h
    have hlevel : Stability.ofText word = .stable := by
      rw [Stability.ofText, ← Keyword.ofText?_toLower, hword]
      decide
    show (if dev then Stability.dev else Stability.ofText word) = .stable ↔ dev = false
    rw [hlevel]
    cases dev <;> simp

/-- The letter `v` stands in a marker only as the last one of `dev`. No keyword has it, and neither
    have numbers. -/
theorem dev_of_mem {t : List Char} (ht : (read t).2 = []) {c : Char} (hc : c ∈ t)
    (hv : Text.plain c = 'v') : (read t).1.dev = true := by
  have hread := isRead_read t
  obtain ⟨lead, hsplit, hlead⟩ := exists_append_skipSeparator t
  obtain ⟨keyword, identifier, u, hu, hnone, hsome⟩ := exists_read_eq t
  cases hdev : afterDev? u with
  | some r => rw [hsome r hdev]
  | none =>
    exfalso
    rw [hnone hdev] at ht hread
    obtain rfl : u = [] := ht
    rw [hsplit, hu, List.append_nil, List.mem_append] at hc
    rcases hc with hc | hc
    · rcases isSeparator_iff.1 (hlead c hc) with rfl | rfl | rfl <;> exact absurd hv (by decide)
    · -- None of the keywords has this letter.
      rcases List.mem_append.1 hc with hc | hc
      · cases keyword with
        | none => cases hc
        | some word =>
          have hletters : ∀ key ∈ keywords, 'v' ∉ key := by decide
          exact hletters _ (hread.spelled word rfl) (hv ▸ List.mem_map_of_mem hc)
      · rcases mem_isIdentifier hread.identifier hc with hd | hm
        · rw [Text.plain_of_isDigit hd] at hv
          rw [hv] at hd
          exact absurd hd (by decide)
        · rcases isMark_iff.1 hm with rfl | rfl <;> exact absurd hv (by decide)

end Marker

/-! ### The level of a version -/

/-- A lower case letter, a mark and a digit stay as they are. -/
theorem map_toLower_of_numbered {numbers : List Char} (h : numbered numbers = true)
    (hascii : ∀ c ∈ numbers, c.toNat < 128) : numbers.map Char.toLower = numbers := by
  have hkept : ∀ c ∈ numbers, c.toLower = id c := by
    intro c hc
    rcases isMarked_of_numbered h c hc with hd | hm
    · rw [← Text.plain_of_ascii (hascii c hc), Text.plain_of_isDigit hd, id]
    · simp only [isDateMark, Bool.or_eq_true, beq_iff_eq] at hm
      rcases hm with (rfl | rfl) | rfl <;> decide
  rw [List.map_congr_left hkept, List.map_id]

section Numbered

variable {s numbers t : List Char}

/-- In small letters the numbers are the same. -/
theorem skipV_toLower_of_numbered (hascii : ∀ c ∈ s, c.toNat < 128)
    (hsplit : skipV s = numbers ++ t) (hnumbers : numbered numbers = true) :
    skipV (s.map Char.toLower) = numbers ++ t.map Char.toLower := by
  have hmem : ∀ c ∈ numbers, c ∈ s := fun c hc =>
    (skipV_suffix s).subset (hsplit ▸ List.mem_append_left t hc)
  rw [skipV_toLower, hsplit, List.map_append, map_toLower_of_numbered hnumbers fun c hc =>
    hascii c (hmem c hc)]

/-- In small letters the marker is the lowered one. -/
theorem Marker.search_toLower (hascii : ∀ c ∈ s, c.toNat < 128) (hsplit : skipV s = numbers ++ t)
    (hnumbers : numbered numbers = true) (ht : (read t).2 = []) :
    search (s.map Char.toLower) = (read t).1.lowered := by
  have hread : read (t.map Char.toLower) = ((read t).1.lowered, []) := by
    rw [read_toLower, ht]
    rfl
  have hwhole : (readBuild (read (t.map Char.toLower)).2).2 = [] := by
    rw [hread]
    rfl
  rw [search_of_skipV (skipV_toLower_of_numbered hascii hsplit hnumbers) hnumbers hwhole, hread]

/-- What begins with a `v` or a digit is no branch, and neither is it in small letters. So the test
    for branches is passed on to the end of the text. -/
theorem startsWith_dev_toLower {c : Char} (r : List Char) (hascii : c.toNat < 128)
    (hc : Text.plain c = 'v' ∨ Text.isDigit c = true) :
    Text.startsWith "dev-".toList ((c :: r).map Char.toLower) = false := by
  rw [Bool.eq_false_iff]
  intro hstart
  obtain ⟨w, hw⟩ := Text.startsWith_iff.1 hstart
  have hfirst : c.toLower = 'd' := (List.cons.inj hw).1
  rw [← Text.plain_of_ascii hascii] at hfirst
  rcases hc with hv | hdigit
  · rw [hfirst] at hv
    exact absurd hv (by decide)
  · rw [← Text.plain_of_isDigit hdigit, hfirst] at hdigit
    exact absurd hdigit (by decide)

/-- The letters `dev` at the end belong to the marker: none without them ends with their last
    letter. -/
theorem Marker.dev_of_endsWith (hsplit : skipV s = numbers ++ t)
    (hnumbers : numbered numbers = true) (hne : numbers ≠ []) (ht : (read t).2 = [])
    (hend : Text.endsWith "-dev".toList s = true) : (read t).1.dev = true := by
  obtain ⟨w, hw⟩ := Text.endsWith_iff.1 hend
  have hlast : (numbers ++ t).getLast? = some 'v' := by
    obtain ⟨lead, hlead⟩ := skipV_suffix s
    have hrest : skipV s ≠ [] := by
      rw [hsplit]
      exact List.append_ne_nil_of_left_ne_nil hne t
    rw [← hsplit, ← List.getLast?_append_of_ne_nil lead hrest, hlead, hw]
    simp
  rcases List.mem_append.1 (List.mem_of_getLast? hlast) with hv | hv
  · exact absurd (isMarked_of_numbered hnumbers _ hv) (by decide)
  · exact dev_of_mem ht hv (by decide)

/-- **The level of a version** is that of the marker behind its numbers. A `dev` at the end of the
    text is the end of this marker. -/
theorem Stability.ofVersion_eq (hascii : ∀ c ∈ s, c.toNat < 128)
    (hsplit : skipV s = numbers ++ t) (hnumbers : numbered numbers = true)
    (hahead : Marker.digitAhead numbers = true) (ht : (Marker.read t).2 = []) :
    ofVersion (String.ofList s) = (Marker.read t).1.stability := by
  obtain ⟨d, u, rfl, hdigit⟩ : ∃ d u, numbers = d :: u ∧ Text.isDigit d = true := by
    cases numbers with
    | nil => cases hahead
    | cons d u => exact ⟨d, u, rfl, hahead⟩
  obtain ⟨c, r, rfl, hc⟩ := Written.exists_head_of_skipV hsplit hdigit
  have hempty : ((c :: r).map Char.toLower).isEmpty = false := rfl
  rw [ofVersion, String.toList_ofList,
    withoutReference_of_not_mem (not_mem_numbers hsplit hnumbers ht (by decide) (by decide)),
    Text.lower_of_ascii hascii]
  simp only [hempty, startsWith_dev_toLower r (hascii c List.mem_cons_self) hc,
    Marker.search_toLower hascii hsplit hnumbers ht, Bool.false_or]
  -- A text with `dev` at its end is of that level at once; all others are searched for a marker.
  split
  case isTrue hend =>
    have hread : (Marker.read (t.map Char.toLower)).2 = [] := by
      rw [Marker.read_toLower, ht]
      rfl
    have hdev := Marker.dev_of_endsWith (skipV_toLower_of_numbered hascii hsplit hnumbers) hnumbers
      (List.cons_ne_nil d u) hread hend
    rw [Marker.read_toLower] at hdev
    have hdev' : (Marker.read t).1.dev = true := hdev
    rw [Marker.stability, if_pos hdev']
  case isFalse => exact Marker.stability_lowered _

end Numbered

/-! ### ASCII texts -/

/-- A release that is read from ASCII is written in ASCII. Its groups are in the text, and the
    keyword of its marker is in the table or in the text. -/
theorem Release.ascii_of_ofText? {s : List Char} {r : Release} (hs : ∀ c ∈ s, c.toNat < 128)
    (h : ofText? s = some r) : ∀ c ∈ r.text, c.toNat < 128 := by
  intro c hc
  rcases List.mem_append.1 hc with hc | hc
  · rcases mem_intercalate hc with rfl | ⟨g, hg, hc⟩
    · decide
    · rcases mem_groups_of_ofText? h g hg c hc with hc | rfl
      · exact hs c hc
      · decide
  · obtain ⟨numbers, t, hsplit, -, -, -, hmarker⟩ := exists_of_ofText? h
    obtain ⟨lead, dev, ht, -, -⟩ := Marker.exists_append_of_read t
    rw [hmarker] at hc
    refine Marker.ascii_canonical (fun d hd => hs d ((skipV_suffix s).subset ?_)) c hc
    rw [hsplit, ht]
    simp [hd]

/-- The groups of a numeric branch are in its name, but for nines in place of open ones. -/
theorem mem_of_branchGroups? {s : List Char} {gs : List (List Char)}
    (h : branchGroups? s = some gs) : ∀ g ∈ gs, ∀ c ∈ g, c ∈ s ∨ c = '9' := by
  intro g hg c hc
  rcases cases_of_mem_branchGroups? h hg with rfl | ⟨hg, -⟩
  · have hnine : ∀ c ∈ maxField.toList, c = '9' := by decide
    exact .inr (hnine c hc)
  · exact .inl ((skipV_suffix s).subset (((piecesOf_splitOnP _ _).parts g hg).subset hc))

namespace Canonical

variable {s : List Char} {c : Canonical}

/-- So is a branch, whatever its name is read as: the main line, a numeric branch or a name. -/
theorem OfBranch.ascii (h : c.OfBranch s) (hs : ∀ d ∈ s, d.toNat < 128) :
    ∀ d ∈ c.chars, d.toNat < 128 := by
  have htrim : ∀ d ∈ Text.trim s, d.toNat < 128 := fun d hd => hs d ((infix_trim s).subset hd)
  cases h with
  | master => decide
  | numeric h =>
    intro d hd
    rcases List.mem_append.1 hd with hd | hd
    · rcases mem_intercalate hd with rfl | ⟨g, hg, hd⟩
      · decide
      · rcases mem_of_branchGroups? h g hg d hd with hd | rfl
        · exact htrim d hd
        · decide
    · have hdev : ∀ e ∈ ({ dev := true } : Marker).text, e.toNat < 128 := by decide
      exact hdev d hd
  -- The name is a part of the text, and all that is put in front of it is ASCII.
  | named h =>
    intro d hd
    rcases List.mem_append.1 hd with hd | hd
    · have hlead : ∀ e ∈ "dev-".toList, e.toNat < 128 := by decide
      exact hlead d hd
    · exact htrim d (h.subset hd)

/-- So is everything that a version text may mean. By the form of the text; a release has only
    characters of the text, zeros and those of keywords. -/
theorem OfPlain.ascii (h : c.OfPlain s) (hs : ∀ d ∈ s, d.toNat < 128) :
    ∀ d ∈ c.chars, d.toNat < 128 := by
  have hbare : ∀ d ∈ withoutBuild s, d.toNat < 128 := fun d hd =>
    hs d ((withoutBuild_isPrefix s).subset hd)
  cases h with
  | master => decide
  | branch h =>
    intro d hd
    rcases List.mem_append.1 hd with hd | hd
    · have hlead : ∀ e ∈ "dev-".toList, e.toNat < 128 := by decide
      exact hlead d hd
    · exact hs d ((devName?_isSuffix h).subset hd)
  | release hr => exact Release.ascii_of_ofText? hbare hr
  | stem hstem hc =>
    exact hc.ascii fun d hd => hbare d ((isPrefix_of_devStem? hstem).subset hd)

end Canonical

/-- **ASCII stays ASCII** under normalization. -/
theorem ascii_of_normalized {v w : String} (hv : ∀ c ∈ v.toList, c.toNat < 128)
    (hw : (normalized v).outcome = .ok w) : ∀ c ∈ w.toList, c.toNat < 128 := by
  obtain ⟨c, hc, rfl⟩ := outcome_normalized_eq_ok_iff.1 hw
  rw [outcome_normalize] at hc
  rw [Canonical.toList_text]
  exact (ofPlain_of_normalizePlain hc).ascii fun d hd =>
    hv d ((Canonical.infix_source v.toList).subset hd)

/-! ### Before and after normalization -/

/-- The text is a numbered version or a date, and the marker stands behind it. A numbered version
    whose groups are out of range is none, as the normalizer has it. -/
inductive Marker.Ends (m : Marker) (s : List Char) : Prop where
  | written {w : Written} {r : Release} (hw : Written.read? s = some w)
      (hr : w.release? = some r) (hm : w.marker = m) : Ends m s
  | dated {d : Dated} (hd : Dated.read? s = some d) (hm : d.marker = m) : Ends m s

/-- Such a text is a release, and its marker is what is read behind its numbers. The release has
    the canonical form of that marker. -/
theorem Marker.Ends.exists_release {m : Marker} {s : List Char} (h : m.Ends s) :
    ∃ r numbers t, Release.ofText? s = some r ∧ skipV s = numbers ++ t ∧
      numbered numbers = true ∧ digitAhead numbers = true ∧ (readBuild (read t).2).2 = [] ∧
      (read t).1 = m ∧ r.marker = m.canonical := by
  obtain ⟨r, u, hr, hu, hm⟩ : ∃ r u, Release.ofText? s = some r ∧
      (∃ numbers, skipV s = numbers ++ u ∧ numbered numbers = true) ∧
      (readBuild (read u).2).2 = [] ∧ (read u).1 = m := by
    cases h with
    | @written w r hw hr hm =>
      obtain ⟨u, hsplit, hmarker, hbuild, hgs, -⟩ := Written.exists_of_read? hw
      refine ⟨r, u, ?_, ⟨_, hsplit, numbered_dotted hgs⟩, by rw [hbuild], hmarker.trans hm⟩
      rw [Release.ofText?, hw, Option.bind_some, hr]
      rfl
    | @dated d hd hm =>
      obtain ⟨u, hread, hmarker, hwhole⟩ := Dated.exists_of_read? hd
      obtain ⟨hsplit, hnumbered, -⟩ := readDate_sound hread
      obtain ⟨r, hr⟩ : ∃ r, Release.ofText? s = some r := by
        rw [Release.ofText?, hd]
        cases (Written.read? s).bind Written.release? with
        | none => exact ⟨_, rfl⟩
        | some r => exact ⟨r, rfl⟩
      exact ⟨r, u, hr, ⟨_, hsplit, hnumbered⟩, hwhole, hmarker.trans hm⟩
  obtain ⟨digits, hsplit', hdigits⟩ := hu
  obtain ⟨numbers, t, hsplit, hnumbered, hahead, hwhole, hmarker⟩ := Release.exists_of_ofText? hr
  -- Where the numbers end does not depend on the grammar.
  obtain ⟨rfl, rfl⟩ := eq_of_numbered_append hnumbered hdigits (numberAhead_of_whole hwhole)
    (numberAhead_of_whole hm.1) (hsplit.symm.trans hsplit')
  exact ⟨r, numbers, t, hr, hsplit, hnumbered, hahead, hwhole, hm.2, by rw [hmarker, hm.2]⟩

/-- What a text without build metadata leaves behind its marker is nothing. -/
theorem Marker.rest_eq_nil {s numbers t : List Char} (hplus : '+' ∉ s)
    (hsplit : skipV s = numbers ++ t) (hwhole : (readBuild (read t).2).2 = []) :
    (read t).2 = [] := by
  have hbare : '+' ∉ (read t).2 := fun hmem => by
    refine hplus ((skipV_suffix s).subset ?_)
    rw [hsplit]
    exact List.mem_append_right numbers ((read_suffix t).subset hmem)
  rwa [readBuild_of_not_mem hbare] at hwhole

/-- The level of a canonical text is that of its marker. -/
theorem Stability.ofVersion_dotted {gs : List (List Char)} {m : Marker}
    (hgs : ∀ g ∈ gs, IsGroup g) (hne : gs ≠ []) (hm : m.IsCanonical)
    (hascii : ∀ c ∈ dotted gs ++ m.text, c.toNat < 128) :
    ofVersion (String.ofList (dotted gs ++ m.text)) = m.stability := by
  have hread := Marker.read_text hm
  rw [ofVersion_eq hascii (skipV_dotted hgs hne) (numbered_dotted hgs)
    (digitAhead_dotted hgs hne) (by rw [hread]), hread]

/-- **The level before and after.** A numbered version or a date has the level of its marker, and
    so has its canonical text.  Only what is marked as stable with `dev` behind it is stable
    afterwards. -/
theorem stability_normalized {v : String} {m : Marker} (hascii : ∀ c ∈ v.toList, c.toNat < 128)
    (hplus : '+' ∉ v.toList) (hm : m.Ends v.toList) :
    ∃ x, (normalized v).outcome = .ok x ∧
      (¬ m.IsStable → Stability.ofVersion x = Stability.ofVersion v) ∧
      (m.IsStable → Stability.ofVersion x = .stable ∧
        (Stability.ofVersion x = Stability.ofVersion v ↔ m.dev = false)) := by
  obtain ⟨r, numbers, t, hr, hsplit, hnumbers, hahead, hwhole, hread, hmarker⟩ := hm.exists_release
  have hnormal := Release.isNormal_of_ofText? hr
  have ht := Marker.rest_eq_nil hplus hsplit hwhole
  have hplain := isPlain_of_skipV hsplit hnumbers hahead ht
  -- The text is read as a release, whose canonical text is what normalizing gives.
  have houtcome : (normalized v).outcome = .ok (String.ofList r.text) := by
    refine outcome_normalized_eq_ok_iff.2 ⟨.release r, ?_, rfl⟩
    have hnormalize := normalize_plain hplain none
    rwa [hr, String.ofList_toList] at hnormalize
  -- The level of either text is that of the marker behind its numbers.
  have hbefore : Stability.ofVersion v = m.stability := by
    rw [← String.ofList_toList (s := v), Stability.ofVersion_eq hascii hsplit hnumbers hahead ht,
      hread]
  have hafter : Stability.ofVersion (String.ofList r.text)
      = if m.IsStable then .stable else m.stability := by
    rw [← Marker.stability_canonical, ← hmarker]
    exact Stability.ofVersion_dotted hnormal.groups hnormal.groups_ne_nil hnormal.marker
      (Release.ascii_of_ofText? hascii hr)
  refine ⟨_, houtcome, fun hstable => ?_, fun hstable => ?_⟩
  · rw [hafter, if_neg hstable, hbefore]
  · rw [hafter, if_pos hstable, hbefore]
    exact ⟨rfl, eq_comm.trans (Marker.stability_of_isStable hstable)⟩

/-- What is marked as stable loses its `dev`. -/
theorem stability_normalized_dev :
    Marker.Ends ⟨some "Stable".toList, [], true⟩ "1.0-Stable-dev".toList ∧
      ∃ x, (normalized "1.0-Stable-dev").outcome = .ok x ∧ Stability.ofVersion x = .stable ∧
        Stability.ofVersion x ≠ Stability.ofVersion "1.0-Stable-dev" := by
  have hends : Marker.Ends ⟨some "Stable".toList, [], true⟩ "1.0-Stable-dev".toList :=
    .written (w := ⟨[['1'], ['0']], ⟨some "Stable".toList, [], true⟩, []⟩)
      (r := ⟨[['1'], ['0'], ['0'], ['0']], {}⟩) (by decide) (by decide) rfl
  obtain ⟨x, hx, -, hstable⟩ := stability_normalized (by decide) (by decide) hends
  obtain ⟨hafter, hiff⟩ := hstable (by decide)
  exact ⟨hends, x, hx, hafter, fun heq => Bool.noConfusion (hiff.1 heq)⟩

end VersionRange
