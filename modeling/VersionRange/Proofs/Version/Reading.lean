import Mathlib.Data.Option.Basic
import VersionRange.Proofs.Outcome
import VersionRange.Version.Basic

namespace VersionRange

/-!
# Reading versions

* `Version.Parts.read?_marked`, `Version.parse_marked`: numerals with points between them, a
  prerelease and build metadata are read as what they say; `Version.Parts.read?_dotted`,
  `Version.parse_dotted`: the same without build metadata.
* `Version.Parts.ascii_of_read?`: what is read as a version is ASCII.
* `Version.infix_of_parse`: the tags of a version that was read are parts of its text.
-/

/-! ### Cutting and joining -/

/-- Nothing is cut off where there is no separator. -/
theorem eq_of_cut_none {sep : Char} {s a : List Char} (h : Text.cut sep s = (a, none)) : s = a := by
  by_cases hs : sep ∈ s
  · obtain ⟨l, r, rfl, hl⟩ := List.eq_append_cons_of_mem hs
    rw [Text.cut_append hl] at h
    cases h
  · rw [Text.cut_of_not_mem hs] at h
    exact congrArg Prod.fst h

/-- Both parts of a text that is cut stand in it. What is known of all parts of a text is known of
    them. -/
theorem parts_of_cut {sep : Char} {s a : List Char} {b : Option (List Char)}
    (h : Text.cut sep s = (a, b)) : a <:+: s ∧ ∀ t, b = some t → t <:+: s := by
  cases b with
  | none =>
    rw [eq_of_cut_none h]
    exact ⟨List.infix_refl a, by simp⟩
  | some t =>
    obtain ⟨rfl, -⟩ := Text.eq_append_of_cut h
    refine ⟨⟨[], sep :: t, rfl⟩, ?_⟩
    rintro t' ht
    cases ht
    exact ⟨a ++ [sep], [], by simp⟩

/-- Texts behind the first one are each written behind a separator. -/
theorem intercalate_cons (sep : Char) (n : List Char) (ns : List (List Char)) :
    [sep].intercalate (n :: ns) = n ++ ns.flatMap (sep :: ·) := by
  induction ns generalizing n with
  | nil => simp
  | cons m ns ih =>
    rw [List.intercalate_cons_cons, ih m, List.flatMap_cons, List.append_assoc]
    rfl

/-- Texts that are put together consist of their characters and the separator. This is used for
    numbers with points between them. -/
theorem mem_intercalate {sep : Char} {ns : List (List Char)} {c : Char}
    (h : c ∈ [sep].intercalate ns) : c = sep ∨ ∃ n ∈ ns, c ∈ n := by
  induction ns with
  | nil => simp at h
  | cons n ns ih =>
    cases ns with
    | nil => simp at h; exact .inr ⟨n, by simp, h⟩
    | cons m ns =>
      rw [List.intercalate_cons_cons] at h
      simp only [List.mem_append, List.mem_singleton] at h
      rcases h with (h | h) | h
      · exact .inr ⟨n, by simp, h⟩
      · exact .inl h
      · rcases ih h with h | ⟨k, hk, hc⟩
        · exact .inl h
        · exact .inr ⟨k, by simp [hk], hc⟩

namespace Version

/-! ### The parts of a version -/

/-- A tag stands where the text behind its mark stands. An absent tag is empty, and stands
    everywhere. -/
theorem infix_of_tag? {o : Option (List Char)} {t s : List Char} (h : tag? o = some t)
    (ho : ∀ u, o = some u → u <:+: s) : t <:+: s := by
  cases o with
  | none =>
    cases h
    exact List.nil_infix
  | some u =>
    simp only [tag?] at h
    split at h
    case isTrue => cases h; exact ho _ rfl
    case isFalse => cases h

/-- What is read off a text: its numerals, its prerelease and its build metadata. The metadata is
    cut off first, so a hyphen in it begins no prerelease. -/
theorem Parts.read?_eq_some_iff {s : List Char} {p : Parts} :
    Parts.read? s = some p ↔
      p.numerals = (Text.cut '-' (Text.cut '+' s).1).1.splitOn '.' ∧
      p.numerals.all isNumeral = true ∧
      tag? (Text.cut '-' (Text.cut '+' s).1).2 = some p.prerelease ∧
      tag? (Text.cut '+' s).2 = some p.build := by
  obtain ⟨numerals, prerelease, build⟩ := p
  simp only [Parts.read?, Option.bind_eq_bind, Option.bind_eq_some_iff, Option.pure_def,
    Option.guard_eq_some', Option.some.injEq, Parts.mk.injEq]
  constructor
  · rintro ⟨-, hall, pre, hp, bld, hb, rfl, rfl, rfl⟩
    exact ⟨rfl, hall, hp, hb⟩
  · rintro ⟨rfl, hall, hp, hb⟩
    exact ⟨(), hall, prerelease, hp, build, hb, rfl, rfl, rfl⟩

/-- The tags of a version stand in its text. -/
theorem Parts.infix_of_read? {s : List Char} {p : Parts} (h : Parts.read? s = some p) :
    p.prerelease <:+: s ∧ p.build <:+: s := by
  obtain ⟨-, -, hp, hb⟩ := Parts.read?_eq_some_iff.1 h
  have outer := parts_of_cut (show Text.cut '+' s = (_, _) from rfl)
  have inner := parts_of_cut (show Text.cut '-' (Text.cut '+' s).1 = (_, _) from rfl)
  refine ⟨infix_of_tag? hp fun u hu => ?_, infix_of_tag? hb outer.2⟩
  exact (inner.2 u hu).trans outer.1

/-- Tags are written in ASCII, as letters and digits of other scripts do not count in them. -/
theorem ascii_of_isTagChar {c : Char} (h : isTagChar c = true) : c.toNat < 128 := by
  simp only [isTagChar, Bool.or_eq_true, beq_iff_eq] at h
  rcases h with (h | rfl) | rfl
  · have hkind : (c.isUpper || c.isLower || c.isDigit) = true := h
    rw [Bool.or_eq_true, Bool.or_eq_true] at hkind
    -- Each kind of characters is a range of ASCII.
    rcases hkind with (hupper | hlower) | hdigit
    · have hrange : 'A'.val ≤ c.val ∧ c.val ≤ 'Z'.val := of_decide_eq_true hupper
      have hle : c.toNat ≤ 90 := hrange.2
      omega
    · have hrange := Bool.and_eq_true_iff.1 hlower
      have hle : c.toNat ≤ 122 := of_decide_eq_true hrange.2
      omega
    · have hrange := Bool.and_eq_true_iff.1 hdigit
      have hle : c.toNat ≤ 57 := of_decide_eq_true hrange.2
      omega
  · decide
  · decide

/-- The parts of a text that is cut, with the separator between them. -/
theorem mem_of_cut {sep c : Char} {s a : List Char} {b : Option (List Char)}
    (h : Text.cut sep s = (a, b)) (hc : c ∈ s) : c ∈ a ∨ ∃ t, b = some t ∧ (c = sep ∨ c ∈ t) := by
  cases b with
  | none => exact .inl (eq_of_cut_none h ▸ hc)
  | some t =>
    obtain ⟨rfl, -⟩ := Text.eq_append_of_cut h
    exact (List.mem_append.1 hc).imp_right fun hc => ⟨t, rfl, List.mem_cons.1 hc⟩

/-- A text behind the mark of a tag is the tag. -/
theorem ascii_of_tag? {t tag : List Char} (h : tag? (some t) = some tag) :
    ∀ c ∈ t, c.toNat < 128 := by
  simp only [tag?] at h
  split at h
  case isTrue ht =>
    simp only [isTag, Bool.and_eq_true, List.all_eq_true] at ht
    exact fun c hc => ascii_of_isTagChar (ht.2 c hc)
  case isFalse => cases h

/-- The form of a version is ASCII. Numerals and tags are, and so are the marks between them. -/
theorem Parts.ascii_of_read? {s : List Char} {p : Parts} (h : Parts.read? s = some p) :
    ∀ c ∈ s, c.toNat < 128 := by
  obtain ⟨hnumerals, hall, hp, hb⟩ := Parts.read?_eq_some_iff.1 h
  intro c hc
  -- The character is in the numbers, or behind the mark of a tag.
  rcases mem_of_cut (show Text.cut '+' s = (_, _) from rfl) hc with hc | ⟨t, ht, rfl | hc⟩
  · rcases mem_of_cut (show Text.cut '-' (Text.cut '+' s).1 = (_, _) from rfl) hc with
      hc | ⟨t, ht, rfl | hc⟩
    · have hjoined : ['.'].intercalate p.numerals = (Text.cut '-' (Text.cut '+' s).1).1 := by
        rw [hnumerals]
        exact List.intercalate_splitOn '.'
      rw [← hjoined] at hc
      rcases mem_intercalate hc with rfl | ⟨n, hn, hc⟩
      · decide
      · have hdigits := List.all_eq_true.1 hall n hn
        simp only [isNumeral, Bool.and_eq_true, List.all_eq_true] at hdigits
        exact Text.isAsciiDigit_lt (hdigits.2 c hc)
    · decide
    · rw [ht] at hp
      exact ascii_of_tag? hp c hc
  · decide
  · rw [ht] at hb
    exact ascii_of_tag? hb c hc

/-- A version that was read has tags that stand in its text. So they are not longer than it, and
    have no character that it has not. -/
theorem infix_of_parse {text : String} {v : Version} (h : parse text = .ok v) :
    v.prerelease.toList <:+: text.toList ∧ v.build.toList <:+: text.toList := by
  unfold parse at h
  cases hp : Parts.read? text.toList with
  | none => rw [hp] at h; cases h
  | some p =>
    simp only [hp] at h
    cases hn : p.numerals.mapM Numeral.read with
    | error e => rw [hn] at h; cases h
    | ok ns =>
      rw [hn] at h
      have hv : v = ofGroups (ns.map Int.ofNat) (String.ofList p.prerelease)
          (String.ofList p.build) := (Except.ok.inj h).symm
      have := Parts.infix_of_read? hp
      simpa [hv, ofGroups] using this

/-! ### Numerals with points between them -/

/-- Numerals that are short enough are all converted. -/
theorem mapM_read_of_length_le {ns : List (List Char)} (h : ∀ n ∈ ns, n.length ≤ Numeral.limit) :
    ns.mapM Numeral.read = .ok (ns.map Numeral.value) :=
  mapM_eq_ok_map fun n hn => Numeral.read_of_length_le (h n hn)

/-- The mark of a tag and the tag, if there is one. -/
def marked (mark : Char) (tag : List Char) : List Char := if tag = [] then [] else mark :: tag

/-- A tag behind its mark is cut off at the mark. -/
theorem cut_append_marked {mark : Char} {s tag : List Char} (h : mark ∉ s) :
    Text.cut mark (s ++ marked mark tag) = (s, if tag = [] then none else some tag) := by
  unfold marked
  split
  · rw [List.append_nil, Text.cut_of_not_mem h]
  · exact Text.cut_append h

/-- A numeral holds digits and nothing else. -/
theorem not_mem_of_isNumeral {n : List Char} {c : Char} (h : isNumeral n = true)
    (hc : Text.isAsciiDigit c = false) : c ∉ n := by
  intro hmem
  simp only [isNumeral, Bool.and_eq_true, List.all_eq_true] at h
  rw [h.2 c hmem] at hc
  cases hc

/-- A marked tag holds its mark and characters of tags. -/
theorem not_mem_marked {mark c : Char} {tag : List Char} (htag : tag.all isTagChar = true)
    (hmark : c ≠ mark) (hc : isTagChar c = false) : c ∉ marked mark tag := by
  unfold marked
  split
  · exact List.not_mem_nil
  · rw [List.mem_cons, not_or]
    refine ⟨hmark, fun hmem => ?_⟩
    rw [List.all_eq_true.1 htag c hmem] at hc
    cases hc

/-- The tag is read back from what is cut off, an empty one from nothing. -/
theorem tag?_marked {tag : List Char} (htag : tag.all isTagChar = true) :
    tag? (if tag = [] then none else some tag) = some tag := by
  by_cases hempty : tag = []
  · rw [if_pos hempty, hempty]
    rfl
  · rw [if_neg hempty]
    simp [tag?, isTag, hempty, htag]

/-- Neither mark of a tag stands in a row of numerals. -/
theorem not_mem_intercalate {ns : List (List Char)} (hns : ∀ n ∈ ns, isNumeral n = true)
    {c : Char} (hpoint : c ≠ '.') (hc : Text.isAsciiDigit c = false) :
    c ∉ ['.'].intercalate ns := by
  intro hmem
  rcases mem_intercalate hmem with h | ⟨n, hn, h⟩
  · exact hpoint h
  · exact not_mem_of_isNumeral (hns n hn) hc h

/-- Numerals with points between them, a prerelease and build metadata are taken apart again. A tag
    that is empty is not marked, and is read as an empty one. -/
theorem Parts.read?_marked {ns : List (List Char)} {tag build : List Char} (hne : ns ≠ [])
    (hns : ∀ n ∈ ns, isNumeral n = true) (htag : tag.all isTagChar = true)
    (hbuild : build.all isTagChar = true) :
    Parts.read? (['.'].intercalate ns ++ marked '-' tag ++ marked '+' build)
      = some ⟨ns, tag, build⟩ := by
  have noPlus : '+' ∉ ['.'].intercalate ns ++ marked '-' tag := by
    rw [List.mem_append, not_or]
    exact ⟨not_mem_intercalate hns (by decide) (by decide),
      not_mem_marked htag (by decide) (by decide)⟩
  have noHyphen : '-' ∉ ['.'].intercalate ns := not_mem_intercalate hns (by decide) (by decide)
  have hsplit : (['.'].intercalate ns).splitOn '.' = ns :=
    List.splitOn_intercalate '.' (fun n hn => not_mem_of_isNumeral (hns n hn) (by decide)) hne
  rw [Parts.read?_eq_some_iff, cut_append_marked noPlus]
  simp only [cut_append_marked noHyphen]
  exact ⟨hsplit.symm, List.all_eq_true.2 hns, tag?_marked htag, tag?_marked hbuild⟩

/-- Dotted numerals with a tag behind a hyphen are read as just that, without build metadata. -/
theorem Parts.read?_dotted {ns : List (List Char)} {tag : List Char} (hne : ns ≠ [])
    (hns : ∀ n ∈ ns, isNumeral n = true) (htag : tag.all isTagChar = true) :
    Parts.read? (['.'].intercalate ns ++ marked '-' tag) = some ⟨ns, tag, []⟩ := by
  have hnone : ([] : List Char).all isTagChar = true := rfl
  simpa [marked] using Parts.read?_marked hne hns htag hnone

/-- Numerals with points between them, a prerelease and build metadata make up a version. -/
theorem parse_marked {ns : List (List Char)} {tag build : List Char} (hne : ns ≠ [])
    (hns : ∀ n ∈ ns, isNumeral n = true) (hlen : ∀ n ∈ ns, n.length ≤ Numeral.limit)
    (htag : tag.all isTagChar = true) (hbuild : build.all isTagChar = true) :
    parse (String.ofList (['.'].intercalate ns ++ marked '-' tag ++ marked '+' build))
      = .ok (ofGroups ((ns.map Numeral.value).map Int.ofNat) (String.ofList tag)
          (String.ofList build)) := by
  unfold parse
  rw [String.toList_ofList, Parts.read?_marked hne hns htag hbuild]
  simp only [mapM_read_of_length_le hlen]
  rfl

/-- So the version of such a text has the values of the numerals and the tag. -/
theorem parse_dotted {ns : List (List Char)} {tag : List Char} (hne : ns ≠ [])
    (hns : ∀ n ∈ ns, isNumeral n = true) (hlen : ∀ n ∈ ns, n.length ≤ Numeral.limit)
    (htag : tag.all isTagChar = true) :
    parse (String.ofList (['.'].intercalate ns ++ marked '-' tag))
      = .ok (ofGroups ((ns.map Numeral.value).map Int.ofNat) (String.ofList tag) "") := by
  have hnone : ([] : List Char).all isTagChar = true := rfl
  simpa [marked] using parse_marked hne hns hlen htag hnone

end Version

end VersionRange
