import VersionRange.Proofs.Canonical.Stable
import VersionRange.Proofs.Order.Preorder

namespace VersionRange

/-!
# Canonical texts as versions

A canonical text that is no branch is read as a version, and among the prereleases that such
versions have there is none before `dev`.

* `Marker.tag`: the prerelease that a canonical marker is written as.
* `parse_canonical`, `exists_parse_of_normalized`: what a canonical text is read as.
* `Version.IsCanonical`: the versions that canonical texts are read as.
* `Version.order_dev_eq_lt_iff`: such a version is below one with the prerelease `dev` only if its
  numbers are.
-/

/-! ### Prereleases -/

namespace Marker

/-- The prerelease that a marker is written as: its text without the hyphen in front. -/
def tag (m : Marker) : List Char := m.text.tail

/-- A canonical marker is written as a hyphen and a word, or not at all. So its tag is not empty
    where there is one, and does not begin with a point. -/
theorem text_cases {m : Marker} (h : m.IsCanonical) :
    m.text = [] ∨ ∃ c r, m.text = '-' :: c :: r ∧ c ≠ '.' := by
  obtain ⟨keyword, identifier, dev⟩ := m
  cases keyword with
  | none =>
    have hbare : identifier = [] := h.bare rfl
    subst hbare
    cases dev with
    | false => exact .inl rfl
    | true => exact .inr ⟨'d', ['e', 'v'], rfl, by decide⟩
  | some word =>
    right
    have hspelled := h.spelled word rfl
    cases word with
    | nil => exact absurd hspelled (by decide)
    | cons c w =>
      refine ⟨c, w ++ identifier ++ if dev then "-dev".toList else [], ?_, ?_⟩
      · simp [text]
      · -- No keyword begins with a point.
        rintro rfl
        have hhead : ∀ key ∈ keywords, key.head? ≠ some (Text.plain '.') := by decide
        exact hhead _ hspelled rfl

/-- The text of a canonical marker is its tag behind a hyphen, if there is one. -/
theorem text_eq_marked {m : Marker} (h : m.IsCanonical) : m.text = Version.marked '-' m.tag := by
  rcases text_cases h with hnil | ⟨c, r, hcons, -⟩
  · rw [tag, hnil]
    rfl
  · rw [tag, hcons]
    rfl

/-- A tag in ASCII consists of characters that the reader of versions takes for a tag. -/
theorem isTagChar_of_mem_tag {m : Marker} (h : m.IsCanonical)
    (hascii : ∀ c ∈ m.text, c.toNat < 128) : m.tag.all Version.isTagChar = true := by
  rw [List.all_eq_true]
  intro c hc
  have hmem : c ∈ m.text := List.mem_of_mem_tail hc
  have hkind := mem_text h hmem
  revert hkind
  exact Text.forall_ascii (P := fun c => (isMark c = true ∨ Text.isDigit c = true ∨
    (Text.plain c).isLower = true) → Version.isTagChar c = true) (by decide) (hascii c hmem)

end Marker

/-! ### Segments -/

/-- Any two characters of a run are of one kind, since neighbours are. -/
theorem runKind_eq_of_mem_run {s run : List Char}
    (hrun : run ∈ s.splitBy fun a b => runKind a == runKind b) :
    ∀ c ∈ run, ∀ d ∈ run, runKind c = runKind d := by
  have hchain := List.isChain_of_mem_splitBy hrun
  simp only [beq_iff_eq] at hchain
  have hpair : (run.map runKind).Pairwise (· = ·) := ((List.isChain_map runKind).2 hchain).pairwise
  intro c hc d hd
  exact hpair.forall_of_forall (fun _ _ => rfl) (List.mem_map_of_mem hc) (List.mem_map_of_mem hd)

/-- A run is all points or has none. -/
theorem eq_point_of_mem_run {s run : List Char}
    (hrun : run ∈ s.splitBy fun a b => runKind a == runKind b) (hpoint : '.' ∈ run) :
    ∀ c ∈ run, c = '.' := by
  intro c hc
  have hkind : runKind c = runKind '.' := runKind_eq_of_mem_run hrun c hc '.' hpoint
  by_contra hne
  simp [runKind, hne] at hkind

/-- A text with another character than points has a segment. -/
theorem segments_ne_nil {s : List Char} {c : Char} (hc : c ∈ s) (hne : c ≠ '.') :
    segments s ≠ [] := by
  intro hnil
  have hall : ∀ run ∈ s.splitBy fun a b => runKind a == runKind b, '.' ∈ run := by
    intro run hrun
    have := List.filter_eq_nil_iff.1 hnil run hrun
    simpa using this
  rw [← List.flatten_splitBy (fun a b => runKind a == runKind b) s, List.mem_flatten] at hc
  obtain ⟨run, hrun, hmem⟩ := hc
  exact hne (eq_point_of_mem_run hrun (hall run hrun) c hmem)

/-- No word weighs more than `dev`. -/
theorem weight?_le {s : List Char} {w : Nat} (h : weight? s = some w) : w ≤ 20 := by
  obtain ⟨p, hp, rfl⟩ := Option.map_eq_some_iff.1 h
  have hweights : ∀ q ∈ weights, q.2 ≤ 20 := by decide
  exact hweights p (List.mem_of_find?_eq_some hp)

/-- No segment sorts before `dev`, which is the heaviest word. -/
theorem cmp_dev_ne_lt (s : List Char) : (segmentKey s).cmp (.keyword 20) ≠ .lt := by
  unfold segmentKey
  cases hw : weight? s with
  | some w =>
    have hle := weight?_le hw
    show compare 20 w ≠ .lt
    rw [Ne, Nat.compare_eq_lt]
    omega
  | none => by_cases hn : Version.isNumeral s = true <;> simp [hn, SegmentKey.cmp]

namespace Version

/-- A version as canonical texts are read: its numbers are not negative, its prerelease has a
    segment, if it has a prerelease, and it has no build metadata. -/
structure IsCanonical (v : Version) : Prop where
  nonneg : ∀ n ∈ v.release, 0 ≤ n
  segmented : v.prerelease ≠ "" → segments v.prerelease.toList ≠ []
  bare : v.build = ""

variable {v d : Version}

/-- Nothing sorts below `dev` alone: its weight is the greatest and it has no number. This makes it
    the lower end of a range. -/
theorem prereleaseOrder_dev_ne_lt (hv : v.IsCanonical) (hd : d.prerelease = "dev") :
    prereleaseOrder v d ≠ .lt := by
  have hdev : tagKeys "dev" = some [.keyword 20] := by decide
  rw [prereleaseOrder, hd, hdev, tagKeys]
  by_cases hempty : v.prerelease = ""
  · rw [if_pos hempty]
    simp [tagOrder]
  · rw [if_neg hempty]
    show List.compareLex _ ((segments v.prerelease.toList).map segmentKey) _ ≠ _
    cases hsegments : segments v.prerelease.toList with
    | nil => exact absurd hsegments (hv.segmented hempty)
    | cons s rest =>
      rw [List.map_cons, List.compareLex_cons_cons, Ne, Ordering.then_eq_lt, not_or]
      refine ⟨cmp_dev_ne_lt s, ?_⟩
      -- If the first segments are equal, `dev` has no other one.
      rintro ⟨-, hrest⟩
      have hge : (List.compareLex SegmentKey.cmp (rest.map segmentKey) []).isGE = true :=
        List.isGE_compareLex_nil_right
      rw [hrest] at hge
      cases hge

/-- **`dev` is the least prerelease.** A canonical version is below one with the prerelease `dev`
    only if its numbers are below. -/
theorem order_dev_eq_lt_iff (hv : v.IsCanonical) (hd : d.prerelease = "dev")
    (hbuild : d.build = "") : order v d = .lt ↔ Ord.compare v.release d.release = .lt := by
  have hbare : buildOrder v d = .eq := by
    rw [buildOrder, hv.bare, hbuild]
    rfl
  rw [order_eq, hbare, Ordering.then_eq, precedenceOrder_eq, Ordering.then_eq_lt]
  exact or_iff_left fun h => prereleaseOrder_dev_ne_lt hv hd h.2

/-! ### Reading -/

/-- Taking zeros off the end adds no number. -/
theorem mem_of_mem_trimZeros {ns : List Int} {n : Int} (h : n ∈ trimZeros ns) : n ∈ ns := by
  rw [trimZeros, List.mem_reverse] at h
  exact List.mem_reverse.1 ((List.dropWhile_sublist _).subset h)

/-- Groups and a canonical marker make up a canonical version. The numbers are not negative, the
    tag has segments and there is no metadata. -/
theorem isCanonical_ofGroups {m : Marker} (hm : m.IsCanonical) (ns : List Nat) :
    (ofGroups (ns.map Int.ofNat) (String.ofList m.tag) "").IsCanonical where
  nonneg n hn := by
    -- Numbers that are not written count as zero.
    have hget : ∀ i, 0 ≤ (ns.map Int.ofNat).getD i 0 := by
      intro i
      rw [List.getD_eq_getElem?_getD, List.getElem?_map]
      cases ns[i]? with
      | none => exact Int.le_refl 0
      | some k => exact Int.natCast_nonneg k
    simp only [release, ofGroups, List.mem_append, List.mem_cons, List.not_mem_nil, or_false] at hn
    rcases hn with (rfl | rfl | rfl | rfl) | hn
    · exact hget 0
    · exact hget 1
    · exact hget 2
    · exact hget 3
    · obtain ⟨k, -, rfl⟩ := List.mem_map.1 (List.mem_of_mem_drop (mem_of_mem_trimZeros hn))
      exact Int.natCast_nonneg k
  segmented hne := by
    show segments (String.ofList m.tag).toList ≠ []
    rw [String.toList_ofList]
    rcases Marker.text_cases hm with hnil | ⟨c, r, hcons, hc⟩
    · refine absurd ?_ hne
      show String.ofList m.tag = ""
      rw [Marker.tag, hnil]
      rfl
    · have hmem : c ∈ m.tag := by
        rw [Marker.tag, hcons]
        exact List.mem_cons_self
      exact segments_ne_nil hmem hc
  bare := rfl

/-- A text that begins like a branch is read as no version. Its first letter is no digit. -/
theorem isBranch_of_parse {text : String} (h : parse text = .ok v) : isBranch text = false := by
  rw [isBranch, Bool.eq_false_iff]
  intro hlead
  obtain ⟨r, hr⟩ := Text.startsWith_iff.1 hlead
  have hparts : Parts.read? text.toList = none := by
    rw [Option.eq_none_iff_forall_ne_some]
    intro p hp
    obtain ⟨hnumerals, hall, -, -⟩ := Parts.read?_eq_some_iff.1 hp
    -- The numerals end at the hyphen, so the only one would be the word `dev`.
    have hcut : (Text.cut '-' (Text.cut '+' text.toList).1).1 = "dev".toList := by
      rw [hr]
      simp [Text.cut]
    rw [hcut] at hnumerals
    rw [hnumerals] at hall
    exact absurd hall (by decide)
  unfold parse at h
  rw [hparts] at h
  cases h

/-- Texts that are read as versions are compared as these. -/
theorem compareTexts_of_parse {l r : String} {w : Version} (hl : parse l = .ok v)
    (hr : parse r = .ok w) : compareTexts false l r = (v.compare w).map some := by
  unfold compareTexts
  rw [isBranch_of_parse hl, isBranch_of_parse hr]
  simp only [hl, hr]
  show Except.bind (v.compare w) _ = _
  cases v.compare w with
  | error e => rfl
  | ok o => rfl

end Version

/-- A row of numerals with a canonical marker is read as what it says. -/
theorem parse_canonical {gs : List (List Char)} {m : Marker} (hne : gs ≠ [])
    (hgs : ∀ g ∈ gs, Version.isNumeral g = true) (hlimit : ∀ g ∈ gs, g.length ≤ Numeral.limit)
    (hm : m.IsCanonical) (hascii : ∀ c ∈ m.text, c.toNat < 128) :
    Version.parse (String.ofList (dotted gs ++ m.text))
      = .ok (Version.ofGroups ((gs.map Numeral.value).map Int.ofNat) (String.ofList m.tag) "") := by
  rw [Marker.text_eq_marked hm]
  exact Version.parse_dotted hne hgs hlimit (Marker.isTagChar_of_mem_tag hm hascii)

/-- What is normalized is a branch or a row of groups with a canonical marker. -/
theorem exists_dotted_of_normalized {x nx : String} (hx : (normalized x).outcome = .ok nx)
    (hb : isBranch nx = false) :
    ∃ (gs : List (List Char)) (m : Marker), nx = String.ofList (dotted gs ++ m.text) ∧ gs ≠ [] ∧
      (∀ g ∈ gs, IsGroup g) ∧ m.IsCanonical := by
  obtain ⟨c, hc, rfl⟩ := outcome_normalized_eq_ok_iff.1 hx
  -- Of the normal forms all but a branch are rows of groups; the main line is one of a single
  -- group.
  cases isNormal_of_normalize hc with
  | master =>
    refine ⟨[maxField.toList], { dev := true }, ?_, by simp, ?_, Marker.isCanonical_dev true⟩
    · decide
    · intro g hg
      rw [List.mem_singleton.1 hg]
      exact ⟨by decide, by decide⟩
  | @branch name h => exact absurd hb (isBranch_branch_ne_false name)
  | @release r h => exact ⟨r.groups, r.marker, rfl, h.groups_ne_nil, h.groups, h.marker⟩
  | @numeric gs hgs hlen =>
    have hne : gs ≠ [] := List.ne_nil_of_length_eq_add_one hlen
    exact ⟨gs, { dev := true }, rfl, hne, hgs, Marker.isCanonical_dev true⟩

/-- In ASCII the groups are numerals, and what is behind them is a prerelease. So the canonical
    text has the form of a version. -/
theorem exists_marked_of_normalized {x nx : String} (hx : (normalized x).outcome = .ok nx)
    (hb : isBranch nx = false) (hascii : ∀ c ∈ nx.toList, c.toNat < 128) :
    ∃ (gs : List (List Char)) (m : Marker),
      nx = String.ofList (dotted gs ++ Version.marked '-' m.tag) ∧ gs ≠ [] ∧
      (∀ g ∈ gs, Version.isNumeral g = true) ∧ m.IsCanonical ∧
      m.tag.all Version.isTagChar = true := by
  obtain ⟨gs, m, rfl, hne, hgs, hm⟩ := exists_dotted_of_normalized hx hb
  rw [String.toList_ofList] at hascii
  refine ⟨gs, m, by rw [Marker.text_eq_marked hm], hne, fun g hg => ?_, hm, ?_⟩
  · refine isNumeral_of_isGroup (hgs g hg) fun c hc => hascii c ?_
    exact List.mem_append_left _ ((infix_dotted hg).subset hc)
  · exact Marker.isTagChar_of_mem_tag hm fun c hc => hascii c (List.mem_append_right _ hc)

/-- In a bounded text no group is too long for being converted. -/
theorem length_le_of_dotted {gs : List (List Char)} {t : List Char}
    (hgs : ∀ g ∈ gs, Version.isNumeral g = true) (hd : DigitsBounded (dotted gs ++ t)) :
    ∀ g ∈ gs, g.length ≤ Numeral.limit := by
  intro g hg
  have hpart : g <:+: dotted gs ++ t := (infix_dotted hg).trans (List.prefix_append _ _).isInfix
  have hdigits := hgs g hg
  simp only [Version.isNumeral, Bool.and_eq_true] at hdigits
  exact hd g hpart hdigits.2

/-- **Reading.** A canonical text in ASCII that is no branch is read as a canonical version, if its
    runs of digits can be converted. -/
theorem exists_parse_of_normalized {x nx : String} (hx : (normalized x).outcome = .ok nx)
    (hb : isBranch nx = false) (hascii : ∀ c ∈ nx.toList, c.toNat < 128)
    (hd : DigitsBounded nx.toList) : ∃ v, Version.parse nx = .ok v ∧ v.IsCanonical := by
  obtain ⟨gs, m, rfl, hne, hgs, hm, htag⟩ := exists_marked_of_normalized hx hb hascii
  rw [String.toList_ofList] at hd
  exact ⟨_, Version.parse_dotted hne hgs (length_le_of_dotted hgs hd) htag,
    Version.isCanonical_ofGroups hm (gs.map Numeral.value)⟩

end VersionRange
