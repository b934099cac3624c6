import VersionRange.Proofs.Constraint.Evaluate
import VersionRange.Proofs.Expression.Range
import VersionRange.Proofs.Expression.Readable

namespace VersionRange

/-!
# What hyphen ranges mean

The range `1.0 - 2.0` goes from one version to another.  An upper end with less than three groups
and no marker stands for all versions that begin with its groups.

* `hyphenText`: two versions with a hyphen between them; `isSingle_hyphenText`, that it is one term,
  and `read_hyphenText`, that it is read as the two versions.
* `MarkedText.IsExact`, `AtMost`: an upper end that stands for itself, and a version that is not
  above a bound.
* `ReadAs.lt_devBound_iff`: to be below the raised numbers is to begin with the numbers at most.
* `satisfies_hyphen`: the main result.
-/

/-! ### Hyphen ranges in writing -/

/-- Two versions with a hyphen between them. -/
def hyphenText (a b : MarkedText) : List Char := a.chars ++ " - ".toList ++ b.chars

namespace MarkedText

variable (v : MarkedText)

/-- The suffix of a marked text stands behind its groups. -/
theorem chars_append (t : List Char) : v.chars ++ t = v.toGroupText.chars ++ (v.suffix ++ t) := by
  rw [chars, List.append_assoc]

/-- A marked text holds a digit at least. -/
theorem ne_nil : v.chars ≠ [] := by
  obtain ⟨c, r, heq, -⟩ := v.exists_head
  rw [chars, heq]
  simp

/-- It holds no white space and no comma. -/
theorem isSolid_chars : ∀ c ∈ v.chars, isSolid c = true :=
  isSolid_of_isInert v.isInert_chars

/-- So a space ends it. -/
theorem space_not_mem : ' ' ∉ v.chars := not_mem_of_isInert v.isInert_chars (by decide)

/-- The text starts with a character that is not white space, and no comma. -/
theorem head?_ne {c : Char} (hc : isSolid c = false) : v.chars.head? ≠ some c := by
  intro hhead
  have hsolid := v.isSolid_chars c (List.mem_of_mem_head? hhead)
  rw [hc] at hsolid
  cases hsolid

end MarkedText

section HyphenText

variable (a b : MarkedText)

/-- Two marked texts with ` - ` between them are an expression of a single term: next to a hyphen a
    space does not separate. -/
theorem isSingle_hyphenText : IsSingle (hyphenText a b) :=
  isSingle_joined a.isInert_chars (by decide) b.isInert_chars a.ne_nil b.ne_nil fun before =>
    splitTermsFrom_hyphen before (b.head?_ne (c := ' ') (by decide))
      (b.head?_ne (c := ',') (by decide))

end HyphenText

/-! ### Reading hyphen ranges -/

namespace Term

/-- A row of wildcards holds points and wildcards only. In particular it has no digits. -/
theorem mem_of_isWildcardTail {s : List Char} (h : isWildcardTail s = true) {c : Char}
    (hc : c ∈ s) : c = '.' ∨ isWildcard c = true := by
  fun_induction isWildcardTail s with
  | case1 d r ih =>
    simp only [Bool.and_eq_true, Bool.or_eq_true, List.isEmpty_iff] at h
    obtain ⟨hd, hr⟩ := h
    rcases List.mem_cons.1 hc with rfl | hc
    · exact .inl rfl
    · rcases List.mem_cons.1 hc with rfl | hc
      · exact .inr hd
      · rcases hr with rfl | hr
        · cases hc
        · exact ih hr hc
  | case2 => cases h

/-- What wildcards are written with: themselves, points and digits. A text with any other character
    is none of these forms. -/
theorem wildcards_of_mem {s : List Char} {d : Char} (hs : d ∈ skipV s) (hpoint : d ≠ '.')
    (hdigit : Text.isDigit d = false) (hwildcard : isWildcard d = false) :
    isAnything s = false ∧ wildcardGroups? s = none := by
  have htail : ∀ t, d ∈ t → isWildcardTail t = false := by
    intro t ht
    rw [Bool.eq_false_iff]
    intro h
    rcases mem_of_isWildcardTail h ht with heq | hw
    · exact hpoint heq
    · rw [hwildcard] at hw
      cases hw
  constructor
  · unfold isAnything
    split
    case h_2 => rfl
    case h_1 c r hskip =>
      rw [hskip] at hs
      rcases List.mem_cons.1 hs with rfl | hs
      · rw [hwildcard, Bool.false_and]
      · have hne : r.isEmpty = false := List.isEmpty_eq_false_iff.2 (List.ne_nil_of_mem hs)
        rw [htail r hs, hne, Bool.or_false, Bool.and_false]
  · rw [Option.eq_none_iff_forall_ne_some]
    intro gs hgs
    obtain ⟨t, hsplit, hwildcards, -, -, hgroups⟩ := eq_dotted_of_wildcardGroups? hgs
    -- The character stands behind the groups, where the wildcards would be.
    rw [hsplit, List.mem_append] at hs
    rw [htail t (hs.resolve_left (not_mem_dotted hgroups hpoint hdigit))] at hwildcards
    cases hwildcards

end Term

/-- The two versions of a range are read at its hyphen. -/
theorem hyphen?_hyphenText (a b : MarkedText) :
    Term.hyphen? (hyphenText a b) = some (a.spelled, b.spelled) := by
  -- The lower end is taken up to the first space, and it has none of its own.
  have hlow : ∀ c ∈ a.chars, (c != ' ') = true := fun c hc =>
    bne_iff_ne.2 fun heq => a.space_not_mem (heq ▸ hc)
  have htake : (hyphenText a b).takeWhile (· != ' ') = a.chars := by
    rw [hyphenText, List.append_assoc, List.takeWhile_append_of_pos hlow]
    simp
  have hdrop : ((hyphenText a b).dropWhile (· != ' ')).dropWhile (· == ' ')
      = '-' :: ' ' :: b.chars := by
    rw [hyphenText, List.append_assoc, List.dropWhile_append_of_pos hlow]
    rfl
  have hhigh : b.chars.dropWhile (· == ' ') = b.chars := by
    obtain ⟨c, r, heq⟩ := List.exists_cons_of_ne_nil b.ne_nil
    have hc : c ≠ ' ' := fun hspace => b.head?_ne (c := ' ') (by decide) (by rw [heq, hspace]; rfl)
    rw [heq, List.dropWhile_cons_of_neg (by simpa using hc)]
  rw [Term.hyphen?, htake, hdrop, a.spelled?_chars]
  simp only [Option.bind_eq_bind, Option.bind_some, hhigh, b.spelled?_chars]
  rfl

/-- That term is a hyphen range with the two texts as its ends. -/
theorem read_hyphenText (a b : MarkedText) :
    Term.read (hyphenText a b) = .hyphen a.spelled b.spelled := by
  have htext : hyphenText a b
      = a.toGroupText.chars ++ (a.suffix ++ (" - ".toList ++ b.chars)) := by
    rw [hyphenText, List.append_assoc, a.chars_append]
  -- The other forms of terms are tried first, and a space in the middle rules them out.
  have hbehind : ∀ c ∈ ['~', '^'], Term.behind? c (hyphenText a b) = none := by
    intro c hc
    rw [htext]
    exact a.behind?_append hc _
  have hspace : ' ' ∈ skipV (hyphenText a b) := by
    rw [htext, a.skipV_append]
    simp
  obtain ⟨hanything, hwildcards⟩ :=
    Term.wildcards_of_mem hspace (by decide) (by decide) (by decide)
  unfold Term.read
  rw [if_neg (by simp [hanything]), hbehind '~' (by simp), hbehind '^' (by simp), hwildcards,
    hyphen?_hyphenText]
  rfl

/-! ### The upper end -/

/-- A canonical text compares as equal to or less than another. Both can be compared and neither is
    a branch. -/
def AtMost (l r : String) : Prop :=
  ∃ o, compareTexts false l r = .ok (some o) ∧ o.isLE = true

/-- At most a version that is no branch is what `<=` relates to it. -/
theorem relates_le_iff {l r : String} (hr : isBranch r = false) :
    Operator.le.relates false l r = .ok true ↔ AtMost l r :=
  relates_eq_true_iff .le hr

namespace MarkedText

variable (v : MarkedText)

/-- An upper end that stands for itself: it has three groups at least, or a marker. Any other one
    stands for all versions that begin with its numbers. -/
def IsExact : Prop := 3 ≤ v.groups.length ∨ v.marker.isAbsent = false

instance : Decidable v.IsExact := inferInstanceAs (Decidable (_ ∨ _))

/-- An exact upper end is the version as it is normalized. That version belongs to the range. -/
theorem exists_high : ∃ high, (normalized (String.ofList v.chars)).outcome = .ok high ∧
    isBranch high = false ∧
    (v.IsExact → (Term.upperEnd v.spelled).outcome = .ok ⟨.le, high⟩) := by
  have hnormal := v.normalize_append v.length_le v.major v.whole
  refine ⟨_, outcome_normalized_eq_ok_iff.2 ⟨_, hnormal, rfl⟩, ?_, fun hexact => ?_⟩
  · exact (isPlain_dotted (forall_mem_padGroups v.isGroup ⟨by decide, by decide⟩)
      (by simp [padGroups, v.groups_ne])
      (Marker.isRead_read v.suffix).canonical).isBranch_eq_false
  · have hend : 3 ≤ v.spelled.version.groups.length
        ∨ (!v.spelled.version.marker.isAbsent) = true := by
      simpa [IsExact, spelled] using hexact
    rw [Term.upperEnd]
    simp only [if_pos hend, Traced.outcome_bind, Traced.outcome_mapError]
    rw [spelled, chars, hnormal]
    rfl

/-- Any other upper end is the lowest version above all that begin with its groups. That version
    does not belong to the range. -/
theorem exists_devBound (h : ¬ v.IsExact) :
    ∃ high, (Term.upperEnd v.spelled).outcome = .ok ⟨.lt, high⟩ ∧
      Version.parse high
        = .ok (devVersion (raiseAt 1 (v.groups.length - 1) (groupValues v.groups))) := by
  obtain ⟨high, hhigh, hparse⟩ :=
    VersionRange.exists_devBound (v.groups.length - 1) (Nat.le_refl 1) v.room
  refine ⟨high, ?_, hparse⟩
  have hend : ¬ (3 ≤ v.spelled.version.groups.length
      ∨ (!v.spelled.version.marker.isAbsent) = true) := by
    simpa [IsExact, spelled] using h
  rw [Term.upperEnd]
  simp only [if_neg hend, Traced.outcome_bind, Traced.outcome_lift]
  rw [spelled, hhigh]
  rfl

end MarkedText

/-- The first numbers of a version are not above the groups that are written. What comes behind as
    many numbers as there are groups does not count. -/
def BeginsAtMost (x : Version) (gs : List (List Char)) : Prop :=
  (compare (x.release.take gs.length) (gs.map fun g => (Numeral.value g : Int))).isLE = true

instance (x : Version) (gs : List (List Char)) : Decidable (BeginsAtMost x gs) :=
  inferInstanceAs (Decidable (_ = true))

/-- A version is below the raised groups if its first numbers are not above the groups. The rest of
    its numbers and its marker do not matter. -/
theorem ReadAs.lt_devBound_iff {nx high : String} {x : Version} {gs : List (List Char)}
    (h : ReadAs nx x) (hne : gs ≠ []) (hlen : gs.length ≤ 4)
    (hhigh : Version.parse high = .ok (devVersion (raiseAt 1 (gs.length - 1) (groupValues gs)))) :
    Operator.lt.relates false nx high = .ok true ↔ BeginsAtMost x gs := by
  have hvalues := length_groupValues hlen
  have hpos := List.length_pos_iff.2 hne
  have hlast : gs.length - 1 + 1 = gs.length := by omega
  have hraised : (raiseAt 1 (gs.length - 1) (groupValues gs)).length = 4 := by
    rw [length_raiseAt, hvalues]
  have hrelease : (groupValues gs).length ≤ x.release.length := by
    rw [hvalues]
    exact x.length_four_le_release
  -- The bound is a release with `dev`, so only the numbers of the version count.
  rw [h.relates hhigh (ReadAs.withinLimit_devVersion _), ok_check_lt_iff,
    h.order_devVersion_eq_lt_iff hraised,
    compare_raiseAt_eq_lt_iff h.canonical.nonneg hrelease (by omega), hlast, take_groupValues,
    List.map_map]
  rfl

/-! ### What satisfies a hyphen range -/

section Satisfies

variable {x nx : String} {xv : Version} {a b : MarkedText} {c d : Comparator}

/-- A hyphen range asks for both of its ends. The lower one is asked first, and it may settle the
    answer. -/
theorem outcome_satisfies_hyphen (hx : (normalized x).outcome = .ok nx)
    (hlow : (Term.lowerEnd a.spelled).outcome = .ok c)
    (hhigh : (Term.upperEnd b.spelled).outcome = .ok d) :
    (satisfies x (String.ofList (hyphenText a b))).outcome
      = Connective.all.decide [c.operator.relates false nx c.version,
          d.operator.relates false nx d.version] := by
  have hmeaning : (Term.meaning (hyphenText a b) none (.hyphen a.spelled b.spelled)).outcome
      = .ok (leaves [c, d]) := by
    rw [Term.meaning, Traced.outcome_bind, hlow]
    show Traced.outcome (Term.upperEnd b.spelled >>= _) = _
    rw [Traced.outcome_bind, hhigh]
    rfl
  rw [(isSingle_hyphenText a b).outcome_satisfies hx, read_hyphenText, hmeaning]
  show Connective.all.decide ((leaves _).map _) = _
  rw [map_accepts_leaves]
  rfl

/-- Readable ends can be compared with. -/
theorem MarkedText.isReadable_spelled {v : MarkedText} (h : ReadableText v.chars) :
    v.spelled.IsReadable :=
  ⟨h, v.room⟩

/-- Between readable ends there is an answer for every version that can be compared. Both ends can
    be compared as well. -/
theorem exists_satisfies_hyphen (hx : (normalized x).outcome = .ok nx)
    (hcomparable : ComparableText nx) (ha : ReadableText a.chars) (hb : ReadableText b.chars)
    (hlow : (Term.lowerEnd a.spelled).outcome = .ok c)
    (hhigh : (Term.upperEnd b.spelled).outcome = .ok d) :
    ∃ t, (satisfies x (String.ofList (hyphenText a b))).outcome = .ok t := by
  have hc : c.IsComparable :=
    (hlow ▸ Term.yields_lowerEnd (MarkedText.isReadable_spelled ha)).of_ok
  have hd : d.IsComparable :=
    (hhigh ▸ Term.yields_upperEnd (MarkedText.isReadable_spelled hb)).of_ok
  rw [outcome_satisfies_hyphen hx hlow hhigh]
  apply Connective.exists_decide
  rw [List.forall_mem_cons, List.forall_mem_singleton]
  exact ⟨⟨_, relates_eq_admits hcomparable hc c.operator⟩,
    ⟨_, relates_eq_admits hcomparable hd d.operator⟩⟩

/-- **Meaning of hyphen ranges.** A version that is normalized to a text in ASCII, which is no
    branch and whose digits can be converted, satisfies `a - b` if it is not below the lower end and
    not above the upper one.  The lower end includes the prereleases of a version without a marker.
    An upper end with less than three groups and no marker includes all versions that begin with its
    groups. -/
theorem satisfies_hyphen (hx : (normalized x).outcome = .ok nx) (hb : isBranch nx = false)
    (hascii : ∀ c ∈ nx.toList, c.toNat < 128) (hd : DigitsBounded nx.toList) :
    ∃ xv, Version.parse nx = .ok xv ∧ ∀ a b : MarkedText, ∃ low high,
      a.IsLow low ∧ (normalized (String.ofList b.chars)).outcome = .ok high ∧
      (b.IsExact → ((satisfies x (String.ofList (hyphenText a b))).outcome = .ok true ↔
        AtLeast nx low ∧ AtMost nx high)) ∧
      (¬ b.IsExact → ((satisfies x (String.ofList (hyphenText a b))).outcome = .ok true ↔
        AtLeast nx low ∧ BeginsAtMost xv b.groups)) ∧
      (ReadableText a.chars → ReadableText b.chars →
        ∃ t, (satisfies x (String.ofList (hyphenText a b))).outcome = .ok t) := by
  obtain ⟨xv, hparse, hcanonical⟩ := exists_parse_of_normalized hx hb hascii hd
  have h : ReadAs nx xv := ⟨hparse, hcanonical, withinLimit_of_parse hd hparse⟩
  have hcomparable : ComparableText nx := .inr ⟨hd, xv, hparse⟩
  refine ⟨xv, hparse, fun a b => ?_⟩
  -- The lower end is always written with its marker or with `dev`; the upper end is a version or
  -- a raised number.
  obtain ⟨low, w, hlow, hlowEnd, hparseLow, -⟩ := a.exists_low
  obtain ⟨high, hhigh, hrelease, hexactEnd⟩ := b.exists_high
  have hge := relates_ge_iff (l := nx) (Version.isBranch_of_parse hparseLow)
  refine ⟨low, high, hlow, hhigh, fun hexact => ?_, fun hexact => ?_, fun hra hrb => ?_⟩
  · rw [outcome_satisfies_hyphen hx hlowEnd (hexactEnd hexact), Connective.decide_all_eq_true_iff,
      List.forall_mem_cons, List.forall_mem_singleton, hge, relates_le_iff hrelease]
  · obtain ⟨bound, hboundEnd, hparseBound⟩ := b.exists_devBound hexact
    rw [outcome_satisfies_hyphen hx hlowEnd hboundEnd, Connective.decide_all_eq_true_iff,
      List.forall_mem_cons, List.forall_mem_singleton, hge,
      h.lt_devBound_iff b.groups_ne b.length_le hparseBound]
  · by_cases hexact : b.IsExact
    · exact exists_satisfies_hyphen hx hcomparable hra hrb hlowEnd (hexactEnd hexact)
    · obtain ⟨bound, hboundEnd, -⟩ := b.exists_devBound hexact
      exact exists_satisfies_hyphen hx hcomparable hra hrb hlowEnd hboundEnd

end Satisfies

/-- The version `2.0` is an upper end that includes all versions that begin with it. -/
theorem exists_open_end : ∃ v : MarkedText, v.chars = "2.0".toList ∧ v.groups = [['2'], ['0']] ∧
    ¬ v.IsExact :=
  ⟨{ lead := [], groups := [['2'], ['0']], suffix := [],
     lead_mem := by decide, groups_ne := by decide, numeral := by decide, room := by decide,
     length_le := by decide, major := by decide, ascii := by decide, whole := by decide },
    by decide, rfl, by decide⟩

/-- What begins like the upper end is in the range, and a prerelease of what comes next is not. An
    upper end with a marker stands for itself. -/
theorem satisfies_hyphen_beta :
    (satisfies "2.0.5" "v1.2-beta2 - 2.0").outcome = .ok true ∧
      (satisfies "2.1-alpha" "v1.2-beta2 - 2.0").outcome = .ok false ∧
      (satisfies "1.2-beta2" "v1.2-beta2 - v1.2-beta2").outcome = .ok true := by
  have hpatch : (normalized "2.0.5").outcome = .ok "2.0.5.0" := eq_ok_of_toOption (by decide)
  have halpha : (normalized "2.1-alpha").outcome = .ok "2.1.0.0-alpha" :=
    eq_ok_of_toOption (by decide)
  have hbeta : (normalized "1.2-beta2").outcome = .ok "1.2.0.0-beta2" :=
    eq_ok_of_toOption (by decide)
  have hsame : (normalized "v1.2-beta2").outcome = .ok "1.2.0.0-beta2" :=
    eq_ok_of_toOption (by decide)
  -- The lower end has a marker, so it is normalized as it is.
  have hlow : ∀ low, betaExample.IsLow low → low = "1.2.0.0-beta2" := by
    intro low h
    rw [MarkedText.IsLow, if_neg (by decide)] at h
    exact Except.ok.inj (h.symm.trans hsame)
  obtain ⟨b, hchars, hgroups, hopenEnd⟩ := exists_open_end
  have htext : String.ofList (hyphenText betaExample b) = "v1.2-beta2 - 2.0" := by
    rw [hyphenText, hchars]
    decide
  refine ⟨?_, ?_, ?_⟩
  · obtain ⟨xv, hxv, hrange⟩ := satisfies_hyphen hpatch (by decide) (by decide)
      (.of_length_le (by decide))
    obtain ⟨low, high, h, -, -, hopen, -⟩ := hrange betaExample b
    rw [htext, hgroups] at hopen
    obtain rfl := hlow low h
    have hparse : Version.parse "2.0.5.0" = .ok { major := 2, patch := 5 } :=
      eq_ok_of_toOption (by decide)
    obtain rfl := Except.ok.inj (hparse.symm.trans hxv)
    exact (hopen hopenEnd).2 ⟨⟨.gt, eq_ok_of_toOption (by decide), rfl⟩, by decide⟩
  · obtain ⟨xv, hxv, hrange⟩ := satisfies_hyphen halpha (by decide) (by decide)
      (.of_length_le (by decide))
    obtain ⟨low, high, -, -, -, hopen, hanswer⟩ := hrange betaExample b
    rw [htext, hgroups] at hopen
    rw [htext, hchars] at hanswer
    have hparse : Version.parse "2.1.0.0-alpha"
        = .ok { major := 2, minor := 1, prerelease := "alpha" } :=
      eq_ok_of_toOption (by decide)
    obtain rfl := Except.ok.inj (hparse.symm.trans hxv)
    obtain ⟨t, ht⟩ := hanswer (.of_length_le (by decide) (by decide))
      (.of_length_le (by decide) (by decide))
    cases t with
    | false => exact ht
    | true => exact absurd ((hopen hopenEnd).1 ht).2 (by decide)
  · obtain ⟨xv, -, hrange⟩ := satisfies_hyphen hbeta (by decide) (by decide)
      (.of_length_le (by decide))
    obtain ⟨low, high, h, hhigh, hexact, -⟩ := hrange betaExample betaExample
    obtain rfl := hlow low h
    obtain rfl := Except.ok.inj (hsame.symm.trans hhigh)
    exact (hexact (by decide)).2
      ⟨⟨.eq, eq_ok_of_toOption (by decide), rfl⟩, ⟨.eq, eq_ok_of_toOption (by decide), rfl⟩⟩

end VersionRange
