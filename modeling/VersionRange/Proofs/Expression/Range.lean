import VersionRange.Proofs.Constraint.Between
import VersionRange.Proofs.Expression.Notation
import VersionRange.Proofs.Version.Canonical

namespace VersionRange

/-!
# What ranges mean

The ranges `~1.2`, `^1.2` and `1.2.*` stand for the versions that begin with some of their numbers.

* `MarkedText.IsLow`: the text that the lower end of a range is.
* `AgreesUpTo`, `AtLeast`: the numbers of a version agree with those of a range, and a version is
  not below a bound.
* `ReadAs.betweenBounds_iff`: what two bounds ask of a version.
* `satisfies_range`: the main result.
-/

/-! ### Bounds of ranges -/

/-- Up to four groups with a canonical marker are read as a version with their numbers. The groups
    that are missing count as zero. -/
theorem GroupText.parse_padGroups (v : GroupText) (hlen : v.groups.length ≤ 4) {m : Marker}
    (hm : m.IsCanonical) (hascii : ∀ c ∈ m.text, c.toNat < 128) :
    ∃ w, Version.parse (String.ofList (dotted (padGroups v.groups) ++ m.text)) = .ok w ∧
      w.release = (groupValues v.groups).map Int.ofNat ∧ w.prerelease = String.ofList m.tag ∧
      w.build = "" := by
  have hnumeral : ∀ g ∈ padGroups v.groups, Version.isNumeral g = true :=
    forall_mem_padGroups v.numeral (by decide)
  have hlimit : ∀ g ∈ padGroups v.groups, g.length ≤ Numeral.limit :=
    forall_mem_padGroups (fun g hg => Nat.le_of_lt (v.room g hg)) (by decide)
  have hne : padGroups v.groups ≠ [] := by
    simp [padGroups, v.groups_ne]
  have hfour : ((groupValues v.groups).map Int.ofNat).length = 4 := by
    rw [List.length_map, length_groupValues hlen]
  exact ⟨_, parse_canonical hne hnumeral hlimit hm hascii,
    Version.release_ofGroups hfour (String.ofList m.tag) "", rfl, rfl⟩

/-- The lower end of a range is the version that is written, or, where that has no marker, the one
    with `-dev` behind it. -/
theorem Term.outcome_lowerEnd_eq_ok_iff {v : Spelled} {low : Comparator} :
    (lowerEnd v).outcome = .ok low ↔
      ∃ c, (normalize (String.ofList
          (if v.version.marker.isAbsent then v.chars ++ "-dev".toList else v.chars)) none).outcome
        = .ok c ∧ low = ⟨.ge, c.text⟩ := by
  rw [lowerEnd, Traced.outcome_bind, Traced.outcome_mapError, bind_eq_ok_iff]
  constructor
  · rintro ⟨c, hc, h⟩
    exact ⟨c, mapError_eq_ok_iff.1 hc, (Except.ok.inj h).symm⟩
  · rintro ⟨c, hc, rfl⟩
    exact ⟨c, mapError_eq_ok_iff.2 hc, rfl⟩

namespace MarkedText

variable (v : MarkedText)

/-- The text that the lower end of a range is: of a version with a marker the canonical text, and
    otherwise its numbers with `-dev`. -/
def IsLow (low : String) : Prop :=
  if v.marker.isAbsent then low = String.ofList (dotted (padGroups v.groups) ++ "-dev".toList)
  else (normalized (String.ofList v.chars)).outcome = .ok low

/-- What the lower end is written as is normalized to the groups with a canonical marker. -/
theorem exists_normalize_low : ∃ m : Marker, m.IsCanonical ∧ (∀ c ∈ m.text, c.toNat < 128) ∧
    v.IsLow (String.ofList (dotted (padGroups v.groups) ++ m.text)) ∧
    (Term.lowerEnd v.spelled).outcome
      = .ok ⟨.ge, String.ofList (dotted (padGroups v.groups) ++ m.text)⟩ := by
  by_cases habsent : v.marker.isAbsent = true
  · -- Behind a version without a marker `-dev` is written.
    have hm := Marker.isCanonical_dev true
    have hread : Marker.read (v.suffix ++ "-dev".toList) = ({ dev := true }, []) :=
      Marker.read_append_dev v.whole habsent
    have hnormal := v.normalize_append v.length_le v.major (by rw [hread])
    rw [hread, hm.canonical_eq, ← List.append_assoc] at hnormal
    refine ⟨{ dev := true }, hm, by decide, ?_, ?_⟩
    · rw [IsLow, if_pos habsent]
      rfl
    · rw [Term.outcome_lowerEnd_eq_ok_iff, spelled, if_pos habsent]
      exact ⟨_, hnormal, rfl⟩
  · -- A marker is brought into its canonical form, which is ASCII as the marker was.
    have hnormal := v.normalize_append v.length_le v.major v.whole
    have hascii : ∀ c ∈ v.marker.canonical.text, c.toNat < 128 := by
      refine Marker.ascii_canonical fun c hc => v.ascii c ?_
      obtain ⟨lead, dev, hsuffix, -, -⟩ := Marker.exists_append_of_read v.suffix
      rw [hsuffix]
      exact List.mem_append_left _ (List.mem_append_left _ (List.mem_append_right _ hc))
    refine ⟨v.marker.canonical, (Marker.isRead_read v.suffix).canonical, hascii, ?_, ?_⟩
    · rw [IsLow, if_neg habsent]
      exact outcome_normalized_eq_ok_iff.2 ⟨_, hnormal, rfl⟩
    · rw [Term.outcome_lowerEnd_eq_ok_iff, spelled, if_neg habsent]
      exact ⟨_, hnormal, rfl⟩

/-- The lower end is read as a version with the numbers of the range. -/
theorem exists_low : ∃ low w, v.IsLow low ∧ (Term.lowerEnd v.spelled).outcome = .ok ⟨.ge, low⟩ ∧
    Version.parse low = .ok w ∧ w.release = (groupValues v.groups).map Int.ofNat := by
  obtain ⟨m, hm, hascii, hlow, hend⟩ := v.exists_normalize_low
  obtain ⟨w, hw, hrelease, -⟩ := v.parse_padGroups v.length_le hm hascii
  exact ⟨_, w, hlow, hend, hw, hrelease⟩

end MarkedText

/-! ### Versions between bounds -/

/-- A canonical text compares as equal to or greater than another. Both can be compared and neither
    is a branch. -/
def AtLeast (l r : String) : Prop :=
  ∃ o, compareTexts false l r = .ok (some o) ∧ o.isGE = true

/-- The numbers of a version up to a place are those of some groups. A missing group counts as
    zero. -/
def AgreesUpTo (p : Nat) (x : Version) (gs : List (List Char)) : Prop :=
  x.release.take (p + 1) = ((groupValues gs).take (p + 1)).map Int.ofNat

instance (p : Nat) (x : Version) (gs : List (List Char)) : Decidable (AgreesUpTo p x gs) :=
  inferInstanceAs (Decidable (_ = _))

/-- An operator holds where there is an outcome that it accepts. Against a branch there would be
    other ways to hold. -/
theorem relates_eq_true_iff (op : Operator) {l r : String} (hr : isBranch r = false) :
    op.relates false l r = .ok true ↔
      ∃ o, compareTexts false l r = .ok (some o) ∧ op.check o = true := by
  rw [relates_of_not_branch op l hr, map_eq_ok_iff]
  constructor
  · rintro ⟨o, ho, hcheck⟩
    cases o with
    | none => cases hcheck
    | some o => exact ⟨o, ho, hcheck⟩
  · rintro ⟨o, ho, hcheck⟩
    exact ⟨some o, ho, hcheck⟩

/-- At least a version that is no branch is what `>=` relates to it. -/
theorem relates_ge_iff {l r : String} (hr : isBranch r = false) :
    Operator.ge.relates false l r = .ok true ↔ AtLeast l r :=
  relates_eq_true_iff .ge hr

/-- A canonical text that is read as a canonical version and that can be compared. Normalizing
    gives such texts for all releases. -/
structure ReadAs (nx : String) (x : Version) : Prop where
  parse : Version.parse nx = .ok x
  canonical : x.IsCanonical
  within : x.WithinLimit

namespace ReadAs

variable {nx low high s : String} {x w : Version} {f : List Nat} {p : Nat}

/-- A text is related to a bound as the versions are that both are read as. -/
theorem relates (h : ReadAs nx x) (hs : Version.parse s = .ok w) (hw : w.WithinLimit)
    (op : Operator) : op.relates false nx s = .ok (op.check (x.order w)) := by
  rw [relates_of_not_branch op nx (Version.isBranch_of_parse hs),
    Version.compareTexts_of_parse h.parse hs, Version.compare_of_withinLimit h.within hw]
  rfl

/-- The lowest version of some numbers has nothing but `dev` behind them, so its comparison reads no
    number. -/
theorem withinLimit_devVersion (f : List Nat) : (devVersion f).WithinLimit :=
  ⟨.of_length_le (s := "dev".toList) (by decide), .of_length_le (s := "".toList) (by decide)⟩

/-- To the lowest version of some numbers a version stands as its own numbers do. -/
theorem order_devVersion_eq_lt_iff (h : ReadAs nx x) (hf : f.length = 4) :
    x.order (devVersion f) = .lt ↔ compare x.release (f.map Int.ofNat) = .lt := by
  rw [Version.order_dev_eq_lt_iff h.canonical rfl rfl, release_devVersion hf]

/-- A version is not below the lowest version of some numbers if its own numbers are not below. -/
theorem atLeast_devVersion_iff (h : ReadAs nx x) (hf : f.length = 4)
    (hs : Version.parse s = .ok (devVersion f)) :
    AtLeast nx s ↔ (compare x.release (f.map Int.ofNat)).isGE = true := by
  have hcompare : compareTexts false nx s = .ok (some (x.order (devVersion f))) := by
    rw [Version.compareTexts_of_parse h.parse hs,
      Version.compare_of_withinLimit h.within (withinLimit_devVersion f)]
    rfl
  -- Behind equal numbers nothing is below `dev`, so only the numbers count.
  have hnumbers : (x.order (devVersion f)).isGE = true ↔
      (compare x.release (f.map Int.ofNat)).isGE = true := by
    rw [Ordering.isGE_iff_ne_lt, Ordering.isGE_iff_ne_lt, h.order_devVersion_eq_lt_iff hf]
  rw [← hnumbers]
  constructor
  · rintro ⟨o, ho, hge⟩
    rw [hcompare] at ho
    cases ho
    exact hge
  · intro hge
    exact ⟨_, hcompare, hge⟩

/-- No canonical version is below the lowest version of all. -/
theorem atLeast_zero (h : ReadAs nx x) : AtLeast nx "0.0.0.0-dev" := by
  have hparse : Version.parse "0.0.0.0-dev" = .ok (devVersion [0, 0, 0, 0]) :=
    eq_ok_of_toOption (by decide)
  rw [h.atLeast_devVersion_iff rfl hparse]
  exact isGE_compare_zeros (f := [0, 0, 0, 0]) h.canonical.nonneg x.length_four_le_release

/-- **Between two bounds.** A version is between a bound and the lowest version of the bound's
    raised numbers if it is not below the bound and agrees with it up to the raised number. -/
theorem betweenBounds_iff (h : ReadAs nx x) (hf : f.length = 4) (hp : p < 4)
    (hlow : Version.parse low = .ok w) (hw : w.release = f.map Int.ofNat)
    (hhigh : Version.parse high = .ok (devVersion (raiseAt 1 p f))) :
    betweenBounds low high nx = .ok true ↔
      x.release.take (p + 1) = (f.take (p + 1)).map Int.ofNat ∧ AtLeast nx low := by
  have hraised : (raiseAt 1 p f).length = 4 := by rw [length_raiseAt, hf]
  have hlen : f.length ≤ x.release.length := by
    rw [hf]
    exact x.length_four_le_release
  -- The upper bound can be looked at only where the lower one holds.
  have hupper : AtLeast nx low → (Operator.lt.relates false nx high = .ok true ↔
      x.release.take (p + 1) = (f.take (p + 1)).map Int.ofNat) := by
    rintro ⟨o, ho, hge⟩
    obtain ⟨-, -, horder⟩ := order_of_compareTexts ho
    rw [versionOf_eq h.parse, versionOf_eq hlow] at horder
    -- Versions in this order have their numbers in this order.
    have hnumbers : (compare x.release (f.map Int.ofNat)).isGE = true := by
      rw [← hw, Ordering.isGE_iff_ne_lt]
      intro hlt
      rw [Version.order_eq, Version.precedenceOrder_eq, hlt] at horder
      rw [← horder] at hge
      cases hge
    rw [h.relates hhigh (withinLimit_devVersion _), ok_check_lt_iff,
      h.order_devVersion_eq_lt_iff hraised]
    exact compare_raiseAt_iff h.canonical.nonneg hlen (by omega) hnumbers
  rw [betweenBounds_eq_true_iff, relates_ge_iff (Version.isBranch_of_parse hlow)]
  constructor
  · rintro ⟨hge, hlt⟩
    exact ⟨(hupper hge).1 hlt, hge⟩
  · rintro ⟨hagrees, hge⟩
    exact ⟨hge, (hupper hge).2 hagrees⟩

/-- Two bounds that can be compared with always answer. -/
theorem exists_betweenBounds (h : ReadAs nx x) (hlow : Version.parse low = .ok w)
    (hw : w.WithinLimit) (hhigh : Version.parse high = .ok (devVersion f)) :
    ∃ b, betweenBounds low high nx = .ok b := by
  apply Connective.exists_decide
  rw [List.forall_mem_cons, List.forall_mem_singleton]
  exact ⟨⟨_, h.relates hlow hw .ge⟩, ⟨_, h.relates hhigh (withinLimit_devVersion f) .lt⟩⟩

/-- **Wildcards.** A version is between some numbers, with zeros behind a place, and the numbers
    raised at that place if it agrees with them up to there. -/
theorem betweenBounds_wildcard {gs : List (List Char)} (h : ReadAs nx x) (hgs : gs.length ≤ 4)
    (hp : p < 4) (hlow : Version.parse low = .ok (devVersion (raiseAt 0 p (groupValues gs))))
    (hhigh : Version.parse high = .ok (devVersion (raiseAt 1 p (groupValues gs)))) :
    betweenBounds low high nx = .ok (decide (AgreesUpTo p x gs)) := by
  have hvalues := length_groupValues hgs
  have hzeros : (raiseAt 0 p (groupValues gs)).length = 4 := by rw [length_raiseAt, hvalues]
  have hrelease : (devVersion (raiseAt 0 p (groupValues gs))).release
      = (raiseAt 0 p (groupValues gs)).map Int.ofNat := release_devVersion hzeros
  obtain ⟨b, hb⟩ := h.exists_betweenBounds hlow (withinLimit_devVersion _) hhigh
  rw [← raiseAt_raiseAt_zero] at hhigh
  have hiff := h.betweenBounds_iff hzeros hp hlow hrelease hhigh
  rw [take_succ_raiseAt_zero, hb, Except.ok.injEq] at hiff
  -- With zeros behind the place, agreeing up to there is enough for the lower bound.
  have hagrees : AgreesUpTo p x gs → AtLeast nx low := by
    intro hagrees
    have hlen : (groupValues gs).length ≤ x.release.length := by
      rw [hvalues]
      exact x.length_four_le_release
    rw [h.atLeast_devVersion_iff hzeros hlow]
    exact isGE_compare_raiseAt_zero h.canonical.nonneg hlen hagrees
  rw [hb, Except.ok.injEq, Bool.eq_iff_iff, decide_eq_true_iff, hiff]
  exact and_iff_left_of_imp hagrees

end ReadAs

/-! ### What satisfies a range -/

section Satisfies

/-- The constraints that comparators are on their own. They remember no text. -/
def leaves (cs : List Comparator) : List Constraint := cs.map (.leaf · none)

/-- A comparator on its own asks what its operator says. -/
theorem map_accepts_leaves (cs : List Comparator) (nx : String) :
    ((leaves cs).map fun c => c.accepts (.exactly nx))
      = cs.map fun c => c.operator.relates false nx c.version := by
  rw [leaves, List.map_map]
  exact List.map_congr_left fun c _ => Constraint.accepts_leaf c.operator c.version nx none

/-- A range with a sign stands for its two bounds. -/
theorem RangeSign.outcome_meaning (sign : RangeSign) (s : List Char) {v : Spelled}
    (hne : v.version.groups ≠ []) :
    (Term.meaning s none (sign.term v)).outcome
      = (Term.rangeTo v (sign.last v.version.groups)).outcome.map leaves := by
  cases sign with
  | tilde => exact Traced.outcome_map leaves _
  | caret =>
    rw [← caretPosition_eq hne]
    exact Traced.outcome_map leaves _

/-- Both bounds of a range have to be written. If one of them cannot, that is the fault of the
    range. -/
theorem Term.outcome_rangeTo_eq_ok_iff {v : Spelled} {p : Nat} {cs : List Comparator} :
    (rangeTo v p).outcome = .ok cs ↔
      ∃ high low, devBound v.version.groups p 1 = .ok high ∧ (lowerEnd v).outcome = .ok low ∧
        cs = [low, ⟨.lt, high⟩] := by
  rw [rangeTo, Traced.outcome_bind, Traced.outcome_lift, bind_eq_ok_iff]
  constructor
  · rintro ⟨high, hhigh, h⟩
    rw [Traced.outcome_bind, bind_eq_ok_iff] at h
    obtain ⟨low, hlow, h⟩ := h
    exact ⟨high, low, hhigh, hlow, (Except.ok.inj h).symm⟩
  · rintro ⟨high, low, hhigh, hlow, rfl⟩
    refine ⟨high, hhigh, ?_⟩
    rw [Traced.outcome_bind, hlow]
    rfl

variable {x nx : String} {xv : Version}

/-- What a range with a sign asks of a version: both of its bounds. -/
theorem MarkedText.outcome_satisfies (v : MarkedText) (sign : RangeSign) {low : String}
    (hx : (normalized x).outcome = .ok nx)
    (hlow : (Term.lowerEnd v.spelled).outcome = .ok ⟨.ge, low⟩) :
    ∃ high, Version.parse high
        = .ok (devVersion (raiseAt 1 (sign.last v.groups) (groupValues v.groups))) ∧
      (satisfies x (String.ofList (sign.char :: v.chars))).outcome = betweenBounds low high nx := by
  obtain ⟨high, hhigh, hparse⟩ := exists_devBound (sign.last v.groups) (Nat.le_refl 1) v.room
  refine ⟨high, hparse, ?_⟩
  have hrange : (Term.rangeTo v.spelled (sign.last v.spelled.version.groups)).outcome
      = .ok [⟨.ge, low⟩, ⟨.lt, high⟩] :=
    Term.outcome_rangeTo_eq_ok_iff.2 ⟨high, _, hhigh, hlow, rfl⟩
  -- The text is one term, and that term is a range.
  have hinert : ∀ c ∈ sign.char :: v.chars, isInert c = true := by
    intro c hc
    rcases List.mem_cons.1 hc with rfl | hc
    · cases sign <;> decide
    · exact v.isInert_chars c hc
  rw [(isSingle_of_inert (by simp) hinert).outcome_satisfies hx, v.read_chars sign,
    sign.outcome_meaning _ v.groups_ne, hrange]
  show Connective.all.decide ((leaves _).map _) = _
  rw [map_accepts_leaves]
  rfl

/-- What a range with wildcards asks of a version: that its numbers agree with those in front of
    the wildcards. There always is an answer. -/
theorem WildcardText.outcome_satisfies (w : WildcardText) (hx : (normalized x).outcome = .ok nx)
    (h : ReadAs nx xv) :
    (satisfies x (String.ofList w.chars)).outcome
      = .ok (decide (AgreesUpTo (w.groups.length - 1) xv w.groups)) := by
  have hlen := w.length_le
  obtain ⟨low, hlow, hparseLow⟩ := exists_devBound (w.groups.length - 1) (Nat.zero_le 1) w.room
  obtain ⟨high, hhigh, hparseHigh⟩ := exists_devBound (w.groups.length - 1) (Nat.le_refl 1) w.room
  have hbetween := h.betweenBounds_wildcard (by omega) (by omega) hparseLow hparseHigh
  have hrange : Term.wildcardRange w.groups
      = .ok (if low = "0.0.0.0-dev" then [⟨.lt, high⟩] else [⟨.ge, low⟩, ⟨.lt, high⟩]) := by
    rw [Term.wildcardRange, wildcardPosition, hlow]
    show Except.bind (devBound w.groups (w.groups.length - 1) 1) _ = _
    rw [hhigh]
    rfl
  have hne : w.chars ≠ [] := by
    obtain ⟨c, r, heq, -⟩ := w.exists_head
    rw [chars, heq]
    simp
  have hmeaning : (Term.meaning w.chars none (.wildcard w.groups)).outcome
      = (Term.wildcardRange w.groups).map leaves := Traced.outcome_map leaves _
  rw [(isSingle_of_inert hne w.isInert_chars).outcome_satisfies hx, w.read_chars, hmeaning, hrange,
    ← hbetween]
  show Connective.all.decide ((leaves _).map _) = _
  rw [map_accepts_leaves]
  -- The bound that is left out would hold, so leaving it out changes nothing.
  by_cases hzero : low = "0.0.0.0-dev"
  · have hge : Operator.ge.relates false nx low = .ok true := by
      rw [relates_ge_iff (Version.isBranch_of_parse hparseLow), hzero]
      exact h.atLeast_zero
    rw [if_pos hzero, betweenBounds_of_ge hge]
    exact Connective.decide_singleton .all _
  · rw [if_neg hzero]
    rfl

/-- **Meaning of ranges.** A version that is normalized to a text in ASCII, which is no branch and
    whose digits can be converted, satisfies `~v` or `^v` if its numbers agree with those of `v` up
    to the last one that the range keeps and it is not below the lower end of the range.  It
    satisfies a range with wildcards if its numbers agree with all that are written, so that the
    lowest bound of all may be left out. -/
theorem satisfies_range (hx : (normalized x).outcome = .ok nx) (hb : isBranch nx = false)
    (hascii : ∀ c ∈ nx.toList, c.toNat < 128) (hd : DigitsBounded nx.toList) :
    ∃ xv, Version.parse nx = .ok xv ∧
      (∀ v : MarkedText, ∃ low, v.IsLow low ∧ ∀ sign : RangeSign,
        ((satisfies x (String.ofList (sign.char :: v.chars))).outcome = .ok true ↔
          AgreesUpTo (sign.last v.groups) xv v.groups ∧ AtLeast nx low) ∧
        (DigitsBounded low.toList →
          ∃ b, (satisfies x (String.ofList (sign.char :: v.chars))).outcome = .ok b)) ∧
      (∀ w : WildcardText, (satisfies x (String.ofList w.chars)).outcome
        = .ok (decide (AgreesUpTo (w.groups.length - 1) xv w.groups))) ∧
      AtLeast nx "0.0.0.0-dev" := by
  obtain ⟨xv, hparse, hcanonical⟩ := exists_parse_of_normalized hx hb hascii hd
  have h : ReadAs nx xv := ⟨hparse, hcanonical, withinLimit_of_parse hd hparse⟩
  refine ⟨xv, hparse, fun v => ?_, fun w => w.outcome_satisfies hx h, h.atLeast_zero⟩
  obtain ⟨low, w, hlow, hend, hparseLow, hrelease⟩ := v.exists_low
  refine ⟨low, hlow, fun sign => ?_⟩
  -- The lower bound comes from the normalizer and the upper one from the numbers; between them
  -- lie just the versions that agree with the numbers.
  obtain ⟨high, hparseHigh, houtcome⟩ := v.outcome_satisfies sign hx hend
  rw [houtcome]
  constructor
  · exact h.betweenBounds_iff (length_groupValues v.length_le) (sign.last_lt v.length_le) hparseLow
      hrelease hparseHigh
  · intro hdLow
    exact h.exists_betweenBounds hparseLow (withinLimit_of_parse hdLow hparseLow) hparseHigh

end Satisfies

/-- The version `v1.2-beta2`. -/
def betaExample : MarkedText where
  lead := ['v']
  groups := [['1'], ['2']]
  suffix := "-beta2".toList
  lead_mem := by decide
  groups_ne := by decide
  numeral := by decide
  room := by decide
  length_le := by decide
  major := by decide
  ascii := by decide
  whole := by decide

/-- The range `0.*`, which leaves out its lower bound. -/
def zeroExample : WildcardText where
  lead := []
  groups := [['0']]
  wildcards := ['*']
  lead_mem := by decide
  groups_ne := by decide
  numeral := by decide
  room := by decide
  length_le := by decide
  wildcards_ne := by decide
  wildcard := by decide

/-- A version in a range whose lower end is a prerelease, and not in another one with wildcards. -/
theorem satisfies_range_beta :
    (normalized "1.2-RC1").outcome = .ok "1.2.0.0-RC1" ∧
      (satisfies "1.2-RC1" "~v1.2-beta2").outcome = .ok true ∧
      (satisfies "1.2-RC1" "0.*").outcome = .ok false := by
  have hx : (normalized "1.2-RC1").outcome = .ok "1.2.0.0-RC1" :=
    eq_ok_of_toOption (by decide)
  obtain ⟨xv, hparse, hmarked, hwildcard, -⟩ := satisfies_range hx (by decide) (by decide)
    (.of_length_le (by decide))
  have hxv : Version.parse "1.2.0.0-RC1" = .ok { major := 1, minor := 2, prerelease := "RC1" } :=
    eq_ok_of_toOption (by decide)
  rw [hxv] at hparse
  obtain rfl := Except.ok.inj hparse
  obtain ⟨low, hlow, hrange⟩ := hmarked betaExample
  have hbeta : (normalized "v1.2-beta2").outcome = .ok "1.2.0.0-beta2" :=
    eq_ok_of_toOption (by decide)
  -- The lower end keeps its marker.
  rw [MarkedText.IsLow, if_neg (by decide)] at hlow
  obtain rfl := Except.ok.inj (hbeta.symm.trans hlow)
  refine ⟨hx, (hrange .tilde).1.2 ⟨by decide, .gt, ?_, rfl⟩, ?_⟩
  · exact eq_ok_of_toOption (by decide)
  · exact (hwildcard zeroExample).trans (congrArg Except.ok (decide_eq_false (by decide)))

end VersionRange
