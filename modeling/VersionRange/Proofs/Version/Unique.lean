import VersionRange.Proofs.Constraint.Symmetry
import VersionRange.Proofs.Expression.Collapse
import VersionRange.Proofs.Order.WriteBack
import VersionRange.Proofs.Query.Sort

namespace VersionRange

/-!
# Canonical text is unique

Of versions with four fields equal ones are written alike.  So wherever texts stand for versions it
is all the same whether they are compared as texts or as versions.

* `Release.IsReduced`, `IsFourField`: canonical texts with four numbers, none of which has leading
  zeros; `IsFourField.order_eq_iff`: two of them are equal versions only if they are one text.
* `Operator.leavesRoom`, `Comparator.overlaps_eq_leavesRoom`: where this is so, what one comparator
  says about another is settled by their operators and the order of their versions.
* `Expression.collapse?_of_isRange`: two ranges are made one on the text of the bound in the middle.
* `canonicalText_unique`: the main result.
-/

/-! ### Four fields -/

/-- A release with four numbers and a marker, in none of which there are leading zeros. No two such
    releases stand for one version. -/
structure Release.IsReduced (r : Release) : Prop where
  length : r.groups.length = 4
  numerals : ∀ g ∈ r.groups, Numeral.IsReduced g
  marker : r.marker.IsReduced

instance (r : Release) : Decidable r.IsReduced :=
  decidable_of_iff
    (r.groups.length = 4 ∧ (∀ g ∈ r.groups, Numeral.IsReduced g) ∧ r.marker.IsReduced)
    ⟨fun h => ⟨h.1, h.2.1, h.2.2⟩, fun h => ⟨h.length, h.numerals, h.marker⟩⟩

/-- The canonical text of a version with four fields. -/
def IsFourField (text : String) : Prop := ∃ r : Release, r.IsReduced ∧ text = String.ofList r.text

/-- As many numbers as are always written are all that count. -/
theorem Version.release_ofGroups_of_length {ns : List Int} (h : ns.length = 4)
    (prerelease build : String) : (ofGroups ns prerelease build).release = ns := by
  match ns, h with
  | [_, _, _, _], rfl => rfl

namespace Release.IsReduced

variable {r s : Release}

/-- What the text of a release is read as. -/
theorem parse_reduced (h : r.IsReduced) (hd : DigitsBounded r.text) :
    Version.parse (String.ofList r.text)
      = .ok (Version.ofGroups ((r.groups.map Numeral.value).map Int.ofNat)
          (String.ofList r.marker.tag) "") := by
  have hne : r.groups ≠ [] := List.ne_nil_of_length_eq_add_one h.length
  have hnumerals : ∀ g ∈ r.groups, Version.isNumeral g = true := fun g hg => (h.numerals g hg).1
  exact parse_canonical hne hnumerals (length_le_of_dotted hnumerals hd) h.marker.isCanonical
    h.marker.ascii_text

/-- Equal versions have the same numbers and the same prerelease, and there is one way to write
    each of them. -/
theorem text_eq_of_order_eq (hr : r.IsReduced) (hs : s.IsReduced)
    (h : Version.order
      (.ofGroups ((r.groups.map Numeral.value).map Int.ofNat) (String.ofList r.marker.tag) "")
      (.ofGroups ((s.groups.map Numeral.value).map Int.ofNat) (String.ofList s.marker.tag) "")
        = .eq) :
    r.text = s.text := by
  have hrelease := Version.release_eq_of_order_eq h
  -- Behind the same numbers the order is that of the prereleases.
  have hmarker : r.marker.text = s.marker.text := by
    apply hr.marker.text_eq_of_order_eq hs.marker
    rw [← h]
    exact (Version.order_of_release_eq hrelease rfl rfl rfl rfl).symm
  -- Each of the four numbers is written with its digits and nothing else.
  have hgroups : r.groups = s.groups := by
    rw [Version.release_ofGroups_of_length (by simp [hr.length]),
      Version.release_ofGroups_of_length (by simp [hs.length])] at hrelease
    have hvalues : r.groups.map Numeral.value = s.groups.map Numeral.value :=
      List.map_injective_iff.2 (fun _ _ => Int.ofNat.inj) hrelease
    rw [← Numeral.map_toDigits_value hr.numerals, hvalues, Numeral.map_toDigits_value hs.numerals]
  rw [text, text, hgroups, hmarker]

end Release.IsReduced

namespace IsFourField

variable {l r : String}

/-- A text with four numeric fields and short numbers is the text of a release. -/
theorem releaseText (h : IsFourField l) (hd : DigitsBounded l.toList) : ReleaseText l := by
  obtain ⟨s, hs, rfl⟩ := h
  refine ⟨hd, _, hs.parse_reduced ?_⟩
  rwa [String.toList_ofList] at hd

/-- **One text for each version.** Two texts of four reduced groups with a reduced marker that
    compare equal are the same text. -/
theorem order_eq_iff (hl : IsFourField l) (hr : IsFourField r) (dl : DigitsBounded l.toList)
    (dr : DigitsBounded r.toList) :
    Version.order (versionOf l) (versionOf r) = .eq ↔ l = r := by
  constructor
  · intro h
    obtain ⟨s, hs, rfl⟩ := hl
    obtain ⟨t, ht, rfl⟩ := hr
    rw [String.toList_ofList] at dl dr
    rw [versionOf_eq (hs.parse_reduced dl), versionOf_eq (ht.parse_reduced dr)] at h
    rw [hs.text_eq_of_order_eq ht h]
  · rintro rfl
    exact Std.ReflCmp.compare_self

end IsFourField

/-! ### The end in common of two comparators -/

namespace Operator

/-- Whether a comparator leaves room for another one, from their operators and from how the version
    of the other stands to its own: an end that they have in common counts if the other includes
    it. -/
def leavesRoom (op other : Operator) (o : Ordering) : Bool :=
  if op = .ne ∨ other = .ne then decide (op ≠ .eq ∧ other ≠ .eq) || o.isNe
  else
    decide (op ≠ .eq ∧ op.direction = other.direction) ||
      op.check o && (o.isNe || other.hasEqual)

/-- An operator that excludes nothing holds of equality if its symbol says so. -/
theorem check_eq_of_ne {op : Operator} (h : op ≠ .ne) : op.check .eq = op.hasEqual := by
  cases op with
  | ne => exact absurd rfl h
  | _ => rfl

/-- Between texts that are no branches, whether branches are compared has no part in the
    relation. -/
theorem relates_eq_of_not_branch {x v : String} (hx : isBranch x = false) (hv : isBranch v = false)
    (op : Operator) (branches : Bool) : op.relates branches x v = op.relates false x v := by
  rw [relates, relates, hx, compareTexts_of_not_branch hx hv branches,
    compareTexts_of_not_branch hx hv false]
  rfl

end Operator

namespace Comparator

variable {c d : Comparator}

/-- So it has none in whether two comparators leave room for each other. -/
theorem overlaps_eq_of_not_branch (hc : isBranch c.version = false)
    (hd : isBranch d.version = false) (branches : Bool) :
    c.overlaps branches d = c.overlaps false d := by
  unfold overlaps
  rw [Operator.relates_eq_of_not_branch hd hc .ne,
    Operator.relates_eq_of_not_branch hd hc c.operator]

/-- **The order settles it.** Where equal versions are one text, the text says nothing that the
    order does not say. -/
theorem overlaps_eq_leavesRoom {branches : Bool} (hc : ReleaseText c.version)
    (hd : ReleaseText d.version) (hsame : d.order c = .eq ↔ d.version = c.version) :
    c.overlaps branches d = .ok (c.operator.leavesRoom d.operator (d.order c)) := by
  rw [overlaps_eq_of_not_branch hc.isBranch_eq_false hd.isBranch_eq_false branches]
  unfold Operator.leavesRoom
  -- The cases are those of the comparators themselves: `!=`, a common direction, and the ends.
  by_cases hne : c.operator = .ne ∨ d.operator = .ne
  · have hapart : (c.order d).isNe = (d.order c).isNe := by
      rw [order_swap d c]
      cases d.order c <;> rfl
    rw [if_pos hne, overlaps_of_ne hc hd hne, hapart]
  · rw [if_neg hne]
    by_cases hdir : c.operator ≠ .eq ∧ c.operator.direction = d.operator.direction
    · rw [overlaps_of_direction_eq hdir.1 (not_or.1 hne) hdir.2, decide_eq_true hdir, Bool.true_or]
    · rw [overlaps_of_direction hc hd hne hdir, decide_eq_false hdir, Bool.false_or]
      by_cases hends : d.version = c.version
      · -- An end in common is admitted by both or by none, or by the one that includes it.
        rw [hsame.2 hends, Operator.check_eq_of_ne (not_or.1 hne).1]
        cases c.operator.hasEqual <;> cases d.operator.hasEqual <;> simp [hends]
      · have hapart : (d.order c).isNe = true := by
          cases ho : d.order c with
          | eq => exact absurd (hsame.1 ho) hends
          | lt => rfl
          | gt => rfl
        simp [hends, hapart]

end Comparator

/-! ### The bound in the middle of two ranges -/

/-- Two ranges are made one if the second starts with the text that the first one ends with. -/
theorem Expression.collapse?_of_isRange {low l r high : String} {g₁ g₂ : Constraint}
    (h₁ : IsRange low l g₁) (h₂ : IsRange r high g₂) :
    collapse? [g₁, g₂] = if l = r then some ⟨low, high⟩ else none := by
  obtain ⟨w₁, w₂, w, rfl⟩ := h₁
  obtain ⟨u₁, u₂, u, rfl⟩ := h₂
  rfl

/-! ### Texts and versions -/

/-- **Canonical text is unique.** Two versions with four fields are equal exactly if they are
    written alike.  So the order of two versions settles whether comparators with them leave room
    for each other, two ranges are made one if the version in the middle is equal in both, and to
    compare the texts first does not change how versions are sorted. -/
theorem canonicalText_unique {l r : String} (hl : IsFourField l) (hr : IsFourField r)
    (dl : DigitsBounded l.toList) (dr : DigitsBounded r.toList) :
    ∃ o, (∀ branches, compareTexts branches l r = .ok (some o)) ∧ (o = .eq ↔ l = r) ∧
      (∀ branches op other, Comparator.overlaps branches ⟨op, r⟩ ⟨other, l⟩
        = .ok (op.leavesRoom other o)) ∧
      (∀ low high g₁ g₂, IsRange low l g₁ → IsRange r high g₂ →
        Expression.collapse? [g₁, g₂] = if o = .eq then some ⟨low, high⟩ else none) ∧
      ∀ v w, compareKeyed ⟨l, v⟩ ⟨r, w⟩ = .ok o := by
  have hlText := hl.releaseText dl
  have hrText := hr.releaseText dr
  have hsame := hl.order_eq_iff hr dl dr
  refine ⟨_, fun _ => hlText.compareTexts_eq hrText, hsame, ?_, ?_, ?_⟩
  · intro branches op other
    exact Comparator.overlaps_eq_leavesRoom hrText hlText hsame
  · intro low high g₁ g₂ h₁ h₂
    rw [Expression.collapse?_of_isRange h₁ h₂]
    exact if_congr hsame.symm rfl rfl
  · intro v w
    unfold compareKeyed
    split
    case isTrue heq =>
      -- Equal texts are not compared, but they would be equal.
      rw [hsame.2 heq]
    case isFalse =>
      rw [hlText.compareTexts_eq hrText]
      rfl

/-- A point and a hyphen between the same two numbers make two versions, and a keyword with `dev` is
    another version than the same keyword with a number and `dev`. -/
theorem canonicalText_unique_alpha :
    (∃ o, o ≠ .eq ∧
      compareTexts false "1.0.0.0-alpha1.2" "1.0.0.0-alpha1-2" = .ok (some o) ∧
      Expression.collapse? [Expression.Span.constraint ⟨"0.9.0.0", "1.0.0.0-alpha1.2"⟩,
        Expression.Span.constraint ⟨"1.0.0.0-alpha1-2", "2.0.0.0"⟩] = none) ∧
    ∃ o, o ≠ .eq ∧ compareTexts true "1.0.0.0-beta-dev" "1.0.0.0-beta1-dev" = .ok (some o) ∧
      Comparator.overlaps false ⟨.ge, "1.0.0.0-beta1-dev"⟩ ⟨.lt, "1.0.0.0-beta-dev"⟩
        = .ok (Operator.ge.leavesRoom .lt o) := by
  have hgroups : ∀ g ∈ [['1'], ['0'], ['0'], ['0']], Numeral.IsReduced g := by decide
  -- All four texts have the same groups, and their markers are reduced.
  have hone : ∀ m : Marker, m.IsReduced →
      IsFourField (String.ofList (Release.mk [['1'], ['0'], ['0'], ['0']] m).text) :=
    fun m hm => ⟨_, ⟨rfl, hgroups, hm⟩, rfl⟩
  have hpoint : IsFourField "1.0.0.0-alpha1.2" :=
    hone { keyword := some "alpha".toList, identifier := "1.2".toList } (by decide)
  have hhyphen : IsFourField "1.0.0.0-alpha1-2" :=
    hone { keyword := some "alpha".toList, identifier := "1-2".toList } (by decide)
  have hdev : IsFourField "1.0.0.0-beta-dev" :=
    hone { keyword := some "beta".toList, dev := true } (by decide)
  have hnumber : IsFourField "1.0.0.0-beta1-dev" :=
    hone { keyword := some "beta".toList, identifier := ['1'], dev := true } (by decide)
  constructor
  · obtain ⟨o, hcompare, hsame, -, hcollapse, -⟩ := canonicalText_unique hpoint hhyphen
      (.of_length_le (by decide)) (.of_length_le (by decide))
    have hne : o ≠ .eq := fun h => absurd (hsame.1 h) (by decide)
    refine ⟨o, hne, hcompare false, ?_⟩
    rw [hcollapse _ _ _ _ (Expression.Span.isRange _) (Expression.Span.isRange _), if_neg hne]
  · obtain ⟨o, hcompare, hsame, hroom, -⟩ := canonicalText_unique hdev hnumber
      (.of_length_le (by decide)) (.of_length_le (by decide))
    exact ⟨o, fun h => absurd (hsame.1 h) (by decide), hcompare true, hroom false .ge .lt⟩

end VersionRange
