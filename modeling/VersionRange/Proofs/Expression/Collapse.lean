import VersionRange.Proofs.Constraint.Overlap
import VersionRange.Proofs.Expression.Parse

namespace VersionRange

/-!
# Two ranges made one

Alternatives are made one range where the text of the bound in the middle is the same.  The order of
the bounds is not looked at.

* `inOrder_of_split`: bounds whose range always means its two halves are in order; the converse of
  `range_split`.
* `IsRange low high c`: the constraint `c` is nothing but the range from `low` to `high`, whatever
  it remembers; `IsRange.accepts_eq`, `accepts_pair_eq`.
* `inOrder_iff`: between releases, one range means its two halves exactly if the bounds are in
  order.
* `collapse_contiguous`: two ranges that meet are made one, and no other alternatives are.
-/

/-! ### Bounds in order -/

section Order

variable {α : Type} {cmp : α → α → Ordering} [Std.TransCmp cmp] {a m c : α}

/-- If each of three bounds lies in the whole range exactly if it lies in one of the halves, the
    bounds are in order. -/
theorem inOrder_of_split
    (h : ∀ x, x = a ∨ x = m ∨ x = c → (((cmp x a).isGE = true ∧ cmp x c = .lt) ↔
      ((cmp x a).isGE = true ∧ cmp x m = .lt) ∨ ((cmp x m).isGE = true ∧ cmp x c = .lt))) :
    (cmp a m).isLE = true ∧ (cmp m c).isLE = true ∨
      (cmp a m).isGE = true ∧ (cmp m c).isGE = true := by
  have hself (x : α) : (cmp x x).isGE = true := by
    have heq : cmp x x = .eq := Std.ReflCmp.compare_self
    rw [heq]
    rfl
  have hnot {x y : α} (hxy : cmp x y = .lt) : ¬ (cmp x y).isGE = true := by
    rw [hxy]
    decide
  by_contra hcon
  -- What fails to be in order turns around at the bound in the middle.
  have hturn : cmp a m = .lt ∧ cmp m c = .gt ∨ cmp a m = .gt ∧ cmp m c = .lt := by
    revert hcon
    cases cmp a m <;> cases cmp m c <;> decide
  rcases hturn with ⟨ham, hmc⟩ | ⟨ham, hmc⟩
  · have hcm : cmp c m = .lt := Std.OrientedCmp.gt_iff_lt.1 hmc
    by_cases hca : (cmp c a).isGE = true
    · -- The upper bound lies in the lower half, but it is excluded from the whole range.
      exact hnot ((h c (.inr (.inr rfl))).2 (.inl ⟨hca, hcm⟩)).2 (hself c)
    · -- The whole range is empty, but its lower bound lies in the lower half.
      have hac : cmp a c = .lt := ((h a (.inl rfl)).2 (.inl ⟨hself a, ham⟩)).2
      exact hca (Ordering.isGE_of_eq_gt (Std.OrientedCmp.gt_iff_lt.2 hac))
  · -- The bound in the middle lies in the upper half, but below the whole range.
    have hma : cmp m a = .lt := Std.OrientedCmp.gt_iff_lt.1 ham
    exact hnot hma ((h m (.inr (.inl rfl))).2 (.inr ⟨hself m, hmc⟩)).1

end Order

/-- Releases are compared by the versions that they are read as. -/
theorem ReleaseText.compareTexts_eq {l r : String} {branches : Bool} (hl : ReleaseText l)
    (hr : ReleaseText r) :
    compareTexts branches l r = .ok (some (Version.order (versionOf l) (versionOf r))) := by
  have el := hl.isBranch_eq_false
  have er := hr.isBranch_eq_false
  rw [compareTexts_of_not_branch el er, compareTexts_of_comparable hl.comparable hr.comparable]
  simp only [textOrder, el, er]

/-- The condition on the three bounds, which is about texts, in terms of the versions that
    are written there. -/
theorem inOrder_iff_order {low mid high : String} (hlow : ReleaseText low) (hmid : ReleaseText mid)
    (hhigh : ReleaseText high) :
    InOrder low mid high ↔
      (Version.order (versionOf low) (versionOf mid)).isLE = true ∧
          (Version.order (versionOf mid) (versionOf high)).isLE = true ∨
        (Version.order (versionOf low) (versionOf mid)).isGE = true ∧
          (Version.order (versionOf mid) (versionOf high)).isGE = true := by
  constructor
  · rintro ⟨o₁, o₂, h₁, h₂, hord⟩
    obtain ⟨-, -, rfl⟩ := order_of_compareTexts h₁
    obtain ⟨-, -, rfl⟩ := order_of_compareTexts h₂
    exact hord
  · intro hord
    exact ⟨_, _, hlow.compareTexts_eq hmid, hmid.compareTexts_eq hhigh, hord⟩

/-! ### Ranges and what they admit -/

/-- A constraint that is nothing but a range, whatever it remembers: at least `low` and below
    `high`, in this sequence. -/
def IsRange (low high : String) (c : Constraint) : Prop :=
  ∃ w₁ w₂ w, c = .group .all [.leaf ⟨.ge, low⟩ w₁, .leaf ⟨.lt, high⟩ w₂] w

/-- A release lies in a range of releases: not below the lower end, and below the upper one. -/
def Inside (low high x : String) : Prop :=
  (Version.order (versionOf x) (versionOf low)).isGE = true ∧
    Version.order (versionOf x) (versionOf high) = .lt

instance (low high x : String) : Decidable (Inside low high x) :=
  inferInstanceAs (Decidable (_ ∧ _))

/-- The constraint that is made of a range is that range. -/
theorem Expression.Span.isRange (s : Expression.Span) : IsRange s.low s.high s.constraint :=
  ⟨none, none, none, rfl⟩

section Inside

variable {low mid high x : String} {g₁ g₂ c : Constraint}

/-- A range says of a release whether it lies inside. The lower end belongs to the range, the upper
    one does not. -/
theorem IsRange.accepts_eq (h : IsRange low high c) (hlow : ReleaseText low)
    (hhigh : ReleaseText high) (hx : ReleaseText x) :
    c.accepts (.exactly x) = .ok (decide (Inside low high x)) := by
  obtain ⟨w₁, w₂, w, rfl⟩ := h
  rw [Constraint.accepts_bounds, betweenBounds, relates_eq_admits hx.comparable hlow.comparable,
    relates_eq_admits hx.comparable hhigh.comparable, Comparator.admits_of_release hx hlow,
    Comparator.admits_of_release hx hhigh]
  show Connective.all.decide ([_, _].map Except.ok) = _
  rw [Connective.decide_map_ok, Except.ok.injEq, Bool.eq_iff_iff, decide_eq_true_iff, Inside,
    ← Ordering.isLT_iff_eq_lt]
  simp [Connective.combine, Operator.check]

/-- Two ranges say together whether a release lies in one of them. -/
theorem accepts_pair_eq (h₁ : IsRange low mid g₁) (h₂ : IsRange mid high g₂)
    (hlow : ReleaseText low) (hmid : ReleaseText mid) (hhigh : ReleaseText high)
    (hx : ReleaseText x) (w : Option String) :
    Constraint.accepts (.group .any [g₁, g₂] w) (.exactly x)
      = .ok (decide (Inside low mid x ∨ Inside mid high x)) := by
  rw [Constraint.accepts_group, List.map_cons, List.map_singleton, h₁.accepts_eq hlow hmid hx,
    h₂.accepts_eq hmid hhigh hx]
  show Connective.any.decide ([_, _].map Except.ok) = _
  rw [Connective.decide_map_ok, Bool.decide_or]
  simp [Connective.combine]

end Inside

/-- Between releases a range means its two halves exactly if the bounds are in order. If they are
    not, one of the bounds itself tells the difference. -/
theorem inOrder_iff {low mid high : String} (hlow : ReleaseText low) (hmid : ReleaseText mid)
    (hhigh : ReleaseText high) :
    InOrder low mid high ↔
      ∀ x, ReleaseText x → (Inside low high x ↔ Inside low mid x ∨ Inside mid high x) := by
  rw [inOrder_iff_order hlow hmid hhigh]
  constructor
  · intro hord x _
    exact range_split Version.order hord
  · -- The bounds themselves are releases, and they are all that has to be asked.
    intro h
    refine inOrder_of_split fun v hv => ?_
    rcases hv with rfl | rfl | rfl
    · exact h low hlow
    · exact h mid hmid
    · exact h high hhigh

/-! ### Alternatives -/

namespace Expression

/-- Two ranges of which the second starts with the text that the first one ends with. The texts are
    compared and not the versions that they stand for. -/
def Meeting (low mid high : String) (gs : List Constraint) : Prop :=
  ∃ g₁ g₂, gs = [g₁, g₂] ∧ IsRange low mid g₁ ∧ IsRange mid high g₂

variable {gs : List Constraint}

/-- The program merges exactly those groups that meet in the sense of the statement. -/
theorem collapse?_eq_some_iff_meeting {low high : String} :
    collapse? gs = some ⟨low, high⟩ ↔ ∃ mid, Meeting low mid high gs := by
  simp only [collapse?_eq_some_iff, span?_eq_some_iff, Meeting, IsRange]

/-- Nothing but two ranges that meet is made one range. They meet if one text is the end of the one
    and the beginning of the other. -/
theorem collapse?_eq_none_iff :
    collapse? gs = none ↔ ∀ low mid high, ¬ Meeting low mid high gs := by
  constructor
  · intro h low mid high hmeet
    have hsome := collapse?_eq_some_iff_meeting.2 ⟨mid, hmeet⟩
    rw [h] at hsome
    cases hsome
  · intro h
    rw [Option.eq_none_iff_forall_ne_some]
    intro s hs
    obtain ⟨mid, hmeet⟩ := collapse?_eq_some_iff_meeting.1 hs
    exact h s.low mid s.high hmeet

/-- Several alternatives that are not made one stay together, and nothing is said of them. -/
theorem alternativesOf_eq (hlen : 2 ≤ gs.length) (h : collapse? gs = none) :
    alternativesOf gs = pure (.group .any gs none) := by
  rcases gs with _ | ⟨g, _ | ⟨g', gs⟩⟩
  · simp at hlen
  · simp at hlen
  · simp only [alternativesOf, h]

/-- The constraint of an expression from the constraints of its alternatives. -/
theorem outcome_parse_of_alternatives {e : String}
    (h : ((splitAlternatives (body e)).mapM fun s => (parseAlternative s).outcome) = .ok gs) :
    (parse e).outcome = .ok ((joined gs).withWritten (some e)) := by
  rw [outcome_parse_eq, h]
  rfl

/-- Two groups that meet become one range, from the low end of the first to the high end of the
    second. -/
theorem joined_of_meeting {low mid high : String} (h : Meeting low mid high gs) :
    joined gs = Span.constraint ⟨low, high⟩ := by
  have hsome := collapse?_eq_some_iff_meeting.2 ⟨mid, h⟩
  obtain ⟨g₁, g₂, rfl, -, -⟩ := h
  simp only [joined, hsome]

/-- All other groups stay as they are, as alternatives. -/
theorem joined_of_not_meeting (hlen : 2 ≤ gs.length)
    (h : ∀ low mid high, ¬ Meeting low mid high gs) : joined gs = .group .any gs none := by
  have hnone := alternativesOf_eq hlen (collapse?_eq_none_iff.2 h)
  have houtcome := outcome_alternativesOf gs
  rw [hnone] at houtcome
  exact (Except.ok.inj houtcome).symm

/-- **Merging ranges.** Two ranges that meet in the text of a bound become one range from the first
    bound to the last.  Where the bounds are releases, the one range and the two of them answer for
    every release, and they agree on all of them exactly if the bounds are in ascending or in
    descending order.  Any other two or more alternatives stay as they are, in their order. -/
theorem collapse_contiguous :
    (∀ low mid high g₁ g₂, IsRange low mid g₁ → IsRange mid high g₂ →
      (collapse? [g₁, g₂]).map Span.constraint
        = some (.group .all [.leaf ⟨.ge, low⟩ none, .leaf ⟨.lt, high⟩ none] none) ∧
      (∀ e, ((splitAlternatives (body e)).mapM fun s => (parseAlternative s).outcome)
          = .ok [g₁, g₂] → (parse e).outcome
          = .ok (.group .all [.leaf ⟨.ge, low⟩ none, .leaf ⟨.lt, high⟩ none] (some e))) ∧
      (ReleaseText low → ReleaseText mid → ReleaseText high →
        (∀ x, ReleaseText x →
          (∃ b, (Span.constraint ⟨low, high⟩).accepts (.exactly x) = .ok b) ∧
          ∃ b, Constraint.accepts (.group .any [g₁, g₂] none) (.exactly x) = .ok b) ∧
        ((∀ x, ReleaseText x →
          ((Span.constraint ⟨low, high⟩).accepts (.exactly x) = .ok true ↔
            Constraint.accepts (.group .any [g₁, g₂] none) (.exactly x) = .ok true)) ↔
          InOrder low mid high))) ∧
    ∀ gs : List Constraint, 2 ≤ gs.length →
      (∀ low mid high g₁ g₂, IsRange low mid g₁ → IsRange mid high g₂ → gs ≠ [g₁, g₂]) →
      collapse? gs = none ∧ alternativesOf gs = pure (.group .any gs none) ∧
      ∀ e, ((splitAlternatives (body e)).mapM fun s => (parseAlternative s).outcome) = .ok gs →
        (parse e).outcome = .ok (.group .any gs (some e)) := by
  refine ⟨fun low mid high g₁ g₂ h₁ h₂ => ?_, fun gs hlen hother => ?_⟩
  · have hmeet : Meeting low mid high [g₁, g₂] := ⟨g₁, g₂, rfl, h₁, h₂⟩
    refine ⟨?_, fun e he => ?_, fun hlow hmid hhigh => ?_⟩
    · rw [collapse?_eq_some_iff_meeting.2 ⟨mid, hmeet⟩]
      rfl
    · rw [outcome_parse_of_alternatives he, joined_of_meeting hmeet]
      rfl
    · -- The one range and the two of them have an answer each, and comparing the answers leaves
      -- the condition on the bounds.
      have hone x (hx : ReleaseText x) :=
        (Span.isRange ⟨low, high⟩).accepts_eq hlow hhigh hx
      have htwo x (hx : ReleaseText x) := accepts_pair_eq h₁ h₂ hlow hmid hhigh hx none
      refine ⟨fun x hx => ⟨⟨_, hone x hx⟩, ⟨_, htwo x hx⟩⟩, ?_⟩
      rw [inOrder_iff hlow hmid hhigh]
      refine forall₂_congr fun x hx => ?_
      rw [hone x hx, htwo x hx, Except.ok.injEq, Except.ok.injEq, decide_eq_true_iff,
        decide_eq_true_iff]
  · have hnot : ∀ low mid high, ¬ Meeting low mid high gs := by
      rintro low mid high ⟨g₁, g₂, heq, h₁, h₂⟩
      exact hother low mid high g₁ g₂ h₁ h₂ heq
    have hnone := collapse?_eq_none_iff.2 hnot
    refine ⟨hnone, alternativesOf_eq hlen hnone, fun e he => ?_⟩
    rw [outcome_parse_of_alternatives he, joined_of_not_meeting hlen hnot]
    rfl

/-- A range that remembers nothing. -/
def rangeExample (low high : String) : Constraint := (Span.mk low high).constraint

/-- Ranges around a bound in the middle that is below both of the others: one range is more than
    the two of them.  Two ranges with a gap in between stay apart. -/
theorem collapse_contiguous_inverted :
    (∃ x, ReleaseText x ∧
      ¬ ((rangeExample "3.0.0.0" "5.0.0.0").accepts (.exactly x) = .ok true ↔
        Constraint.accepts (.group .any [rangeExample "3.0.0.0" "2.0.0.0",
          rangeExample "2.0.0.0" "5.0.0.0"] none) (.exactly x) = .ok true)) ∧
    (∀ x, ReleaseText x →
      ((rangeExample "1.0.0.0" "3.0.0.0").accepts (.exactly x) = .ok true ↔
        Constraint.accepts (.group .any [rangeExample "1.0.0.0" "2.0.0.0",
          rangeExample "2.0.0.0" "3.0.0.0"] none) (.exactly x) = .ok true)) ∧
    (parse ">=1,<2||>=2,<3").outcome
      = .ok (.group .all [.leaf ⟨.ge, "1.0.0.0-dev"⟩ none, .leaf ⟨.lt, "3.0.0.0-dev"⟩ none]
          (some ">=1,<2||>=2,<3")) := by
  have hone : ReleaseText "1.0.0.0" := .of_isSome (by decide) (by decide)
  have htwo : ReleaseText "2.0.0.0" := .of_isSome (by decide) (by decide)
  have hthree : ReleaseText "3.0.0.0" := .of_isSome (by decide) (by decide)
  have hfive : ReleaseText "5.0.0.0" := .of_isSome (by decide) (by decide)
  obtain ⟨-, -, hinverted⟩ := collapse_contiguous.1 "3.0.0.0" "2.0.0.0" "5.0.0.0" _ _
    (Span.isRange ⟨_, _⟩) (Span.isRange ⟨_, _⟩)
  obtain ⟨-, -, hascending⟩ := collapse_contiguous.1 "1.0.0.0" "2.0.0.0" "3.0.0.0" _ _
    (Span.isRange ⟨_, _⟩) (Span.isRange ⟨_, _⟩)
  obtain ⟨-, hparse, -⟩ := collapse_contiguous.1 "1.0.0.0-dev" "2.0.0.0-dev" "3.0.0.0-dev" _ _
    (Span.isRange ⟨_, _⟩) (Span.isRange ⟨_, _⟩)
  refine ⟨?_, ?_, hparse _ (by rfl)⟩
  · -- If they agreed on all releases the bounds would be in order, which they are not.
    by_contra hcon
    have hagree := (hinverted hthree htwo hfive).2.1 fun x hx => by
      by_contra hne
      exact hcon ⟨x, hx, hne⟩
    rw [inOrder_iff_order hthree htwo hfive] at hagree
    revert hagree
    decide
  · exact (hascending hone htwo hthree).2.2
      ⟨.lt, .lt, eq_ok_of_toOption (by decide), eq_ok_of_toOption (by decide), by decide⟩

end Expression

end VersionRange
