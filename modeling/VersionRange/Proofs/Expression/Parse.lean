import Mathlib.Data.Option.Basic
import VersionRange.Expression.Parse
import VersionRange.Proofs.Constraint.Accept
import VersionRange.Proofs.Constraint.Tree
import VersionRange.Proofs.Outcome

namespace VersionRange

/-!
# How an expression is put together

* `splitFlag?_eq_none`, `versionOfReference?_eq_none`: without their marks an expression has neither
  a flag nor a reference.
* `Expression.outcome_parse_eq`, `Expression.outcome_parse`: the constraint of an expression, and of
  one without such marks.
* `Expression.accepts_groupOf`, `Expression.collapse?_eq_some_iff`: what constraints that go
  together say, and which alternatives become one range.
-/

/-! ### Marks -/

/-- The three wildcards. -/
theorem isWildcard_iff {c : Char} : isWildcard c = true ↔ c = 'x' ∨ c = 'X' ∨ c = '*' := by
  simp [isWildcard, or_assoc]

/-- A flag stands behind an `@`. -/
theorem splitFlag?_eq_none {s : List Char} (h : '@' ∉ s) : splitFlag? s = none := by
  rw [splitFlag?, Text.cutLast_of_not_mem h]

/-- A named branch is found with a reference only where the text has a `#`. -/
theorem namedBranch?_eq_none {s : List Char} (h : '#' ∉ s) : namedBranch? s = none := by
  unfold namedBranch?
  cases hlead : Text.keywordLead? "dev-".toList s with
  | none => rfl
  | some p =>
    obtain ⟨lead, r⟩ := p
    obtain ⟨rfl, -⟩ := Text.eq_append_of_keywordLead? hlead
    cases r with
    | nil => rfl
    | cons c r =>
      by_cases hc : isNameChar c = true
      · simp only [Option.bind_eq_bind, Option.bind_some, hc, guard_true, Option.pure_def]
        -- The name would end at a mark that is not there.
        split
        case h_1 reference hdrop =>
          have hmem : '#' ∈ r.dropWhile fun c => isNameChar c && c != '#' := by
            rw [hdrop]
            simp
          exact absurd (List.mem_append_right lead (List.mem_cons_of_mem c
            ((List.dropWhile_sublist _).subset hmem))) h
        case h_2 => rfl
      · simp [hc]

/-- So is the end of a numeric branch: the `.x` and the `-dev` in front of it do not matter. -/
theorem openEnd?_eq_none {s : List Char} (h : '#' ∉ s) : openEnd? s = none := by
  unfold openEnd?
  split
  case h_1 w r =>
    cases hlead : Text.keywordLead? "-dev".toList r with
    | none => simp
    | some p =>
      obtain ⟨dev, rest⟩ := p
      obtain ⟨rfl, -⟩ := Text.eq_append_of_keywordLead? hlead
      by_cases hw : isWildcard w = true
      · -- Nothing but the mark of a reference could follow here.
        simp only [hw, guard_true, Option.bind_eq_bind, Option.bind_some, Option.pure_def]
        split
        case h_1 reference heq =>
          cases heq
          exact absurd (by simp) h
        case h_2 => rfl
      · simp [hw]
  case h_2 => rfl

/-- And so is a numeric branch as a whole, by induction over the characters in front of its end. -/
theorem openBranch?_eq_none {s : List Char} (h : '#' ∉ s) : openBranch? s = none := by
  induction s with
  | nil => rfl
  | cons c r ih =>
    have hr : '#' ∉ r := fun hmem => h (List.mem_cons_of_mem c hmem)
    rw [openBranch?, ih hr, openEnd?_eq_none hr]
    by_cases hc : isNameChar c = true <;> simp [hc]

/-- Without its mark there is no reference. -/
theorem versionOfReference?_eq_none {s : List Char} (h : '#' ∉ s) :
    versionOfReference? s = none := by
  simp [versionOfReference?, namedBranch?_eq_none h, openBranch?_eq_none h]

namespace Expression

/-! ### Alternatives -/

/-- The range and the constraint that it is. What the leaves and the group remember does not
    matter. -/
theorem span?_eq_some_iff {c : Constraint} {s : Span} :
    span? c = some s ↔
      ∃ w₁ w₂ w, c = .group .all [.leaf ⟨.ge, s.low⟩ w₁, .leaf ⟨.lt, s.high⟩ w₂] w := by
  constructor
  · intro h
    unfold span? at h
    split at h
    case h_1 low w₁ high w₂ w =>
      cases h
      exact ⟨w₁, w₂, w, rfl⟩
    case h_2 => cases h
  · rintro ⟨w₁, w₂, w, rfl⟩
    rfl

/-- What is merged are two ranges with one end in common. The range reaches from the beginning of
    the first to the end of the second one. -/
theorem collapse?_eq_some_iff {gs : List Constraint} {s : Span} :
    collapse? gs = some s ↔
      ∃ mid g₁ g₂, gs = [g₁, g₂] ∧ span? g₁ = some ⟨s.low, mid⟩ ∧
        span? g₂ = some ⟨mid, s.high⟩ := by
  constructor
  · intro h
    unfold collapse? at h
    split at h
    case h_1 a b =>
      obtain ⟨s₁, h₁, h⟩ := Option.bind_eq_some_iff.1 h
      obtain ⟨s₂, h₂, h⟩ := Option.bind_eq_some_iff.1 h
      split at h
      case isTrue hmid =>
        cases h
        exact ⟨s₁.high, a, b, rfl, h₁, by rw [h₂, hmid]⟩
      case isFalse => cases h
    case h_2 => cases h
  · rintro ⟨mid, g₁, g₂, rfl, h₁, h₂⟩
    simp [collapse?, h₁, h₂]

/-- The constraint of several alternatives: the only one itself, two ranges that meet as one range,
    and any of them otherwise. -/
def joined (gs : List Constraint) : Constraint :=
  match gs with
  | [c] => c
  | _ =>
    match collapse? gs with
    | some s => s.constraint
    | none => .group .any gs none

/-- Leaving the message aside, alternatives are joined. -/
theorem outcome_alternativesOf (gs : List Constraint) :
    (alternativesOf gs).outcome = .ok (joined gs) := by
  rcases gs with _ | ⟨c, _ | ⟨d, gs⟩⟩
  · rfl
  · rfl
  · simp only [alternativesOf, joined]
    cases collapse? (c :: d :: gs) with
    | none => rfl
    | some s => rfl

/-- Grouping adds no leaves. -/
theorem mem_leaves_groupOf {cs : List Constraint} {k : Comparator}
    (h : k ∈ (groupOf cs).leaves) : ∃ c ∈ cs, k ∈ c.leaves := by
  unfold groupOf at h
  split at h
  case h_1 c => exact ⟨c, List.mem_singleton_self c, h⟩
  case h_2 => exact Tree.mem_leaves_group.1 h

/-- One range for two has an end of each. So every leaf of the whole is a leaf of some
    alternative. -/
theorem mem_leaves_joined {gs : List Constraint} {k : Comparator}
    (h : k ∈ (joined gs).leaves) : ∃ g ∈ gs, k ∈ g.leaves := by
  unfold joined at h
  split at h
  case h_1 c => exact ⟨c, List.mem_singleton_self c, h⟩
  case h_2 =>
    split at h
    case h_1 span hspan =>
      obtain ⟨mid, g₁, g₂, rfl, h₁, h₂⟩ := collapse?_eq_some_iff.1 hspan
      obtain ⟨_, _, _, rfl⟩ := span?_eq_some_iff.1 h₁
      obtain ⟨_, _, _, rfl⟩ := span?_eq_some_iff.1 h₂
      rcases List.mem_pair.1 h with rfl | rfl
      · exact ⟨_, List.mem_cons_self, List.mem_cons_self⟩
      · exact ⟨_, List.mem_cons_of_mem _ List.mem_cons_self,
          List.mem_cons_of_mem _ List.mem_cons_self⟩
    case h_2 => exact Tree.mem_leaves_group.1 h

/-- Constraints that go together accept what all of them accept, be it one or more. -/
theorem accepts_groupOf (cs : List Constraint) (x : String) :
    (groupOf cs).accepts (.exactly x)
      = Connective.all.decide (cs.map fun c => c.accepts (.exactly x)) := by
  unfold groupOf
  split
  case h_1 c => rw [List.map_singleton, Connective.decide_singleton]
  case h_2 => exact Constraint.accepts_group .all cs none x

/-! ### Expressions -/

/-- The constraint of an alternative is made of those of its terms. -/
theorem outcome_parseAlternative (s : List Char) :
    (parseAlternative s).outcome
      = ((splitTerms s).mapM fun t => (Term.constraints t).outcome).map
          fun css => groupOf css.flatten := by
  rw [parseAlternative, Traced.outcome_bind, Traced.outcome_mapM]
  cases (splitTerms s).mapM fun t => (Term.constraints t).outcome with
  | error e => rfl
  | ok css => rfl

/-- The text of an expression without a flag at its end, and of that the version in front of a
    reference. -/
def body (expression : String) : List Char :=
  (versionOfReference? (withoutFlag expression.toList)).getD (withoutFlag expression.toList)

/-- The constraint of an expression is made of those of its alternatives. They are read one after
    the other, and the first one that cannot be read is reported. -/
theorem outcome_parse_eq (expression : String) :
    (parse expression).outcome
      = ((splitAlternatives (body expression)).mapM fun a => (parseAlternative a).outcome).map
          fun gs => (joined gs).withWritten (some expression) := by
  unfold parse body
  have hrest : ∀ r : List Char,
      (do
        let groups ← (splitAlternatives r).mapM parseAlternative
        return (← alternativesOf groups).withWritten (some expression) :
          Traced Fault Constraint).outcome
        = ((splitAlternatives r).mapM fun a => (parseAlternative a).outcome).map
            fun gs => (joined gs).withWritten (some expression) := by
    intro r
    simp only [Traced.outcome_bind, Traced.outcome_mapM, outcome_alternativesOf]
    cases (splitAlternatives r).mapM fun a => (parseAlternative a).outcome with
    | error e => rfl
    | ok gs => rfl
  -- A reference leaves a note, and the rest is read as if it had not been there.
  cases hreference : versionOfReference? (withoutFlag expression.toList) with
  | none =>
    simp only [hreference, pure_bind]
    exact hrest _
  | some version =>
    simp only [hreference, pure_bind]
    rw [Traced.outcome_bind, Traced.outcome_say]
    exact hrest version

/-- Without a flag and a reference the whole text counts. -/
theorem body_eq {s : List Char} (hflag : '@' ∉ s) (hreference : '#' ∉ s) :
    body (String.ofList s) = s := by
  have hs : withoutFlag s = s := by rw [withoutFlag, splitFlag?_eq_none hflag]
  rw [body, String.toList_ofList, hs, versionOfReference?_eq_none hreference, Option.getD_none]

/-- Without flag and reference an expression is read as the alternatives between its bars. -/
theorem outcome_parse {s : List Char} (hflag : '@' ∉ s) (hreference : '#' ∉ s) :
    (parse (String.ofList s)).outcome
      = ((splitAlternatives s).mapM fun a => (parseAlternative a).outcome).map
          fun gs => (joined gs).withWritten (some (String.ofList s)) := by
  rw [outcome_parse_eq, body_eq hflag hreference]

end Expression

end VersionRange
