import VersionRange.Proofs.Constraint.Evaluate
import VersionRange.Proofs.Expression.Readable
import VersionRange.Proofs.Query.Filter

namespace VersionRange

/-!
# Queries about readable texts

* `outcome_satisfies`: a version that is read satisfies an expression that is read if the constraint
  accepts it.
* `outcome_acceptedBy`: where invalid versions are skipped, those that are selected are the versions
  that are read and that the constraint admits.
* `outcomes_of_readable`: queries about readable texts report what cannot be read and end in no
  other error.
-/

/-- Whether a version is read and the leaves of a constraint admit it. A version that cannot be
    read is not selected. -/
def Constraint.selects (c : Constraint) (version : String) : Bool :=
  match (normalize version none).outcome with
  | .ok v => c.holds (·.admits v.text)
  | .error _ => false

/-- Where both are read, the constraint decides. -/
theorem outcome_satisfies {v e w : String} {c : Constraint} (hw : (normalized v).outcome = .ok w)
    (hc : (Expression.parse e).outcome = .ok c) :
    (satisfies v e).outcome = c.accepts (.exactly w) := by
  rw [satisfies, Traced.outcome_bind, hw]
  show (Expression.parse e >>= fun c => Traced.lift (c.accepts (.exactly w))).outcome = _
  rw [Traced.outcome_bind, hc]
  rfl

/-- A readable version, if it is read or skipped otherwise, is judged by the leaves of the
    constraint. -/
theorem judge_of_readable {c : Constraint} {v : String} {skip : Bool} (hc : c.IsComparable)
    (hv : ReadableText v.toList)
    (hread : skip = true ∨ ∃ n, (normalize v none).outcome = .ok n) :
    judge skip c v = .ok (c.selects v) := by
  rw [judge, Constraint.selects]
  cases hn : (normalize v none).outcome with
  | error e =>
    obtain rfl : skip = true := hread.resolve_right (by simp [hn])
    rfl
  | ok n =>
    have hcomparable : ComparableText n.text :=
      comparable_of_normalized hv (outcome_normalized_eq_ok_iff.2 ⟨n, hn, rfl⟩)
    exact accepts_eq_holds hcomparable hc

/-- **Selection.** Of readable versions a constraint selects those that are read and admitted, in
    their order. -/
theorem outcome_acceptedBy {c : Constraint} {versions : List String} (hc : c.IsComparable)
    (hversions : ∀ v ∈ versions, ReadableText v.toList) :
    (acceptedBy true c versions).outcome = .ok (versions.filter c.selects) :=
  outcome_acceptedBy_of_ok fun v hv => judge_of_readable hc (hversions v hv) (.inl rfl)

/-- Filtering readable versions by a constraint selects those that the constraint accepts. -/
theorem outcome_satisfiedBy {versions : List String} {e : String} {c : Constraint}
    (he : ReadableText e.toList) (hversions : ∀ v ∈ versions, ReadableText v.toList)
    (hc : (Expression.parse e).outcome = .ok c) :
    (satisfiedBy versions e true).outcome = .ok (versions.filter c.selects) := by
  have hcomparable : c.IsComparable := (hc ▸ Expression.yields_parse he).of_ok
  rw [satisfiedBy, Traced.outcome_bind, hc]
  exact outcome_acceptedBy hcomparable hversions

/-- **Readable input.** A readable version has a canonical text that can be compared, or is
    reported; a readable expression has a constraint in which all versions can be compared, or is
    reported.  Where both are read, the version satisfies the expression or does not, and where
    invalid versions are skipped, a selection from readable versions has an outcome as soon as the
    expression is read.  The canonical text of any version, if it is no branch, has the form of a
    version exactly if it is ASCII. -/
theorem outcomes_of_readable :
    (∀ v : String, ReadableText v.toList → Yields ComparableText (normalized v).outcome) ∧
    (∀ e : String, ReadableText e.toList →
      Yields (fun c => ∀ l ∈ c.leaves, ComparableText l.version) (Expression.parse e).outcome) ∧
    (∀ v e w : String, ∀ c : Constraint, ReadableText v.toList → ReadableText e.toList →
      (normalized v).outcome = .ok w → (Expression.parse e).outcome = .ok c →
        ∃ b, (satisfies v e).outcome = .ok b) ∧
    (∀ (versions : List String) (e : String) (c : Constraint),
      (∀ v ∈ versions, ReadableText v.toList) → ReadableText e.toList →
      (Expression.parse e).outcome = .ok c →
        ∃ accepted, (satisfiedBy versions e true).outcome = .ok accepted) ∧
    ∀ v w : String, (normalized v).outcome = .ok w → isBranch w = false →
      ((Version.Parts.read? w.toList).isSome = true ↔ ∀ c ∈ w.toList, c.toNat < 128) := by
  refine ⟨fun v hv => yields_normalized hv, fun e he => Expression.yields_parse he, ?_, ?_, ?_⟩
  · intro v e w c hv he hw hc
    -- All leaves and the version itself can be compared, so each leaf has an answer.
    have hcomparable : c.IsComparable := (hc ▸ Expression.yields_parse he).of_ok
    rw [outcome_satisfies hw hc]
    exact ⟨_, accepts_eq_holds (comparable_of_normalized hv hw) hcomparable⟩
  · intro versions e c hversions he hc
    exact ⟨_, outcome_satisfiedBy he hversions hc⟩
  · intro v w hw hb
    exact isSome_read?_iff_of_normalized hw hb

/-- A release candidate, an expression with a branch, and a version that cannot be read. The last
    one is skipped by the selection. -/
theorem outcomes_of_readable_rc :
    (∃ b, (satisfies "1.2-RC1" "~1.2 || dev-main").outcome = .ok b) ∧
      (∃ accepted, (satisfiedBy ["1.2-RC1", "one"] "~1.2 || dev-main" true).outcome
        = .ok accepted) ∧
      (normalized "1.2-RC1").outcome = .ok "1.2.0.0-RC1" ∧ ComparableText "1.2.0.0-RC1" ∧
      (Version.Parts.read? "1.2.0.0-RC1".toList).isSome = true := by
  have hv : ReadableText "1.2-RC1".toList := .of_length_le (by decide) (by decide)
  have hone : ReadableText "one".toList := .of_length_le (by decide) (by decide)
  have he : ReadableText "~1.2 || dev-main".toList := .of_length_le (by decide) (by decide)
  have hw : (normalized "1.2-RC1").outcome = .ok "1.2.0.0-RC1" := eq_ok_of_toOption (by decide)
  have hc : ∃ c, (Expression.parse "~1.2 || dev-main").outcome = .ok c := by
    obtain ⟨c, hc⟩ := Option.isSome_iff_exists.1 (show
      (Expression.parse "~1.2 || dev-main").outcome.toOption.isSome = true by decide)
    exact ⟨c, eq_ok_of_toOption hc⟩
  obtain ⟨c, hc⟩ := hc
  obtain ⟨hversion, -, hsatisfies, hselection, hform⟩ := outcomes_of_readable
  have hcomparable : ComparableText "1.2.0.0-RC1" := (hw ▸ hversion "1.2-RC1" hv).of_ok
  refine ⟨hsatisfies _ _ _ c hv he hw hc, hselection _ _ c ?_ he hc, hw, hcomparable, ?_⟩
  · intro u hu
    rcases List.mem_cons.1 hu with rfl | hu
    · exact hv
    · exact List.mem_singleton.1 hu ▸ hone
  · exact (hform _ _ hw (by decide)).2 (by decide)

end VersionRange
