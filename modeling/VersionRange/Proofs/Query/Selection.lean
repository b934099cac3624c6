import VersionRange.Proofs.Query.Readable

namespace VersionRange

/-!
# Filtering agrees with single checks

* `isSatisfied`: the answer to a single check, if it is yes.
* `outcome_satisfiedBy_of_error`: without a constraint there is neither a selection nor a warning.
* `satisfiedBy_agrees`: filtering selects the versions that single checks accept, warns about those
  that it skips, and if it may not skip any reports the first of them.
-/

/-- Whether the check of a single version says that it satisfies an expression. A report counts as
    no. -/
def isSatisfied (expression version : String) : Bool :=
  (satisfies version expression).outcome.toOption == some true

variable {e : String} {c : Constraint} {f : Fault} {versions : List String}

/-- The expression is read first, so its error comes before any warning. -/
theorem outcome_satisfiedBy_of_error (he : (Expression.parse e).outcome = .error f)
    (versions : List String) (skip : Bool) :
    (satisfiedBy versions e skip).outcome = .error f ∧
      (satisfiedBy versions e skip).warnings = [] := by
  constructor
  · rw [satisfiedBy, Traced.outcome_bind, he]
    rfl
  · rw [Traced.warnings, satisfiedBy, Traced.tell_bind_of_error he]
    exact Expression.warnings_parse Traced.hearsWarnings_warningText e

/-- Once the expression is read filtering is what is left to do, and all warnings come
    from there. -/
theorem outcome_satisfiedBy_eq (he : (Expression.parse e).outcome = .ok c)
    (versions : List String) (skip : Bool) :
    (satisfiedBy versions e skip).outcome = (acceptedBy skip c versions).outcome ∧
      (satisfiedBy versions e skip).warnings
        = (acceptedBy skip c versions).tell Traced.warningText? := by
  constructor
  · rw [satisfiedBy, Traced.outcome_bind, he]
    rfl
  · rw [Traced.warnings, satisfiedBy, Traced.tell_bind_of_ok he,
      Expression.warnings_parse Traced.hearsWarnings_warningText, List.nil_append]

/-- A single check says yes to what the constraint selects. A version that cannot be read is
    selected by none. -/
theorem isSatisfied_eq_selects {v : String} (hc : c.IsComparable) (hv : ReadableText v.toList)
    (he : (Expression.parse e).outcome = .ok c) : isSatisfied e v = c.selects v := by
  unfold isSatisfied
  cases hn : (normalize v none).outcome with
  | error err =>
    have hnormalized : (normalized v).outcome = .error (.parse err) := by
      rw [normalized, Traced.outcome_bind, Traced.outcome_mapError, hn]
      rfl
    rw [satisfies, Traced.outcome_bind, hnormalized, Constraint.selects, hn]
    rfl
  | ok n =>
    have hnormalized := outcome_normalized_eq_ok_iff.2 ⟨n, hn, rfl⟩
    have hcomparable : ComparableText n.text := comparable_of_normalized hv hnormalized
    have hselects : c.selects v = c.holds (·.admits n.text) := by rw [Constraint.selects, hn]
    rw [outcome_satisfies hnormalized he, accepts_eq_holds hcomparable hc, hselects]
    cases c.holds (·.admits n.text) <;> rfl

/-- **Filtering.** If the expression cannot be read, that is reported whatever the versions are, and
    nothing is warned about.  Otherwise filtering that may skip versions selects those that a single
    check accepts, in their order and as often as they were given, and gives one warning for each
    version that cannot be read, in their order.  Filtering that may not skip any selects the same
    where all versions are read; else it reports the first one that is not.  It gives no warning. -/
theorem satisfiedBy_agrees (he : ReadableText e.toList)
    (hversions : ∀ v ∈ versions, ReadableText v.toList) :
    (∀ f, (Expression.parse e).outcome = .error f → ∀ (vs : List String) (skip : Bool),
      (satisfiedBy vs e skip).outcome = .error f ∧ (satisfiedBy vs e skip).warnings = []) ∧
    ∀ c, (Expression.parse e).outcome = .ok c →
      (satisfiedBy versions e true).outcome = .ok (versions.filter (isSatisfied e)) ∧
      (satisfiedBy versions e true).warnings = versions.filterMap skipWarning? ∧
      ((∀ v ∈ versions, ∃ n, (normalize v none).outcome = .ok n) →
        (satisfiedBy versions e false).outcome = .ok (versions.filter (isSatisfied e))) ∧
      (∀ (before after : List String) (v : String) (err : ParseError),
        versions = before ++ v :: after →
        (∀ u ∈ before, ∃ n, (normalize u none).outcome = .ok n) →
        (normalize v none).outcome = .error err →
        (satisfiedBy versions e false).outcome = .error (.parse err)) ∧
      (satisfiedBy versions e false).warnings = [] := by
  refine ⟨fun f hf => outcome_satisfiedBy_of_error hf, fun c hc => ?_⟩
  have hcomparable : c.IsComparable := (hc ▸ Expression.yields_parse he).of_ok
  -- Judging a version never fails here, and it comes to what a single check says.
  have hselects : versions.filter (isSatisfied e) = versions.filter c.selects :=
    List.filter_congr fun v hv => isSatisfied_eq_selects hcomparable (hversions v hv) hc
  have hskipping : ∀ v ∈ versions, judge true c v = .ok (c.selects v) :=
    fun v hv => judge_of_readable hcomparable (hversions v hv) (.inl rfl)
  obtain ⟨houtcome, hwarnings⟩ := outcome_satisfiedBy_eq hc versions true
  obtain ⟨hstrict, hquiet⟩ := outcome_satisfiedBy_eq hc versions false
  rw [hselects, houtcome, hwarnings, hstrict, hquiet,
    warnings_acceptedBy_skipping Traced.hearsWarnings_warningText]
  refine ⟨outcome_acceptedBy_of_ok hskipping, ?_, fun hread => ?_, ?_, ?_⟩
  · rw [reached_eq_self fun v hv => ⟨_, hskipping v hv⟩]
  · exact outcome_acceptedBy_of_ok fun v hv =>
      judge_of_readable hcomparable (hversions v hv) (.inr (hread v hv))
  · rintro before after v err rfl hbefore hv
    refine outcome_acceptedBy_of_error (fun u hu => ?_) ?_
    · exact ⟨_, judge_of_readable hcomparable (hversions u (List.mem_append_left _ hu))
        (.inr (hbefore u hu))⟩
    · rw [judge, hv]
      rfl
  · exact warnings_acceptedBy_strict Traced.hearsWarnings_warningText c versions

/-- Versions of which two cannot be read, one is not selected and one is given twice. -/
def filterExample : List String := ["1.4", "one", "2.0", "1.2-RC1", "two", "1.4"]

/-- What is left out is warned about, or the first of it is reported. A version that is given twice
    is selected twice. -/
theorem satisfiedBy_agrees_skipping :
    (satisfiedBy filterExample "~1.2 || dev-main" true).outcome = .ok ["1.4", "1.2-RC1", "1.4"] ∧
      (satisfiedBy filterExample "~1.2 || dev-main" true).warnings
        = ["Skipping invalid version 'one': Invalid version string \"one\"",
           "Skipping invalid version 'two': Invalid version string \"two\""] ∧
      (satisfiedBy filterExample "~1.2 || dev-main" false).outcome
        = .error (.parse { message := "Invalid version string \"one\"", fragment := "one" }) ∧
      (satisfiedBy filterExample "~1.2 || dev-main" false).warnings = [] := by
  have he : ReadableText "~1.2 || dev-main".toList := .of_length_le (by decide) (by decide)
  have hversions : ∀ v ∈ filterExample, ReadableText v.toList := by
    intro v hv
    have hshort : ∀ v ∈ filterExample,
        (∀ c ∈ v.toList, c.toNat < 128) ∧ v.toList.length ≤ Numeral.limit - 1 := by decide
    exact .of_length_le (hshort v hv).1 (hshort v hv).2
  obtain ⟨c, hc⟩ := Option.isSome_iff_exists.1 (show
    (Expression.parse "~1.2 || dev-main").outcome.toOption.isSome = true by decide)
  obtain ⟨-, hfilter⟩ := satisfiedBy_agrees he hversions
  obtain ⟨hselected, hwarned, -, hreported, hquiet⟩ := hfilter c (eq_ok_of_toOption hc)
  have hselection : filterExample.filter (isSatisfied "~1.2 || dev-main")
      = ["1.4", "1.2-RC1", "1.4"] := by decide +kernel
  refine ⟨hselection ▸ hselected, hwarned.trans (by decide +kernel), ?_, hquiet⟩
  · refine hreported ["1.4"] ["2.0", "1.2-RC1", "two", "1.4"] "one" _ rfl ?_ rfl
    intro u hu
    rw [List.mem_singleton.1 hu]
    obtain ⟨n, hn⟩ := Option.isSome_iff_exists.1 (show
      (normalize "1.4" none).outcome.toOption.isSome = true by decide)
    exact ⟨n, eq_ok_of_toOption hn⟩

end VersionRange
