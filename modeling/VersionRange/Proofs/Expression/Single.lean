import VersionRange.Proofs.Expression.Parse
import VersionRange.Proofs.Expression.Split
import VersionRange.Proofs.Canonical.Marker
import VersionRange.Proofs.Text.Trim
import VersionRange.Query

namespace VersionRange

/-!
# Expressions of one term

* `isInert`: the characters that separate nothing in an expression and mark neither a flag nor a
  reference.
* `IsSingle`: a text that is one term; `isSingle_of_inert`, that a text of such characters is, and
  `isSingle_joined`, that two of them are with a word between them that does not separate.
* `IsSingle.outcome_parse`: the constraint of such an expression.
* `IsSingle.outcome_satisfies`: a version satisfies such an expression if it satisfies all
  constraints of the term.
-/

/-- A character that neither separates parts of an expression nor marks a flag or a reference. A
    text of such characters is a single term. -/
def isInert (c : Char) : Bool := isSolid c && !(c == '@' || c == '#' || c == '|')

/-- Inert characters are solid ones that mark neither a flag nor a reference nor an alternative. -/
theorem isInert_iff {c : Char} :
    isInert c = true ↔ isSolid c = true ∧ c ≠ '@' ∧ c ≠ '#' ∧ c ≠ '|' := by
  simp [isInert, and_assoc]

/-- What markers are written with separates nothing. -/
theorem isInert_of_isMarkerChar {c : Char} (h : Marker.isMarkerChar c = true) :
    isInert c = true := by
  have hne : ∀ d ∈ ['@', '#', '|'], c ≠ d := by
    have hmarks : ∀ d ∈ ['@', '#', '|'], Marker.isMarkerChar d = false := by decide
    rintro d hd rfl
    rw [hmarks c hd] at h
    cases h
  exact isInert_iff.2 ⟨Marker.isSolid_of_isMarkerChar h, hne '@' (by simp), hne '#' (by simp),
    hne '|' (by simp)⟩

/-- Digits are inert. -/
theorem isInert_of_isDigit {c : Char} (h : Text.isDigit c = true) : isInert c = true :=
  isInert_of_isMarkerChar (Marker.isMarkerChar_iff.2 (.inr (.inl h)))

variable {s : List Char}

/-- No other character stands in an inert text. -/
theorem not_mem_of_isInert {d : Char} (h : ∀ c ∈ s, isInert c = true) (hd : isInert d = false) :
    d ∉ s := by
  intro hmem
  rw [h d hmem] at hd
  cases hd

/-- An inert text is solid. -/
theorem isSolid_of_isInert (h : ∀ c ∈ s, isInert c = true) : ∀ c ∈ s, isSolid c = true :=
  fun c hc => (isInert_iff.1 (h c hc)).1

/-- Such a text is one alternative. -/
theorem splitAlternatives_inert (h : ∀ c ∈ s, isInert c = true) : splitAlternatives s = [s] := by
  have hsolid := isSolid_of_isInert h
  have hbar : '|' ∉ s := not_mem_of_isInert h (by decide)
  rw [splitAlternatives, trim_of_isSolid hsolid, splitBars_of_not_mem hbar, List.map_singleton,
    trim_of_isSolid hsolid]

/-- No term is cut off in front of what follows such a text. -/
theorem splitTermsFrom_inert (before w : List Char) (h : ∀ c ∈ s, isInert c = true) :
    splitTermsFrom 0 before (s ++ w) = splitTermsFrom 0 (s.reverse ++ before) w := by
  have hspace : ' ' ∉ s := not_mem_of_isInert h (by decide)
  have hcomma : ',' ∉ s := not_mem_of_isInert h (by decide)
  exact splitTermsFrom_solid before w fun c hc =>
    ⟨fun heq => hspace (heq ▸ hc), fun heq => hcomma (heq ▸ hc)⟩

/-- Such a text is one term. -/
theorem splitTerms_inert (h : ∀ c ∈ s, isInert c = true) : splitTerms s = [s] := by
  have hone := splitTermsFrom_inert [] [] h
  rw [List.append_nil, List.append_nil] at hone
  rw [splitTerms, hone, splitTermsFrom, List.reverse_reverse]

/-! ### One term -/

/-- What a term without a flag stands for. -/
theorem Term.constraints_eq (hne : s ≠ []) (hflag : '@' ∉ s) :
    constraints s = meaning s none (read s) := by
  have hempty : s.isEmpty = false := List.isEmpty_eq_false_iff.2 hne
  simp only [constraints, hempty, splitFlag?_eq_none hflag]
  rfl

/-- A text that is one term and carries neither a flag nor a reference, so parsing it is reading
    its one term. -/
structure IsSingle (s : List Char) : Prop where
  ne_nil : s ≠ []
  flag : '@' ∉ s
  reference : '#' ∉ s
  alternative : splitAlternatives s = [s]
  term : splitTerms s = [s]

/-- **Single terms.** An inert text is an expression of one alternative with one term. -/
theorem isSingle_of_inert (hne : s ≠ []) (h : ∀ c ∈ s, isInert c = true) : IsSingle s where
  ne_nil := hne
  flag := not_mem_of_isInert h (by decide)
  reference := not_mem_of_isInert h (by decide)
  alternative := splitAlternatives_inert h
  term := splitTerms_inert h

/-- Two texts of such characters are one term with a word between them that does not separate. -/
theorem isSingle_joined {front word back : List Char} (hfront : ∀ c ∈ front, isInert c = true)
    (hword : ∀ c ∈ word, c = ' ' ∨ isInert c = true) (hback : ∀ c ∈ back, isInert c = true)
    (hfrontNe : front ≠ []) (hbackNe : back ≠ [])
    (hterms : ∀ before, splitTermsFrom 0 before (word ++ back)
      = splitTermsFrom 0 (word.reverse ++ before) back) : IsSingle (front ++ word ++ back) := by
  -- Nothing but a space may be foreign, so there is no mark of a flag, a reference or an
  -- alternative.
  have hmem : ∀ d, d ≠ ' ' → isInert d = false → d ∉ front ++ word ++ back := by
    intro d hspace hd hmem
    rw [List.mem_append, List.mem_append] at hmem
    rcases hmem with (hmem | hmem) | hmem
    · exact not_mem_of_isInert hfront hd hmem
    · rcases hword d hmem with heq | hinert
      · exact hspace heq
      · rw [hd] at hinert
        cases hinert
    · exact not_mem_of_isInert hback hd hmem
  have htrim : Text.trim (front ++ word ++ back) = front ++ word ++ back := by
    obtain ⟨c, r, rfl⟩ := List.exists_cons_of_ne_nil hfrontNe
    have hc := isBlank_of_isSolid (isSolid_of_isInert hfront c List.mem_cons_self)
    have hsettled := settled_of_isSolid (isSolid_of_isInert hback)
    exact trim_of_settled hc (hsettled.append_left (c :: r ++ word) hbackNe)
  have hbar : '|' ∉ front ++ word ++ back := hmem '|' (by decide) (by decide)
  refine ⟨by simp [hfrontNe], hmem '@' (by decide) (by decide), hmem '#' (by decide) (by decide),
    ?_, ?_⟩
  · rw [splitAlternatives, htrim, splitBars_of_not_mem hbar, List.map_singleton, htrim]
  · have hlow := splitTermsFrom_inert [] (word ++ back) hfront
    have hhigh := splitTermsFrom_inert (word.reverse ++ front.reverse) [] hback
    rw [List.append_nil] at hlow hhigh
    rw [splitTerms, List.append_assoc, hlow, hterms, hhigh, splitTermsFrom]
    simp

namespace IsSingle

/-- The constraint of an expression of one term is made of those of the term. The expression
    remembers the text. -/
theorem outcome_parse (h : IsSingle s) :
    (Expression.parse (String.ofList s)).outcome
      = (Term.meaning s none (Term.read s)).outcome.map fun cs =>
          (Expression.groupOf cs).withWritten (some (String.ofList s)) := by
  rw [Expression.outcome_parse h.flag h.reference, h.alternative, List.mapM_cons, List.mapM_nil,
    Expression.outcome_parseAlternative, h.term, List.mapM_cons, List.mapM_nil,
    Term.constraints_eq h.ne_nil h.flag]
  cases (Term.meaning s none (Term.read s)).outcome with
  | error e => rfl
  | ok cs =>
    show Except.ok ((Expression.groupOf [cs].flatten).withWritten _) = _
    rw [List.flatten_singleton]
    rfl

/-- **One term.** A version satisfies an expression of one term if it satisfies all constraints that
    the term stands for. -/
theorem outcome_satisfies {x nx : String} (h : IsSingle s)
    (hx : (normalized x).outcome = .ok nx) :
    (satisfies x (String.ofList s)).outcome
      = (Term.meaning s none (Term.read s)).outcome.bind fun cs =>
          Connective.all.decide (cs.map fun c => c.accepts (.exactly nx)) := by
  rw [satisfies, Traced.outcome_bind, hx]
  show (Expression.parse (String.ofList s) >>= _).outcome = _
  rw [Traced.outcome_bind, h.outcome_parse]
  cases (Term.meaning s none (Term.read s)).outcome with
  | error e => rfl
  | ok cs =>
    show Constraint.accepts ((Expression.groupOf cs).withWritten _) _ = _
    rw [Constraint.accepts_withWritten, Expression.accepts_groupOf]
    rfl

end IsSingle

end VersionRange
