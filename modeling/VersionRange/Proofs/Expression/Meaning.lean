import VersionRange.Proofs.Constraint.Between
import VersionRange.Proofs.Expression.Clean
import VersionRange.Proofs.Expression.Parse

namespace VersionRange

/-!
# What an expression means

An expression in regular writing is read term by term, and a version satisfies it if it satisfies
all terms of one alternative.  The one exception are two ranges that are merged because the second
starts with the text that the first ends with.

* `CleanTerm.Matches`, `CleanExpression.Meets`: what a term and an expression ask of a version.
* `CleanExpression.MergesTo`: two alternatives that become one range.
* `parse_clean`: the main result.
-/

/-! ### Terms and alternatives on their own -/

/-- What a term is read as: one comparator or two, or the fault that is reported for it. -/
def CleanTerm.reading (t : CleanTerm) : Except Fault (List Constraint) :=
  (Term.constraints t.core).outcome

/-- The text of a term on its own. -/
def CleanTerm.text (t : CleanTerm) : String := String.ofList t.chars

/-- What an alternative is read as. Its terms are read from the left, and the first one that cannot
    be read is reported. -/
def Clause.reading (k : Clause) : Except Fault Constraint :=
  (k.terms.mapM CleanTerm.reading).map fun css => Expression.groupOf css.flatten

/-- The text of an alternative on its own. -/
def Clause.text (k : Clause) : String := String.ofList k.chars

namespace CleanExpression

/-- The expression with one alternative. -/
def ofClause (k : Clause) : CleanExpression where
  lead := []
  first := k
  rest := []
  tail := []
  blank_lead := by simp
  blank_tail := by simp

/-- An expression of one clause is written like the clause. -/
theorem text_ofClause (k : Clause) : (ofClause k).text = k.text := by
  simp [ofClause, text, chars, restChars, Clause.text]

/-- **Reading.** A clean expression is read clause by clause. What is read is joined, and remembers
    the text. -/
theorem outcome_parse (e : CleanExpression) :
    (Expression.parse e.text).outcome
      = (e.clauses.mapM Clause.reading).map
          fun gs => (Expression.joined gs).withWritten (some e.text) := by
  have hflag : '@' ∉ e.chars := fun hmem => (ne_of_mem_chars hmem).1 rfl
  have hreference : '#' ∉ e.chars := fun hmem => (ne_of_mem_chars hmem).2 rfl
  have hreading : ∀ k : Clause, (Expression.parseAlternative k.core).outcome = k.reading := by
    intro k
    rw [Expression.outcome_parseAlternative, k.splitTerms_core, List.mapM_map]
    rfl
  rw [text, Expression.outcome_parse hflag hreference, e.splitAlternatives_chars, List.mapM_map]
  congr 2
  funext k
  exact hreading k

end CleanExpression

/-- An alternative on its own is an expression. -/
theorem Clause.outcome_parse (k : Clause) :
    (Expression.parse k.text).outcome = k.reading.map (·.withWritten (some k.text)) := by
  rw [← CleanExpression.text_ofClause, CleanExpression.outcome_parse]
  show Except.map _ ([k].mapM Clause.reading) = _
  rw [List.mapM_cons, List.mapM_nil]
  cases k.reading with
  | error e => rfl
  | ok g => rfl

/-- A term on its own is an expression. It remembers its text there, which it does not inside a
    longer one. -/
theorem CleanTerm.outcome_parse (t : CleanTerm) :
    (Expression.parse t.text).outcome
      = t.reading.map fun cs => (Expression.groupOf cs).withWritten (some t.text) := by
  have htext : (⟨t, []⟩ : Clause).text = t.text := by
    simp [Clause.text, Clause.chars, Clause.restChars, CleanTerm.text]
  rw [← htext, Clause.outcome_parse]
  show Except.map _ (Except.map _ ([t].mapM CleanTerm.reading)) = _
  rw [List.mapM_cons, List.mapM_nil]
  cases t.reading with
  | error e => rfl
  | ok cs =>
    show Except.ok ((Expression.groupOf [cs].flatten).withWritten _) = _
    rw [List.flatten_singleton]
    rfl

/-! ### What a version satisfies -/

/-- A version satisfies a term, read on its own. That includes that the term can be read and that
    it has an answer. -/
def CleanTerm.Matches (t : CleanTerm) (x : String) : Prop :=
  ∃ c, (Expression.parse t.text).outcome = .ok c ∧ c.accepts (.exactly x) = .ok true

/-- A term, read on its own, answers for a version. Which answer it gives is left open. -/
def CleanTerm.Answers (t : CleanTerm) (x : String) : Prop :=
  ∃ c b, (Expression.parse t.text).outcome = .ok c ∧ c.accepts (.exactly x) = .ok b

/-- What a term, read on its own, says about a version, if it has an answer. -/
def CleanTerm.answer? (t : CleanTerm) (x : String) : Option Bool :=
  ((Expression.parse t.text).outcome.bind fun c => c.accepts (.exactly x)).toOption

/-- The answer of a term is what the term alone, as an expression, says to a version. -/
theorem CleanTerm.answer?_eq_some_iff {t : CleanTerm} {x : String} {b : Bool} :
    t.answer? x = some b ↔
      ∃ c, (Expression.parse t.text).outcome = .ok c ∧ c.accepts (.exactly x) = .ok b := by
  rw [← bind_eq_ok_iff]
  refine ⟨eq_ok_of_toOption, fun h => ?_⟩
  rw [answer?, h]
  rfl

instance (t : CleanTerm) (x : String) : Decidable (t.Matches x) :=
  decidable_of_iff (t.answer? x = some true) CleanTerm.answer?_eq_some_iff

instance (t : CleanTerm) (x : String) : Decidable (t.Answers x) :=
  decidable_of_iff ((t.answer? x).isSome = true) (by
    rw [Option.isSome_iff_exists, CleanTerm.Answers, exists_comm]
    exact exists_congr fun b => CleanTerm.answer?_eq_some_iff)

/-- A term alone says to a version what its constraints say together. So the meaning of an
    expression can be told from its terms as they stand on their own. -/
theorem CleanTerm.outcome_eq_ok_iff {t : CleanTerm} {x : String} {cs : List Constraint}
    (h : t.reading = .ok cs) (b : Bool) :
    (∃ c, (Expression.parse t.text).outcome = .ok c ∧ c.accepts (.exactly x) = .ok b) ↔
      (Expression.groupOf cs).accepts (.exactly x) = .ok b := by
  rw [t.outcome_parse, h]
  show (∃ c, Except.ok _ = Except.ok c ∧ _) ↔ _
  constructor
  · rintro ⟨c, hc, hb⟩
    rw [← Except.ok.inj hc, Constraint.accepts_withWritten] at hb
    exact hb
  · intro hb
    refine ⟨_, rfl, ?_⟩
    rw [Constraint.accepts_withWritten, hb]

namespace Clause

variable {k : Clause} {g : Constraint}

/-- The terms of an alternative that was read, and what it says about a version: as much as its
    terms say one after the other. -/
theorem exists_of_reading (h : k.reading = .ok g) :
    ∃ css, List.Forall₂ (fun t cs => t.reading = .ok cs) k.terms css ∧
      ∀ x, g.accepts (.exactly x)
        = Connective.all.decide
            (css.map fun cs => (Expression.groupOf cs).accepts (.exactly x)) := by
  obtain ⟨css, hcss, rfl⟩ := map_eq_ok_iff.1 h
  refine ⟨css, mapM_eq_ok_iff.1 hcss, fun x => ?_⟩
  -- The terms are one group after another, and the alternative asks all of their members.
  rw [Expression.accepts_groupOf, List.map_flatten, Connective.decide_flatten, List.map_map]
  congr 1
  refine List.map_congr_left fun cs _ => ?_
  exact (Expression.accepts_groupOf cs x).symm

/-- A clause accepts a version if each of its terms does. -/
theorem accepts_eq_true_iff (h : k.reading = .ok g) (x : String) :
    g.accepts (.exactly x) = .ok true ↔ ∀ t ∈ k.terms, t.Matches x := by
  obtain ⟨css, hcss, haccepts⟩ := exists_of_reading h
  have hterms : (∀ t ∈ k.terms, t.Matches x) ↔
      ∀ cs ∈ css, (Expression.groupOf cs).accepts (.exactly x) = .ok true :=
    forall_iff_of_forall₂ hcss fun t cs ht => CleanTerm.outcome_eq_ok_iff ht true
  rw [haccepts x, Connective.decide_all_eq_true_iff, hterms, List.forall_mem_map]

/-- It has an answer where all terms have one. A group of all needs no more than that. -/
theorem exists_accepts (h : k.reading = .ok g) {x : String} (ht : ∀ t ∈ k.terms, t.Answers x) :
    ∃ b, g.accepts (.exactly x) = .ok b := by
  obtain ⟨css, hcss, haccepts⟩ := exists_of_reading h
  have hterms : (∀ t ∈ k.terms, t.Answers x) ↔
      ∀ cs ∈ css, ∃ b, (Expression.groupOf cs).accepts (.exactly x) = .ok b := by
    refine forall_iff_of_forall₂ hcss fun t cs ht => ?_
    rw [CleanTerm.Answers, exists_comm]
    exact exists_congr fun b => CleanTerm.outcome_eq_ok_iff ht b
  rw [haccepts x]
  refine Connective.exists_decide .all fun r hr => ?_
  obtain ⟨cs, hcs, rfl⟩ := List.mem_map.1 hr
  exact hterms.1 ht cs hcs

/-- An alternative, read on its own, is nothing but a range. Only two such alternatives can be
    merged. -/
def IsRange (k : Clause) (low high : String) : Prop :=
  ∃ w₁ w₂ w, (Expression.parse k.text).outcome
    = .ok (.group .all [.leaf ⟨.ge, low⟩ w₁, .leaf ⟨.lt, high⟩ w₂] w)

/-- Whether a clause is one range can be seen in the constraint that is made of it. It has just two
    leaves then, with these two operators. -/
theorem isRange_iff (h : k.reading = .ok g) (low high : String) :
    k.IsRange low high ↔ Expression.span? g = some ⟨low, high⟩ := by
  rw [Expression.span?_eq_some_iff, IsRange, k.outcome_parse, h]
  constructor
  · rintro ⟨w₁, w₂, w, heq⟩
    refine ⟨w₁, w₂, g.written, ?_⟩
    -- What the root remembers is all that the two trees may differ in.
    have hback := congrArg (Tree.withWritten · g.written) (Except.ok.inj heq)
    rcases g with _ | _ | _
    · exact hback
    · exact hback
    · exact hback
  · rintro ⟨w₁, w₂, w, rfl⟩
    exact ⟨w₁, w₂, some k.text, rfl⟩

end Clause

/-! ### Expressions -/

namespace CleanExpression

/-- A version satisfies all terms of some alternative. Nothing is asked about what the expression
    as a whole is read as. -/
def Meets (e : CleanExpression) (x : String) : Prop :=
  ∃ k ∈ e.clauses, ∀ t ∈ k.terms, t.Matches x

/-- All terms of the expression answer for a version, also those that do not decide. -/
def Answers (e : CleanExpression) (x : String) : Prop :=
  ∀ k ∈ e.clauses, ∀ t ∈ k.terms, t.Answers x

instance (e : CleanExpression) (x : String) : Decidable (e.Meets x) :=
  inferInstanceAs (Decidable (∃ k ∈ e.clauses, ∀ t ∈ k.terms, t.Matches x))

instance (e : CleanExpression) (x : String) : Decidable (e.Answers x) :=
  inferInstanceAs (Decidable (∀ k ∈ e.clauses, ∀ t ∈ k.terms, t.Answers x))

/-- The expression has two alternatives, both nothing but ranges, and the second range starts with
    the text that the first one ends with. -/
def MergesTo (e : CleanExpression) (low mid high : String) : Prop :=
  ∃ k₁ k₂, e.clauses = [k₁, k₂] ∧ k₁.IsRange low mid ∧ k₂.IsRange mid high

variable {e : CleanExpression} {gs : List Constraint}

/-- Alternatives are merged exactly where the expression merges to a range. How it is written tells
    this without its constraint. -/
theorem collapse?_eq_some_iff (h : List.Forall₂ (fun k g => k.reading = .ok g) e.clauses gs)
    (low high : String) :
    Expression.collapse? gs = some ⟨low, high⟩ ↔ ∃ mid, e.MergesTo low mid high := by
  rw [Expression.collapse?_eq_some_iff]
  refine exists_congr fun mid => ?_
  constructor
  · rintro ⟨g₁, g₂, rfl, h₁, h₂⟩
    obtain ⟨k₁, k₂, heq, hk₁, hk₂⟩ := forall₂_pair_right_iff.1 h
    exact ⟨k₁, k₂, heq, (Clause.isRange_iff hk₁ low mid).2 h₁,
      (Clause.isRange_iff hk₂ mid high).2 h₂⟩
  · rintro ⟨k₁, k₂, heq, h₁, h₂⟩
    rw [heq] at h
    obtain ⟨g₁, g₂, rfl, hg₁, hg₂⟩ := forall₂_pair_left_iff.1 h
    exact ⟨g₁, g₂, rfl, (Clause.isRange_iff hg₁ low mid).1 h₁,
      (Clause.isRange_iff hg₂ mid high).1 h₂⟩

/-- An expression accepts a version clause by clause: one of them has to. -/
theorem meets_iff (h : List.Forall₂ (fun k g => k.reading = .ok g) e.clauses gs) (x : String) :
    e.Meets x ↔ ∃ g ∈ gs, Constraint.accepts g (.exactly x) = .ok true :=
  exists_iff_of_forall₂ h fun _ _ hk => (Clause.accepts_eq_true_iff hk x).symm

/-- Without merging the alternatives are asked one after the other. -/
theorem accepts_joined (hgs : gs ≠ []) (hmerge : Expression.collapse? gs = none) (x : String) :
    (Expression.joined gs).accepts (.exactly x)
      = Connective.any.decide (gs.map fun g => g.accepts (.exactly x)) := by
  rcases gs with _ | ⟨g, _ | ⟨g', gs⟩⟩
  · exact absurd rfl hgs
  · rw [List.map_singleton, Connective.decide_singleton]
    rfl
  · simp only [Expression.joined, hmerge]
    exact Constraint.accepts_group .any _ none x

/-- With merging the range is asked. -/
theorem accepts_joined_of_collapse {low high : String}
    (hmerge : Expression.collapse? gs = some ⟨low, high⟩) (x : String) :
    (Expression.joined gs).accepts (.exactly x) = betweenBounds low high x := by
  obtain ⟨mid, g₁, g₂, rfl, -, -⟩ := Expression.collapse?_eq_some_iff.1 hmerge
  simp only [Expression.joined, hmerge]
  exact Constraint.accepts_bounds low high x none none none

/-- An alternative that is a range asks for both of its bounds. -/
theorem accepts_of_isRange {k : Clause} {g : Constraint} {low high : String}
    (hk : k.reading = .ok g) (h : k.IsRange low high) (x : String) :
    g.accepts (.exactly x) = betweenBounds low high x := by
  obtain ⟨w₁, w₂, w, rfl⟩ := Expression.span?_eq_some_iff.1 ((Clause.isRange_iff hk low high).1 h)
  exact Constraint.accepts_bounds low high x w₁ w₂ w

/-- There is a first clause. -/
theorem clauses_ne_nil (e : CleanExpression) : e.clauses ≠ [] := by
  simp [clauses]

/-- A merged range in order means its two halves. Where the terms have answers all three versions
    can be compared. -/
theorem meets_iff_of_mergesTo (h : List.Forall₂ (fun k g => k.reading = .ok g) e.clauses gs)
    {low mid high x : String} (hmerge : e.MergesTo low mid high) (horder : InOrder low mid high)
    (hanswers : e.Answers x) {b : Bool} (hb : betweenBounds low high x = .ok b) :
    b = true ↔ e.Meets x := by
  obtain ⟨k₁, k₂, heq, h₁, h₂⟩ := hmerge
  have hmeets := meets_iff h x
  rw [heq] at h
  obtain ⟨g₁, g₂, rfl, hg₁, hg₂⟩ := forall₂_pair_left_iff.1 h
  -- The second alternative answers, so the version has an order to the bound in the middle.
  obtain ⟨c, hc⟩ := Clause.exists_accepts hg₂ (hanswers k₂ (by simp [heq]))
  rw [accepts_of_isRange hg₂ h₂] at hc
  obtain ⟨d, hd, -⟩ := exists_of_betweenBounds hc
  rw [betweenBounds_iff_of_inOrder horder hd hb, hmeets]
  simp [accepts_of_isRange hg₁ h₁, accepts_of_isRange hg₂ h₂]

/-- An expression can be read if each of its terms can be read on its own. Whether alternatives are
    merged does not matter for that. -/
theorem exists_outcome_iff (e : CleanExpression) :
    (∃ c, (Expression.parse e.text).outcome = .ok c) ↔
      ∀ k ∈ e.clauses, ∀ t ∈ k.terms, ∃ c, (Expression.parse t.text).outcome = .ok c := by
  have hterm (t : CleanTerm) :
      (∃ c, (Expression.parse t.text).outcome = .ok c) ↔ ∃ cs, t.reading = .ok cs := by
    rw [t.outcome_parse, exists_map_eq_ok_iff]
  have hclause (k : Clause) :
      (∃ g, k.reading = .ok g) ↔ ∀ t ∈ k.terms, ∃ cs, t.reading = .ok cs := by
    rw [← exists_mapM_iff, Clause.reading, exists_map_eq_ok_iff]
  rw [e.outcome_parse, exists_map_eq_ok_iff, exists_mapM_iff]
  refine forall₂_congr fun k _ => ?_
  rw [hclause]
  exact forall₂_congr fun t _ => (hterm t).symm

/-- An expression that was read says what its alternatives say together. -/
theorem exists_of_outcome {c : Constraint} (h : (Expression.parse e.text).outcome = .ok c) :
    ∃ gs, List.Forall₂ (fun k g => k.reading = .ok g) e.clauses gs ∧ gs ≠ [] ∧
      ∀ x, c.accepts (.exactly x) = (Expression.joined gs).accepts (.exactly x) := by
  rw [e.outcome_parse] at h
  obtain ⟨gs, hgs, rfl⟩ := map_eq_ok_iff.1 h
  have hreads := mapM_eq_ok_iff.1 hgs
  refine ⟨gs, hreads, ?_, fun x => Constraint.accepts_withWritten _ _ x⟩
  rintro rfl
  exact e.clauses_ne_nil (List.forall₂_nil_right_iff.1 hreads)

/-- Where the statement merges nothing the program does not either. -/
theorem collapse?_eq_none (h : List.Forall₂ (fun k g => k.reading = .ok g) e.clauses gs)
    (hmerge : ∀ low mid high, ¬ e.MergesTo low mid high) : Expression.collapse? gs = none := by
  rw [Option.eq_none_iff_forall_ne_some]
  intro s hs
  obtain ⟨mid, hmid⟩ := (collapse?_eq_some_iff h s.low s.high).1 hs
  exact hmerge _ _ _ hmid

/-- If all terms answer, some alternative can be chosen or none. -/
theorem exists_decide_alternatives
    (h : List.Forall₂ (fun k g => k.reading = .ok g) e.clauses gs) {x : String}
    (hanswers : e.Answers x) :
    ∃ b, Connective.any.decide (gs.map fun g => g.accepts (.exactly x)) = .ok b := by
  apply Connective.exists_decide
  intro r hr
  obtain ⟨g, hg, rfl⟩ := List.mem_map.1 hr
  obtain ⟨k, hk, hreading⟩ := exists_of_mem_forall₂ h hg
  exact Clause.exists_accepts hreading (hanswers k hk)

end CleanExpression

/-- **Meaning of expressions.** An expression in regular writing can be read if each of its terms
    can be read on its own.  A version satisfies it if it satisfies all terms of one alternative,
    and there is an answer wherever the terms have one.  Where two alternatives are merged into one
    range, the version has to be in that range, which is the same if the bounds are in order. -/
theorem parse_clean (e : CleanExpression) :
    ((∃ c, (Expression.parse e.text).outcome = .ok c) ↔
      ∀ k ∈ e.clauses, ∀ t ∈ k.terms, ∃ c, (Expression.parse t.text).outcome = .ok c) ∧
    ∀ c, (Expression.parse e.text).outcome = .ok c → ∀ x,
      ((∀ low mid high, ¬ e.MergesTo low mid high) →
        (e.Answers x → ∃ b, c.accepts (.exactly x) = .ok b) ∧
        ∀ b, c.accepts (.exactly x) = .ok b → (b = true ↔ e.Meets x)) ∧
      ∀ low mid high, e.MergesTo low mid high → ∀ b, c.accepts (.exactly x) = .ok b →
        (b = true ↔ Operator.ge.relates false x low = .ok true ∧
          Operator.lt.relates false x high = .ok true) ∧
        (InOrder low mid high → e.Answers x → (b = true ↔ e.Meets x)) := by
  refine ⟨e.exists_outcome_iff, fun c hc x => ?_⟩
  -- The alternatives are read one by one, and it depends on their constraints alone whether they
  -- are merged.
  obtain ⟨gs, hreads, hne, haccepts⟩ := CleanExpression.exists_of_outcome hc
  rw [haccepts x]
  constructor
  · intro hmerge
    rw [CleanExpression.accepts_joined hne (CleanExpression.collapse?_eq_none hreads hmerge)]
    refine ⟨CleanExpression.exists_decide_alternatives hreads, ?_⟩
    intro b hb
    rw [Connective.decide_any_eq_ok hb, CleanExpression.meets_iff hreads]
    simp
  · intro low mid high hmerge b hb
    have hcollapse := (CleanExpression.collapse?_eq_some_iff hreads low high).2 ⟨mid, hmerge⟩
    rw [CleanExpression.accepts_joined_of_collapse hcollapse] at hb
    constructor
    · rw [← betweenBounds_eq_true_iff, hb, Except.ok.injEq]
    · intro horder hanswers
      exact CleanExpression.meets_iff_of_mergesTo hreads hmerge horder hanswers hb

/-! ### Two expressions -/

/-- The term with an operator in front of a version. -/
def compared (sign : { s : Sign // s ∈ Term.signs }) (v : VersionText) : CleanTerm :=
  .comparison (some sign) 0 v

/-- The sign `>=`. -/
def signGe : { s : Sign // s ∈ Term.signs } := ⟨⟨">=".toList, .ge⟩, by decide⟩

/-- The sign `<`. -/
def signLt : { s : Sign // s ∈ Term.signs } := ⟨⟨"<".toList, .lt⟩, by decide⟩

/-- The sign `>`. -/
def signGt : { s : Sign // s ∈ Term.signs } := ⟨⟨">".toList, .gt⟩, by decide⟩

/-- The expression `>2.0,<2.0.5 | >2.0.6`. -/
def splitExample : CleanExpression where
  lead := []
  first := ⟨compared signGt ⟨"2.0".toList, by decide, by decide, by decide, by decide⟩,
    [(.comma 0 0, compared signLt ⟨"2.0.5".toList, by decide, by decide, by decide, by decide⟩)]⟩
  rest := [(⟨[' '], false, [' '], by decide, by decide⟩,
    ⟨compared signGt ⟨"2.0.6".toList, by decide, by decide, by decide, by decide⟩, []⟩)]
  tail := []
  blank_lead := by simp
  blank_tail := by simp

/-- A version that satisfies the second alternative only. -/
theorem parse_clean_alternatives :
    ∃ c b, (Expression.parse ">2.0,<2.0.5 | >2.0.6").outcome = .ok c ∧
      c.accepts (.exactly "2.0.7.0") = .ok b ∧ b = true := by
  have htext : splitExample.text = ">2.0,<2.0.5 | >2.0.6" := by decide
  have hanswers : splitExample.Answers "2.0.7.0" := by decide +kernel
  obtain ⟨hread, hmeaning⟩ := parse_clean splitExample
  obtain ⟨c, hc⟩ := hread.2 fun k hk t ht =>
    let ⟨c, _, hc, _⟩ := hanswers k hk t ht
    ⟨c, hc⟩
  have hmerge : ∀ low mid high, ¬ splitExample.MergesTo low mid high := by
    rintro low mid high ⟨k₁, k₂, hclauses, -, hrange⟩
    -- One comparison is no range.
    have hlast : splitExample.clauses.getLast? = some k₂ := by rw [hclauses]; rfl
    have hno : (splitExample.clauses.getLast?.bind fun k => k.reading.toOption.map
        fun g => (Expression.span? g).isNone) = some true := by decide
    rw [hlast, Option.bind_some] at hno
    obtain ⟨g, hg, hspan⟩ := Option.map_eq_some_iff.1 hno
    rw [(Clause.isRange_iff (eq_ok_of_toOption hg) mid high).1 hrange] at hspan
    cases hspan
  obtain ⟨hanswer, hiff⟩ := (hmeaning c hc "2.0.7.0").1 hmerge
  obtain ⟨b, hb⟩ := hanswer hanswers
  rw [htext] at hc
  exact ⟨c, b, hc, hb, (hiff b hb).2 (by decide +kernel)⟩

/-- The expression `>=3.0 <1.0 || >=1.0 <5.0`, with the bounds of the first range in disorder. -/
def mixedExample : CleanExpression where
  lead := []
  first := ⟨compared signGe ⟨"3.0".toList, by decide, by decide, by decide, by decide⟩,
    [(.spaces 0, compared signLt ⟨"1.0".toList, by decide, by decide, by decide, by decide⟩)]⟩
  rest := [(⟨[' '], true, [' '], by decide, by decide⟩,
    ⟨compared signGe ⟨"1.0".toList, by decide, by decide, by decide, by decide⟩,
      [(.spaces 0, compared signLt ⟨"5.0".toList, by decide, by decide, by decide, by decide⟩)]⟩)]
  tail := []
  blank_lead := by simp
  blank_tail := by simp

/-- Merging ranges whose bounds are not in order changes what an expression means: `2.0` satisfies
    both terms of the second alternative of `>=3.0 <1.0 || >=1.0 <5.0`, and not the expression. -/
theorem not_forall_accepts_iff_meets :
    ¬ ∀ (e : CleanExpression) (c : Constraint) (x : String) (b : Bool),
      (Expression.parse e.text).outcome = .ok c → e.Answers x →
        c.accepts (.exactly x) = .ok b → (b = true ↔ e.Meets x) := by
  intro h
  have hoff : ((Expression.parse mixedExample.text).outcome.bind
      fun c => c.accepts (.exactly "2.0.0.0")) = .ok false := eq_ok_of_toOption (by decide +kernel)
  obtain ⟨c, hc, haccepts⟩ := bind_eq_ok_iff.1 hoff
  have hanswers : mixedExample.Answers "2.0.0.0" := by decide +kernel
  have hmeets : mixedExample.Meets "2.0.0.0" := by decide +kernel
  exact absurd ((h mixedExample c "2.0.0.0" false hc hanswers haccepts).2 hmeets) (by decide)

end VersionRange
