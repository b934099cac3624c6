import VersionRange.Proofs.Constraint.Tree
import VersionRange.Proofs.Expression.Bound
import VersionRange.Proofs.Expression.Parts
import VersionRange.Proofs.Text.Trim

namespace VersionRange

/-!
# The shape of parsed constraints

An expression is alternatives of terms, and so is its constraint: any of some alternatives, an
alternative being all of some terms.  There is no group with less than two members, and only the
root remembers what was written.

* `Constraint.IsTerm`, `Constraint.IsAlternative`, `Constraint.IsExpression`: the three levels.
* `RoomyText`: a text whose numbers may be raised.
* `Term.yields_constraints_areTerms`: a term stands for at least one constraint.
* `Expression.parse_blank`: a blank expression is reported.
* `Expression.parse_shape`: the shape of what an expression is parsed to.
-/

/-! ### Levels -/

namespace Constraint

/-- A constraint without members, which remembers the text `w`: one comparator or any version at
    all. -/
inductive IsTerm (w : Option String) : Constraint → Prop where
  | leaf (c : Comparator) : IsTerm w (.leaf c w)
  | unrestricted : IsTerm w (.unrestricted w)

/-- A term, or all of two or more terms.  Only the root remembers a text, and that is `w`. -/
inductive IsAlternative (w : Option String) : Constraint → Prop where
  | term {t : Constraint} (h : IsTerm w t) : IsAlternative w t
  | group {ts : List Constraint} (hlen : 2 ≤ ts.length) (h : ∀ t ∈ ts, IsTerm none t) :
      IsAlternative w (.group .all ts w)

/-- An alternative, or any of two or more of them.  Only the root remembers a text, and that
    is `w`. -/
inductive IsExpression (w : Option String) : Constraint → Prop where
  | alternative {t : Constraint} (h : IsAlternative w t) : IsExpression w t
  | group {ts : List Constraint} (hlen : 2 ≤ ts.length) (h : ∀ t ∈ ts, IsAlternative none t) :
      IsExpression w (.group .any ts w)

variable {t : Constraint} {w : Option String}

/-- A term stays one with another text to remember. -/
theorem IsTerm.withWritten (h : IsTerm w t) (w' : Option String) :
    IsTerm w' (t.withWritten w') := by
  cases h with
  | leaf c => exact .leaf c
  | unrestricted => exact .unrestricted

/-- So does an alternative: only its root remembers something. -/
theorem IsAlternative.withWritten (h : IsAlternative w t) (w' : Option String) :
    IsAlternative w' (t.withWritten w') := by
  cases h with
  | term h => exact .term (h.withWritten w')
  | group hlen h => exact .group hlen h

/-- So does an expression, in each of its shapes. -/
theorem IsExpression.withWritten (h : IsExpression w t) (w' : Option String) :
    IsExpression w' (t.withWritten w') := by
  cases h with
  | alternative h => exact .alternative (h.withWritten w')
  | group hlen h => exact .group hlen h

/-- One term or more, which remember nothing. This is what the text of a term is read as. -/
structure AreTerms (ts : List Constraint) : Prop where
  ne_nil : ts ≠ []
  terms : ∀ t ∈ ts, IsTerm none t

/-- Bare leaves are terms. -/
theorem areTerms_leaves {cs : List Comparator} (h : cs ≠ []) :
    AreTerms (cs.map (Tree.leaf · none)) where
  ne_nil := by
    intro hnil
    exact h (List.map_eq_nil_iff.1 hnil)
  terms := by
    intro t ht
    obtain ⟨c, -, rfl⟩ := List.mem_map.1 ht
    exact .leaf c

/-- Terms from several places are terms together. -/
theorem AreTerms.flatten {css : List (List Constraint)} (hne : css ≠ [])
    (h : ∀ cs ∈ css, AreTerms cs) : AreTerms css.flatten where
  ne_nil := by
    obtain ⟨cs, rest, rfl⟩ := List.exists_cons_of_ne_nil hne
    have hfirst := (h cs List.mem_cons_self).ne_nil
    simp [hfirst]
  terms := by
    intro t ht
    obtain ⟨cs, hcs, ht⟩ := List.mem_flatten.1 ht
    exact (h cs hcs).terms t ht

end Constraint

/-! ### Numbers that may be raised -/

/-- A text in which no run of digits, of whatever script, is so long that its number could not be
    raised. -/
def RoomyText (s : List Char) : Prop :=
  ∀ ds, ds <:+: s → (∀ c ∈ ds, Text.isDigit c = true) → ds.length < Numeral.limit

namespace RoomyText

variable {s t : List Char}

/-- A short text has no room for too long a number. -/
theorem of_length_lt (h : s.length < Numeral.limit) : RoomyText s := by
  intro ds hds _
  exact Nat.lt_of_le_of_lt hds.length_le h

/-- A part of a text has no longer numbers than the text. -/
theorem part (h : RoomyText s) (ht : t <:+: s) : RoomyText t := by
  intro ds hds
  exact h ds (hds.trans ht)

/-- The numbers of a term may be raised. -/
theorem numbers (h : RoomyText s) : ∀ g ∈ (Term.read s).numbers, g.length < Numeral.limit := by
  intro g hg
  obtain ⟨hgroup, hinfix⟩ := (Term.isWithin_read s).numbers g hg
  exact h g hinfix hgroup.2

end RoomyText

/-! ### Terms -/

/-- An outcome that reports no fault but a text that cannot be read. What the text is does not
    matter. -/
abbrev Reports {α : Type} (x : Except Fault α) : Prop := Yields (fun _ => True) x

/-- A bound is written or the numbers are too long for it, which the room in the text rules out. -/
theorem reports_devBound {gs : List (List Char)} {amount : Nat} (position : Nat)
    (hamount : amount ≤ 1) (hgs : ∀ g ∈ gs, g.length < Numeral.limit) :
    Reports (devBound gs position amount) := by
  obtain ⟨s, hs, -⟩ := exists_devBound position hamount hgs
  rw [hs]
  exact .value trivial

namespace Term

/-- A lower end is read or reported. -/
theorem reports_lowerEnd (v : Spelled) : Reports (lowerEnd v).outcome := by
  rw [lowerEnd, Traced.outcome_bind]
  exact (Yields.mapError _).bind fun c _ => .value trivial

/-- So is an upper end, if its bound can be written. Of an exact end only the version has to be
    read. -/
theorem reports_upperEnd {v : Spelled} (hv : ∀ g ∈ v.version.groups, g.length < Numeral.limit) :
    Reports (upperEnd v).outcome := by
  unfold upperEnd
  dsimp only
  split
  case isTrue =>
    rw [Traced.outcome_bind]
    exact (Yields.mapError _).bind fun c _ => .value trivial
  case isFalse =>
    rw [Traced.outcome_bind, Traced.outcome_lift]
    exact (reports_devBound _ (le_refl 1) hv).bind fun high _ => .value trivial

/-- A range that can be read has comparators. -/
theorem yields_rangeTo_ne_nil {v : Spelled} (position : Nat)
    (hv : ∀ g ∈ v.version.groups, g.length < Numeral.limit) :
    Yields (fun cs => cs ≠ []) (rangeTo v position).outcome := by
  rw [rangeTo, Traced.outcome_bind, Traced.outcome_lift]
  refine (reports_devBound position (le_refl 1) hv).bind fun high _ => ?_
  rw [Traced.outcome_bind]
  exact (reports_lowerEnd v).bind fun low _ => .value (List.cons_ne_nil _ _)

/-- Without its lower end a range still has the upper one. -/
theorem yields_wildcardRange_ne_nil {gs : List (List Char)}
    (hgs : ∀ g ∈ gs, g.length < Numeral.limit) :
    Yields (fun cs => cs ≠ []) (wildcardRange gs) := by
  refine (reports_devBound _ (Nat.zero_le 1) hgs).bind fun low _ => ?_
  refine (reports_devBound _ (le_refl 1) hgs).bind fun high _ => .value ?_
  split
  case isTrue => exact List.cons_ne_nil _ _
  case isFalse => exact List.cons_ne_nil _ _

/-- A comparison is read or reported, and does not end otherwise. -/
theorem reports_comparator (term : List Char) (sign : Sign) (version : List Char)
    (flag : Option (List Char)) : Reports (comparator term sign version flag).outcome := by
  rw [comparator, Traced.outcome_bind, Traced.outcome_attempt]
  cases (normalize (String.ofList version) none).outcome with
  | error e => exact .report _
  | ok c => exact .value trivial

/-- Whatever form it has, a term stands for one constraint or two. -/
theorem yields_meaning_areTerms (s : List Char) (flag : Option (List Char)) {t : Term}
    (ht : ∀ g ∈ t.numbers, g.length < Numeral.limit) :
    Yields Constraint.AreTerms (meaning s flag t).outcome := by
  cases t with
  | anything =>
    refine .value ⟨List.cons_ne_nil _ _, ?_⟩
    intro t ht
    rw [List.mem_singleton.1 ht]
    exact .unrestricted
  | tilde v =>
    rw [meaning, Traced.outcome_map]
    exact (yields_rangeTo_ne_nil _ ht).map fun cs => Constraint.areTerms_leaves
  | caret v =>
    rw [meaning, Traced.outcome_map]
    exact (yields_rangeTo_ne_nil _ ht).map fun cs => Constraint.areTerms_leaves
  | wildcard gs =>
    rw [meaning, Traced.outcome_map]
    exact (yields_wildcardRange_ne_nil ht).map fun cs => Constraint.areTerms_leaves
  | hyphen low high =>
    have hhigh : ∀ g ∈ high.version.groups, g.length < Numeral.limit :=
      fun g hg => ht g (List.mem_append_right _ hg)
    rw [meaning, Traced.outcome_bind]
    refine (reports_lowerEnd low).bind fun c _ => ?_
    rw [Traced.outcome_bind]
    refine (reports_upperEnd hhigh).bind fun d _ => .value ?_
    exact Constraint.areTerms_leaves (List.cons_ne_nil _ _)
  | comparison sign version =>
    rw [meaning, Traced.outcome_bind]
    refine (reports_comparator s sign version flag).bind fun c _ => .value ?_
    exact Constraint.areTerms_leaves (List.cons_ne_nil _ _)

/-- A term stands for at least one constraint, or it is reported. The flag in it makes no
    difference to the shape. -/
theorem yields_constraints_areTerms {s : List Char} (hs : RoomyText s) :
    Yields Constraint.AreTerms (constraints s).outcome := by
  unfold constraints
  split
  case isTrue => exact .report _
  case isFalse =>
    split
    case h_1 c front flag hflag =>
      have hfront : RoomyText (c :: front) := hs.part (isPrefix_of_splitFlag? hflag).isInfix
      exact yields_meaning_areTerms _ _ hfront.numbers
    case h_2 => exact yields_meaning_areTerms _ _ hs.numbers

end Term

/-! ### Alternatives -/

namespace Expression

open Constraint

variable {s : List Char}

/-- Terms that go together are an alternative, a single one without a group. -/
theorem isAlternative_groupOf {ts : List Constraint} (h : AreTerms ts) :
    IsAlternative none (groupOf ts) := by
  rcases ts with _ | ⟨c, _ | ⟨d, ts⟩⟩
  · exact absurd rfl h.ne_nil
  · exact .term (h.terms c (by simp))
  · exact .group (by simp) h.terms

/-- Two ranges that are joined give one range, which is an alternative as they are. All other
    alternatives stay as they are, side by side. -/
theorem isExpression_joined {gs : List Constraint} (hne : gs ≠ [])
    (h : ∀ g ∈ gs, IsAlternative none g) : IsExpression none (joined gs) := by
  rcases gs with _ | ⟨c, _ | ⟨d, gs⟩⟩
  · exact absurd rfl hne
  · exact .alternative (h c (by simp))
  · rw [joined.eq_def]
    dsimp only
    cases collapse? (c :: d :: gs) with
    | none => exact .group (by simp) h
    | some span =>
      refine .alternative (.group (by simp) ?_)
      intro t ht
      rcases List.mem_pair.1 ht with rfl | rfl
      · exact .leaf _
      · exact .leaf _

/-- A roomy text is an alternative, or it is reported. There is one term in it at least. -/
theorem yields_parseAlternative_shape (hs : RoomyText s) :
    Yields (IsAlternative none) (parseAlternative s).outcome := by
  rw [outcome_parseAlternative]
  have hterms : ∀ t ∈ splitTerms s, Yields AreTerms (Term.constraints t).outcome :=
    fun t ht => Term.yields_constraints_areTerms (hs.part (infix_of_mem_splitTerms ht))
  refine (Yields.mapM_forall₂ hterms).map fun css hcss => isAlternative_groupOf (.flatten ?_ ?_)
  · -- There is a first term, and it stands for something.
    rintro rfl
    exact splitTermsFrom_ne_nil 0 [] s (List.forall₂_nil_right_iff.1 hcss)
  · intro cs hcs
    obtain ⟨_, -, hterms⟩ := exists_of_mem_forall₂ hcss hcs
    exact hterms

/-- A roomy text is an expression that remembers it, or it is reported. -/
theorem yields_parse_shape {e : String} (he : RoomyText e.toList) :
    Yields (IsExpression (some e)) (parse e).outcome := by
  -- What is read is a part of the text, or the wildcard that a flag alone stands for.
  have hbody : RoomyText (body e) := by
    rcases isPrefix_body e with hany | hfront
    · have hwildcard : RoomyText ['*'] := .of_length_lt (by decide)
      exact hwildcard.part hany.isInfix
    · exact he.part hfront.isInfix
  rw [outcome_parse_eq]
  have halternatives : ∀ a ∈ splitAlternatives (body e),
      Yields (IsAlternative none) (parseAlternative a).outcome :=
    fun a ha => yields_parseAlternative_shape (hbody.part (infix_of_mem_splitAlternatives ha))
  refine (Yields.mapM_forall₂ halternatives).map fun gs hgs => ?_
  refine (isExpression_joined ?_ ?_).withWritten (some e)
  · -- There are as many alternatives as pieces of the text, so there is one.
    rintro rfl
    have hnil : splitAlternatives (body e) = [] := List.forall₂_nil_right_iff.1 hgs
    exact splitBars_ne_nil _ (List.map_eq_nil_iff.1 hnil)
  · intro g hg
    obtain ⟨_, -, hg⟩ := exists_of_mem_forall₂ hgs hg
    exact hg

/-! ### Expressions -/

/-- An expression of nothing but white space is reported. It has one alternative with one term,
    which is empty. -/
theorem parse_blank {e : String} (h : ∀ c ∈ e.toList, Text.isBlank c = true) :
    (parse e).outcome = .error (.parse .emptyTerm) := by
  have hflag : '@' ∉ e.toList := fun hmem => absurd (h '@' hmem) (by decide)
  have hreference : '#' ∉ e.toList := fun hmem => absurd (h '#' hmem) (by decide)
  have htrim : Text.trim e.toList = [] := by
    have hends : Text.trim (e.toList ++ [] ++ []) = [] :=
      trim_blanks h (by simp) (by simp) settled_nil
    simpa using hends
  -- One alternative without any text is left, and it has no term.
  have hempty : splitAlternatives e.toList = [[]] := by
    rw [splitAlternatives, htrim]
    rfl
  have hparse := outcome_parse hflag hreference
  rw [String.ofList_toList] at hparse
  rw [hparse, hempty]
  rfl

/-- **Shape.** An expression is reported, or its constraint is any of two or more alternatives, or a
    single one, where an alternative is all of two or more terms, or a single one.  Only the root
    remembers a text, the whole expression, and the expression is not blank. -/
theorem parse_shape (e : String) (he : RoomyText e.toList) :
    Yields (fun t => Constraint.IsExpression (some e) t ∧
        (∀ c ∈ t.leaves, c.operator ∈ [Operator.eq, .lt, .le, .gt, .ge, .ne]) ∧
        ∃ c ∈ e.toList, Text.isBlank c = false)
      (parse e).outcome := by
  have hshape := yields_parse_shape he
  by_cases hblank : ∀ c ∈ e.toList, Text.isBlank c = true
  · rw [parse_blank hblank]
    exact .report _
  · -- Some character is no white space, whatever the expression is parsed to.
    have hsolid : ∃ c ∈ e.toList, Text.isBlank c = false := by simpa using hblank
    refine hshape.mono fun t ht => ⟨ht, ?_, hsolid⟩
    intro c _
    cases c.operator <;> decide

/-- Three alternatives, one of them with a flag behind its version. -/
theorem parse_shape_alternatives :
    RoomyText "^1.2 !=1.5 || 2.* || dev-master@dev".toList ∧
      ∃ t, (parse "^1.2 !=1.5 || 2.* || dev-master@dev").outcome = .ok t ∧
        Constraint.IsExpression (some "^1.2 !=1.5 || 2.* || dev-master@dev") t := by
  have hroom : RoomyText "^1.2 !=1.5 || 2.* || dev-master@dev".toList := .of_length_lt (by decide)
  have hparsed : (parse "^1.2 !=1.5 || 2.* || dev-master@dev").outcome.toOption.isSome = true := by
    decide +kernel
  obtain ⟨t, ht⟩ := Option.isSome_iff_exists.1 hparsed
  have houtcome := eq_ok_of_toOption ht
  have hshape := parse_shape _ hroom
  rw [houtcome] at hshape
  exact ⟨hroom, t, houtcome, hshape.of_ok.1⟩

end Expression

end VersionRange
