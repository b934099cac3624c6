import VersionRange.Proofs.Expression.Comparison

namespace VersionRange

/-!
# Expressions that agree

Two expressions agree if they stand for the same constraint, whatever text it remembers.

* `Expression.Agree`, `Expression.agree_iff`: terms agree if they are made of the same comparators.
* `agree_comparison_iff`: comparisons with two texts of one version agree where both texts get the
  same ending.
* `agree_range_iff`: ranges with the same numbers agree where they have the same lower end.
-/

/-! ### Expressions that stand for the same -/

namespace Expression

/-- Both expressions stand for the same constraint, whatever text it remembers. Operators and
    versions are the same at every place, so both accept the same versions. -/
def Agree (e e' : String) : Prop :=
  ∃ c c', (parse e).outcome = .ok c ∧ (parse e').outcome = .ok c' ∧ c.same (· == ·) c' = true

/-- Lists of bare leaves are the same if their comparators are. Lists of different lengths
    are not. -/
theorem sameEach_leaves (cs cs' : List Comparator) :
    Tree.sameEach (· == ·) (leaves cs) (leaves cs') = true ↔ cs = cs' := by
  induction cs generalizing cs' with
  | nil =>
    cases cs' with
    | nil => exact ⟨fun _ => rfl, fun _ => rfl⟩
    | cons d ds => exact ⟨nofun, nofun⟩
  | cons c cs ih =>
    cases cs' with
    | nil => exact ⟨nofun, nofun⟩
    | cons d ds =>
      show ((c == d) && Tree.sameEach (· == ·) (leaves cs) (leaves ds)) = true ↔ _
      rw [Bool.and_eq_true, beq_iff_eq, ih, List.cons.injEq]

/-- Comparators that go together are the same constraint if they are the same. The texts that the
    constraints remember do not matter. -/
theorem same_groupOf_leaves (cs cs' : List Comparator) (w w' : Option String) :
    ((groupOf (leaves cs)).withWritten w).same (· == ·) ((groupOf (leaves cs')).withWritten w')
      = true ↔ cs = cs' := by
  -- A single comparator is no group.
  obtain _ | ⟨c, _ | ⟨c₂, cs⟩⟩ := cs <;> obtain _ | ⟨d, _ | ⟨d₂, ds⟩⟩ := cs'
  case cons.nil.cons.nil =>
    show (c == d) = true ↔ _
    rw [beq_iff_eq, List.cons.injEq, and_iff_left rfl]
  case cons.nil.nil | cons.nil.cons.cons | nil.cons.nil | cons.cons.cons.nil =>
    exact ⟨nofun, nofun⟩
  case nil.nil => exact sameEach_leaves [] []
  case nil.cons.cons => exact sameEach_leaves [] (d :: d₂ :: ds)
  case cons.cons.nil => exact sameEach_leaves (c :: c₂ :: cs) []
  case cons.cons.cons.cons => exact sameEach_leaves (c :: c₂ :: cs) (d :: d₂ :: ds)

/-- Two expressions that stand for one alternative each agree if its comparators are the same,
    whatever texts they remember. -/
theorem agree_iff {e e' : String} {cs cs' : List Comparator} {w w' : Option String}
    (h : (parse e).outcome = .ok ((groupOf (leaves cs)).withWritten w))
    (h' : (parse e').outcome = .ok ((groupOf (leaves cs')).withWritten w')) :
    Agree e e' ↔ cs = cs' := by
  rw [← same_groupOf_leaves cs cs' w w']
  constructor
  · rintro ⟨c, c', hc, hc', hsame⟩
    cases hc.symm.trans h
    cases hc'.symm.trans h'
    exact hsame
  · intro hsame
    exact ⟨_, _, h, h', hsame⟩

end Expression

/-! ### Comparisons -/

/-- What is asked of the two texts of a version for it to be the same bound behind an operator: a
    marker in both or in none, wherever one would be put behind the version. -/
theorem Term.ending_eq_iff {sign : Sign} {u u' : List Char} {text : String} :
    ending sign u none text = ending sign u' none text ↔
      (sign.operator.countsPrereleases = true → isBranch text = false → text ≠ master →
        (Marker.search u).isAbsent = (Marker.search u').isAbsent) := by
  rw [ending_none, ending_none]
  by_cases hcounts : sign.operator.countsPrereleases = true ∧ isBranch text = false ∧ text ≠ master
  · obtain ⟨hop, hb, hmaster⟩ := hcounts
    cases (Marker.search u).isAbsent <;> cases (Marker.search u').isAbsent <;>
      simp [hop, hb, hmaster]
  · have hnone : ∀ p : Prop, ¬ (sign.operator.countsPrereleases = true ∧ isBranch text = false ∧
        text ≠ master ∧ p) := fun p hp => hcounts ⟨hp.1, hp.2.1, hp.2.2.1⟩
    rw [if_neg (hnone _), if_neg (hnone _)]
    exact iff_of_true rfl fun hop hb hmaster => absurd ⟨hop, hb, hmaster⟩ hcounts

section Comparison

variable {sign : Sign} {s s' u u' : List Char} {c : Canonical}

/-- The constraint of a comparison, if its version can be normalized. -/
theorem Expression.outcome_parse_comparison (hs : IsSingle s)
    (hread : Term.read s = .comparison sign u)
    (hc : (normalize (String.ofList u) none).outcome = .ok c) :
    (parse (String.ofList s)).outcome = .ok ((groupOf (leaves
      [⟨sign.operator, c.text ++ Term.ending sign u none c.text⟩])).withWritten
        (some (String.ofList s))) := by
  rw [hs.outcome_parse, hread, Term.outcome_meaning_comparison hc]
  rfl

/-- A comparison that can be read has a version that can be read. -/
theorem Expression.exists_of_parse_comparison {d : Constraint} (hs : IsSingle s)
    (hread : Term.read s = .comparison sign u) (h : (parse (String.ofList s)).outcome = .ok d) :
    ∃ c, (normalize (String.ofList u) none).outcome = .ok c := by
  rw [hs.outcome_parse, hread, Term.meaning, Traced.outcome_bind, Term.comparator,
    Traced.outcome_bind, Traced.outcome_attempt] at h
  cases hc : (normalize (String.ofList u) none).outcome with
  | ok c => exact ⟨c, rfl⟩
  | error e =>
    rw [hc] at h
    cases h

/-- A comparison with the main line of development is none with a branch. The one version is
    written as a number, the other one as a name. -/
theorem not_agree_of_branch {name : List Char} (hs : IsSingle s) (hs' : IsSingle s')
    (hread : Term.read s = .comparison sign u) (hread' : Term.read s' = .comparison sign u')
    (hc : (normalize (String.ofList u) none).outcome = .ok .master)
    (hc' : (normalize (String.ofList u') none).outcome = .ok (.branch name)) :
    ¬ Expression.Agree (String.ofList s) (String.ofList s') := by
  rw [Expression.agree_iff (Expression.outcome_parse_comparison hs hread hc)
    (Expression.outcome_parse_comparison hs' hread' hc')]
  intro h
  have hversion : Canonical.master.text ++ Term.ending sign u none Canonical.master.text
      = (Canonical.branch name).text ++ Term.ending sign u' none (Canonical.branch name).text :=
    congrArg Comparator.version (List.cons.inj h).1
  have hbranch := isBranch_append (isBranch_branch name)
    (Term.ending sign u' none (Canonical.branch name).text)
  rw [← hversion, isBranch, String.toList_append, Canonical.toList_text] at hbranch
  -- Its text begins with a digit.
  obtain ⟨r, hr⟩ := Text.startsWith_iff.1 hbranch
  exact absurd (List.cons.inj hr).1 (by decide)

/-- Comparisons with two texts of one version agree where both get the same ending. The operators
    are the same, so only the versions could differ. -/
theorem agree_comparison_iff (hs : IsSingle s) (hs' : IsSingle s')
    (hread : Term.read s = .comparison sign u) (hread' : Term.read s' = .comparison sign u')
    (hc : (normalize (String.ofList u) none).outcome = .ok c)
    (hc' : (normalize (String.ofList u') none).outcome = .ok c) :
    Expression.Agree (String.ofList s) (String.ofList s') ↔
      (sign.operator.countsPrereleases = true → isBranch c.text = false → c.text ≠ master →
        (Marker.search u).isAbsent = (Marker.search u').isAbsent) := by
  rw [Expression.agree_iff (Expression.outcome_parse_comparison hs hread hc)
    (Expression.outcome_parse_comparison hs' hread' hc'), ← Term.ending_eq_iff]
  constructor
  · intro h
    have hversion := congrArg Comparator.version (List.cons.inj h).1
    exact (String.append_right_inj c.text).1 hversion
  · intro h
    rw [h]

end Comparison

/-! ### Ranges -/

section Range

variable {sign : RangeSign} {s s' : List Char} {v v' : Spelled}

/-- The constraint of a range, if both of its bounds can be written. Otherwise there is a fault,
    which nothing is said about here. -/
theorem Expression.outcome_parse_range {d : Constraint} (hs : IsSingle s)
    (hread : Term.read s = sign.term v) (hne : v.version.groups ≠ []) :
    (parse (String.ofList s)).outcome = .ok d ↔
      ∃ high low, devBound v.version.groups (sign.last v.version.groups) 1 = .ok high ∧
        (Term.lowerEnd v).outcome = .ok low ∧
        d = (groupOf (leaves [low, ⟨.lt, high⟩])).withWritten (some (String.ofList s)) := by
  rw [hs.outcome_parse, hread, sign.outcome_meaning s hne, map_eq_ok_iff]
  constructor
  · rintro ⟨ts, hts, rfl⟩
    obtain ⟨cs, hcs, rfl⟩ := map_eq_ok_iff.1 hts
    obtain ⟨high, low, hhigh, hlow, rfl⟩ := Term.outcome_rangeTo_eq_ok_iff.1 hcs
    exact ⟨high, low, hhigh, hlow, rfl⟩
  · rintro ⟨high, low, hhigh, hlow, rfl⟩
    refine ⟨_, map_eq_ok_iff.2 ⟨_, ?_, rfl⟩, rfl⟩
    exact Term.outcome_rangeTo_eq_ok_iff.2 ⟨high, low, hhigh, hlow, rfl⟩

/-- Ranges with the same numbers agree where they have the same lower end. The upper one is
    computed from the numbers alone. -/
theorem agree_range_iff {low low' : Comparator} (hs : IsSingle s) (hs' : IsSingle s')
    (hread : Term.read s = sign.term v) (hread' : Term.read s' = sign.term v')
    (hne : v.version.groups ≠ []) (hgroups : v'.version.groups = v.version.groups)
    (hparse : ∃ d, (Expression.parse (String.ofList s)).outcome = .ok d)
    (hlow : (Term.lowerEnd v).outcome = .ok low) (hlow' : (Term.lowerEnd v').outcome = .ok low') :
    Expression.Agree (String.ofList s) (String.ofList s') ↔ low = low' := by
  obtain ⟨d, hd⟩ := hparse
  obtain ⟨high, -, hhigh, -, -⟩ := (Expression.outcome_parse_range hs hread hne).1 hd
  -- The upper bound is made from the numbers alone.
  have h := (Expression.outcome_parse_range hs hread hne).2 ⟨high, low, hhigh, hlow, rfl⟩
  have h' := (Expression.outcome_parse_range hs' hread' (hgroups ▸ hne)).2
    ⟨high, low', hgroups ▸ hhigh, hlow', rfl⟩
  rw [Expression.agree_iff h h']
  constructor
  · intro heq
    exact (List.cons.inj heq).1
  · intro heq
    rw [heq]

end Range

end VersionRange
