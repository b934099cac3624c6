import VersionRange.Proofs.Expression.Agreement
import VersionRange.Proofs.Expression.Meaning
import VersionRange.Proofs.Expression.Undecorated

namespace VersionRange

/-!
# Rendered constraints are read back

The comparators of a constraint in writing, with commas between them, are an expression again.  What
it stands for is the same constraint, except that `<` and `>=` put the ending `-dev` behind a
version without a marker.

* `CanonicalComparator`: a comparator with a canonical text, and `CanonicalComparator.term`, the
  term that it is written as.
* `Comparator.readBack`: what a comparator is read back as.
* `outcome_parse_rendered`: what a list of such comparators is read back as.
* `Constraint.isConjunction`, `parse_rendered`: the main result.
-/

/-! ### Comparators as terms -/

/-- A comparator with a canonical text that names no branch. Nothing in such a text is taken for a
    part of an expression. -/
structure Comparator.IsCanonical (k : Comparator) : Prop where
  canonical : IsCanonicalText k.version
  release : isBranch k.version = false

/-- A comparator with a canonical text that names no branch, together with the proof of it. -/
abbrev CanonicalComparator := { k : Comparator // k.IsCanonical }

/-- What a comparator is read back as: behind `<` and `>=` a version without a marker gets the
    ending `-dev`. -/
def Comparator.readBack (k : Comparator) : Comparator :=
  if k.operator.countsPrereleases && (Marker.search k.version.toList).isAbsent then
    ⟨k.operator, k.version ++ "-dev"⟩
  else k

/-- No character of a canonical text separates terms or has a meaning of its own. -/
theorem IsCanonicalText.isVersionChar {v : String} (h : IsCanonicalText v)
    (hb : isBranch v = false) : ∀ c ∈ v.toList, isVersionChar c = true := by
  intro c hc
  obtain ⟨hsolid, hflag, hreference, hbar⟩ :=
    isInert_iff.1 (isInert_of_isMarkerChar (h.isMarkerChar hb c hc))
  have hcomma : c ≠ ',' := by
    rintro rfl
    exact absurd hsolid (by decide)
  exact isVersionChar_iff.2 ⟨isBlank_of_isSolid hsolid, hcomma, hbar, hflag, hreference⟩

namespace CanonicalComparator

/-- The version of the comparator in an expression. -/
def version (k : CanonicalComparator) : VersionText where
  chars := k.1.version.toList
  ne_nil := by
    obtain ⟨c, r, hhead, -⟩ := k.2.canonical.exists_head k.2.release
    rw [hhead]
    exact List.cons_ne_nil c r
  clean := k.2.canonical.isVersionChar k.2.release
  start := by
    obtain ⟨c, r, hhead, hc⟩ := k.2.canonical.exists_head k.2.release
    intro lead hlead hpart
    -- No digit is among the characters that they begin with.
    have hfirst : ∀ lead ∈ badStarts, Text.isDigit (lead.headD '0') = false ∧ lead ≠ [] := by decide
    obtain ⟨hforeign, hne⟩ := hfirst lead hlead
    obtain ⟨d, t, rfl⟩ := List.exists_cons_of_ne_nil hne
    rw [hhead, List.cons_prefix_cons] at hpart
    rw [List.headD_cons, hpart.1, hc] at hforeign
    cases hforeign
  stop := by
    intro tail htail hpart
    have hlast : ∀ tail ∈ badEnds, Text.isDigit (tail.getLast?.getD '0') = false ∧
        Text.plain (tail.getLast?.getD '0') ∈ ['-', 's', '=', '<', '>'] ∧ tail ≠ [] := by decide
    obtain ⟨hdigit, hletter, hne⟩ := hlast tail htail
    obtain ⟨t, d, rfl⟩ := (List.eq_nil_or_concat' tail).resolve_left hne
    rw [List.getLast?_concat, Option.getD_some] at hdigit hletter
    obtain ⟨u, hu⟩ := hpart
    have hend := k.2.canonical.getLast k.2.release d (by rw [← hu]; simp)
    rcases hend with h | h
    · rw [hdigit] at h
      cases h
    · exact h hletter

/-- The comparator as a term of an expression. -/
def term (k : CanonicalComparator) : CleanTerm :=
  .comparison (some ⟨⟨k.1.operator.symbol.toList, k.1.operator⟩, k.1.operator.sign_mem⟩) 1 k.version

/-- The term of a canonical comparator is written like the comparator. -/
theorem chars_term (k : CanonicalComparator) : k.term.chars = k.1.text.toList := by
  simp [term, CleanTerm.chars, CleanTerm.signChars, version, Comparator.text]

/-- The version behind the operator is compared. It begins with a digit, so it is no part of the
    operator. -/
theorem read_term (k : CanonicalComparator) :
    Term.read k.term.core
      = .comparison ⟨k.1.operator.symbol.toList, k.1.operator⟩ k.1.version.toList := by
  obtain ⟨c, r, hhead, hc⟩ := k.2.canonical.exists_head k.2.release
  -- A release begins with a digit, so the sign is no longer than it is written.
  have hmarks : ∀ m ∈ signMarks, k.1.version.toList.head? ≠ some m := by
    intro m hm hfirst
    obtain ⟨-, hdigit, -⟩ := termMarks_foreign m (mem_termMarks hm)
    rw [hhead] at hfirst
    rw [← Option.some.inj hfirst, hc] at hdigit
    cases hdigit
  have hblank : ∀ d, k.1.version.toList.head? = some d → Text.isBlank d = false := by
    intro d hd
    have hclean := k.version.clean d (List.mem_of_mem_head? hd)
    exact (isVersionChar_iff.1 hclean).1
  have hspace : ∀ d ∈ [' '], Text.isBlank d = true := by decide
  have hread := Term.read_sign_blanks k.1.operator.sign_mem hspace hmarks hblank
  rw [← List.append_assoc] at hread
  exact hread

/-- **One comparator.** In writing it is a term that stands for it. Reading may put `-dev` behind
    the version, where it has no marker. -/
theorem reading_term (k : CanonicalComparator) : k.term.reading = .ok (leaves [k.1.readBack]) := by
  have hflag : '@' ∉ k.term.core := by
    intro hmem
    rcases CleanTerm.mem_chars (CleanTerm.mem_chars_of_mem_core hmem) with h | h
    · exact absurd h (by decide)
    · exact absurd h (by decide)
  obtain ⟨c, hc, htext⟩ := k.2.canonical.normalize_eq k.2.release none
  rw [← String.ofList_toList (s := k.1.version)] at hc
  rw [CleanTerm.reading, Term.constraints_eq k.term.core_ne_nil hflag, k.read_term,
    Term.outcome_meaning_comparison hc, htext, Term.ending_none]
  -- The text of the main line of development has a marker.
  have hmaster : (Marker.search k.1.version.toList).isAbsent = true → k.1.version ≠ master := by
    intro habsent hmaster
    rw [hmaster] at habsent
    exact absurd habsent (by decide)
  rw [Comparator.readBack]
  by_cases hopen : (k.1.operator.countsPrereleases && (Marker.search k.1.version.toList).isAbsent)
      = true
  · obtain ⟨hop, habsent⟩ := Bool.and_eq_true_iff.1 hopen
    rw [if_pos hopen, if_pos ⟨hop, k.2.release, hmaster habsent, habsent⟩]
  · have hclosed : ¬ (k.1.operator.countsPrereleases = true ∧ isBranch k.1.version = false ∧
        k.1.version ≠ master ∧ (Marker.search k.1.version.toList).isAbsent = true) :=
      fun h => hopen (Bool.and_eq_true_iff.2 ⟨h.1, h.2.2.2⟩)
    rw [if_neg hopen, if_neg hclosed, String.append_empty]

end CanonicalComparator

/-! ### Lists of comparators -/

namespace CanonicalComparator

/-- Comparators as an alternative, with a comma between any two and no space around it. -/
def clause (k : CanonicalComparator) (ks : List CanonicalComparator) : Clause where
  first := k.term
  rest := ks.map fun k => (.comma 0 0, k.term)

/-- The clause of some comparators is written with commas between them. -/
theorem text_clause (k : CanonicalComparator) (ks : List CanonicalComparator) :
    (clause k ks).text = ",".intercalate ((k :: ks).map fun k => k.1.text) := by
  have hrest : Clause.restChars (ks.map fun k => (.comma 0 0, k.term))
      = (ks.map fun k => k.1.text.toList).flatMap (',' :: ·) := by
    simp [Clause.restChars, List.flatMap_map, chars_term, Joint.chars]
  rw [← String.toList_inj, String.toList_intercalate, List.map_map, List.map_cons,
    Clause.text, String.toList_ofList, Clause.chars]
  show k.term.chars ++ Clause.restChars (ks.map _) = [','].intercalate _
  rw [intercalate_cons, hrest, chars_term]
  rfl

/-- **Clauses.** The clause is read as all of its comparators, each with the version that reading
    its text gives back. -/
theorem reading_clause (k : CanonicalComparator) (ks : List CanonicalComparator) :
    (clause k ks).reading
      = .ok (Expression.groupOf (leaves ((k :: ks).map fun k => k.1.readBack))) := by
  have hterms : (clause k ks).terms = (k :: ks).map term := by
    simp [clause, Clause.terms]
  have hreadings : (k :: ks).mapM (CleanTerm.reading ∘ term)
      = .ok ((k :: ks).map fun k => leaves [k.1.readBack]) :=
    mapM_eq_ok_map fun k _ => k.reading_term
  -- Each comparator is a term of its own, so flattening puts them side by side.
  have hflatten : ((k :: ks).map fun k => leaves [k.1.readBack]).flatten
      = leaves ((k :: ks).map fun k => k.1.readBack) := by
    rw [← List.flatMap_def, leaves, List.map_map]
    exact List.map_eq_flatMap.symm
  rw [Clause.reading, hterms, List.mapM_map]
  show Except.map _ ((k :: ks).mapM (CleanTerm.reading ∘ term)) = _
  rw [hreadings]
  show Except.ok (Expression.groupOf (List.flatten _)) = _
  rw [hflatten]

end CanonicalComparator

/-- **Several comparators.** In writing, with commas between them, they are an expression that
    stands for them. -/
theorem outcome_parse_rendered {cs : List Comparator} (hne : cs ≠ [])
    (h : ∀ k ∈ cs, k.IsCanonical) :
    ∃ w, (Expression.parse (",".intercalate (cs.map Comparator.text))).outcome
      = .ok ((Expression.groupOf (leaves (cs.map Comparator.readBack))).withWritten w) := by
  obtain ⟨ks, rfl⟩ : ∃ ks : List CanonicalComparator, ks.map Subtype.val = cs :=
    ⟨cs.attachWith _ h, List.attachWith_map_subtype_val _⟩
  obtain _ | ⟨k, ks⟩ := ks
  · exact absurd rfl hne
  · rw [List.map_map, List.map_map]
    have hparse := (CanonicalComparator.clause k ks).outcome_parse
    rw [CanonicalComparator.text_clause, CanonicalComparator.reading_clause] at hparse
    exact ⟨_, hparse⟩

/-! ### Constraints -/

namespace Constraint

/-- Whether a constraint is a single comparator. -/
def isLeaf : Constraint → Bool
  | .leaf _ _ => true
  | _ => false

/-- Whether a constraint is a comparator, or all of some comparators. Such a constraint can be
    written as a single alternative. -/
def isConjunction : Constraint → Bool
  | .leaf _ _ => true
  | .group .all ts _ => ts.all isLeaf
  | _ => false

/-- Terms without members are comparators, as far as they restrict anything. What restricts nothing
    is no leaf. -/
theorem exists_eq_leaves {ts : List Constraint} (h : ∀ t ∈ ts, IsTerm none t)
    (hleaf : ts.all isLeaf = true) : ∃ cs, ts = VersionRange.leaves cs := by
  induction ts with
  | nil => exact ⟨[], rfl⟩
  | cons t ts ih =>
    rw [List.all_cons, Bool.and_eq_true] at hleaf
    rw [List.forall_mem_cons] at h
    obtain ⟨cs, rfl⟩ := ih h.2 hleaf.2
    cases h.1 with
    | leaf c => exact ⟨c :: cs, rfl⟩
    | unrestricted => cases hleaf.1

/-- An expression that is a conjunction is made of comparators that go together. A single
    comparator counts as one. -/
theorem IsExpression.exists_eq_groupOf {c : Constraint} {w : Option String} (h : IsExpression w c)
    (hc : c.isConjunction = true) :
    ∃ cs, cs ≠ [] ∧ c = (Expression.groupOf (VersionRange.leaves cs)).withWritten w := by
  cases h with
  | group => cases hc
  | alternative h =>
    cases h with
    | term h =>
      cases h with
      | leaf k => exact ⟨[k], List.cons_ne_nil k [], rfl⟩
      | unrestricted => cases hc
    | group hlen h =>
      obtain ⟨cs, rfl⟩ := exists_eq_leaves h hc
      -- A group has two members at least.
      obtain _ | ⟨k, _ | ⟨l, cs⟩⟩ := cs
      · cases hlen
      · exact absurd hlen (Nat.not_succ_le_self 1)
      · exact ⟨k :: l :: cs, List.cons_ne_nil k _, rfl⟩

/-- The comparators can be taken from the bare leaves again. -/
theorem leavesEach_leaves (cs : List Comparator) :
    Tree.leavesEach (VersionRange.leaves cs) = cs := by
  rw [Tree.leavesEach_eq_flatMap, VersionRange.leaves, List.flatMap_map]
  exact List.flatMap_singleton' cs

/-- Changing bare leaves is changing their comparators. -/
theorem mapEach_leaves (f : Comparator → Comparator) (cs : List Comparator) :
    Tree.mapEach f (VersionRange.leaves cs) = VersionRange.leaves (cs.map f) := by
  induction cs with
  | nil => rfl
  | cons c cs ih => exact congrArg (Tree.leaf (f c) none :: ·) ih

/-- The leaves of comparators that go together. -/
theorem leaves_groupOf_leaves (cs : List Comparator) :
    (Expression.groupOf (VersionRange.leaves cs)).leaves = cs := by
  obtain _ | ⟨k, _ | ⟨l, cs⟩⟩ := cs
  · rfl
  · rfl
  · exact leavesEach_leaves (k :: l :: cs)

/-- The same holds of a whole alternative, with the text that it remembers. -/
theorem map_groupOf_leaves (f : Comparator → Comparator) (cs : List Comparator)
    (w : Option String) :
    Tree.map f ((Expression.groupOf (VersionRange.leaves cs)).withWritten w)
      = (Expression.groupOf (VersionRange.leaves (cs.map f))).withWritten w := by
  obtain _ | ⟨k, _ | ⟨l, cs⟩⟩ := cs
  · rfl
  · rfl
  · exact congrArg (Tree.group .all · w) (mapEach_leaves f (k :: l :: cs))

end Constraint

/-- **Reading back.** Where the constraint of an undecorated expression is a comparator or all of
    some comparators, with no branch among them, those comparators in writing, with commas between
    them, are an expression for the same constraint: except that behind `<` and `>=` a version
    without a marker, which was marked as `stable`, gets the ending `-dev`. -/
theorem parse_rendered {e : String} {c : Constraint} (he : Undecorated e.toList)
    (hc : (Expression.parse e).outcome = .ok c) (hconjunction : c.isConjunction = true)
    (hrelease : ∀ k ∈ c.leaves, isBranch k.version = false) :
    (∃ d, (Expression.parse (",".intercalate (c.leaves.map Comparator.text))).outcome = .ok d ∧
      d.same (· == ·) (c.map Comparator.readBack) = true) ∧
    ∀ k ∈ c.leaves, k.readBack ≠ k → HasStable e.toList := by
  obtain ⟨hshape, hread⟩ := Expression.gives_parse he c hc
  constructor
  · obtain ⟨cs, hne, rfl⟩ := hshape.exists_eq_groupOf hconjunction
    rw [Tree.leaves_withWritten, Constraint.leaves_groupOf_leaves] at hrelease hread ⊢
    obtain ⟨w, hw⟩ := outcome_parse_rendered hne fun k hk =>
      ⟨(hread k hk).canonical, hrelease k hk⟩
    refine ⟨_, hw, ?_⟩
    rw [Constraint.map_groupOf_leaves, Expression.same_groupOf_leaves]
  · intro k hk hchanged
    -- What is not read back as it is has an operator that counts prereleases, and no marker.
    have hopen : (k.operator.countsPrereleases && (Marker.search k.version.toList).isAbsent)
        = true := by
      by_contra hclosed
      exact hchanged (if_neg hclosed)
    obtain ⟨hop, habsent⟩ := Bool.and_eq_true_iff.1 hopen
    exact (hread k hk).stable hop (hrelease k hk) habsent

/-- What is marked as stable is read back with its prereleases. -/
theorem parse_rendered_stable :
    ∃ c d, (Expression.parse ">=1.0-stable,<2.0").outcome = .ok c ∧
      (Expression.parse ">= 1.0.0.0,< 2.0.0.0-dev").outcome = .ok d ∧
      d.same (· == ·) (c.map Comparator.readBack) = true ∧
      HasStable ">=1.0-stable,<2.0".toList := by
  have hspaceless : ∀ c ∈ ">=1.0-stable,<2.0".toList, Text.plain c ≠ ' ' := by decide
  have he : Undecorated ">=1.0-stable,<2.0".toList := by
    refine ⟨by decide, by decide, by decide, ?_, by decide⟩
    intro word hword hplain
    have hspace : ' ' ∈ word.map Text.plain := by
      rw [hplain]
      decide
    obtain ⟨c, hc, heq⟩ := List.mem_map.1 hspace
    exact hspaceless c (hword.subset hc) heq
  have hc : (Expression.parse ">=1.0-stable,<2.0").outcome
      = .ok (.group .all [.leaf ⟨.ge, "1.0.0.0"⟩ none, .leaf ⟨.lt, "2.0.0.0-dev"⟩ none]
          (some ">=1.0-stable,<2.0")) := by
    rfl
  obtain ⟨⟨d, hd, hsame⟩, hstable⟩ := parse_rendered he hc (by decide) (by decide)
  exact ⟨_, d, hc, hd, hsame, hstable ⟨.ge, "1.0.0.0"⟩ (by decide) (by decide)⟩

end VersionRange
