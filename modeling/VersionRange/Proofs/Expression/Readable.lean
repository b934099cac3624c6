import VersionRange.Proofs.Canonical.Readable
import VersionRange.Proofs.Constraint.Tree
import VersionRange.Proofs.Expression.Bound
import VersionRange.Proofs.Expression.Parse
import VersionRange.Proofs.Expression.Parts

namespace VersionRange

/-!
# Constraints of readable expressions

A readable expression has a constraint or is reported, and all versions in the constraint can be
compared.

* `Term.IsReadable`, `Term.isReadable_read`: the versions and numbers in a term of a readable text.
* `yields_normalized`, `yields_devBound`: the versions in comparators.
* `Term.yields_meaning`, `Term.yields_constraints`: the constraints of one term.
* `Expression.yields_parse`: the constraint of an expression.
-/

/-! ### Terms of readable texts -/

/-- A version read from a readable text; its groups have room for another digit, which a number may
    need that is raised by one. -/
structure Spelled.IsReadable (v : Spelled) : Prop where
  chars : ReadableText v.chars
  room : ∀ g ∈ v.version.groups, g.length < Numeral.limit

namespace Term

/-- The versions in a term are readable, and its numbers have room for another digit. Nothing is
    asked of a term that takes any version. -/
def IsReadable : Term → Prop
  | anything => True
  | tilde v | caret v => v.IsReadable
  | wildcard groups => ∀ g ∈ groups, g.length < Numeral.limit
  | hyphen low high => low.IsReadable ∧ high.IsReadable
  | comparison _ version => ReadableText version

variable {s : List Char}

/-- A term of a readable text is readable. -/
theorem isReadable_read (hs : ReadableText s) : (read s).IsReadable := by
  have hwithin := isWithin_read s
  -- Its numbers and the texts in it are parts of the text, so their digits are within the limit.
  have hroom : ∀ g ∈ (read s).numbers, g.length < Numeral.limit := fun g hg =>
    (hs.part (hwithin.numbers g hg).2).length_lt (hwithin.numbers g hg).1
  have hchars : ∀ u ∈ (read s).texts, ReadableText u := fun u hu => hs.part (hwithin.texts u hu)
  cases hread : read s with
  | anything => trivial
  | tilde v =>
    rw [hread] at hchars hroom
    exact ⟨hchars _ (by simp [texts]), hroom⟩
  | caret v =>
    rw [hread] at hchars hroom
    exact ⟨hchars _ (by simp [texts]), hroom⟩
  | wildcard gs =>
    rw [hread] at hroom
    exact hroom
  | hyphen low high =>
    rw [hread] at hchars hroom
    exact ⟨⟨hchars _ (by simp [texts]), fun g hg => hroom g (List.mem_append_left _ hg)⟩,
      ⟨hchars _ (by simp [texts]), fun g hg => hroom g (List.mem_append_right _ hg)⟩⟩
  | comparison sign version =>
    rw [hread] at hchars
    exact hchars _ (by simp [texts])

end Term

/-! ### Versions in comparators -/

/-- A readable version is normalized to a comparable text, or it is reported. -/
theorem yields_normalize {v : String} (hv : ReadableText v.toList) :
    Yields (fun c => ComparableText c.text) ((normalize v none).mapError Fault.parse).outcome := by
  refine (Yields.mapError (normalize v none)).mono fun c hc => ?_
  exact comparable_of_normalized hv (outcome_normalized_eq_ok_iff.2 ⟨c, hc, rfl⟩)

/-- A readable version has a canonical text that can be compared, or it is reported. -/
theorem yields_normalized {v : String} (hv : ReadableText v.toList) :
    Yields ComparableText (normalized v).outcome := by
  rw [normalized, Traced.outcome_bind]
  exact (yields_normalize hv).bind fun c hc => .value hc

/-- A bound of groups with room for another digit can be written, and compared. Raising a number
    makes it one digit longer at most. -/
theorem yields_devBound {gs : List (List Char)} {amount : Nat} (p : Nat) (hamount : amount ≤ 1)
    (hgs : ∀ g ∈ gs, g.length < Numeral.limit) : Yields ComparableText (devBound gs p amount) := by
  obtain ⟨b, hb, hparse⟩ := exists_devBound p hamount hgs
  rw [hb]
  refine .value (.inr ⟨?_, _, hparse⟩)
  -- The runs of digits in the text are its numbers.
  obtain ⟨ns, -, h⟩ := bind_eq_ok_iff.1 hb
  obtain ⟨ds, hds, h⟩ := bind_eq_ok_iff.1 h
  cases h
  rw [String.toList_ofList]
  have hdev : RunsWithin Numeral.limit "-dev".toList := .of_length_le (by decide)
  refine RunsWithin.append (.dotted fun g hg => .of_length_le ?_) hdev (by rintro c ⟨⟩; decide)
  obtain ⟨n, -, hn⟩ := exists_of_mem_forall₂ (mapM_eq_ok_iff.1 hds) hg
  exact (Numeral.write_eq_ok_iff.1 hn).2

/-- The version of a comparator can be compared: it is a branch, or it is read as a version. -/
abbrev Comparator.IsComparable (c : Comparator) : Prop := ComparableText c.version

namespace Term

/-- The `-dev` that is put behind a version leaves it readable, so its lower end is comparable. -/
theorem yields_lowerEnd {v : Spelled} (hv : v.IsReadable) :
    Yields Comparator.IsComparable (lowerEnd v).outcome := by
  have hdev : ReadableText (v.chars ++ "-dev".toList) :=
    hv.chars.append (.of_length_le (by decide) (by decide)) (by rintro c ⟨⟩; decide)
  rw [lowerEnd, Traced.outcome_bind]
  refine (yields_normalize (ReadableText.ofList ?_)).bind fun c hc => .value hc
  split
  case isTrue => exact hdev
  case isFalse => exact hv.chars

/-- An upper end is a comparable text, whether it is read or made from numbers. In the first case
    the version may also be reported. -/
theorem yields_upperEnd {v : Spelled} (hv : v.IsReadable) :
    Yields Comparator.IsComparable (upperEnd v).outcome := by
  unfold upperEnd
  dsimp only
  split
  case isTrue =>
    rw [Traced.outcome_bind]
    exact (yields_normalize hv.chars.ofList).bind fun c hc => .value hc
  case isFalse =>
    rw [Traced.outcome_bind, Traced.outcome_lift]
    exact (yields_devBound _ (le_refl 1) hv.room).bind fun high hhigh => .value hhigh

/-- A range up to a bound consists of comparable comparators. -/
theorem yields_rangeTo {v : Spelled} (hv : v.IsReadable) (position : Nat) :
    Yields (fun cs => ∀ c ∈ cs, c.IsComparable) (rangeTo v position).outcome := by
  rw [rangeTo, Traced.outcome_bind, Traced.outcome_lift]
  refine (yields_devBound position (le_refl 1) hv.room).bind fun high hhigh => ?_
  rw [Traced.outcome_bind]
  refine (yields_lowerEnd hv).bind fun low hlow => .value ?_
  simpa using ⟨hlow, hhigh⟩

/-- So does a range with wildcards, whose bounds are both made from numbers. -/
theorem yields_wildcardRange {gs : List (List Char)} (hgs : ∀ g ∈ gs, g.length < Numeral.limit) :
    Yields (fun cs => ∀ c ∈ cs, c.IsComparable) (wildcardRange gs) := by
  refine (yields_devBound _ (Nat.zero_le 1) hgs).bind fun low hlow => ?_
  refine (yields_devBound _ (le_refl 1) hgs).bind fun high hhigh => .value ?_
  split
  case isTrue => simpa using hhigh
  case isFalse => simpa using ⟨hlow, hhigh⟩

/-- An ending is empty or a tag of letters. So it adds no digit to the version in front of it. -/
theorem ending_cases (sign : Sign) (version : List Char) (flag : Option (List Char))
    (text : String) :
    ending sign version flag text = "" ∨
      ∃ tag, ending sign version flag text = String.ofList ('-' :: tag) ∧
        Version.isTag tag = true ∧ ∀ c ∈ tag, Text.isAsciiDigit c = false := by
  have hlabel : ∀ l : Stability, "-" ++ l.label = String.ofList ('-' :: l.label.toList) ∧
      Version.isTag l.label.toList = true ∧
      ∀ c ∈ l.label.toList, Text.isAsciiDigit c = false := by
    intro l
    cases l <;> decide
  unfold ending
  split
  case h_1 flag _ => exact .inr ⟨_, hlabel (Stability.ofText flag)⟩
  case h_2 =>
    split
    case isTrue => exact .inr ⟨_, hlabel .dev⟩
    case isFalse => exact .inl rfl

/-- A comparison is comparable with and without the ending that is put behind its version. If the
    version cannot be read the comparison is reported. -/
theorem yields_comparator {term version : List Char} (sign : Sign) (flag : Option (List Char))
    (hv : ReadableText version) :
    Yields Comparator.IsComparable (comparator term sign version flag).outcome := by
  rw [comparator, Traced.outcome_bind, Traced.outcome_attempt]
  cases h : (normalize (String.ofList version) none).outcome with
  | error e => exact .report _
  | ok c =>
    have hc := outcome_normalized_eq_ok_iff.2 ⟨c, h, rfl⟩
    refine .value ?_
    show ComparableText (c.text ++ ending sign version flag c.text)
    rcases ending_cases sign version flag c.text with hnone | ⟨tag, htag, hform, hletters⟩
    · rw [hnone, String.append_empty]
      exact comparable_of_normalized hv.ofList hc
    · rw [htag]
      exact comparable_append_tag hv.ofList hc hform hletters

end Term

/-! ### Constraints -/

/-- All versions in a constraint can be compared. -/
def Constraint.IsComparable (t : Constraint) : Prop := ∀ c ∈ t.leaves, c.IsComparable

namespace Term

variable {s : List Char}

/-- Bare leaves of comparable comparators are comparable constraints. -/
theorem isComparable_leaves {cs : List Comparator} (h : ∀ c ∈ cs, c.IsComparable) :
    ∀ t ∈ cs.map (Tree.leaf · none), Constraint.IsComparable t := by
  intro t ht c hc
  obtain ⟨d, hd, rfl⟩ := List.mem_map.1 ht
  obtain rfl : c = d := by simpa [Tree.leaves] using hc
  exact h c hd

/-- Each form of a readable term gives comparable constraints, or it is reported. -/
theorem yields_meaning (s : List Char) (flag : Option (List Char)) {t : Term}
    (ht : t.IsReadable) :
    Yields (fun ts => ∀ t ∈ ts, Constraint.IsComparable t) (meaning s flag t).outcome := by
  cases t with
  | anything =>
    refine .value fun t ht c hc => ?_
    rw [List.mem_singleton.1 ht] at hc
    cases hc
  | tilde v =>
    rw [meaning, Traced.outcome_map]
    exact (yields_rangeTo ht _).map fun cs => isComparable_leaves
  | caret v =>
    rw [meaning, Traced.outcome_map]
    exact (yields_rangeTo ht _).map fun cs => isComparable_leaves
  | wildcard gs =>
    rw [meaning, Traced.outcome_map]
    exact (yields_wildcardRange ht).map fun cs => isComparable_leaves
  -- The ends of a hyphen range are read one after the other, and either may be reported.
  | hyphen low high =>
    rw [meaning, Traced.outcome_bind]
    refine (yields_lowerEnd ht.1).bind fun c hc => ?_
    rw [Traced.outcome_bind]
    refine (yields_upperEnd ht.2).bind fun d hd => .value (isComparable_leaves ?_)
    simpa using ⟨hc, hd⟩
  | comparison sign version =>
    rw [meaning, Traced.outcome_bind]
    refine (yields_comparator sign flag ht).bind fun c hc => .value (isComparable_leaves ?_)
    simpa using hc

/-- A readable term stands for constraints that can be compared, or it is reported. -/
theorem yields_constraints (hs : ReadableText s) :
    Yields (fun ts => ∀ t ∈ ts, Constraint.IsComparable t) (constraints s).outcome := by
  unfold constraints
  split
  case isTrue => exact .report _
  case isFalse =>
    split
    case h_1 c front flag hflag =>
      exact yields_meaning _ _ (isReadable_read (hs.part (isPrefix_of_splitFlag? hflag).isInfix))
    case h_2 => exact yields_meaning _ _ (isReadable_read hs)

end Term

namespace Expression

variable {s : List Char}

/-- Constraints that go together are comparable together. -/
theorem isComparable_groupOf {cs : List Constraint} (h : ∀ c ∈ cs, Constraint.IsComparable c) :
    Constraint.IsComparable (groupOf cs) := by
  intro k hk
  obtain ⟨c, hc, hk⟩ := mem_leaves_groupOf hk
  exact h c hc k hk

/-- So are alternatives, and a range that two of them are merged into. -/
theorem isComparable_joined {gs : List Constraint} (h : ∀ g ∈ gs, Constraint.IsComparable g) :
    Constraint.IsComparable (joined gs) := by
  intro k hk
  obtain ⟨g, hg, hk⟩ := mem_leaves_joined hk
  exact h g hg k hk

/-- A readable alternative gives a comparable constraint, or it is reported. -/
theorem yields_parseAlternative (hs : ReadableText s) :
    Yields Constraint.IsComparable (parseAlternative s).outcome := by
  rw [outcome_parseAlternative]
  have hterms : ∀ t ∈ splitTerms s,
      Yields (fun ts => ∀ t ∈ ts, Constraint.IsComparable t) (Term.constraints t).outcome :=
    fun t ht => Term.yields_constraints (hs.part (infix_of_mem_splitTerms ht))
  refine (Yields.mapM hterms).map fun css hcss => isComparable_groupOf fun c hc => ?_
  obtain ⟨cs, hcs, hc⟩ := List.mem_flatten.1 hc
  exact hcss cs hcs c hc

/-- An expression without its flag and its reference is a part of it, so it stays readable. -/
theorem readable_body {e : String} (he : ReadableText e.toList) : ReadableText (body e) := by
  rcases isPrefix_body e with hany | hfront
  · have hwildcard : ReadableText ['*'] := .of_length_le (by decide) (by decide)
    exact hwildcard.part hany.isInfix
  · exact he.part hfront.isInfix

/-- **Parsing.** A readable expression has a constraint in which all versions can be compared, or it
    is reported. -/
theorem yields_parse {e : String} (he : ReadableText e.toList) :
    Yields Constraint.IsComparable (parse e).outcome := by
  rw [outcome_parse_eq]
  have hbody := readable_body he
  have halternatives : ∀ a ∈ splitAlternatives (body e),
      Yields Constraint.IsComparable (parseAlternative a).outcome :=
    fun a ha => yields_parseAlternative (hbody.part (infix_of_mem_splitAlternatives ha))
  refine (Yields.mapM halternatives).map fun gs hgs => ?_
  rw [Constraint.IsComparable, Tree.leaves_withWritten]
  exact isComparable_joined hgs

end Expression

end VersionRange
