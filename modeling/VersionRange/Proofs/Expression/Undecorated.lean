import VersionRange.Proofs.Canonical.Report
import VersionRange.Proofs.Canonical.Row
import VersionRange.Proofs.Expression.Comparison
import VersionRange.Proofs.Expression.Shape

namespace VersionRange

/-!
# The versions of undecorated expressions

Without flags, references, build metadata and aliases every version in the constraint of an
expression is a canonical text, whichever notation it comes from.

* `Undecorated s`: nothing of the kind stands in the text `s`, and no white space but spaces.
* `settled_of_mem_splitTerms`: no term of such a text ends with a space.
* `Comparator.ReadFrom s k`: the comparator `k` is as one that is read from the text `s`.
* `Term.gives_meaning`, `Expression.gives_parse`: what terms and expressions stand for.
-/

/-! ### Undecorated texts -/

/-- The text holds no mark of a flag, a reference or build metadata, no alias, and no white space
    but spaces. -/
structure Undecorated (s : List Char) : Prop where
  flag : '@' ∉ s
  reference : '#' ∉ s
  build : '+' ∉ s
  source : ∀ word, word <:+: s → word.map Text.plain ≠ " as ".toList
  space : ∀ c ∈ s, Text.isBlank c = true → c = ' '

namespace Undecorated

variable {s t : List Char}

/-- A part of an undecorated text is undecorated. -/
theorem part (h : Undecorated s) (ht : t <:+: s) : Undecorated t where
  flag hmem := h.flag (ht.subset hmem)
  reference hmem := h.reference (ht.subset hmem)
  build hmem := h.build (ht.subset hmem)
  source word hword := h.source word (hword.trans ht)
  space c hc := h.space c (ht.subset hc)

/-- An undecorated text stands on one line. -/
theorem line (h : Undecorated s) : '\n' ∉ s := by
  intro hmem
  exact absurd (h.space '\n' hmem (by decide)) (by decide)

/-- It is no alias, as those hold the word `as` between spaces. -/
theorem aliasSource?_eq_none (h : Undecorated s) : aliasSource? s = none := by
  rw [Option.eq_none_iff_forall_ne_some]
  intro source hsource
  obtain ⟨word, target, hs, hword, -⟩ := aliasSource?_eq_some_iff.1 hsource
  exact h.source word ⟨source, target, hs.symm⟩ hword

end Undecorated

/-! ### Terms without spaces at their ends -/

/-- A term ends in front of a separator, where no space stands, or at the end of the text. The
    induction is on the text, with the part of the term that was read before. -/
theorem settled_of_mem_splitTermsFrom {skip : Nat} {before s t : List Char}
    (hskip : skip = 0 ∨ before = [])
    (hspace : ∀ c ∈ before.reverse ++ s, Text.isBlank c = true → c = ' ')
    (hs : Settled (before.reverse ++ s)) (h : t ∈ splitTermsFrom skip before s) : Settled t := by
  induction s generalizing skip before with
  | nil =>
    obtain rfl : t = before.reverse := by
      cases skip <;> simpa [splitTermsFrom] using h
    simpa using hs
  | cons c r ih =>
    have hbehind : ∀ d ∈ r, Text.isBlank d = true → d = ' ' := fun d hd =>
      hspace d (List.mem_append_right _ (List.mem_cons_of_mem c hd))
    have hsettled : Settled r := hs.of_suffix ⟨before.reverse ++ [c], by simp⟩
    cases skip with
    | succ n =>
      obtain rfl := hskip.resolve_left (by simp)
      exact ih (.inr rfl) hbehind hsettled h
    | zero =>
      simp only [splitTermsFrom] at h
      split at h
      case h_1 n hgap =>
        rcases List.mem_cons.1 h with rfl | h
        · -- The separator was looked for because a term can end here.
          intro d hd
          rw [List.getLast?_reverse] at hd
          have hstop : canEnd before = true := by
            rw [← Bool.not_eq_false]
            intro hfalse
            simp [gap?, hfalse] at hgap
          cases before with
          | nil => cases hd
          | cons e before =>
            obtain rfl : e = d := Option.some.inj hd
            rw [← Bool.not_eq_true]
            intro hblank
            obtain rfl := hspace e (by simp) hblank
            simp [canEnd] at hstop
        · exact ih (.inr rfl) hbehind hsettled h
      case h_2 =>
        refine ih (.inl rfl) ?_ ?_ h
        · simpa using hspace
        · simpa using hs

/-- Only the last term reaches the end of the text, so no term ends with white space. -/
theorem settled_of_mem_splitTerms {s t : List Char} (hs : Undecorated s) (hsettled : Settled s)
    (h : t ∈ splitTerms s) : Settled t := by
  rw [splitTerms] at h
  refine settled_of_mem_splitTermsFrom (.inl rfl) ?_ ?_ h
  · exact hs.space
  · exact hsettled

/-! ### Comparators -/

/-- The comparator is as one that is read from the text `s`: its version is a canonical text, and if
    no marker is left of a lower bound, the word `stable` was written. -/
structure Comparator.ReadFrom (s : List Char) (k : Comparator) : Prop where
  canonical : IsCanonicalText k.version
  stable : k.operator.countsPrereleases = true → isBranch k.version = false →
    (Marker.search k.version.toList).isAbsent = true → HasStable s

namespace Comparator.ReadFrom

variable {s t : List Char} {k : Comparator}

/-- What is read from a part of a text is read from the text. -/
theorem part (h : k.ReadFrom t) (ht : t <:+: s) : k.ReadFrom s where
  canonical := h.canonical
  stable hop hb habsent := by
    obtain ⟨word, hword, hplain⟩ := h.stable hop hb habsent
    exact ⟨word, hword.trans ht, hplain⟩

/-- Where a comparison does not count prereleases, any canonical text will do. -/
theorem of_canonical (h : IsCanonicalText k.version) (hop : k.operator.countsPrereleases = false) :
    k.ReadFrom s where
  canonical := h
  stable := by
    rw [hop]
    exact nofun

end Comparator.ReadFrom

/-- A bound is written as a canonical text, and it is marked as `dev`. So it is read back as it is,
    whatever text it comes from. -/
theorem readFrom_of_devBound {gs : List (List Char)} {position amount : Nat} {b : String}
    (hlen : gs.length ≤ 4) (h : devBound gs position amount = .ok b) (op : Operator)
    (s : List Char) : Comparator.ReadFrom s ⟨op, b⟩ := by
  obtain ⟨ns, hns, h⟩ := bind_eq_ok_iff.1 h
  obtain ⟨ds, hds, h⟩ := bind_eq_ok_iff.1 h
  cases h
  -- The numbers are written anew, without leading zeros, and there are four of them.
  have hgroups : ∀ d ∈ ds, IsGroup d := by
    intro d hd
    obtain ⟨n, -, hn⟩ := exists_of_mem_forall₂ (mapM_eq_ok_iff.1 hds) hd
    obtain ⟨rfl, -⟩ := Numeral.write_eq_ok_iff.1 hn
    exact isGroup_of_isNumeral (Numeral.isNumeral_toDigits n)
  have hfour : ds.length = 4 := by
    rw [← (mapM_eq_ok_iff.1 hds).length_eq, length_raiseAt, ← (mapM_eq_ok_iff.1 hns).length_eq,
      length_padGroups]
    omega
  refine ⟨⟨.release (numericBranch ds), .numeric hgroups hfour, rfl⟩, fun _ _ habsent => ?_⟩
  have hsearch : Marker.search (dotted ds ++ "-dev".toList) = { dev := true } :=
    Marker.search_row (m := { dev := true }) hgroups (Marker.isCanonical_dev true)
  rw [String.toList_ofList, ← dotted, hsearch] at habsent
  cases habsent

namespace Term

variable {s : List Char}

/-- Behind numbers the marker that is read is the one that a search finds. -/
theorem search_of_read? {w : Written} (h : Written.read? s = some w) :
    Marker.search s = w.marker := by
  obtain ⟨t, hsplit, hmarker, hbuild, hgs, -⟩ := Written.exists_of_read? h
  rw [Marker.search_of_skipV hsplit (numbered_dotted hgs) (by rw [hbuild]), hmarker]

/-- With `-dev` behind it, what had no marker has one: its letters are found, and no letter of the
    word `stable` stands in the text. -/
theorem isAbsent_append_dev {c : Canonical} (hs : Undecorated s) (hunmarked : isUnmarked s = true)
    (hmarked : c.Marked (s ++ "-dev".toList)) (hnormal : c.IsNormal)
    (hb : isBranch c.text = false) : (Marker.search c.chars).isAbsent = false := by
  have hsplit : s ++ "-dev".toList = (s ++ ['-']) ++ ['d', 'e', 'v'] := by simp
  have hplus : '+' ∉ (s ++ ['-']) ++ ['d', 'e', 'v'] := by simp [hs.build]
  have hline : '\n' ∉ (s ++ ['-']) ++ ['d', 'e', 'v'] := by simp [hs.line]
  rw [← Bool.not_eq_true]
  intro habsent
  -- If there were no marker, either `dev` would not be found or the text would have the word
  -- `stable`.
  rcases hmarked.hasStable hnormal hb habsent with hnone | ⟨word, hword, hplain⟩
  · have hdev := Marker.search_append_dev hplus hline (by decide) (by decide) (by decide)
    rw [hsplit, Marker.isAbsent_iff, hdev] at hnone
    cases hnone.2
  · have hletter : 's' ∈ word.map Text.plain := by
      rw [hplain]
      decide
    obtain ⟨d, hd, hplain⟩ := List.mem_map.1 hletter
    rcases List.mem_append.1 (hword.subset hd) with hd | hd
    · refine letterless_of_isUnmarked hunmarked hs.build hd ?_
      rw [hplain]
      decide
    · have hforeign : ∀ d ∈ "-dev".toList, Text.plain d ≠ 's' := by decide
      exact hforeign d hd hplain

/-- A lower end is a comparator that is read from its version. If nothing marks it, the version was
    marked as stable. -/
theorem gives_lowerEnd {v : Spelled} (hv : Written.read? v.chars = some v.version)
    (hs : Undecorated v.chars) : Gives (·.ReadFrom v.chars) (lowerEnd v).outcome := by
  have hsolid := Written.isSolid_of_read? hv
  intro k hk
  rw [lowerEnd, Traced.outcome_bind] at hk
  obtain ⟨c, hc, hk⟩ := bind_eq_ok_iff.1 hk
  cases hk
  rw [Traced.outcome_mapError, mapError_eq_ok_iff] at hc
  refine ⟨.of_normalize hc, fun _ hb habsent => ?_⟩
  have hnormal := isNormal_of_normalize hc
  rw [Canonical.toList_text] at habsent
  -- A version without a marker is normalized with `-dev` behind it, another one as it is.
  split at hc
  case isTrue hunmarked =>
    rw [outcome_normalize_of_isSolid (isSolid_append_dev hsolid)] at hc
    have hmarked : c.Marked (v.chars ++ "-dev".toList) :=
      (ofPlain_of_normalizePlain hc).marked (by simp [hs.build]) (by simp [hs.line])
    rw [isAbsent_append_dev hs (isUnmarked_iff.2 ⟨_, hv, hunmarked⟩) hmarked hnormal hb] at habsent
    cases habsent
  case isFalse hmarker =>
    rw [outcome_normalize_of_isSolid hsolid] at hc
    have hmarked := (ofPlain_of_normalizePlain hc).marked hs.build hs.line
    refine (hmarked.hasStable hnormal hb habsent).resolve_left fun hnone => ?_
    rw [search_of_read? hv] at hnone
    exact hmarker hnone

/-- An upper end is read from its version, or is a bound that is written anew. Behind its operators
    nothing is added to it. -/
theorem gives_upperEnd {v : Spelled} (hv : Written.read? v.chars = some v.version)
    (s : List Char) : Gives (·.ReadFrom s) (upperEnd v).outcome := by
  unfold upperEnd
  dsimp only
  split
  case isTrue =>
    intro k hk
    rw [Traced.outcome_bind] at hk
    obtain ⟨c, hc, hk⟩ := bind_eq_ok_iff.1 hk
    cases hk
    rw [Traced.outcome_mapError, mapError_eq_ok_iff] at hc
    exact .of_canonical (.of_normalize hc) rfl
  case isFalse =>
    obtain ⟨-, -, -, -, -, -, hlen⟩ := Written.exists_of_read? hv
    rw [Traced.outcome_bind, Traced.outcome_lift]
    have hbound : Gives (fun b => Comparator.ReadFrom s ⟨.lt, b⟩)
        (devBound v.version.groups (v.version.groups.length - 1) 1) :=
      fun b hb => readFrom_of_devBound hlen hb .lt s
    exact hbound.bind fun b hb => .value hb

/-- One comparator or more, each as one that is read from the text `s`. This is what the bounds of
    a range are. -/
def AreBoundsOf (s : List Char) (cs : List Comparator) : Prop :=
  cs ≠ [] ∧ ∀ k ∈ cs, k.ReadFrom s

/-- A range consists of the two bounds of its version. The lower one comes first. -/
theorem gives_rangeTo {v : Spelled} (hv : Written.read? v.chars = some v.version)
    (hs : Undecorated v.chars) (position : Nat) :
    Gives (AreBoundsOf v.chars) (rangeTo v position).outcome := by
  obtain ⟨-, -, -, -, -, -, hlen⟩ := Written.exists_of_read? hv
  rw [rangeTo, Traced.outcome_bind, Traced.outcome_lift]
  have hbound : Gives (fun b => Comparator.ReadFrom v.chars ⟨.lt, b⟩)
      (devBound v.version.groups position 1) := fun b hb => readFrom_of_devBound hlen hb .lt _
  refine hbound.bind fun high hhigh => ?_
  rw [Traced.outcome_bind]
  refine (gives_lowerEnd hv hs).bind fun low hlow => .value ⟨List.cons_ne_nil _ _, ?_⟩
  simpa using ⟨hlow, hhigh⟩

/-- So does a range with wildcards; at zero the lower one is missing. -/
theorem gives_wildcardRange {gs : List (List Char)} (hlen : gs.length ≤ 4) (s : List Char) :
    Gives (AreBoundsOf s) (wildcardRange gs) := by
  have hbound (op : Operator) (amount : Nat) : Gives (fun b => Comparator.ReadFrom s ⟨op, b⟩)
      (devBound gs (wildcardPosition gs) amount) := fun b hb => readFrom_of_devBound hlen hb op s
  refine (hbound .ge 0).bind fun low hlow => ?_
  refine (hbound .lt 1).bind fun high hhigh => .value ?_
  split
  case isTrue => exact ⟨List.cons_ne_nil _ _, by simpa using hhigh⟩
  case isFalse => exact ⟨List.cons_ne_nil _ _, by simpa using ⟨hlow, hhigh⟩⟩

/-- An undecorated version is read whole. -/
theorem ofPlain_of_undecorated {c : Canonical} (hs : Undecorated s) (hsettled : Settled s)
    (hhead : ∀ d, s.head? = some d → Text.isBlank d = false)
    (h : (normalize (String.ofList s) none).outcome = .ok c) : c.OfPlain s := by
  have htrim : Text.trim s = s := by
    cases s with
    | nil => rfl
    | cons d r => exact trim_of_settled (hhead d rfl) hsettled
  rw [outcome_normalize, String.toList_ofList] at h
  simp only [htrim, hs.aliasSource?_eq_none, Option.getD_none] at h
  exact ofPlain_of_normalizePlain h

/-- A comparison is read from its version, with the ending that its operator asks for. With the
    ending the text is canonical, too. -/
theorem gives_comparator (hs : Undecorated s) (hsettled : Settled s) :
    Gives (·.ReadFrom s)
      (comparator s (readSign s).1 ((readSign s).2.dropWhile Text.isBlank) none).outcome := by
  intro k hk
  have hsuffix := (List.dropWhile_suffix Text.isBlank).trans (readSign_suffix s)
  have hhead : ∀ d, ((readSign s).2.dropWhile Text.isBlank).head? = some d →
      Text.isBlank d = false := by
    intro d hd
    have hfirst := List.head?_dropWhile_not Text.isBlank (readSign s).2
    rw [hd] at hfirst
    exact hfirst
  generalize (readSign s).2.dropWhile Text.isBlank = version at hk hsuffix hhead
  rw [comparator, Traced.outcome_bind, Traced.outcome_attempt] at hk
  cases hc : (normalize (String.ofList version) none).outcome with
  | error e =>
    rw [hc] at hk
    cases hk
  | ok c =>
    rw [hc] at hk
    cases hk
    have hpart := hs.part hsuffix.isInfix
    have hmarked := (ofPlain_of_undecorated hpart (hsettled.of_suffix hsuffix) hhead hc).marked
      hpart.build hpart.line
    have hnormal := isNormal_of_normalize hc
    rw [ending_none]
    -- The ending is put behind a version without a marker; elsewhere a marker is there, unless
    -- the version was marked as stable.
    split
    case isTrue hcounts =>
      obtain ⟨-, hb, hmaster, habsent⟩ := hcounts
      have hcanonical := hmarked.append_dev hnormal habsent hb hmaster
      refine ⟨hcanonical, fun _ hb habsent => ?_⟩
      rw [hcanonical.search_append_dev hb] at habsent
      cases habsent
    case isFalse hcounts =>
      rw [String.append_empty]
      refine ⟨.of_normalize hc, fun hop hb habsent => ?_⟩
      have hmaster : c.text ≠ master := by
        intro hmaster
        have hmarked : (Marker.search master.toList).isAbsent = false := by decide
        rw [hmaster, hmarked] at habsent
        cases habsent
      rw [Canonical.toList_text] at habsent
      rcases hmarked.hasStable hnormal hb habsent with hnone | ⟨word, hword, hplain⟩
      · exact absurd ⟨hop, hb, hmaster, hnone⟩ hcounts
      · exact ⟨word, hword.trans hsuffix.isInfix, hplain⟩

end Term

/-! ### Constraints -/

namespace Constraint

/-- One term or more, with comparators as those that are read from the text `s`. -/
structure AreReadFrom (s : List Char) (ts : List Constraint) : Prop extends AreTerms ts where
  leaves : ∀ t ∈ ts, ∀ k ∈ t.leaves, k.ReadFrom s

/-- Bare leaves of bounds are constraints that are read from the text. -/
theorem areReadFrom_leaves {s t : List Char} {cs : List Comparator} (h : Term.AreBoundsOf t cs)
    (ht : t <:+: s) : AreReadFrom s (cs.map (Tree.leaf · none)) where
  toAreTerms := areTerms_leaves h.1
  leaves := by
    intro t ht k hk
    obtain ⟨d, hd, rfl⟩ := List.mem_map.1 ht
    obtain rfl : k = d := by simpa [Tree.leaves] using hk
    exact (h.2 k hd).part ‹_›

end Constraint

namespace Term

variable {s : List Char}

/-- Whatever form it has, a term stands for comparators with canonical texts, or for any version. -/
theorem gives_meaning (hs : Undecorated s) (hsettled : Settled s) :
    Gives (Constraint.AreReadFrom s) (meaning s none (read s)).outcome := by
  have hwithin := isWithin_read s
  have hform := ofText_read s
  -- By the form of the term; what it is read from is a part of the text.
  generalize read s = t at hwithin hform ⊢
  cases hform with
  | anything =>
    refine .value ⟨⟨List.cons_ne_nil _ _, ?_⟩, ?_⟩
    · intro t ht
      rw [List.mem_singleton.1 ht]
      exact .unrestricted
    · intro t ht k hk
      rw [List.mem_singleton.1 ht] at hk
      cases hk
  | @tilde v h =>
    obtain ⟨r, -, hr⟩ := exists_of_behind? h
    have hpart := hwithin.texts v.chars (by simp [texts])
    rw [meaning, Traced.outcome_map]
    exact (gives_rangeTo (read?_of_spelled? hr) (hs.part hpart) _).map fun cs hcs =>
      Constraint.areReadFrom_leaves hcs hpart
  | @caret v h =>
    obtain ⟨r, -, hr⟩ := exists_of_behind? h
    have hpart := hwithin.texts v.chars (by simp [texts])
    rw [meaning, Traced.outcome_map]
    exact (gives_rangeTo (read?_of_spelled? hr) (hs.part hpart) _).map fun cs hcs =>
      Constraint.areReadFrom_leaves hcs hpart
  | @wildcard gs h =>
    obtain ⟨-, -, -, -, hlen, -⟩ := eq_dotted_of_wildcardGroups? h
    rw [meaning, Traced.outcome_map]
    exact (gives_wildcardRange (Nat.le_succ_of_le hlen) s).map fun cs hcs =>
      Constraint.areReadFrom_leaves hcs (List.infix_refl s)
  | @hyphen low high h =>
    obtain ⟨u, w, hlow, hhigh, -⟩ := exists_of_hyphen? h
    have hpart := hwithin.texts low.chars (by simp [texts])
    rw [meaning, Traced.outcome_bind]
    refine (gives_lowerEnd (read?_of_spelled? hlow) (hs.part hpart)).bind fun c hc => ?_
    rw [Traced.outcome_bind]
    refine (gives_upperEnd (read?_of_spelled? hhigh) s).bind fun d hd => .value ?_
    refine Constraint.areReadFrom_leaves (t := s) ⟨List.cons_ne_nil _ _, ?_⟩ (List.infix_refl s)
    simpa using ⟨hc.part hpart, hd⟩
  | comparison =>
    rw [meaning, Traced.outcome_bind]
    refine (gives_comparator hs hsettled).bind fun c hc => .value ?_
    refine Constraint.areReadFrom_leaves (t := s) ⟨List.cons_ne_nil _ _, ?_⟩ (List.infix_refl s)
    simpa using hc

/-- A term gives constraints that are read from it. -/
theorem gives_constraints (hs : Undecorated s) (hsettled : Settled s) :
    Gives (Constraint.AreReadFrom s) (constraints s).outcome := by
  rw [constraints, splitFlag?_eq_none hs.flag]
  split
  case isTrue => exact .error _
  case isFalse => exact gives_meaning hs hsettled

end Term

namespace Expression

open Constraint

variable {s : List Char}

/-- An alternative gives a constraint of the shape of one, with leaves that are read from it. Each
    leaf comes from one of its terms. -/
theorem gives_parseAlternative (hs : Undecorated s) (hsettled : Settled s) :
    Gives (fun g => IsAlternative none g ∧ ∀ k ∈ g.leaves, k.ReadFrom s)
      (parseAlternative s).outcome := by
  rw [outcome_parseAlternative]
  -- A term is a part of an undecorated text, so it is undecorated as well.
  have hterms : ∀ t ∈ splitTerms s, Gives (AreReadFrom s) (Term.constraints t).outcome := by
    intro t ht
    have hpart := infix_of_mem_splitTerms ht
    have hsettled' := settled_of_mem_splitTerms hs hsettled ht
    exact (Term.gives_constraints (hs.part hpart) hsettled').mono fun ts hts =>
      ⟨hts.toAreTerms, fun t ht k hk => (hts.leaves t ht k hk).part hpart⟩
  refine (Gives.mapM hterms).map fun css hcss => ?_
  obtain ⟨hcss, hlen⟩ := hcss
  constructor
  · refine isAlternative_groupOf (.flatten ?_ fun cs hcs => (hcss cs hcs).toAreTerms)
    rintro rfl
    exact splitTermsFrom_ne_nil 0 [] s (List.length_eq_zero_iff.1 hlen.symm)
  · intro k hk
    obtain ⟨t, ht, hk⟩ := mem_leaves_groupOf hk
    obtain ⟨cs, hcs, ht⟩ := List.mem_flatten.1 ht
    exact (hcss cs hcs).leaves t ht k hk

/-- **Undecorated expressions.** What such an expression is parsed to has the shape of a constraint,
    and its versions are canonical texts. -/
theorem gives_parse {e : String} (he : Undecorated e.toList) :
    Gives (fun c => IsExpression (some e) c ∧ ∀ k ∈ c.leaves, k.ReadFrom e.toList)
      (parse e).outcome := by
  have hbody : body e = e.toList := by
    conv_lhs => rw [← String.ofList_toList (s := e)]
    exact body_eq he.flag he.reference
  rw [outcome_parse_eq, hbody]
  have halternatives : ∀ a ∈ splitAlternatives e.toList,
      Gives (fun g => IsAlternative none g ∧ ∀ k ∈ g.leaves, k.ReadFrom e.toList)
        (parseAlternative a).outcome := by
    intro a ha
    have hpart := infix_of_mem_splitAlternatives ha
    obtain ⟨p, -, htrim⟩ := List.mem_map.1 ha
    have hsettled : Settled a := htrim ▸ settled_trim p
    exact (gives_parseAlternative (he.part hpart) hsettled).mono fun g hg =>
      ⟨hg.1, fun k hk => (hg.2 k hk).part hpart⟩
  refine (Gives.mapM halternatives).map fun gs hgs => ?_
  obtain ⟨hgs, hlen⟩ := hgs
  constructor
  · refine (isExpression_joined ?_ fun g hg => (hgs g hg).1).withWritten (some e)
    rintro rfl
    exact splitBars_ne_nil _ (List.map_eq_nil_iff.1 (List.length_eq_zero_iff.1 hlen.symm))
  · intro k hk
    rw [Tree.leaves_withWritten] at hk
    obtain ⟨g, hg, hk⟩ := mem_leaves_joined hk
    exact (hgs g hg).2 k hk

end Expression

end VersionRange
