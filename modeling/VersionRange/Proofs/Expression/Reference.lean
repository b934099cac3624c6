import VersionRange.Proofs.Expression.Parse
import VersionRange.Proofs.Expression.Single
import VersionRange.Proofs.Text.Kind

namespace VersionRange

/-!
# References on branches

A reference follows a branch behind a `#`, and it is left out of account.  It is looked for in the
whole expression, where it reaches to the end.

* `Referable`: a text that may have a reference, as the reader takes it.
* `versionOfReference?_eq_some_iff`: the text in front of the only `#` is kept exactly where it is
  referable, and something that stays on one line stands behind it.
* `satisfies_reference`: what such an expression means, and where the reference stays in it.
-/

/-- The word `dev-` in any case with a name behind it. The name may have any characters, also a
    mark of a reference. -/
def IsNamedBranch (s : List Char) : Prop :=
  ∃ lead name, s = lead ++ name ∧ lead.map Text.plain = "dev-".toList ∧ name ≠ []

/-- A text that ends in a wildcard and the word `-dev` in any case. In front of the point of the
    wildcard there is something, whatever it is. -/
def IsOpenBranch (s : List Char) : Prop :=
  ∃ front w dev, s = front ++ '.' :: w :: dev ∧ front ≠ [] ∧ isWildcard w = true ∧
    dev.map Text.plain = "-dev".toList

/-- A text that may have a reference: a branch without white space, commas and the mark of a
    flag. -/
structure Referable (s : List Char) : Prop where
  isNameChar : ∀ c ∈ s, isNameChar c = true
  branch : IsNamedBranch s ∨ IsOpenBranch s

/-! ### What the reader finds -/

/-- The letters and the hyphen of `dev` in any case belong to a name. -/
theorem isNameChar_of_plain {c : Char} (h : Text.plain c ∈ "-dev".toList) :
    isNameChar c = true := by
  have hforeign : ∀ x ∈ "-dev".toList, x.toNat < 128 ∧ x ≠ 's' ∧ x ≠ 'k' ∧ x ≠ 'i' := by decide
  obtain ⟨hascii, hs, hk, hi⟩ := hforeign _ h
  have hlow : c.toLower = Text.plain c := Text.toLower_of_plain rfl hascii hs hk hi
  have hc : c.toNat < 128 := Text.ascii_of_toLower (hlow ▸ hascii)
  rw [← hlow] at h
  revert h
  exact Text.forall_ascii (P := fun c => c.toLower ∈ "-dev".toList → isNameChar c = true)
    (by decide) hc

/-- The letters of `-dev` may stand in the name of a branch, in any case. -/
theorem isNameChar_of_keyword {word raw : List Char} (hword : ∀ c ∈ word, c ∈ "-dev".toList)
    (h : raw.map Text.plain = word) : ∀ c ∈ raw, isNameChar c = true := by
  intro c hc
  exact isNameChar_of_plain (hword _ (h ▸ List.mem_map_of_mem hc))

/-- So may wildcards. -/
theorem isNameChar_of_isWildcard {w : Char} (h : isWildcard w = true) : isNameChar w = true := by
  rcases isWildcard_iff.1 h with rfl | rfl | rfl <;> decide

/-- What is found in front of a reference and what is found behind its mark make up the text. So
    nothing is lost but the mark. -/
def Referenced.Splits (b : Referenced) (s : List Char) : Prop :=
  s = b.version ++ '#' :: b.reference

/-- A named branch that is found with a reference splits the text there, and can carry a
    reference. -/
theorem isRead_namedBranch? {s : List Char} {b : Referenced} (h : namedBranch? s = some b) :
    b.Splits s ∧ Referable b.version := by
  obtain ⟨p, hlead, hname⟩ := Option.bind_eq_some_iff.1 h
  obtain ⟨lead, r⟩ := p
  obtain ⟨rfl, hword⟩ := Text.eq_append_of_keywordLead? hlead
  cases r with
  | nil => cases hname
  | cons c r =>
    obtain ⟨u, hguard, hrest⟩ := Option.bind_eq_some_iff.1 hname
    have hc : isNameChar c = true := by simpa using hguard
    dsimp only at hrest
    split at hrest
    case h_2 => cases hrest
    case h_1 reference hdrop =>
      cases hrest
      -- The name goes up to the mark.
      have hsplit := List.takeWhile_append_dropWhile
        (p := fun c => isNameChar c && c != '#') (l := r)
      rw [hdrop] at hsplit
      refine ⟨by simp [Referenced.Splits, hsplit], ?_, .inl ⟨lead, _, rfl, hword, by simp⟩⟩
      intro d hd
      rw [List.mem_append, List.mem_cons] at hd
      rcases hd with hd | rfl | hd
      · exact isNameChar_of_keyword (by decide) hword d hd
      · exact hc
      · have hboth := List.mem_takeWhile_imp hd
        exact (Bool.and_eq_true_iff.1 hboth).1

/-- So does the end of a numeric branch, which is a wildcard and `-dev`. The letters may be in any
    case. -/
theorem isRead_openEnd? {s : List Char} {b : Referenced} (h : openEnd? s = some b) :
    b.Splits s ∧ ∃ w dev, b.version = '.' :: w :: dev ∧ isWildcard w = true ∧
      dev.map Text.plain = "-dev".toList := by
  unfold openEnd? at h
  split at h
  case h_2 => cases h
  case h_1 w r =>
    obtain ⟨u, hguard, hrest⟩ := Option.bind_eq_some_iff.1 h
    obtain ⟨p, hdev, hend⟩ := Option.bind_eq_some_iff.1 hrest
    obtain ⟨dev, rest⟩ := p
    obtain ⟨rfl, hword⟩ := Text.eq_append_of_keywordLead? hdev
    split at hend
    case h_2 => cases hend
    case h_1 dev' reference heq =>
      cases heq
      cases hend
      exact ⟨rfl, w, dev, rfl, by simpa using hguard, hword⟩

/-- So does the whole numeric branch: by induction the characters in front of its end
    belong to it. -/
theorem isRead_openBranch? {s : List Char} {b : Referenced} (h : openBranch? s = some b) :
    b.Splits s ∧ (∀ c ∈ b.version, isNameChar c = true) ∧ IsOpenBranch b.version := by
  induction s generalizing b with
  | nil => cases h
  | cons c r ih =>
    obtain ⟨u, hguard, hrest⟩ := Option.bind_eq_some_iff.1 h
    have hc : isNameChar c = true := by simpa using hguard
    obtain ⟨d, hd, hb⟩ := Option.bind_eq_some_iff.1 hrest
    cases hb
    -- Behind this character the end is tried first, and then a longer branch.
    rcases (Option.orElse_eq_some _ _ _).1 hd with hend | ⟨-, hbranch⟩
    · obtain ⟨rfl, w, dev, hversion, hw, hdev⟩ := isRead_openEnd? hend
      refine ⟨rfl, ?_, [c], w, dev, by simp [hversion], by simp, hw, hdev⟩
      intro e he
      simp only [hversion, List.mem_cons] at he
      rcases he with rfl | rfl | rfl | he
      · exact hc
      · decide
      · exact isNameChar_of_isWildcard hw
      · exact isNameChar_of_keyword (by decide) hdev e he
    · obtain ⟨rfl, hchars, front, w, dev, hversion, -, hw, hdev⟩ := ih hbranch
      refine ⟨rfl, List.forall_mem_cons.2 ⟨hc, hchars⟩, c :: front, w, dev, ?_, by simp, hw, hdev⟩
      simp [hversion]

/-! ### What is found -/

variable {s r : List Char}

/-- With a named branch in front of it a `#` begins a reference. -/
theorem isSome_namedBranch? (h : IsNamedBranch s) (hchars : ∀ c ∈ s, isNameChar c = true)
    (hmark : '#' ∉ s) : (namedBranch? (s ++ '#' :: r)).isSome = true := by
  obtain ⟨lead, name, rfl, hlead, hname⟩ := h
  obtain ⟨c, name, rfl⟩ := List.exists_cons_of_ne_nil hname
  have hc : isNameChar c = true := hchars c (by simp)
  have hrest : ∀ d ∈ name, (isNameChar d && d != '#') = true := by
    intro d hd
    have hne : d ≠ '#' := by
      rintro rfl
      exact hmark (by simp [hd])
    simp [hchars d (by simp [hd]), hne]
  -- The name goes on up to the mark, as all of its characters may stand in a name.
  have hdrop : (name ++ '#' :: r).dropWhile (fun c => isNameChar c && c != '#') = '#' :: r := by
    rw [List.dropWhile_append_of_pos hrest]
    simp
  rw [List.append_assoc, namedBranch?, Text.keywordLead?_append _ hlead]
  simp [hc, hdrop]

/-- So it does with a numeric branch in front of it. -/
theorem isSome_openBranch? (h : IsOpenBranch s) (hchars : ∀ c ∈ s, isNameChar c = true) :
    (openBranch? (s ++ '#' :: r)).isSome = true := by
  obtain ⟨front, w, dev, rfl, hfront, hw, hdev⟩ := h
  induction front with
  -- By induction on what stands in front of the wildcard; at its last character the end is found.
  | nil => exact absurd rfl hfront
  | cons c front ih =>
    have hc : isNameChar c = true := hchars c (by simp)
    cases front with
    | nil =>
      have hend : openEnd? ('.' :: w :: (dev ++ '#' :: r)) = some ⟨'.' :: w :: dev, r⟩ := by
        rw [openEnd?, Text.keywordLead?_append _ hdev, hw]
        rfl
      simp [openBranch?, hc, hend]
    | cons d front =>
      have hsome := ih (fun e he => hchars e (List.mem_cons_of_mem c he)) (by simp)
      obtain ⟨b, hb⟩ := Option.isSome_iff_exists.1 hsome
      rw [List.cons_append, List.cons_append, openBranch?, hc]
      simp only [List.cons_append, List.append_assoc] at hb ⊢
      rw [hb]
      cases openEnd? _ <;> rfl

/-- Around the only mark a text falls apart in one way. -/
theorem Referenced.Splits.eq {b : Referenced} (h : b.Splits (s ++ '#' :: r)) (hs : '#' ∉ s)
    (hr : '#' ∉ r) : b.version = s ∧ b.reference = r := by
  obtain ⟨hversion, -, hreference⟩ := (List.append_cons_inj_of_notMem hs hr).1 h
  exact ⟨hversion.symm, hreference.symm⟩

/-- **What has a reference.** In a text with one `#` the reader finds a version exactly where that
    text is referable in front of the mark, and something without a line end stands behind it. -/
theorem versionOfReference?_eq_some_iff {v : List Char} (hs : '#' ∉ s) (hr : '#' ∉ r) :
    versionOfReference? (s ++ '#' :: r) = some v ↔
      v = s ∧ Referable s ∧ r ≠ [] ∧ '\n' ∉ r := by
  -- Whatever is found, the mark is where it is, and so the two parts are known.
  have hcheck : ∀ b : Referenced, b.Splits (s ++ '#' :: r) →
      ((if b.reference.isEmpty || b.reference.contains '\n' then none else some b.version) = some v
        ↔ v = s ∧ r ≠ [] ∧ '\n' ∉ r) := by
    intro b hb
    obtain ⟨hversion, hreference⟩ := hb.eq hs hr
    rw [hversion, hreference]
    by_cases hne : r = []
    · simp [hne]
    · by_cases hline : '\n' ∈ r
      · simp [hline]
      · simp only [List.isEmpty_eq_false_iff.2 hne, List.contains_eq_mem, hline, decide_false,
          Bool.or_false, Bool.false_eq_true, if_false, Option.some.injEq]
        exact ⟨fun h => ⟨h.symm, hne, not_false⟩, fun h => h.1.symm⟩
  simp only [versionOfReference?]
  constructor
  · intro h
    rcases (Option.orElse_eq_some _ _ _).1 h with h | ⟨-, h⟩
    · obtain ⟨b, hb, hv⟩ := Option.bind_eq_some_iff.1 h
      obtain ⟨hsplits, href⟩ := isRead_namedBranch? hb
      obtain ⟨rfl, hne, hline⟩ := (hcheck b hsplits).1 hv
      exact ⟨rfl, (hsplits.eq hs hr).1 ▸ href, hne, hline⟩
    · obtain ⟨b, hb, hv⟩ := Option.bind_eq_some_iff.1 h
      obtain ⟨hsplits, hchars, hopen⟩ := isRead_openBranch? hb
      obtain ⟨rfl, hne, hline⟩ := (hcheck b hsplits).1 hv
      rw [(hsplits.eq hs hr).1] at hchars hopen
      exact ⟨rfl, ⟨hchars, .inr hopen⟩, hne, hline⟩
  · rintro ⟨rfl, href, hne, hline⟩
    rw [Option.orElse_eq_some]
    by_cases hnamed : (namedBranch? (v ++ '#' :: r)).isSome = true
    · obtain ⟨b, hb⟩ := Option.isSome_iff_exists.1 hnamed
      left
      rw [hb]
      exact (hcheck b (isRead_namedBranch? hb).1).2 ⟨rfl, hne, hline⟩
    · have hopen : IsOpenBranch v := href.branch.resolve_left fun h =>
        hnamed (isSome_namedBranch? h href.isNameChar hs)
      obtain ⟨b, hb⟩ := Option.isSome_iff_exists.1 (isSome_openBranch? hopen href.isNameChar)
      right
      rw [Option.not_isSome_iff_eq_none.1 hnamed, hb]
      exact ⟨rfl, (hcheck b (isRead_openBranch? hb).1).2 ⟨rfl, hne, hline⟩⟩

namespace Expression

/-- Of an expression with a reference the version in front of it is left. -/
theorem body_referenced (hflag : '@' ∉ s ++ '#' :: r) (hs : '#' ∉ s) (hr : '#' ∉ r)
    (href : Referable s) (hne : r ≠ []) (hline : '\n' ∉ r) :
    body (String.ofList (s ++ '#' :: r)) = s := by
  have hfound := (versionOfReference?_eq_some_iff hs hr).2 ⟨rfl, href, hne, hline⟩
  rw [body, String.toList_ofList, withoutFlag, splitFlag?_eq_none hflag]
  simp only [hfound, Option.getD_some]

/-- Where the text in front is not referable, or the line ends, the mark stays in the expression. -/
theorem body_unreferenced (hflag : '@' ∉ s ++ '#' :: r) (hs : '#' ∉ s) (hr : '#' ∉ r)
    (h : ¬(Referable s ∧ '\n' ∉ r)) :
    body (String.ofList (s ++ '#' :: r)) = s ++ '#' :: r := by
  have hnone : versionOfReference? (s ++ '#' :: r) = none := by
    rw [Option.eq_none_iff_forall_ne_some]
    intro v hv
    obtain ⟨-, href, -, hline⟩ := (versionOfReference?_eq_some_iff hs hr).1 hv
    exact h ⟨href, hline⟩
  rw [body, String.toList_ofList, withoutFlag, splitFlag?_eq_none hflag]
  simp only [hnone, Option.getD_none]

/-- Expressions of the same alternatives have the same constraint, but for the text that it
    remembers. -/
theorem parse_congr {e e' : String}
    (h : splitAlternatives (body e) = splitAlternatives (body e')) :
    (parse e).outcome = (parse e').outcome.map (·.withWritten (some e)) := by
  rw [outcome_parse_eq, outcome_parse_eq, h]
  cases (splitAlternatives (body e')).mapM fun a => (parseAlternative a).outcome with
  | error f => rfl
  | ok gs =>
    have htwice : ∀ (c : Constraint) (w w' : Option String),
        (c.withWritten w).withWritten w' = c.withWritten w' := by
      intro c w w'
      cases c <;> rfl
    exact congrArg Except.ok (htwice (joined gs) _ _).symm

/-- Expressions with the same alternatives accept the same versions. What else is in their texts is
    remembered only. -/
theorem satisfies_congr {e e' : String}
    (h : splitAlternatives (body e) = splitAlternatives (body e')) (x : String) :
    (satisfies x e).outcome = (satisfies x e').outcome := by
  rw [satisfies, satisfies, Traced.outcome_bind, Traced.outcome_bind]
  cases (normalized x).outcome with
  | error f => rfl
  | ok nx =>
    show (parse e >>= _).outcome = (parse e' >>= _).outcome
    rw [Traced.outcome_bind, Traced.outcome_bind, parse_congr h]
    cases (parse e').outcome with
    | error f => rfl
    | ok c => exact Constraint.accepts_withWritten c (some e) nx

/-- White space behind a referable text does not count. It is trimmed off with the last
    alternative. -/
theorem splitAlternatives_append_blanks {ws : List Char} (hs : Referable s)
    (hws : ∀ c ∈ ws, Text.isBlank c = true) :
    splitAlternatives (s ++ ws) = splitAlternatives s := by
  have hsolid : ∀ c ∈ s, isSolid c = true := fun c hc =>
    (Bool.and_eq_true_iff.1 (hs.isNameChar c hc)).1
  have hhead : ∀ c, s.head? = some c → Text.isBlank c = false := fun c hc =>
    isBlank_of_isSolid (hsolid c (List.mem_of_mem_head? hc))
  have htrim : Text.trim ([] ++ s ++ ws) = s :=
    trim_blanks (fun c hc => absurd hc List.not_mem_nil) hws hhead (settled_of_isSolid hsolid)
  rw [List.nil_append] at htrim
  rw [splitAlternatives, splitAlternatives, htrim, trim_of_isSolid hsolid]

end Expression

/-! ### What a reference takes with it -/

/-- **A reference in an expression.** If the text up to the mark is referable and the line does not
    end behind it, the reference counts for nothing, but neither does anything behind it: the
    expression stands for what it has in front of the mark, so that nothing is lost exactly where
    the rest is white space.  In any other place the reference stays in the text of its term. -/
theorem satisfies_reference {front rest reference : List Char}
    (hmarks : '@' ∉ front ++ rest ∧ '#' ∉ front ++ rest) (hne : reference ≠ [])
    (hinert : ∀ c ∈ reference, isInert c = true) :
    (Referable front → '\n' ∉ rest →
      (Expression.parse (String.ofList (front ++ '#' :: reference ++ rest))).outcome
        = (Expression.parse (String.ofList front)).outcome.map
            (·.withWritten (some (String.ofList (front ++ '#' :: reference ++ rest)))) ∧
      (∀ x, (satisfies x (String.ofList (front ++ '#' :: reference ++ rest))).outcome
        = (satisfies x (String.ofList front)).outcome) ∧
      ((∀ c ∈ rest, Text.isBlank c = true) →
        (Expression.parse (String.ofList (front ++ '#' :: reference ++ rest))).outcome
          = (Expression.parse (String.ofList (front ++ rest))).outcome.map
              (·.withWritten (some (String.ofList (front ++ '#' :: reference ++ rest)))) ∧
        ∀ x, (satisfies x (String.ofList (front ++ '#' :: reference ++ rest))).outcome
          = (satisfies x (String.ofList (front ++ rest))).outcome)) ∧
    (¬(Referable front ∧ '\n' ∉ rest) →
      Expression.body (String.ofList (front ++ '#' :: reference ++ rest))
        = front ++ '#' :: reference ++ rest) := by
  obtain ⟨hflag, hreference⟩ := hmarks
  rw [List.mem_append, not_or] at hflag hreference
  have hmark : '#' ∉ reference ++ rest := by
    rw [List.mem_append, not_or]
    exact ⟨not_mem_of_isInert hinert (by decide), hreference.2⟩
  have hat : '@' ∉ front ++ '#' :: (reference ++ rest) := by
    have : '@' ∉ reference := not_mem_of_isInert hinert (by decide)
    simp [hflag.1, hflag.2, this]
  have hline : '\n' ∉ rest → '\n' ∉ reference ++ rest := by
    intro h
    rw [List.mem_append, not_or]
    exact ⟨not_mem_of_isInert hinert (by decide), h⟩
  rw [List.append_assoc, List.cons_append]
  constructor
  · intro href hrest
    -- Everything that an expression means comes from the alternatives of its body.
    have hbody := Expression.body_referenced hat hreference.1 hmark href (by simp [hne])
      (hline hrest)
    have hfront : Expression.body (String.ofList front) = front :=
      Expression.body_eq hflag.1 hreference.1
    have hsame := congrArg splitAlternatives (hbody.trans hfront.symm)
    refine ⟨Expression.parse_congr hsame, Expression.satisfies_congr hsame, fun hblank => ?_⟩
    have hwhole : Expression.body (String.ofList (front ++ rest)) = front ++ rest :=
      Expression.body_eq (by simp [hflag.1, hflag.2]) (by simp [hreference.1, hreference.2])
    -- White space at the end is trimmed before the alternatives are split.
    have hsame' : splitAlternatives
          (Expression.body (String.ofList (front ++ '#' :: (reference ++ rest))))
        = splitAlternatives (Expression.body (String.ofList (front ++ rest))) := by
      rw [hbody, hwhole, Expression.splitAlternatives_append_blanks href hblank]
    exact ⟨Expression.parse_congr hsame', Expression.satisfies_congr hsame'⟩
  · intro h
    refine Expression.body_unreferenced hat hreference.1 hmark fun hboth => h ⟨hboth.1, ?_⟩
    exact fun hmem => hboth.2 (List.mem_append_right reference hmem)

/-- A reference at the end counts for nothing, one in front of another alternative takes it along,
    and one in a later alternative stays. -/
theorem satisfies_reference_foo :
    (∀ x, (satisfies x "dev-foo#abc ").outcome = (satisfies x "dev-foo ").outcome) ∧
      (∀ x, (satisfies x "dev-foo#abc || 1.0").outcome = (satisfies x "dev-foo").outcome) ∧
      Expression.body "1.0 || dev-foo#abc" = "1.0 || dev-foo#abc".toList := by
  have hinert : ∀ c ∈ "abc".toList, isInert c = true := by decide
  have hname : Referable "dev-foo".toList :=
    ⟨by decide, .inl ⟨"dev-".toList, "foo".toList, by decide, by decide, by decide⟩⟩
  have hend := @satisfies_reference "dev-foo".toList [' '] _ (by decide) (by decide) hinert
  have hmore := @satisfies_reference "dev-foo".toList " || 1.0".toList _ (by decide) (by decide)
    hinert
  have hlater := @satisfies_reference "1.0 || dev-foo".toList [] _ (by decide) (by decide) hinert
  refine ⟨((hend.1 hname (by decide)).2.2 (by decide)).2, (hmore.1 hname (by decide)).2.1,
    hlater.2 fun h => ?_⟩
  exact absurd (h.1.isNameChar ' ' (by decide)) (by decide)

/-- An alternative is lost with a reference in front of it, and a branch is not found by its name
    where its reference stays. -/
theorem satisfies_reference_alternative :
    (satisfies "1.0" "dev-foo || 1.0").outcome = .ok true ∧
      (satisfies "1.0" "dev-foo#abc || 1.0").outcome = .ok false ∧
      (satisfies "dev-foo" "1.0 || dev-foo").outcome = .ok true ∧
      (satisfies "dev-foo" "1.0 || dev-foo#abc").outcome = .ok false :=
  ⟨eq_ok_of_toOption (by decide +kernel), eq_ok_of_toOption (by decide +kernel),
    eq_ok_of_toOption (by decide +kernel), eq_ok_of_toOption (by decide +kernel)⟩

end VersionRange
