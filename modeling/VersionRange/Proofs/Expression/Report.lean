import VersionRange.Proofs.Canonical.Report
import VersionRange.Proofs.Expression.Marks
import VersionRange.Proofs.Expression.Parts
import VersionRange.Proofs.Outcome

namespace VersionRange

/-!
# What the report of an expression points at

The version of a term is read with letters that are not in the expression, and bounds are written
anew.  Still no report is about anything but a part of the expression.

* `Term.IsSignedWildcard`: a version with wildcards behind the sign of a comparison.
* `ParseError.PointsInto e s`: the report `e` points into the text `s` and explains what it points
  at.
* `Term.blames_lowerEnd`, `Term.blames_comparator`: the two places where versions are read.
* `Expression.blames_parse`: a report of an expression points into the expression.
-/

/-! ### Signs in front of wildcards -/

namespace Term

variable {sign : Sign} {version s : List Char}

/-- The text `s` is the sign of a comparison and, perhaps behind blanks, a version with
    wildcards. -/
def IsSignedWildcard (sign : Sign) (version s : List Char) : Prop :=
  sign ∈ signs ∧ (wildcardGroups? version).isSome = true ∧
    ∃ blanks, (∀ c ∈ blanks, Text.isBlank c = true) ∧ s = sign.chars ++ (blanks ++ version)

/-- What to write in place of a version with wildcards behind a sign: the version alone, or the sign
    in front of the version without the points and wildcards at its end. -/
def wildcardAdvice (sign : Sign) (version : List Char) : String :=
  let stem := (version.reverse.dropWhile fun c => c ∈ ['.', 'x', 'X', '*']).reverse
  "wildcard versions cannot be combined with an operator, use " ++ String.ofList version
    ++ " or " ++ String.ofList sign.chars ++ String.ofList stem ++ " instead"

/-- A version with wildcards starts with a digit, perhaps behind a `v`. -/
theorem exists_head_of_wildcardGroups? (h : (wildcardGroups? s).isSome = true) :
    ∃ c r, s = c :: r ∧ (Text.plain c = 'v' ∨ Text.isDigit c = true) := by
  obtain ⟨gs, hgs⟩ := Option.isSome_iff_exists.1 h
  obtain ⟨t, hsplit, -, hne, -, hgroups⟩ := eq_dotted_of_wildcardGroups? hgs
  obtain ⟨d, u, hhead, hd⟩ := exists_head_dotted hgroups hne
  rw [hhead] at hsplit
  exact Written.exists_head_of_skipV hsplit hd

/-- The sign and the version are found where they stand. -/
theorem readSign_of_isSignedWildcard (h : IsSignedWildcard sign version s) :
    (readSign s).1 = sign ∧ (readSign s).2.dropWhile Text.isBlank = version := by
  obtain ⟨hsign, hversion, blanks, hblanks, rfl⟩ := h
  obtain ⟨c, r, rfl, hc⟩ := exists_head_of_wildcardGroups? hversion
  -- The version begins with a `v` or a digit, which ends the sign and the blanks behind it.
  have hmarks : ∀ m ∈ signMarks, (c :: r).head? ≠ some m := by
    intro m hm hhead
    obtain rfl : c = m := Option.some.inj hhead
    obtain ⟨hv, hdigit, -⟩ := termMarks_foreign c (mem_termMarks hm)
    rcases hc with hc | hc
    · exact hv hc
    · rw [hdigit] at hc
      cases hc
  have hblank : Text.isBlank c = false := by
    rcases hc with hc | hc
    · exact isBlank_of_isSolid (Text.isSolid_of_plain (by rw [hc]; decide))
    · exact Text.isBlank_of_isDigit hc
  rw [readSign_blanks hsign hblanks hmarks, dropWhile_isBlank_append hblanks,
    List.dropWhile_cons_of_neg (by simp [hblank])]
  exact ⟨rfl, rfl⟩

/-- The advice is given behind signs in front of wildcards, and only there. It names the version
    without the sign and the sign without the wildcards. -/
theorem wildcardHint?_readSign (s : List Char) :
    (∀ sign version, IsSignedWildcard sign version s →
      wildcardHint? (readSign s).1 ((readSign s).2.dropWhile Text.isBlank)
        = some (wildcardAdvice sign version)) ∧
    ((∀ sign version, ¬ IsSignedWildcard sign version s) →
      wildcardHint? (readSign s).1 ((readSign s).2.dropWhile Text.isBlank) = none) := by
  constructor
  · intro sign version h
    obtain ⟨hsign, hversion⟩ := readSign_of_isSignedWildcard h
    obtain ⟨m, w, hchars, -⟩ := exists_mark_of_sign h.1
    -- The points and wildcards that are taken off are the four characters of the advice.
    have hmarks : (fun c => c == '.' || isWildcard c)
        = fun c => decide (c ∈ ['.', 'x', 'X', '*']) := by
      funext c
      rw [Bool.eq_iff_iff]
      simp [isWildcard, or_assoc]
    rw [hsign, hversion, wildcardHint?, if_pos (by simp [hchars, h.2.1]), hmarks]
    rfl
  · intro h
    rw [wildcardHint?, if_neg]
    intro hcond
    simp only [Bool.and_eq_true, Bool.not_eq_true', List.isEmpty_eq_false_iff] at hcond
    obtain ⟨hsign, hversion⟩ := hcond
    rcases readSign_cases s with hnone | ⟨hmem, hs⟩
    · rw [hnone] at hsign
      exact hsign rfl
    · refine h _ _ ⟨hmem, hversion, (readSign s).2.takeWhile Text.isBlank, ?_, ?_⟩
      · exact fun c hc => List.mem_takeWhile_imp hc
      · rw [List.takeWhile_append_dropWhile]
        exact hs

end Term

/-! ### Reports that point into a text -/

/-- The report points into the text `s`.  A report behind it points into what it points at, and it
    explains that by the message of the report behind it, or by the advice on wildcards. -/
structure ParseError.PointsInto (e : ParseError) (s : List Char) : Prop where
  fragment : e.fragment.toList <:+: s
  cause : ∀ c, e.cause? = some c → c.fragment.toList <:+: e.fragment.toList
  advice : ∀ c, e.cause? = some c → ∀ sign version,
    Term.IsSignedWildcard sign version e.fragment.toList →
      e.hint? = some (Term.wildcardAdvice sign version)
  message : ∀ c, e.cause? = some c →
    (∀ sign version, ¬ Term.IsSignedWildcard sign version e.fragment.toList) →
      e.hint? = some c.message

namespace ParseError.PointsInto

variable {e : ParseError} {s t : List Char}

/-- What points into a part of a text points into the text. -/
theorem part (h : e.PointsInto s) (hs : s <:+: t) : e.PointsInto t where
  fragment := h.fragment.trans hs
  cause := h.cause
  advice := h.advice
  message := h.message

/-- The report of a version has nothing behind it. -/
theorem of_normalize {v : String} {full : Option String}
    (h : (normalize v full).outcome = .error e) (hs : e.fragment.toList <:+: s) :
    e.PointsInto s := by
  have hnone : e.cause? = none := by
    rw [outcome_normalize] at h
    obtain ⟨-, rfl⟩ := error_of_normalizePlain h
    exact (versionReport_eq _ _).2.2
  refine ⟨hs, ?_, ?_, ?_⟩ <;> simp [hnone]

end ParseError.PointsInto

/-! ### Terms -/

/-- A bound that cannot be computed is no text that cannot be read. So it is no report, and nothing
    is blamed. -/
theorem blames_devBound {p : ParseError → Prop} (gs : List (List Char)) (position amount : Nat) :
    Blames p (devBound gs position amount) := by
  have hread : ∀ ds, Blames p (Numeral.read ds) := by
    intro ds e h
    unfold Numeral.read at h
    split at h <;> cases h
  have hwrite : ∀ n, Blames p (Numeral.write n) := by
    intro n e h
    unfold Numeral.write at h
    dsimp only at h
    split at h <;> cases h
  refine (Blames.mapM fun ds _ => hread ds).bind fun ns _ => ?_
  exact (Blames.mapM fun n _ => hwrite n).bind fun ds _ => .value _

namespace Term

variable {s : List Char}

/-- The letters that a lower end is read with are never blamed. A report is about the version in
    front of them. -/
theorem blames_lowerEnd {v : Spelled} (hv : Written.read? v.chars = some v.version) :
    Blames (·.PointsInto v.chars) (lowerEnd v).outcome := by
  rw [lowerEnd, Traced.outcome_bind]
  refine (Blames.mapError fun e he => ?_).bind fun c _ => .value _
  split at he
  case isTrue =>
    have hstart := isPrefix_of_normalize_append_dev (Written.isSolid_of_read? hv) he
    exact .of_normalize he hstart.isInfix
  case isFalse =>
    have hpart := (report_normalize he).1
    rw [String.toList_ofList] at hpart
    exact .of_normalize he hpart

/-- An upper end that is read is blamed on the version; one that is made from numbers is blamed on
    no text. -/
theorem blames_upperEnd (v : Spelled) : Blames (·.PointsInto v.chars) (upperEnd v).outcome := by
  unfold upperEnd
  dsimp only
  split
  case isTrue =>
    rw [Traced.outcome_bind]
    refine (Blames.mapError fun e he => ?_).bind fun c _ => .value _
    have hpart := (report_normalize he).1
    rw [String.toList_ofList] at hpart
    exact .of_normalize he hpart
  case isFalse =>
    rw [Traced.outcome_bind, Traced.outcome_lift]
    exact (blames_devBound _ _ _).bind fun high _ => .value _

/-- A range is blamed on its version, as only the lower end is read. -/
theorem blames_rangeTo {v : Spelled} (hv : Written.read? v.chars = some v.version)
    (position : Nat) : Blames (·.PointsInto v.chars) (rangeTo v position).outcome := by
  rw [rangeTo, Traced.outcome_bind, Traced.outcome_lift]
  refine (blames_devBound _ _ _).bind fun high _ => ?_
  rw [Traced.outcome_bind]
  exact (blames_lowerEnd hv).bind fun low _ => .value _

/-- A range with wildcards is blamed on no text: nothing in it is read as a version. -/
theorem blames_wildcardRange {p : ParseError → Prop} (gs : List (List Char)) :
    Blames p (wildcardRange gs) := by
  refine (blames_devBound _ _ _).bind fun low _ => ?_
  exact (blames_devBound _ _ _).bind fun high _ => .value _

/-- A comparison is blamed as a whole, by the report on its version. -/
theorem blames_comparator (s : List Char) (flag : Option (List Char)) :
    Blames (·.PointsInto s)
      (comparator s (readSign s).1 ((readSign s).2.dropWhile Text.isBlank) flag).outcome := by
  intro e h
  rw [comparator, Traced.outcome_bind, Traced.outcome_attempt] at h
  -- The report is about the whole text, and the one on its version is the cause.
  obtain ⟨hadvice, hmessage⟩ := wildcardHint?_readSign s
  have hsuffix := (List.dropWhile_suffix Text.isBlank).trans (readSign_suffix s)
  generalize (readSign s).2.dropWhile Text.isBlank = version at h hadvice hmessage hsuffix
  cases hversion : (normalize (String.ofList version) none).outcome with
  | ok c =>
    rw [hversion] at h
    cases h
  | error c =>
    rw [hversion] at h
    cases h
    have hpart := (report_normalize hversion).1
    rw [String.toList_ofList] at hpart
    have hfragment : (comparisonReport s (readSign s).1 version c).fragment.toList = s :=
      String.toList_ofList
    refine ⟨?_, ?_, ?_, ?_⟩
    · simp only [hfragment, List.infix_refl]
    · rintro _ ⟨⟩
      rw [hfragment]
      exact hpart.trans hsuffix.isInfix
    · rintro _ ⟨⟩ sign w hsigned
      rw [hfragment] at hsigned
      rw [comparisonReport, hadvice sign w hsigned, Option.getD_some]
    · rintro _ ⟨⟩ hsigned
      rw [hfragment] at hsigned
      rw [comparisonReport, hmessage hsigned, Option.getD_none]

/-- Whatever form it has, a term is blamed for what is written in it. Only a comparison is reported
    with a cause. -/
theorem blames_meaning (s : List Char) (flag : Option (List Char)) :
    Blames (·.PointsInto s) (meaning s flag (read s)).outcome := by
  have hwithin := isWithin_read s
  have hform := ofText_read s
  generalize read s = t at hwithin hform ⊢
  -- What is blamed for a version in the term is blamed for the term.
  have hpart {α : Type} {u : List Char} {x : Except Fault α} (hu : u ∈ t.texts)
      (hx : Blames (·.PointsInto u) x) : Blames (·.PointsInto s) x :=
    hx.mono fun e he => he.part (hwithin.texts u hu)
  cases hform with
  | anything => exact .value _
  | tilde h =>
    obtain ⟨r, -, hr⟩ := exists_of_behind? h
    rw [meaning, Traced.outcome_map]
    exact (hpart (by simp [texts]) (blames_rangeTo (read?_of_spelled? hr) _)).map
  | caret h =>
    obtain ⟨r, -, hr⟩ := exists_of_behind? h
    rw [meaning, Traced.outcome_map]
    exact (hpart (by simp [texts]) (blames_rangeTo (read?_of_spelled? hr) _)).map
  | wildcard =>
    rw [meaning, Traced.outcome_map]
    exact (blames_wildcardRange _).map
  | @hyphen low high h =>
    obtain ⟨u, w, hlow, -⟩ := exists_of_hyphen? h
    rw [meaning, Traced.outcome_bind]
    refine (hpart (by simp [texts]) (blames_lowerEnd (read?_of_spelled? hlow))).bind fun c _ => ?_
    rw [Traced.outcome_bind]
    exact (hpart (by simp [texts]) (blames_upperEnd high)).bind fun d _ => .value _
  | comparison =>
    rw [meaning, Traced.outcome_bind]
    exact (blames_comparator s flag).bind fun c _ => .value _

/-- A term is blamed on itself, without its flag; a missing one on the empty text. Both stand in
    the term. -/
theorem blames_constraints (s : List Char) :
    Blames (·.PointsInto s) (constraints s).outcome := by
  unfold constraints
  split
  case isTrue =>
    rintro e ⟨⟩
    have hnone : ParseError.emptyTerm.cause? = none := rfl
    exact ⟨List.nil_infix, by simp [hnone], by simp [hnone], by simp [hnone]⟩
  case isFalse =>
    split
    case h_1 c front flag hflag =>
      have hfront := isPrefix_of_splitFlag? hflag
      exact (blames_meaning _ _).mono fun e he => he.part hfront.isInfix
    case h_2 => exact blames_meaning s none

end Term

/-! ### Expressions -/

namespace Expression

/-- An alternative is blamed on one of its terms. -/
theorem blames_parseAlternative (s : List Char) :
    Blames (·.PointsInto s) (parseAlternative s).outcome := by
  rw [outcome_parseAlternative]
  refine Blames.map (Blames.mapM fun t ht => ?_)
  exact (Term.blames_constraints t).mono fun e he => he.part (infix_of_mem_splitTerms ht)

/-- **What a report of an expression points at.** It points into the expression. -/
theorem blames_parse (e : String) : Blames (·.PointsInto e.toList) (parse e).outcome := by
  rw [outcome_parse_eq]
  refine Blames.map (Blames.mapM fun a ha => ?_)
  have hpart (h : body e <+: e.toList) :
      Blames (·.PointsInto e.toList) (parseAlternative a).outcome :=
    (blames_parseAlternative a).mono fun E hE =>
      hE.part ((infix_of_mem_splitAlternatives ha).trans h.isInfix)
  rcases isPrefix_body e with hany | hfront
  · rcases List.prefix_cons_iff.1 hany with hnil | ⟨t, hbody, ht⟩
    · exact hpart (by rw [hnil]; exact List.nil_prefix)
    · -- A flag alone stands for any version, which is nothing that could be blamed.
      rw [List.prefix_nil.1 ht] at hbody
      rw [hbody] at ha
      obtain rfl : a = ['*'] := List.mem_singleton.1 ha
      exact .value _
  · exact hpart hfront

end Expression

/-- **Reports point into the input.** The report of an expression points into the expression, and
    the report of a version into the version.  On its own a version is explained only where it is
    the source of an alias. -/
theorem reports_point_into_input :
    (∀ (e : String) (E : ParseError), (Expression.parse e).outcome = .error (.parse E) →
      E.PointsInto e.toList) ∧
    ∀ (v : String) (full : Option String) (E : ParseError),
      (normalize v full).outcome = .error E →
        E.fragment.toList <:+: v.toList ∧
          (full = none → ∀ hint, E.hint? = some hint →
            ∃ source, AliasOf source (Text.trim v.toList) ∧
              E.fragment.toList = withoutBuild source) :=
  ⟨Expression.blames_parse, fun _ _ _ => report_normalize⟩

/-- A version with wildcards behind a sign in a list, and a branch as the source of an alias. The
    first report has advice, the second one a hint. -/
theorem reports_point_into_input_wildcard :
    (∃ E C, (Expression.parse "=1.0 >= v1.x").outcome = .error (.parse E) ∧ E.cause? = some C ∧
      E.fragment = ">= v1.x" ∧ C.fragment = "v1.x" ∧ E.PointsInto "=1.0 >= v1.x".toList ∧
      E.hint? = some ("wildcard versions cannot be combined with an operator, "
        ++ "use v1.x or >=v1 instead")) ∧
    ∃ E source, (normalize "foo as 2.0" none).outcome = .error E ∧
      AliasOf source "foo as 2.0".toList ∧ E.fragment.toList = withoutBuild source := by
  obtain ⟨hexpression, hversion⟩ := reports_point_into_input
  have hparse : ∃ E C, (Expression.parse "=1.0 >= v1.x").outcome = .error (.parse E) ∧
      E.cause? = some C ∧ E.fragment = ">= v1.x" ∧ C.fragment = "v1.x" :=
    ⟨_, _, rfl, rfl, rfl, rfl⟩
  obtain ⟨E, C, houtcome, hcause, hwhole, hpart⟩ := hparse
  have hpoints := hexpression _ _ houtcome
  have hsigned : Term.IsSignedWildcard ⟨">=".toList, .ge⟩ "v1.x".toList E.fragment.toList :=
    hwhole ▸ ⟨by decide, by decide, [' '], by decide, by decide⟩
  -- A source that is no version is explained in the report of the alias.
  have hnormalize : ∃ E hint, (normalize "foo as 2.0" none).outcome = .error E ∧
      E.hint? = some hint := ⟨_, _, rfl, rfl⟩
  obtain ⟨F, hint, hreport, hsome⟩ := hnormalize
  obtain ⟨-, hexplained⟩ := hversion _ _ _ hreport
  obtain ⟨source, halias, hfragment⟩ := hexplained rfl hint hsome
  refine ⟨⟨E, C, houtcome, hcause, hwhole, hpart, hpoints, ?_⟩, F, source, hreport, halias,
    hfragment⟩
  rw [hpoints.advice C hcause _ _ hsigned]
  decide

end VersionRange
