import VersionRange.Proofs.Canonical.Group
import VersionRange.Proofs.Expression.Parse
import VersionRange.Proofs.Text.Readable

namespace VersionRange

/-!
# The parts of an expression

Alternatives, terms and the versions in them are all cut out of the text of the expression.

* `isPrefix_of_splitFlag?`, `isPrefix_of_versionOfReference?`, `Expression.isPrefix_body`: what is
  in front of a flag and a reference.
* `infix_of_mem_splitAlternatives`, `infix_of_mem_splitTerms`: the pieces between separators.
* `Term.OfText`, `Term.ofText_read`: the forms of terms, each with the reader that finds it.
* `Term.IsWithin`, `Term.isWithin_read`: the texts and numbers that are written in a term.
-/

variable {s t : List Char}

/-! ### Flags and references -/

/-- In front of a flag stands the front of the text. The flag is looked for at the end. -/
theorem isPrefix_of_splitFlag? {front flag : List Char} (h : splitFlag? s = some (front, flag)) :
    front <+: s := by
  unfold splitFlag? Text.cutLast at h
  cases hcut : Text.cut '@' s.reverse with
  | mk back rest =>
    cases rest with
    | none =>
      rw [hcut] at h
      cases h
    | some lead =>
      rw [hcut] at h
      dsimp only at h
      split at h
      case isTrue =>
        cases h
        obtain ⟨hrev, -⟩ := Text.eq_append_of_cut hcut
        -- The text is cut from its end, so the front is what the reversed text has behind the
        -- mark.
        rw [← List.reverse_suffix, List.reverse_reverse, hrev]
        exact ⟨back ++ ['@'], by simp⟩
      case isFalse => cases h

/-- A branch in front of its reference is the front of the text, with its `dev-` as it is
    written. -/
theorem isPrefix_of_namedBranch? {b : Referenced} (h : namedBranch? s = some b) :
    b.version <+: s := by
  simp only [namedBranch?, Option.bind_eq_bind, Option.bind_eq_some_iff] at h
  obtain ⟨⟨lead, r⟩, hlead, h⟩ := h
  obtain ⟨rfl, -⟩ := Text.eq_append_of_keywordLead? hlead
  cases r with
  | nil => cases h
  | cons c r =>
    simp only [Option.bind_eq_some_iff] at h
    obtain ⟨-, -, h⟩ := h
    split at h
    case h_1 reference hdrop =>
      cases h
      refine ⟨'#' :: reference, ?_⟩
      rw [List.append_assoc, List.cons_append, ← hdrop, List.takeWhile_append_dropWhile]
    case h_2 => cases h

/-- So is the end of a numeric branch in front of a reference: the point, the wildcard and
    `-dev`. -/
theorem isPrefix_of_openEnd? {b : Referenced} (h : openEnd? s = some b) : b.version <+: s := by
  unfold openEnd? at h
  split at h
  case h_1 w r =>
    simp only [Option.bind_eq_bind, Option.bind_eq_some_iff] at h
    obtain ⟨-, -, ⟨dev, rest⟩, hlead, h⟩ := h
    obtain ⟨rfl, -⟩ := Text.eq_append_of_keywordLead? hlead
    split at h
    case h_1 reference heq =>
      cases heq
      cases h
      exact ⟨'#' :: reference, by simp⟩
    case h_2 => cases h
  case h_2 => cases h

/-- So is the whole numeric branch, by induction on the characters in front of that end. -/
theorem isPrefix_of_openBranch? {b : Referenced} (h : openBranch? s = some b) :
    b.version <+: s := by
  induction s generalizing b with
  | nil => cases h
  | cons c r ih =>
    simp only [openBranch?, Option.bind_eq_bind, Option.bind_eq_some_iff, Option.pure_def,
      Option.some.injEq] at h
    obtain ⟨-, -, b', hb, rfl⟩ := h
    rw [List.prefix_cons_inj]
    rw [Option.orElse_eq_orElse, Option.orElse_eq_or, Option.or_eq_some_iff] at hb
    rcases hb with hb | ⟨-, hb⟩
    · exact isPrefix_of_openEnd? hb
    · exact ih hb

/-- In any case a version in front of a reference is the front of the text. -/
theorem isPrefix_of_versionOfReference? {v : List Char} (h : versionOfReference? s = some v) :
    v <+: s := by
  simp only [versionOfReference?, Option.orElse_eq_orElse, Option.orElse_eq_or,
    Option.or_eq_some_iff, Option.bind_eq_some_iff, Option.ite_none_left_eq_some,
    Option.some.injEq] at h
  rcases h with ⟨b, hb, -, rfl⟩ | ⟨-, b, hb, -, rfl⟩
  · exact isPrefix_of_namedBranch? hb
  · exact isPrefix_of_openBranch? hb

/-- What is parsed stands at the front of the expression, unless the expression is a flag alone.
    Such a flag stands for a wildcard. -/
theorem Expression.isPrefix_body (e : String) : body e <+: ['*'] ∨ body e <+: e.toList := by
  have hfront : body e <+: withoutFlag e.toList := by
    unfold body
    cases hreference : versionOfReference? (withoutFlag e.toList) with
    | none => exact List.prefix_refl _
    | some version => exact isPrefix_of_versionOfReference? hreference
  unfold withoutFlag at hfront
  split at hfront
  case h_1 => exact .inl hfront
  case h_2 front flag _ hflag => exact .inr (hfront.trans (isPrefix_of_splitFlag? hflag))
  case h_3 => exact .inr hfront

/-! ### Alternatives -/

/-- The texts between bars are pieces of the expression, in order. -/
theorem piecesOf_splitBars (s : List Char) : PiecesOf s (splitBars s) := by
  fun_induction splitBars s with
  | case1 => exact ⟨by simp, by simp⟩
  | case2 r ih => exact ih.start ⟨['|', '|'], [], by simp⟩
  | case3 r _ ih => exact ih.start (List.suffix_cons '|' r).isInfix
  | case4 c r _ _ hr => exact absurd hr (splitBars_ne_nil r)
  | case5 c r _ _ piece pieces hr ih =>
    rw [hr] at ih
    exact ih.extend c

/-- An alternative is part of the expression. -/
theorem infix_of_mem_splitAlternatives (h : t ∈ splitAlternatives s) : t <:+: s := by
  obtain ⟨p, hp, rfl⟩ := List.mem_map.1 h
  have hpiece := (piecesOf_splitBars (Text.trim s)).parts p hp
  exact (infix_trim p).trans (hpiece.trans (infix_trim s))

/-! ### Terms -/

/-- A term goes on where it was, or it starts behind the separator that is skipped. -/
theorem infix_of_mem_splitTermsFrom {skip : Nat} {before : List Char}
    (hskip : skip = 0 ∨ before = []) (h : t ∈ splitTermsFrom skip before s) :
    t <:+: before.reverse ++ s := by
  induction s generalizing skip before with
  | nil =>
    obtain rfl : t = before.reverse := by
      cases skip <;> simpa [splitTermsFrom] using h
    exact (List.prefix_append _ _).isInfix
  | cons c r ih =>
    cases skip with
    -- In a separator there is no term yet, so nothing has been collected.
    | succ n =>
      obtain rfl := hskip.resolve_left (by simp)
      exact List.infix_cons (ih (.inr rfl) h)
    | zero =>
      simp only [splitTermsFrom] at h
      split at h
      case h_1 n _ =>
        rcases List.mem_cons.1 h with rfl | h
        · exact (List.prefix_append _ _).isInfix
        · have hbehind : t <:+: r := ih (.inr rfl) h
          exact hbehind.trans ⟨before.reverse ++ [c], [], by simp⟩
      case h_2 =>
        have hgrown := ih (.inl rfl) h
        rwa [List.reverse_cons, List.append_assoc] at hgrown

/-- A term is part of its alternative. -/
theorem infix_of_mem_splitTerms (h : t ∈ splitTerms s) : t <:+: s :=
  infix_of_mem_splitTermsFrom (.inl rfl) h

namespace Term

/-- A sign is read from the front of a text, or none is. -/
theorem readSign_cases (s : List Char) :
    readSign s = (⟨[], .eq⟩, s) ∨
      (readSign s).1 ∈ signs ∧ s = (readSign s).1.chars ++ (readSign s).2 := by
  unfold readSign
  cases h : signs.findSome? fun sign => (Text.afterLead? sign.chars s).map fun r => (sign, r) with
  | none => exact .inl rfl
  | some p =>
    obtain ⟨sign, hmem, hsign⟩ := List.exists_of_findSome?_eq_some h
    obtain ⟨r, hr, rfl⟩ := Option.map_eq_some_iff.1 hsign
    exact .inr ⟨hmem, Text.afterLead?_eq_some_iff.1 hr⟩

/-- Behind a sign stands the end of the term. -/
theorem readSign_suffix (s : List Char) : (readSign s).2 <:+ s := by
  rcases readSign_cases s with hnone | ⟨-, hs⟩
  · simp only [hnone, List.suffix_refl]
  · exact ⟨_, hs.symm⟩

/-- The groups in front of wildcards stand at the front of the text, and nothing but the wildcards
    stands behind them. -/
theorem eq_dotted_of_wildcardGroups? {gs : List (List Char)} (h : wildcardGroups? s = some gs) :
    ∃ t, skipV s = dotted gs ++ t ∧ isWildcardTail t = true ∧ gs ≠ [] ∧ gs.length ≤ 3 ∧
      ∀ g ∈ gs, IsGroup g := by
  cases hread : readGroups 2 ((skipV s).dropWhile Text.isDigit) with
  | mk ks t =>
    simp only [wildcardGroups?, hread] at h
    split at h
    case isTrue hmajor =>
      cases h
      simp only [Bool.and_eq_true, Bool.not_eq_true', List.isEmpty_eq_false_iff] at hmajor
      obtain ⟨hsplit, hlen, hgs⟩ := readGroups_sound_dotted hread hmajor.1
      exact ⟨t, hsplit, hmajor.2, List.cons_ne_nil _ _, Nat.succ_le_succ hlen, hgs⟩
    case isFalse => cases h

/-! ### What is written in a term -/

/-- The texts that a term was read from. They are what is normalized for its bounds. -/
def texts : Term → List (List Char)
  | anything | wildcard _ => []
  | tilde v | caret v => [v.chars]
  | hyphen low high => [low.chars, high.chars]
  | comparison _ version => [version]

/-- The numeric groups that a range is computed from. A comparison is computed from no numbers. -/
def numbers : Term → List (List Char)
  | anything | comparison _ _ => []
  | tilde v | caret v => v.version.groups
  | wildcard groups => groups
  | hyphen low high => low.version.groups ++ high.version.groups

/-- The texts and numbers in a term stand in the text `s`, so what holds of every part of `s` holds
    of them. -/
structure IsWithin (s : List Char) (t : Term) : Prop where
  texts : ∀ u ∈ t.texts, u <:+: s
  numbers : ∀ g ∈ t.numbers, IsGroup g ∧ g <:+: s

/-- A version that is read from a part of a text stands in the text, and so do its groups. -/
theorem within_of_spelled? {v : Spelled} (h : spelled? t = some v) (ht : t <:+: s) :
    v.chars <:+: s ∧ ∀ g ∈ v.version.groups, IsGroup g ∧ g <:+: s := by
  obtain ⟨w, hw, rfl⟩ := Option.map_eq_some_iff.1 h
  obtain ⟨r, hsplit, -, -, hgroups, -, -⟩ := Written.exists_of_read? hw
  have hrow : dotted w.groups <:+: s :=
    (List.prefix_append _ r).isInfix.trans ((hsplit ▸ (skipV_suffix t).isInfix).trans ht)
  exact ⟨ht, fun g hg => ⟨hgroups g hg, (infix_dotted hg).trans hrow⟩⟩

/-- The version of what was read is that of its own text. -/
theorem read?_of_spelled? {v : Spelled} (h : spelled? t = some v) :
    Written.read? v.chars = some v.version := by
  obtain ⟨w, hw, rfl⟩ := Option.map_eq_some_iff.1 h
  exact hw

/-- Behind a character nothing but a version is read. -/
theorem exists_of_behind? {v : Spelled} {c : Char} (h : behind? c s = some v) :
    ∃ r, s = c :: r ∧ spelled? r = some v := by
  unfold behind? at h
  split at h
  case h_1 => cases h
  case h_2 d r =>
    rw [Option.ite_none_right_eq_some] at h
    obtain ⟨rfl, hr⟩ := h
    exact ⟨r, rfl, hr⟩

/-- The same holds of a version behind the sign of a range. -/
theorem within_of_behind? {v : Spelled} {c : Char} (h : behind? c s = some v) :
    v.chars <:+: s ∧ ∀ g ∈ v.version.groups, IsGroup g ∧ g <:+: s := by
  obtain ⟨r, rfl, hr⟩ := exists_of_behind? h
  exact within_of_spelled? hr (List.suffix_cons c r).isInfix

/-- The groups in front of wildcards stand in the text. -/
theorem within_of_wildcardGroups? {gs : List (List Char)} (h : wildcardGroups? s = some gs) :
    ∀ g ∈ gs, IsGroup g ∧ g <:+: s := by
  obtain ⟨r, hsplit, -, -, -, hgroups⟩ := eq_dotted_of_wildcardGroups? h
  have hrow : dotted gs <:+: s :=
    (List.prefix_append _ r).isInfix.trans (hsplit ▸ (skipV_suffix s).isInfix)
  exact fun g hg => ⟨hgroups g hg, (infix_dotted hg).trans hrow⟩

/-- The two ends of a hyphen range stand in its text, the upper one behind the hyphen. Between them
    there is nothing but spaces and the hyphen. -/
theorem exists_of_hyphen? {low high : Spelled} (h : hyphen? s = some (low, high)) :
    ∃ u w, spelled? u = some low ∧ spelled? w = some high ∧ u <+: s ∧ w <:+ s := by
  simp only [hyphen?, Option.bind_eq_bind, Option.bind_eq_some_iff] at h
  obtain ⟨low', hlow, h⟩ := h
  split at h
  case h_1 r hr =>
    obtain ⟨high', hhigh, h⟩ := Option.bind_eq_some_iff.1 h
    cases h
    have hbehind : '-' :: ' ' :: r <:+ s :=
      hr ▸ (List.dropWhile_suffix _).trans (List.dropWhile_suffix _)
    have hrest : r.dropWhile (· == ' ') <:+ s :=
      (List.dropWhile_suffix _).trans (List.IsSuffix.trans ⟨['-', ' '], rfl⟩ hbehind)
    exact ⟨_, _, hlow, hhigh, List.takeWhile_prefix _, hrest⟩
  case h_2 => cases h

/-- Both ends of a hyphen range stand in the text. -/
theorem within_of_hyphen? {low high : Spelled} (h : hyphen? s = some (low, high)) :
    IsWithin s (hyphen low high) := by
  obtain ⟨u, w, hlow, hhigh, hu, hw⟩ := exists_of_hyphen? h
  obtain ⟨hchars, hgroups⟩ := within_of_spelled? hlow hu.isInfix
  obtain ⟨hchars', hgroups'⟩ := within_of_spelled? hhigh hw.isInfix
  refine ⟨?_, fun g hg => (List.mem_append.1 hg).elim (hgroups g) (hgroups' g)⟩
  simpa [texts] using ⟨hchars, hchars'⟩

/-- How a term is read from the text `s`. The forms are those of the reader, in the sequence in
    which it tries them, and each one comes with what the reader has found. -/
inductive OfText (s : List Char) : Term → Prop where
  | anything (h : isAnything s = true) : OfText s anything
  | tilde {v : Spelled} (h : behind? '~' s = some v) : OfText s (tilde v)
  | caret {v : Spelled} (h : behind? '^' s = some v) : OfText s (caret v)
  | wildcard {gs : List (List Char)} (h : wildcardGroups? s = some gs) : OfText s (wildcard gs)
  | hyphen {low high : Spelled} (h : hyphen? s = some (low, high)) : OfText s (hyphen low high)
  | comparison :
      OfText s (comparison (readSign s).1 ((readSign s).2.dropWhile Text.isBlank))

/-- The term that is read from a text has one of the six forms. -/
theorem ofText_read (s : List Char) : OfText s (read s) := by
  unfold read
  split
  case isTrue hanything => exact .anything hanything
  case isFalse =>
    cases hform : (behind? '~' s).map tilde
        <|> (behind? '^' s).map caret
        <|> (wildcardGroups? s).map wildcard
        <|> (hyphen? s).map fun p => hyphen p.1 p.2 with
    | none => exact .comparison
    | some t =>
      rw [Option.getD_some]
      simp only [Option.orElse_eq_orElse, Option.orElse_eq_or, Option.or_eq_some_iff,
        Option.map_eq_some_iff] at hform
      -- The forms are tried in this order, and the first one that fits is taken.
      rcases hform with ⟨v, hv, rfl⟩ | ⟨-, ⟨v, hv, rfl⟩ | ⟨-, ⟨gs, hgs, rfl⟩ | ⟨-, p, hp, rfl⟩⟩⟩
      · exact .tilde hv
      · exact .caret hv
      · exact .wildcard hgs
      · exact .hyphen hp

/-- In each form all that is read stands in the text. The sign and what separates are left out. -/
theorem OfText.isWithin {u : Term} (h : OfText s u) : IsWithin s u := by
  cases h with
  | anything => exact ⟨by simp [texts], by simp [numbers]⟩
  | tilde h =>
    obtain ⟨hchars, hgroups⟩ := within_of_behind? h
    exact ⟨by simpa [texts] using hchars, hgroups⟩
  | caret h =>
    obtain ⟨hchars, hgroups⟩ := within_of_behind? h
    exact ⟨by simpa [texts] using hchars, hgroups⟩
  | wildcard h => exact ⟨by simp [texts], within_of_wildcardGroups? h⟩
  | hyphen h => exact within_of_hyphen? h
  | comparison =>
    refine ⟨?_, by simp [numbers]⟩
    simpa [texts] using ((List.dropWhile_suffix _).trans (readSign_suffix s)).isInfix

/-- All that is in a term stands in its text, and the numbers in it are numeric groups. -/
theorem isWithin_read (s : List Char) : IsWithin s (read s) := (ofText_read s).isWithin

end Term

end VersionRange
