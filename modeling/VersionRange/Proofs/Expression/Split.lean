import VersionRange.Expression.Split

namespace VersionRange

/-!
# Where an expression is cut

Alternatives are cut at bars, and terms where spaces or a comma stand between the end of one term
and the start of the next.  The lemmas here follow the reader character by character.

* `splitBars_append_bar`: a piece without bars in front of a bar is cut off.
* `gap?_of_ne`, `splitTermsFrom_solid`: nothing is cut inside a word.
* `splitTermsFrom_spaces`, `splitTermsFrom_hyphen`: nothing is cut behind an operator or around the
  hyphen of a range.
* `Joint`: what stands between two terms; `splitTermsFrom_joint`: there they are cut.
-/

/-! ### Bars -/

/-- A character that is no bar joins the first text. The texts behind the next bar stay as they
    are. -/
theorem splitBars_cons_of_ne {c : Char} {r : List Char} (h : c ≠ '|') :
    splitBars (c :: r) = (splitBars r).modifyHead (c :: ·) := by
  have hne := splitBars_ne_nil r
  rw [splitBars]
  · cases hr : splitBars r with
    | nil => exact absurd hr hne
    | cons piece pieces => rfl
  · rintro t heq -
    exact h heq
  · rintro heq
    exact h heq

/-- A text without bars is one piece. -/
theorem splitBars_of_not_mem {s : List Char} (h : '|' ∉ s) : splitBars s = [s] := by
  induction s with
  | nil => rfl
  | cons c r ih =>
    rw [List.mem_cons, not_or] at h
    rw [splitBars_cons_of_ne (Ne.symm h.1), ih h.2]
    rfl

/-- One bar, or two. Both mean the same. -/
def barChars (double : Bool) : List Char := if double then ['|', '|'] else ['|']

/-- A piece without bars is cut off at the bar behind it. One bar and two of them do the same, if
    no third one follows. -/
theorem splitBars_append_bar {s t : List Char} (double : Bool) (hs : '|' ∉ s)
    (ht : t.head? ≠ some '|') : splitBars (s ++ barChars double ++ t) = s :: splitBars t := by
  induction s with
  | nil =>
    cases double with
    | true => rfl
    | false =>
      show splitBars ('|' :: t) = [] :: splitBars t
      rw [splitBars]
      rintro r rfl
      exact ht rfl
  | cons c r ih =>
    rw [List.mem_cons, not_or] at hs
    rw [List.cons_append, List.cons_append, splitBars_cons_of_ne (Ne.symm hs.1), ih hs.2]
    rfl

/-! ### Inside a term -/

/-- Spaces in front of something else are counted to the last one. Other white space is something
    else. -/
theorem spacesAhead_replicate {n : Nat} {t : List Char} (h : t.head? ≠ some ' ') :
    spacesAhead (List.replicate n ' ' ++ t) = (n, t) := by
  have htake : t.takeWhile (· == ' ') = [] ∧ t.dropWhile (· == ' ') = t := by
    cases t with
    | nil => exact ⟨rfl, rfl⟩
    | cons c r =>
      have hc : (c == ' ') = false := by simpa using h
      exact ⟨by rw [List.takeWhile_cons, hc]; rfl, by rw [List.dropWhile_cons, hc]; rfl⟩
  have hspaces : ∀ c ∈ List.replicate n ' ', (c == ' ') = true := by
    intro c hc
    rw [List.eq_of_mem_replicate hc]
    rfl
  rw [spacesAhead, List.takeWhile_append_of_pos hspaces, List.dropWhile_append_of_pos hspaces,
    htake.1, htake.2]
  simp

/-- Without a comma there is no separator with one. -/
theorem commaGap?_of_ne {afterHyphen : Bool} {n : Nat} {s : List Char} (h : s.head? ≠ some ',') :
    commaGap? afterHyphen n s = none := by
  unfold commaGap?
  split
  case h_1 => exact absurd rfl h
  case h_2 => rfl

/-- There is no separator in front of a character that is neither a space nor a comma. Every
    separator begins with one of the two. -/
theorem gap?_of_ne {before r : List Char} {c : Char} (hspace : c ≠ ' ') (hcomma : c ≠ ',') :
    gap? before (c :: r) = none := by
  have hspaces : spacesAhead (c :: r) = (0, c :: r) := by
    have := spacesAhead_replicate (n := 0) (t := c :: r) (by simpa using hspace)
    simpa using this
  have hcommaGap : commaGap? (hyphenAhead before) 0 (c :: r) = none :=
    commaGap?_of_ne (by simpa using hcomma)
  unfold gap?
  split
  · rfl
  · rw [hspaces]
    simp only [hcommaGap]
    simp [spaceGap?]

/-- Where nothing separates the next character joins the current term. -/
theorem splitTermsFrom_of_none {before r : List Char} {c : Char}
    (h : gap? before (c :: r) = none) :
    splitTermsFrom 0 before (c :: r) = splitTermsFrom 0 (c :: before) r := by
  rw [splitTermsFrom, h]

/-- A text without spaces and commas belongs to one term. It is read character by character, behind
    what was read before. -/
theorem splitTermsFrom_solid {u : List Char} (before w : List Char)
    (h : ∀ c ∈ u, c ≠ ' ' ∧ c ≠ ',') :
    splitTermsFrom 0 before (u ++ w) = splitTermsFrom 0 (u.reverse ++ before) w := by
  induction u generalizing before with
  | nil => rfl
  | cons c u ih =>
    obtain ⟨hspace, hcomma⟩ := h c (by simp)
    have hstep : splitTermsFrom 0 before (c :: (u ++ w))
        = splitTermsFrom 0 (c :: before) (u ++ w) :=
      splitTermsFrom_of_none (gap?_of_ne hspace hcomma)
    rw [List.cons_append, hstep, ih (c :: before) fun d hd => h d (by simp [hd])]
    simp

/-- Where no term can end, spaces belong to the term. So there may be blanks behind the sign of a
    comparison. -/
theorem splitTermsFrom_spaces {before : List Char} (n : Nat) (w : List Char)
    (h : canEnd before = false) :
    splitTermsFrom 0 before (List.replicate n ' ' ++ w)
      = splitTermsFrom 0 (List.replicate n ' ' ++ before) w := by
  induction n generalizing before with
  | zero => rfl
  | succ n ih =>
    have hgap : gap? before (' ' :: (List.replicate n ' ' ++ w)) = none := by
      simp [gap?, h]
    have hend : canEnd (' ' :: before) = false := by simp [canEnd]
    have hmove : List.replicate n ' ' ++ ' ' :: before = List.replicate (n + 1) ' ' ++ before := by
      rw [List.replicate_succ', List.append_assoc]
      rfl
    rw [List.replicate_succ, List.cons_append, splitTermsFrom_of_none hgap, ih hend, hmove]
    rfl

/-- The hyphen of a range belongs to the term, with the spaces around it. No separator begins in
    front of a hyphen or behind one. -/
theorem splitTermsFrom_hyphen (before : List Char) {w : List Char} (hspace : w.head? ≠ some ' ')
    (hcomma : w.head? ≠ some ',') :
    splitTermsFrom 0 before (" - ".toList ++ w)
      = splitTermsFrom 0 (" - ".toList.reverse ++ before) w := by
  have hfirst : gap? before (' ' :: '-' :: ' ' :: w) = none := by
    have hspaces : spacesAhead (' ' :: '-' :: ' ' :: w) = (1, '-' :: ' ' :: w) :=
      spacesAhead_replicate (n := 1) (t := '-' :: ' ' :: w) (by simp)
    unfold gap?
    split
    · rfl
    · rw [hspaces]
      -- One space does not separate in front of a hyphen.
      simp [commaGap?, spaceGap?, canStart, hyphenAhead]
  have hsecond : gap? ('-' :: ' ' :: before) (' ' :: w) = none := by
    have hspaces : spacesAhead (' ' :: w) = (1, w) := spacesAhead_replicate (n := 1) hspace
    have hcommaGap : commaGap? (hyphenAhead ('-' :: ' ' :: before)) 1 w = none :=
      commaGap?_of_ne hcomma
    unfold gap?
    split
    · rfl
    · rw [hspaces]
      simp only [hcommaGap]
      -- Nor does it behind one.
      simp [spaceGap?, hyphenAhead]
  show splitTermsFrom 0 before (' ' :: '-' :: ' ' :: w) = _
  rw [splitTermsFrom_of_none hfirst,
    splitTermsFrom_of_none (gap?_of_ne (by decide) (by decide)),
    splitTermsFrom_of_none hsecond]
  rfl

/-- The word `as` of an alias belongs to the term, with the spaces around it. No term starts with
    the word, and none ends with it. -/
theorem splitTermsFrom_alias (before w : List Char) :
    splitTermsFrom 0 before (" as ".toList ++ w)
      = splitTermsFrom 0 (" as ".toList.reverse ++ before) w := by
  have hfirst : gap? before (' ' :: 'a' :: 's' :: ' ' :: w) = none := by
    have hspaces : spacesAhead (' ' :: 'a' :: 's' :: ' ' :: w) = (1, 'a' :: 's' :: ' ' :: w) :=
      spacesAhead_replicate (n := 1) (t := 'a' :: 's' :: ' ' :: w) (by simp)
    unfold gap?
    split
    · rfl
    · rw [hspaces]
      -- No term starts with the word.
      simp [commaGap?, spaceGap?, canStart]
  have hsecond : gap? ('s' :: 'a' :: ' ' :: before) (' ' :: w) = none := by
    -- No term ends with it.
    simp [gap?, canEnd]
  show splitTermsFrom 0 before (' ' :: 'a' :: 's' :: ' ' :: w) = _
  rw [splitTermsFrom_of_none hfirst, splitTermsFrom_of_none (gap?_of_ne (by decide) (by decide)),
    splitTermsFrom_of_none (gap?_of_ne (by decide) (by decide)), splitTermsFrom_of_none hsecond]
  rfl

/-! ### Between terms -/

/-- What stands between two terms. Any numbers make a joint, so there is nothing to prove about
    one. -/
inductive Joint where
  /-- Spaces, one more than `n`. -/
  | spaces (n : Nat)
  /-- One comma with any number of spaces in front of it and behind it. -/
  | comma (before after : Nat)

/-- The joint in writing. -/
def Joint.chars : Joint → List Char
  | spaces n => List.replicate (n + 1) ' '
  | comma m n => List.replicate m ' ' ++ ',' :: List.replicate n ' '

/-- A joint as long as with more spaces behind it. Where a term starts with spaces, its joint is
    read with them. -/
def Joint.widen : Joint → Nat → Joint
  | spaces n, k => spaces (n + k)
  | comma m n, k => comma m (n + k)

/-- Widening a joint adds spaces at its end. A joint with a comma has them behind the comma. -/
theorem Joint.chars_widen (j : Joint) (k : Nat) :
    (j.widen k).chars = j.chars ++ List.replicate k ' ' := by
  cases j with
  | spaces n =>
    show List.replicate (n + k + 1) ' ' = List.replicate (n + 1) ' ' ++ List.replicate k ' '
    rw [List.replicate_append_replicate]
    congr 1
    omega
  | comma m n =>
    show _ ++ ',' :: List.replicate (n + k) ' ' = (_ ++ ',' :: List.replicate n ' ') ++ _
    rw [List.append_assoc, List.cons_append, List.replicate_append_replicate]

/-- A text that begins otherwise does not begin with a hyphen. -/
theorem hyphenAhead_of_ne {c : Char} {r : List Char} (h : c ≠ '-') :
    hyphenAhead (c :: r) = false := by
  unfold hyphenAhead
  split
  case h_1 t heq => exact absurd (List.cons.inj heq).1 h
  case h_2 => rfl

/-- A term may start with anything but a comma or the word `as`. -/
theorem canStart_of_ne {c : Char} {r : List Char} (hcomma : c ≠ ',')
    (has : ∀ t, c = 'a' → r ≠ 's' :: t) : canStart (c :: r) = true := by
  unfold canStart
  split
  case h_1 heq => cases heq
  case h_2 t heq =>
    obtain ⟨ha, hr⟩ := List.cons.inj heq
    exact absurd hr (has t ha)
  case h_3 d t _ heq =>
    obtain ⟨rfl, -⟩ := List.cons.inj heq
    simpa using hcomma

/-- A term may end with anything but an operator, a space, a comma or the word `as`. -/
theorem canEnd_of_ne {c : Char} {r : List Char} (hc : c ∉ ['=', '>', '<', ' ', ','])
    (has : ∀ t, c = 's' → r ≠ 'a' :: t) : canEnd (c :: r) = true := by
  unfold canEnd
  split
  case h_1 heq => cases heq
  case h_2 t heq =>
    obtain ⟨hs, hr⟩ := List.cons.inj heq
    exact absurd hr (has t hs)
  case h_3 d t _ heq =>
    obtain ⟨rfl, -⟩ := List.cons.inj heq
    simpa [and_assoc] using hc

/-- A text that a term may start with. In front of any other text a separator is read as a part of
    the term before it, or stands somewhere else. -/
structure Starts (t : List Char) : Prop where
  start : canStart t = true
  hyphen : hyphenAhead t = false
  space : t.head? ≠ some ' '

/-- What a term may end with, from the last character back, since the reader looks back from a
    separator. -/
structure Ends (before : List Char) : Prop where
  stop : canEnd before = true
  hyphen : hyphenAhead before = false

/-- What starts a term does not begin with a comma. -/
theorem Starts.ne_comma {t : List Char} (h : Starts t) : t.head? ≠ some ',' := by
  intro hcomma
  have := h.start
  cases t with
  | nil => cases hcomma
  | cons c r =>
    obtain rfl : c = ',' := by simpa using hcomma
    simp [canStart] at this

/-- A joint between two terms is their separator. It is taken as a whole, with all of its
    spaces. -/
theorem gap?_joint {before t : List Char} (j : Joint) (hb : Ends before) (ht : Starts t) :
    gap? before (j.chars ++ t) = some j.chars.length := by
  have hend := hb.stop
  cases j with
  | spaces n =>
    have hspaces : spacesAhead ((Joint.spaces n).chars ++ t) = (n + 1, t) :=
      spacesAhead_replicate ht.space
    have hcommaGap : commaGap? (hyphenAhead before) (n + 1) t = none := commaGap?_of_ne ht.ne_comma
    simp only [gap?, hend, hspaces, hcommaGap]
    simp [spaceGap?, hb.hyphen, ht.start, ht.hyphen, Joint.chars]
  -- Spaces on either side of a comma belong to it.
  | comma m n =>
    have hspaces : spacesAhead ((Joint.comma m n).chars ++ t)
        = (m, ',' :: (List.replicate n ' ' ++ t)) := by
      have := spacesAhead_replicate (n := m) (t := ',' :: (List.replicate n ' ' ++ t)) (by simp)
      simpa [Joint.chars] using this
    have hbehind : hyphenAhead (List.replicate n ' ' ++ t) = false := by
      cases n with
      | zero => exact ht.hyphen
      | succ n => rfl
    have hrest : spacesAhead (List.replicate n ' ' ++ t) = (n, t) := spacesAhead_replicate ht.space
    simp only [gap?, hend, hspaces, commaGap?, hb.hyphen, hbehind, hrest, ht.start]
    simp [Joint.chars]
    omega

/-- At a separator the current term ends, and what is behind it is split on its own. Nothing of
    what was read before matters then. -/
theorem splitTermsFrom_of_gap {before s : List Char} {n : Nat}
    (h : gap? before s = some (n + 1)) :
    splitTermsFrom 0 before s = before.reverse :: splitTerms (s.drop (n + 1)) := by
  cases s with
  | nil =>
    exfalso
    unfold gap? at h
    split at h
    · cases h
    · simp [spacesAhead, commaGap?, spaceGap?] at h
  | cons c r =>
    rw [splitTermsFrom, h]
    show before.reverse :: splitTermsFrom n [] r = before.reverse :: splitTermsFrom 0 [] (r.drop n)
    rw [splitTermsFrom_skip n [] r]

/-- Two terms are cut apart at the joint between them. -/
theorem splitTermsFrom_joint {before t : List Char} (j : Joint) (hb : Ends before)
    (ht : Starts t) :
    splitTermsFrom 0 before (j.chars ++ t) = before.reverse :: splitTerms t := by
  obtain ⟨n, hn⟩ : ∃ n, j.chars.length = n + 1 := by
    cases j with
    | spaces n => exact ⟨n, by simp [Joint.chars]⟩
    | comma m n => exact ⟨m + n, by simp [Joint.chars]; omega⟩
  have hgap : gap? before (j.chars ++ t) = some (n + 1) := hn ▸ gap?_joint j hb ht
  rw [splitTermsFrom_of_gap hgap, ← hn, List.drop_left]

end VersionRange
