import Mathlib.Data.Option.Basic
import VersionRange.Proofs.Canonical.Group

namespace VersionRange

/-!
# Dates read back

* `numbered`: a text of numbers, each behind a mark or not.
* `readDate_append`: what is read as a date does not depend on the text behind its numbers.
* `IsDate`: a text that is a date as a whole; `isDate_map_pointed`: it stays one with points for all
  its marks.
* `dotted_dateGroups`, `dateGroups_dotted`: the groups of a date make it up, with points between
  them, and are found again.
-/

/-! ### Texts of numbers -/

/-- Whether a text consists of digits and of marks in front of digits. This is what is left to be
    read of a date after any number of its parts. -/
def numbered : List Char → Bool
  | [] => true
  | c :: r => numberAhead (c :: r) && numbered r

/-- A number at the front is there whatever follows. Only for the empty text can it make a
    difference. -/
theorem numberAhead_append {s : List Char} (t : List Char) (h : numberAhead s = true) :
    numberAhead (s ++ t) = true := by
  cases s with
  | nil => cases h
  | cons c r =>
    simp only [numberAhead, List.cons_append, Bool.or_eq_true, Bool.and_eq_true] at h ⊢
    rcases h with h | ⟨hm, hr⟩
    · exact Or.inl h
    · -- A mark is not the last character, so that the one behind it is still there.
      refine Or.inr ⟨hm, ?_⟩
      cases r with
      | nil => cases hr
      | cons => exact hr

/-- Two texts in which a digit follows each mark are such a text together. -/
theorem numbered_append {s t : List Char} (hs : numbered s = true) (ht : numbered t = true) :
    numbered (s ++ t) = true := by
  induction s with
  | nil => exact ht
  | cons c r ih =>
    simp only [numbered, Bool.and_eq_true] at hs
    simp only [List.cons_append, numbered, Bool.and_eq_true]
    exact ⟨numberAhead_append t hs.1, ih hs.2⟩

/-- The end of a text in which a digit follows each mark is such a text as well. -/
theorem numbered_of_append {s t : List Char} (h : numbered (s ++ t) = true) :
    numbered t = true := by
  induction s with
  | nil => exact h
  | cons c r ih =>
    simp only [List.cons_append, numbered, Bool.and_eq_true] at h
    exact ih h.2

/-- In a row of digits there is no mark at all. -/
theorem numbered_digits {s : List Char} (h : ∀ c ∈ s, Text.isDigit c = true) :
    numbered s = true := by
  induction s with
  | nil => rfl
  | cons c r ih =>
    simp [numbered, numberAhead, h c (by simp), ih fun d hd => h d (by simp [hd])]

/-- A mark in front of a digit. -/
theorem numbered_mark {c : Char} {s : List Char} (hc : isDateMark c = true)
    (hs : Marker.digitAhead s = true) (h : numbered s = true) : numbered (c :: s) = true := by
  simp [numbered, numberAhead, hc, hs, h]

/-- A row of digits begins with one. -/
theorem digitAhead_of_digits {s : List Char} (hne : s ≠ [])
    (h : ∀ c ∈ s, Text.isDigit c = true) : Marker.digitAhead s = true := by
  cases s with
  | nil => exact absurd rfl hne
  | cons c r => exact h c (by simp)

/-- Behind each point of dotted groups stands a group, which begins with a digit. So a row of
    groups could be a date as far as its marks go. -/
theorem numbered_dotted {gs : List (List Char)} (hgs : ∀ g ∈ gs, IsGroup g) :
    numbered (dotted gs) = true := by
  induction gs with
  | nil => rfl
  | cons g gs ih =>
    obtain ⟨hg, hd⟩ := hgs g (by simp)
    have ih' := ih fun h hh => hgs h (by simp [hh])
    cases gs with
    | nil => rw [dotted_singleton]; exact numbered_digits hd
    | cons h gs =>
      have htail : ∀ k ∈ h :: gs, IsGroup k := fun k hk => hgs k (by simp [List.mem_cons.1 hk])
      rw [dotted_cons_cons]
      exact numbered_append (numbered_digits hd)
        (numbered_mark (by decide) (digitAhead_dotted htail (by simp)) ih')

/-! ### Reading a date up to its end -/

section append

variable {t : List Char}

/-- The result of reading from a text with `t` behind it: what is found stays, and `t` is left over
    as well. -/
def followedBy (t : List Char) (p : List Char × List Char) : List Char × List Char :=
  (p.1, p.2 ++ t)

/-- A count of digits does not reach beyond text that begins with something else. It is met inside
    the text, or it is not met at all. -/
theorem readDigits_append (n : Nat) (s : List Char) (ht : Marker.digitAhead t = false) :
    readDigits n (s ++ t) = (readDigits n s).map (followedBy t) := by
  induction n generalizing s with
  | zero => rfl
  | succ n ih =>
    cases s with
    | nil =>
      cases t with
      | nil => rfl
      | cons c r =>
        have hc : Text.isDigit c = false := ht
        simp [readDigits, hc]
    | cons c r =>
      simp only [List.cons_append, readDigits, ih]
      split
      case isTrue => cases readDigits n r <;> rfl
      case isFalse => rfl

/-- Behind the numbers a mark does not help: there is no digit after it. So a date ends there,
    whatever parts it could still have. -/
theorem readDatePart_eq_none {n : Nat} (hn : 0 < n) (ht : numberAhead t = false) :
    readDatePart n t = none := by
  -- A part has a digit at least, which is what the reader looks for first.
  obtain ⟨n, rfl⟩ : ∃ m, n = m + 1 := ⟨n - 1, by omega⟩
  have stuck {r : List Char} (hr : Marker.digitAhead r = false) : readDigits (n + 1) r = none := by
    simpa [readDigits] using readDigits_append (n + 1) [] hr
  cases t with
  | nil => rfl
  | cons c r =>
    rw [readDatePart]
    split
    case isTrue hc =>
      have hr : Marker.digitAhead r = false := by
        simp only [numberAhead, hc, Bool.true_and, Bool.or_eq_false_iff] at ht
        exact ht.2
      rw [stuck hr]
      rfl
    case isFalse => exact stuck (digitAhead_of_numberAhead ht)

/-- A part of a date is the same with text behind it, unless a number continues there. A mark at
    the end of the text might else be taken with digits from behind. -/
theorem readDatePart_append {n : Nat} (s : List Char) (hn : 0 < n) (ht : numberAhead t = false) :
    readDatePart n (s ++ t) = (readDatePart n s).map (followedBy t) := by
  have hdigit := digitAhead_of_numberAhead ht
  cases s with
  | nil => exact readDatePart_eq_none hn ht
  | cons c r =>
    simp only [List.cons_append, readDatePart]
    split
    case isTrue =>
      rw [readDigits_append n r hdigit]
      cases readDigits n r <;> rfl
    case isFalse => exact readDigits_append n (c :: r) hdigit

/-- So are the pairs of digits behind the year, and the text stays behind what is left. -/
theorem readPairs_append (n : Nat) (s : List Char) (ht : numberAhead t = false) :
    readPairs n (s ++ t) = followedBy t (readPairs n s) := by
  induction n generalizing s with
  | zero => rfl
  | succ n ih =>
    rw [readPairs, readPairs, readDatePart_append s (by decide) ht]
    cases readDatePart 2 s with
    | none => rfl
    | some p => simp [ih, followedBy]

/-- So is the number of digits that may end a date. -/
theorem readFraction_append (s : List Char) (ht : numberAhead t = false) :
    readFraction (s ++ t) = followedBy t (readFraction s) := by
  -- Three digits are tried, then two, then one, and each try reads the same.
  simp only [readFraction, readDatePart_append s (by decide : 0 < 3) ht,
    readDatePart_append s (by decide : 0 < 2) ht, readDatePart_append s (by decide : 0 < 1) ht]
  cases readDatePart 3 s <;> cases readDatePart 2 s <;> cases readDatePart 1 s <;> rfl

/-- A date is read from its own numbers, whatever follows them. Each of its three parts is, one
    after the other. -/
theorem readDate_append (s : List Char) (ht : numberAhead t = false) :
    readDate (s ++ t) = (readDate s).map (followedBy t) := by
  simp only [readDate, readDigits_append 4 s (digitAhead_of_numberAhead ht)]
  cases readDigits 4 s with
  | none => rfl
  | some p =>
    simp only [Option.map_some, Option.bind_eq_bind, Option.bind_some, followedBy,
      readPairs_append 6 p.2 ht]
    cases hpairs : (readPairs 6 p.2).1 with
    | nil => rfl
    | cons c r =>
      simp only [readFraction_append _ ht, followedBy]
      rfl

end append

/-! ### Dates -/

/-- A text that is a date as a whole: the reader takes all of it and leaves nothing over. -/
def IsDate (s : List Char) : Prop := readDate s = some (s, [])

/-- What a reader of a part takes and what it leaves make up the text, and behind each mark that it
    takes a digit stands. -/
theorem readDatePart_sound {n : Nat} {s ds r : List Char} (hn : 0 < n)
    (h : readDatePart n s = some (ds, r)) : s = ds ++ r ∧ numbered ds = true := by
  cases s with
  | nil => cases h
  | cons c t =>
    rw [readDatePart] at h
    split at h
    case isTrue hc =>
      obtain ⟨p, hp, he⟩ := Option.map_eq_some_iff.1 h
      simp only [Prod.mk.injEq] at he
      obtain ⟨rfl, rfl⟩ := he
      have hp' : readDigits n t = some (p.1, p.2) := hp
      obtain ⟨heq, hlen, hd⟩ := eq_append_of_readDigits hp'
      have hne : p.1 ≠ [] := List.length_pos_iff.1 (by omega)
      exact ⟨by rw [heq, List.cons_append],
        numbered_mark hc (digitAhead_of_digits hne hd) (numbered_digits hd)⟩
    case isFalse =>
      obtain ⟨heq, -, hd⟩ := eq_append_of_readDigits h
      exact ⟨heq, numbered_digits hd⟩

/-- What is read as pairs is the front of the text, and each mark in it has a digit behind it. The
    induction is on how many pairs may come. -/
theorem readPairs_sound {n : Nat} {s ds r : List Char} (h : readPairs n s = (ds, r)) :
    s = ds ++ r ∧ numbered ds = true := by
  induction n generalizing s ds with
  | zero => cases h; exact ⟨rfl, rfl⟩
  | succ n ih =>
    rw [readPairs] at h
    split at h
    case h_1 => cases h; exact ⟨rfl, rfl⟩
    case h_2 pair r' hpair =>
      obtain ⟨heq, hpair'⟩ := readDatePart_sound (by decide) hpair
      have hr : (readPairs n r').2 = r := congrArg Prod.snd h
      have hrec : readPairs n r' = ((readPairs n r').1, r) := Prod.ext rfl hr
      obtain ⟨hr, hrest⟩ := ih hrec
      cases h
      exact ⟨by rw [heq, List.append_assoc, ← hr], numbered_append hpair' hrest⟩

/-- What is read as the last part is the front of the text, and a mark in it has a digit behind it.
    It may also be nothing. -/
theorem readFraction_sound {s ds r : List Char} (h : readFraction s = (ds, r)) :
    s = ds ++ r ∧ numbered ds = true := by
  unfold readFraction at h
  -- Three digits are tried first, then two, then one; each of them is a part of a date.
  cases h₃ : readDatePart 3 s with
  | some p =>
    obtain rfl : p = (ds, r) := by simpa [h₃] using h
    exact readDatePart_sound (by decide) h₃
  | none =>
    cases h₂ : readDatePart 2 s with
    | some p =>
      obtain rfl : p = (ds, r) := by simpa [h₃, h₂] using h
      exact readDatePart_sound (by decide) h₂
    | none =>
      cases h₁ : readDatePart 1 s with
      | some p =>
        obtain rfl : p = (ds, r) := by simpa [h₃, h₂, h₁] using h
        exact readDatePart_sound (by decide) h₁
      | none =>
        obtain ⟨rfl, rfl⟩ : [] = ds ∧ s = r := by simpa [h₃, h₂, h₁] using h
        exact ⟨rfl, rfl⟩

/-- The parts of a date. -/
theorem readDate_eq_some {s d r : List Char} (h : readDate s = some (d, r)) :
    ∃ year s' pairs s'' fraction, readDigits 4 s = some (year, s') ∧
      readPairs 6 s' = (pairs, s'') ∧ pairs ≠ [] ∧ readFraction s'' = (fraction, r) ∧
      d = year ++ pairs ++ fraction := by
  simp only [readDate, Option.bind_eq_bind, Option.bind_eq_some_iff, Option.guard_eq_some',
    Option.pure_def, Option.some.injEq, Prod.mk.injEq] at h
  obtain ⟨⟨year, s'⟩, hyear, -, hne, rfl, hr⟩ := h
  rw [Bool.not_eq_true', List.isEmpty_eq_false_iff] at hne
  exact ⟨year, s', _, _, _, hyear, rfl, hne, Prod.ext rfl hr, rfl⟩

/-- What is read as a date is a text of numbers that starts with a digit. -/
theorem readDate_sound {s d r : List Char} (h : readDate s = some (d, r)) :
    s = d ++ r ∧ numbered d = true ∧ Marker.digitAhead d = true := by
  obtain ⟨year, s', pairs, s'', fraction, hyear, hpairs, -, hfraction, rfl⟩ := readDate_eq_some h
  obtain ⟨rfl, hlen, hd⟩ := eq_append_of_readDigits hyear
  obtain ⟨rfl, hpairs'⟩ := readPairs_sound hpairs
  obtain ⟨rfl, hfraction'⟩ := readFraction_sound hfraction
  refine ⟨by simp, numbered_append (numbered_append (numbered_digits hd) hpairs') hfraction', ?_⟩
  cases year with
  | nil => cases hlen
  | cons c y => exact hd c (by simp)

/-- What is read as a date is one, provided that no number goes on behind it. -/
theorem IsDate.of_readDate {s d r : List Char} (h : readDate s = some (d, r))
    (hr : numberAhead r = false) : IsDate d := by
  obtain ⟨rfl, -, -⟩ := readDate_sound h
  rw [readDate_append d hr] at h
  obtain ⟨p, hp, he⟩ := Option.map_eq_some_iff.1 h
  simp only [followedBy, Prod.mk.injEq, List.append_left_eq_self] at he
  rw [IsDate, hp, ← he.1, ← he.2]

/-! ### Points for all marks -/

/-- A digit as it is, and a point in place of anything else. -/
def pointed (c : Char) : Char := if Text.isDigit c then c else '.'

/-- Pointing leaves digits as they are and makes no others. -/
@[simp] theorem isDigit_pointed (c : Char) : Text.isDigit (pointed c) = Text.isDigit c := by
  unfold pointed
  split
  case isTrue => rfl
  case isFalse h =>
    rw [Bool.not_eq_true] at h
    rw [h]
    rfl

/-- A point is a mark of dates itself, so the reader sees marks in the same places. -/
theorem isDateMark_pointed {c : Char} (h : Text.isDigit c = true ∨ isDateMark c = true) :
    isDateMark (pointed c) = isDateMark c := by
  unfold pointed
  split
  case isTrue => rfl
  case isFalse hd =>
    rw [h.resolve_left hd]
    rfl

/-- The result of reading with points for all marks, both in what is found and in what is left
    over. -/
def mapPointed (p : List Char × List Char) : List Char × List Char :=
  (p.1.map pointed, p.2.map pointed)

/-- The same digits are read in the pointed text. Pointing changes marks only, and no mark is a
    digit before or afterwards. -/
theorem readDigits_map (n : Nat) (s : List Char) :
    readDigits n (s.map pointed) = (readDigits n s).map mapPointed := by
  induction n generalizing s with
  | zero => rfl
  | succ n ih =>
    cases s with
    | nil => rfl
    | cons c r =>
      simp only [List.map_cons, readDigits, isDigit_pointed, ih]
      split
      case isTrue => cases readDigits n r <;> rfl
      case isFalse => rfl

/-- A text of digits and marks of a date, in any sequence. -/
def IsMarked (s : List Char) : Prop := ∀ c ∈ s, Text.isDigit c = true ∨ isDateMark c = true

/-- The end of a text of digits and marks consists of digits and marks. -/
theorem IsMarked.of_append {s t : List Char} (h : IsMarked (s ++ t)) : IsMarked t :=
  fun c hc => h c (by simp [hc])

/-- A part of a date is read in the pointed text where it is read in the text itself. A mark at its
    front becomes another mark. -/
theorem readDatePart_map (n : Nat) {s : List Char} (hs : IsMarked s) :
    readDatePart n (s.map pointed) = (readDatePart n s).map mapPointed := by
  cases s with
  | nil => rfl
  | cons c r =>
    rw [List.map_cons, readDatePart, readDatePart, isDateMark_pointed (hs c (by simp))]
    split
    case isTrue =>
      rw [readDigits_map]
      cases readDigits n r <;> rfl
    case isFalse => exact readDigits_map n (c :: r)

/-- The pairs behind the year are read in the pointed text where they are read in the text itself.
    What is left behind them is still marked in the same way. -/
theorem readPairs_map (n : Nat) {s : List Char} (hs : IsMarked s) :
    readPairs n (s.map pointed) = mapPointed (readPairs n s) := by
  induction n generalizing s with
  | zero => rfl
  | succ n ih =>
    rw [readPairs, readPairs, readDatePart_map 2 hs]
    cases hp : readDatePart 2 s with
    | none => rfl
    | some p =>
      obtain ⟨pair, r⟩ := p
      obtain ⟨rfl, -⟩ := readDatePart_sound (by decide) hp
      simp [ih hs.of_append, mapPointed]

/-- And of the digits at the end. -/
theorem readFraction_map {s : List Char} (hs : IsMarked s) :
    readFraction (s.map pointed) = mapPointed (readFraction s) := by
  simp only [readFraction, readDatePart_map _ hs]
  cases readDatePart 3 s <;> cases readDatePart 2 s <;> cases readDatePart 1 s <;> rfl

/-- A text in which a digit follows each mark holds nothing but digits and marks. -/
theorem isMarked_of_numbered {s : List Char} (h : numbered s = true) : IsMarked s := by
  induction s with
  | nil => simp [IsMarked]
  | cons c r ih =>
    simp only [numbered, numberAhead, Bool.and_eq_true, Bool.or_eq_true] at h
    intro d hd
    rcases List.mem_cons.1 hd with rfl | hd
    · exact h.1.imp_right And.left
    · exact ih h.2 d hd

/-- **Pointing.** A date is read in the pointed text exactly where it is read in the text as it is
    written. -/
theorem readDate_map {s : List Char} (hs : IsMarked s) :
    readDate (s.map pointed) = (readDate s).map mapPointed := by
  simp only [readDate, readDigits_map]
  cases hyear : readDigits 4 s with
  | none => rfl
  | some p =>
    obtain ⟨year, s'⟩ := p
    obtain ⟨rfl, -⟩ := eq_append_of_readDigits hyear
    have hs₂ := hs.of_append
    have hpairs : readPairs 6 s' = ((readPairs 6 s').1, (readPairs 6 s').2) := rfl
    -- The marks that are left behind the pairs are still followed by digits, which the step below
    -- needs.
    obtain ⟨hsplit, -⟩ := readPairs_sound hpairs
    have hs₃ : IsMarked (readPairs 6 s').2 := by
      rw [hsplit] at hs₂
      exact hs₂.of_append
    simp only [Option.map_some, Option.bind_eq_bind, Option.bind_some, mapPointed,
      readPairs_map 6 hs₂, readFraction_map hs₃]
    cases hfirst : (readPairs 6 s').1 with
    | nil => rfl
    | cons c r => simp [mapPointed]

/-- A date stays one with points for all its marks. -/
theorem isDate_map_pointed {s : List Char} (h : IsDate s) : IsDate (s.map pointed) := by
  have hs := isMarked_of_numbered (readDate_sound h).2.1
  rw [IsDate, readDate_map hs, h]
  rfl

/-! ### Groups of a date -/

/-- The groups of a text, from one mark to the next. A canonical text joins them with points. -/
def dateGroups (s : List Char) : List (List Char) := s.splitOnP fun c => !Text.isDigit c

/-- A digit in front joins the first group, and a mark opens a new one. -/
theorem dateGroups_cons (c : Char) (r : List Char) :
    dateGroups (c :: r) =
      if Text.isDigit c then (dateGroups r).modifyHead (c :: ·) else [] :: dateGroups r := by
  rw [dateGroups, List.splitOnP_cons_eq_if_modifyHead]
  by_cases h : Text.isDigit c = true <;> simp [h, dateGroups]

/-- There is at least one group, even if it is empty. -/
theorem dateGroups_ne_nil (s : List Char) : dateGroups s ≠ [] := List.splitOnP_ne_nil _ _

/-- The groups of a text make it up, with points for all its marks. So a date comes back from its
    groups but for its marks. -/
theorem dotted_dateGroups (s : List Char) : dotted (dateGroups s) = s.map pointed := by
  induction s with
  | nil => rfl
  | cons c r ih =>
    rw [dateGroups_cons, List.map_cons, ← ih]
    cases hr : dateGroups r with
    | nil => exact absurd hr (dateGroups_ne_nil r)
    | cons g gs =>
      -- A digit goes on with the first group, anything else starts a group behind a point.
      by_cases h : Text.isDigit c = true
      · rw [if_pos h, List.modifyHead_cons, dotted_cons, dotted_cons]
        simp [pointed, h]
      · rw [if_neg h, dotted_cons_cons]
        simp [pointed, h]

/-- The first group of a text of numbers is empty only if a mark stands at the front. All others
    have a digit, as there is one behind each mark. -/
theorem dateGroups_of_numbered {s : List Char} (h : numbered s = true) :
    ∃ g gs, dateGroups s = g :: gs ∧ (∀ c ∈ g, Text.isDigit c = true) ∧
      (Marker.digitAhead s = true → g ≠ []) ∧ ∀ k ∈ gs, IsGroup k := by
  induction s with
  | nil => exact ⟨[], [], rfl, by simp, by simp [Marker.digitAhead], by simp⟩
  | cons c r ih =>
    simp only [numbered, numberAhead, Bool.and_eq_true, Bool.or_eq_true] at h
    obtain ⟨g, gs, hr, hg, hne, hgs⟩ := ih h.2
    rw [dateGroups_cons, hr]
    by_cases hc : Text.isDigit c = true
    · rw [if_pos hc]
      refine ⟨c :: g, gs, rfl, ?_, by simp, hgs⟩
      intro d hd
      rcases List.mem_cons.1 hd with rfl | hd
      · exact hc
      · exact hg d hd
    · rw [if_neg hc]
      -- Behind a mark there is a digit, so the next group is not empty.
      have hahead : Marker.digitAhead r = true := (h.1.resolve_left hc).2
      refine ⟨[], g :: gs, rfl, by simp, fun hd => absurd hd hc, ?_⟩
      intro k hk
      rcases List.mem_cons.1 hk with rfl | hk
      · exact ⟨hne hahead, hg⟩
      · exact hgs k hk

/-- Between two marks stands a digit at least, so no group is empty. -/
theorem isGroup_of_mem_dateGroups {s g : List Char} (h : numbered s = true)
    (hd : Marker.digitAhead s = true) (hg : g ∈ dateGroups s) : IsGroup g := by
  obtain ⟨g', gs, heq, hg', hne, hgs⟩ := dateGroups_of_numbered h
  rw [heq] at hg
  rcases List.mem_cons.1 hg with rfl | hg
  · exact ⟨hne hd, hg'⟩
  · exact hgs g hg

/-- Digits in front join the first group of what follows. -/
theorem dateGroups_append {g : List Char} (t : List Char) (hg : ∀ c ∈ g, Text.isDigit c = true) :
    dateGroups (g ++ t) = (dateGroups t).modifyHead (g ++ ·) := by
  induction g with
  | nil => cases h : dateGroups t <;> simp [h]
  | cons c g ih =>
    rw [List.cons_append, dateGroups_cons, if_pos (hg c (by simp)),
      ih fun d hd => hg d (by simp [hd])]
    cases dateGroups t <;> simp

/-- Groups with points between them are the groups of the text. This is where a group without a
    point in it matters. -/
theorem dateGroups_dotted {gs : List (List Char)} (hgs : ∀ g ∈ gs, IsGroup g) (hne : gs ≠ []) :
    dateGroups (dotted gs) = gs := by
  induction gs with
  | nil => exact absurd rfl hne
  | cons g gs ih =>
    have hg := (hgs g (by simp)).2
    cases gs with
    | nil => simpa [dateGroups] using dateGroups_append [] hg
    | cons h gs =>
      rw [dotted_cons_cons, dateGroups_append _ hg, dateGroups_cons, if_neg (by decide),
        ih (fun k hk => hgs k (by simp [List.mem_cons.1 hk])) (by simp)]
      simp

end VersionRange
