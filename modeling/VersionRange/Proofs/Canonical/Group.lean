import VersionRange.Proofs.Canonical.Marker
import VersionRange.Proofs.Version.Reading

namespace VersionRange

/-!
# Numeric groups read back

* `IsGroup`: a numeric group, at least one digit of any script.
* `dotted`: groups with points between them.
* `Written.read?_dotted`: groups and a marker are read back from a text made of them.
* `Written.exists_of_read?`: a text that is read as a numbered version is made of its parts.
-/

/-- A numeric group: one digit or more, of any script. Its length is not bounded here; a group that
    is too long to be converted is reported later. -/
def IsGroup (g : List Char) : Prop := g ≠ [] ∧ ∀ c ∈ g, Text.isDigit c = true

instance (g : List Char) : Decidable (IsGroup g) :=
  decidable_of_iff ((!g.isEmpty && g.all Text.isDigit) = true) (by simp [IsGroup])

/-- In ASCII a group is a numeral, and the other way round. -/
theorem isNumeral_of_isGroup {g : List Char} (h : IsGroup g) (hascii : ∀ c ∈ g, c.toNat < 128) :
    Version.isNumeral g = true := by
  simp only [Version.isNumeral, Bool.and_eq_true, Bool.not_eq_true', List.isEmpty_eq_false_iff,
    List.all_eq_true]
  refine ⟨h.1, fun c hc => ?_⟩
  rw [← Text.isDigit_of_ascii (hascii c hc)]
  exact h.2 c hc

/-- A row of the digits `0` to `9` is a group; groups may hold digits of other scripts as well. -/
theorem isGroup_of_isNumeral {g : List Char} (h : Version.isNumeral g = true) : IsGroup g := by
  simp only [Version.isNumeral, Bool.and_eq_true, Bool.not_eq_true', List.isEmpty_eq_false_iff,
    List.all_eq_true] at h
  exact ⟨h.1, fun c hc => Text.isDigit_of_isAsciiDigit (h.2 c hc)⟩

/-- Groups with points between them, as canonical texts have them. -/
def dotted (gs : List (List Char)) : List Char := ['.'].intercalate gs

/-- A single group has no point. -/
@[simp] theorem dotted_singleton (g : List Char) : dotted [g] = g := by
  simp [dotted]

/-- A point stands between the first group and the others. -/
theorem dotted_cons_cons (g h : List Char) (gs : List (List Char)) :
    dotted (g :: h :: gs) = g ++ '.' :: dotted (h :: gs) := by
  simp [dotted, List.intercalate_cons_cons]

/-- Groups behind the first one are each written behind a point. -/
theorem dotted_cons (g : List Char) (gs : List (List Char)) :
    dotted (g :: gs) = g ++ gs.flatMap ('.' :: ·) :=
  intercalate_cons '.' g gs

/-- Dotted groups consist of points and digits. -/
theorem mem_dotted {gs : List (List Char)} (hgs : ∀ g ∈ gs, IsGroup g) {c : Char}
    (hc : c ∈ dotted gs) : c = '.' ∨ Text.isDigit c = true := by
  rcases mem_intercalate hc with hpoint | ⟨g, hg, hmem⟩
  · exact .inl hpoint
  · exact .inr ((hgs g hg).2 c hmem)

/-- So nothing else stands in them. -/
theorem not_mem_dotted {gs : List (List Char)} (hgs : ∀ g ∈ gs, IsGroup g) {c : Char}
    (hpoint : c ≠ '.') (hc : Text.isDigit c = false) : c ∉ dotted gs := by
  intro hmem
  rcases mem_dotted hgs hmem with h | h
  · exact hpoint h
  · rw [hc] at h
    cases h

/-- In particular they hold no white space and no comma. -/
theorem isSolid_of_mem_dotted {gs : List (List Char)} (hgs : ∀ g ∈ gs, IsGroup g) {c : Char}
    (hc : c ∈ dotted gs) : isSolid c = true := by
  rcases mem_dotted hgs hc with rfl | hd
  · decide
  · exact Text.isSolid_of_isDigit hd

/-- A row of groups ends with a digit. The last group is not empty, so no point is at the end. -/
theorem isDigit_of_getLast?_dotted {gs : List (List Char)} (hgs : ∀ g ∈ gs, IsGroup g) {c : Char}
    (hc : (dotted gs).getLast? = some c) : Text.isDigit c = true := by
  induction gs with
  | nil => cases hc
  | cons g gs ih =>
    have hgroup := hgs g List.mem_cons_self
    cases gs with
    | nil =>
      rw [dotted_singleton] at hc
      exact hgroup.2 c (List.mem_of_getLast? hc)
    | cons h gs =>
      -- The last character is not the point, but the last one of the groups behind it.
      rw [dotted_cons_cons, List.getLast?_append_of_ne_nil _ (List.cons_ne_nil _ _),
        List.getLast?_cons] at hc
      have hne : dotted (h :: gs) ≠ [] := by
        have hhead := (hgs h (by simp)).1
        rw [dotted_cons]
        simp [hhead]
      rw [List.getLast?_eq_some_getLast hne] at hc
      refine ih (fun k hk => hgs k (List.mem_cons_of_mem g hk)) ?_
      rw [List.getLast?_eq_some_getLast hne]
      exact hc

/-- Each group stands in the dotted text as it is. What is known of all parts of a text is known of
    its groups. -/
theorem infix_dotted {gs : List (List Char)} {g : List Char} (h : g ∈ gs) : g <:+: dotted gs := by
  induction gs with
  | nil => cases h
  | cons k gs ih =>
    rw [dotted_cons]
    rcases List.mem_cons.1 h with rfl | h
    · exact (List.prefix_append _ _).isInfix
    · obtain ⟨l, r, hlr⟩ := List.append_of_mem h
      refine ⟨k ++ l.flatMap ('.' :: ·) ++ ['.'], r.flatMap ('.' :: ·), ?_⟩
      rw [hlr]
      simp

/-- A row of groups starts with a digit. -/
theorem exists_head_dotted {gs : List (List Char)} (hgs : ∀ g ∈ gs, IsGroup g) (hne : gs ≠ []) :
    ∃ c r, dotted gs = c :: r ∧ Text.isDigit c = true := by
  cases gs with
  | nil => exact absurd rfl hne
  | cons g gs =>
    obtain ⟨hg, hd⟩ := hgs g (by simp)
    cases g with
    | nil => exact absurd rfl hg
    | cons c r => exact ⟨c, r ++ gs.flatMap ('.' :: ·), dotted_cons _ _, hd c (by simp)⟩

/-! ### Runs of digits -/

/-- In front of anything but a digit a group is exactly the digits at the front. -/
theorem takeWhile_digits {g t : List Char} (hg : ∀ c ∈ g, Text.isDigit c = true)
    (ht : Marker.digitAhead t = false) :
    (g ++ t).takeWhile Text.isDigit = g ∧ (g ++ t).dropWhile Text.isDigit = t := by
  rw [List.takeWhile_append_of_pos hg, List.dropWhile_append_of_pos hg]
  cases t with
  | nil => simp
  | cons c r =>
    have hc : Text.isDigit c = false := ht
    simp [hc]

/-- Where no number goes on there is no digit either. -/
theorem digitAhead_of_numberAhead {t : List Char} (h : numberAhead t = false) :
    Marker.digitAhead t = false := by
  cases t with
  | nil => rfl
  | cons c r =>
    simp only [numberAhead, Bool.or_eq_false_iff] at h
    exact h.1

/-- A further group has a point in front of it, so what follows a group never begins
    with a digit. -/
theorem digitAhead_flatMap {gs : List (List Char)} {t : List Char}
    (ht : Marker.digitAhead t = false) :
    Marker.digitAhead (gs.flatMap ('.' :: ·) ++ t) = false := by
  cases gs with
  | nil => exact ht
  | cons => rfl

/-! ### Groups behind points -/

/-- No group is read if none is asked for. -/
@[simp] theorem readGroups_zero (s : List Char) : readGroups 0 s = ([], s) := by
  simp [readGroups]

/-- A point belongs to a group if digits follow; otherwise it is left where it is. -/
theorem readGroups_point (n : Nat) (r : List Char) :
    readGroups (n + 1) ('.' :: r) =
      if r.takeWhile Text.isDigit = [] then ([], '.' :: r)
      else (r.takeWhile Text.isDigit :: (readGroups n (r.dropWhile Text.isDigit)).1,
        (readGroups n (r.dropWhile Text.isDigit)).2) := by
  simp [readGroups, List.isEmpty_iff]

/-- Without a point at the front there is no further group. -/
theorem readGroups_of_ne {n : Nat} {s : List Char} (h : ∀ r, s ≠ '.' :: r) :
    readGroups n s = ([], s) := by
  unfold readGroups
  split
  case h_1 r => exact absurd rfl (h r)
  case h_2 => rfl

/-- Groups are read up to the limit, or up to a text that does not go on with one. Where the limit
    is met a further group may follow, which is left. -/
theorem readGroups_flatMap {n : Nat} {gs : List (List Char)} {t : List Char}
    (hgs : ∀ g ∈ gs, IsGroup g) (ht : Marker.digitAhead t = false)
    (hn : gs.length = n ∨ gs.length ≤ n ∧ numberAhead t = false) :
    readGroups n (gs.flatMap ('.' :: ·) ++ t) = (gs, t) := by
  induction gs generalizing n with
  | nil =>
    rcases hn with rfl | ⟨-, hahead⟩
    · simp
    · rw [List.flatMap_nil, List.nil_append]
      by_cases hpoint : ∃ r, t = '.' :: r
      · obtain ⟨r, rfl⟩ := hpoint
        -- Behind the point there is no digit, so no further group is read.
        have hd : Marker.digitAhead r = false := by
          have : Text.isDigit '.' = false ∧ Marker.digitAhead r = false := by
            simpa [numberAhead, isDateMark] using hahead
          exact this.2
        have hempty : r.takeWhile Text.isDigit = [] := (takeWhile_digits (g := []) (by simp) hd).1
        cases n with
        | zero => simp
        | succ n => rw [readGroups_point, if_pos hempty]
      · exact readGroups_of_ne fun r hr => hpoint ⟨r, hr⟩
  | cons g gs ih =>
    obtain ⟨hg, hd⟩ := hgs g (by simp)
    cases n with
    | zero => simp at hn
    | succ n =>
      have ih' := ih (n := n) (fun h hh => hgs h (by simp [hh])) (by simpa using hn)
      have hbehind : Marker.digitAhead (gs.flatMap ('.' :: ·) ++ t) = false := digitAhead_flatMap ht
      obtain ⟨htake, hdrop⟩ := takeWhile_digits hd hbehind
      rw [List.flatMap_cons, List.cons_append, List.cons_append, List.append_assoc,
        readGroups_point, htake, hdrop, ih', if_neg hg]

/-- The first group and up to `n` others are read off a row of groups. -/
theorem readGroups_dotted {n : Nat} {g : List Char} {gs : List (List Char)} {t : List Char}
    (hgs : ∀ k ∈ g :: gs, IsGroup k) (hlen : gs.length ≤ n) (ht : numberAhead t = false) :
    (dotted (g :: gs) ++ t).takeWhile Text.isDigit = g ∧
      readGroups n ((dotted (g :: gs) ++ t).dropWhile Text.isDigit) = (gs, t) := by
  have hdigit := digitAhead_of_numberAhead ht
  have hbehind : Marker.digitAhead (gs.flatMap ('.' :: ·) ++ t) = false := digitAhead_flatMap hdigit
  obtain ⟨htake, hdrop⟩ := takeWhile_digits (hgs g (by simp)).2 hbehind
  rw [dotted_cons, List.append_assoc, htake, hdrop]
  exact ⟨rfl, readGroups_flatMap (fun k hk => hgs k (by simp [hk])) hdigit (.inr ⟨hlen, ht⟩)⟩

/-- What is read as groups is the front of the text. There are no more of them than may come, and
    none is empty. -/
theorem readGroups_sound {n : Nat} {s t : List Char} {gs : List (List Char)}
    (h : readGroups n s = (gs, t)) :
    s = gs.flatMap ('.' :: ·) ++ t ∧ gs.length ≤ n ∧ ∀ g ∈ gs, IsGroup g := by
  induction n generalizing s gs with
  | zero =>
    rw [readGroups_zero] at h
    cases h
    simp
  | succ n ih =>
    -- A further group needs a point; without digits behind it the point is left as well.
    by_cases hpoint : ∃ r, s = '.' :: r
    · obtain ⟨r, rfl⟩ := hpoint
      rw [readGroups_point] at h
      split at h
      case isTrue => cases h; simp
      case isFalse hne =>
        cases h
        obtain ⟨hr, hlen, hgs⟩ := ih (s := r.dropWhile Text.isDigit) rfl
        refine ⟨?_, by simpa using hlen, ?_⟩
        · rw [List.flatMap_cons, List.append_assoc, ← hr]
          simp
        · intro g hg
          rcases List.mem_cons.1 hg with rfl | hg
          · exact ⟨hne, fun c hc => List.mem_takeWhile_imp hc⟩
          · exact hgs g hg
    · rw [readGroups_of_ne fun r hr => hpoint ⟨r, hr⟩] at h
      cases h
      simp

/-- A first group and those that are read behind it are the front of the text. -/
theorem readGroups_sound_dotted {n : Nat} {s t : List Char} {gs : List (List Char)}
    (h : readGroups n (s.dropWhile Text.isDigit) = (gs, t)) (hne : s.takeWhile Text.isDigit ≠ []) :
    s = dotted (s.takeWhile Text.isDigit :: gs) ++ t ∧ gs.length ≤ n ∧
      ∀ g ∈ s.takeWhile Text.isDigit :: gs, IsGroup g := by
  obtain ⟨heq, hlen, hgs⟩ := readGroups_sound h
  refine ⟨?_, hlen, fun g hg => ?_⟩
  · rw [dotted_cons, List.append_assoc, ← heq, List.takeWhile_append_dropWhile]
  · rcases List.mem_cons.1 hg with rfl | hg
    · exact ⟨hne, fun c hc => List.mem_takeWhile_imp hc⟩
    · exact hgs g hg

/-! ### Numbered versions -/

/-- Skipping the `v` leaves the end of the text. -/
theorem skipV_suffix (s : List Char) : skipV s <:+ s := by
  cases s with
  | nil => exact List.suffix_refl []
  | cons c r =>
    simp only [skipV]
    split
    · exact List.suffix_cons c r
    · exact List.suffix_refl _

/-- Only a `v` may be left out. Every other character of the text is still there behind it. -/
theorem mem_skipV {s : List Char} {d : Char} (h : d ∈ s) : Text.plain d = 'v' ∨ d ∈ skipV s := by
  cases s with
  | nil => cases h
  | cons e r =>
    rw [skipV]
    split
    case isTrue hv =>
      rcases List.mem_cons.1 h with rfl | h
      · exact .inl hv
      · exact .inr h
    case isFalse => exact .inr h

/-- A text that starts with a digit has no `v` in front. -/
theorem skipV_of_isDigit {c : Char} {r : List Char} (h : Text.isDigit c = true) :
    skipV (c :: r) = c :: r := by
  have : Text.plain c ≠ 'v' := by
    rw [Text.plain_of_isDigit h]
    exact Marker.ne_of_isDigit h (by decide)
  simp [skipV, this]

/-- Dotted groups begin with a digit, so there is no `v` to skip. -/
theorem skipV_dotted {gs : List (List Char)} {t : List Char} (hgs : ∀ g ∈ gs, IsGroup g)
    (hne : gs ≠ []) : skipV (dotted gs ++ t) = dotted gs ++ t := by
  obtain ⟨c, r, heq, hc⟩ := exists_head_dotted hgs hne
  rw [heq, List.cons_append, skipV_of_isDigit hc]

/-- Dotted groups begin with a digit. -/
theorem digitAhead_dotted {gs : List (List Char)} (hgs : ∀ g ∈ gs, IsGroup g) (hne : gs ≠ []) :
    Marker.digitAhead (dotted gs) = true := by
  obtain ⟨c, r, heq, hc⟩ := exists_head_dotted hgs hne
  rw [heq]
  exact hc

namespace Written

/-- Groups and a marker with build metadata are read back from a text that is made of them. The
    marker may be spelled in any way that its reader takes to the end. -/
theorem read?_dotted {s t build : List Char} {gs : List (List Char)}
    (hs : skipV s = dotted gs ++ t) (hgs : ∀ g ∈ gs, IsGroup g) (hne : gs ≠ [])
    (hlen : gs.length ≤ 4) (ht : readBuild (Marker.read t).2 = (build, [])) :
    read? s = some ⟨gs, (Marker.read t).1, build⟩ := by
  cases gs with
  | nil => exact absurd rfl hne
  | cons g gs =>
    have hg : g ≠ [] := (hgs g (by simp)).1
    have hahead : numberAhead t = false := Marker.numberAhead_of_whole (by rw [ht])
    obtain ⟨htake, hread⟩ := readGroups_dotted (n := 3) hgs (Nat.le_of_succ_le_succ hlen) hahead
    simp only [read?, hs, htake, hread, ht]
    simp [hg]

/-- A text that is read as a numbered version is made of its groups and its marker. Together with
    `read?_dotted` this describes the reader completely. -/
theorem exists_of_read? {s : List Char} {w : Written} (h : read? s = some w) :
    ∃ t, skipV s = dotted w.groups ++ t ∧ (Marker.read t).1 = w.marker ∧
      readBuild (Marker.read t).2 = (w.build, []) ∧ (∀ g ∈ w.groups, IsGroup g) ∧
      w.groups ≠ [] ∧ w.groups.length ≤ 4 := by
  cases hg : readGroups 3 ((skipV s).dropWhile Text.isDigit) with
  | mk gs t =>
    simp only [read?, hg] at h
    split at h
    case h_1 build hb =>
      split at h
      case isTrue => cases h
      case isFalse hne =>
        cases h
        -- The first digits are there, so they and the groups behind them are one row.
        obtain ⟨hsplit, hlen, hgs⟩ := readGroups_sound_dotted hg (by simpa using hne)
        exact ⟨t, hsplit, rfl, hb, hgs, by simp, Nat.succ_le_succ hlen⟩
    case h_2 => cases h

/-- What starts with a digit behind a leading `v` starts with that `v` or with the digit. So it is
    not empty, and no branch starts so. -/
theorem exists_head_of_skipV {s u : List Char} {d : Char} (h : skipV s = d :: u)
    (hd : Text.isDigit d = true) :
    ∃ c t, s = c :: t ∧ (Text.plain c = 'v' ∨ Text.isDigit c = true) := by
  cases s with
  | nil => cases h
  | cons c t =>
    refine ⟨c, t, rfl, ?_⟩
    by_cases hv : Text.plain c = 'v'
    · exact .inl hv
    · rw [skipV, if_neg hv] at h
      exact .inr ((List.cons.inj h).1 ▸ hd)

/-- A numbered version starts with a digit, perhaps behind a `v`. -/
theorem exists_head_of_read? {s : List Char} {w : Written} (h : read? s = some w) :
    ∃ c t, s = c :: t ∧ (Text.plain c = 'v' ∨ Text.isDigit c = true) := by
  obtain ⟨rest, hsplit, -, -, hgs, hne, -⟩ := exists_of_read? h
  obtain ⟨c, t, hgroups, hc⟩ := exists_head_dotted hgs hne
  refine exists_head_of_skipV (d := c) (u := t ++ rest) ?_ hc
  rw [hsplit, hgroups, List.cons_append]

end Written

end VersionRange
