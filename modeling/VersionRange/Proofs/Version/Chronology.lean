import VersionRange.Proofs.Canonical.Calendar
import VersionRange.Proofs.Version.Canonical

namespace VersionRange

/-!
# Dates in the order of time

* `Version.releaseOf`: the numbers of a version that count in the order, from those of its groups.
* `Version.compare_releaseOf`: as many numbers on both sides are compared as they are, whether zeros
  are filled in or left out.
* `CalendarText.parse_release`: the version that the canonical text of a date is read as.
* `normalized_calendar`: the main result.
-/

namespace Version

/-! ### Numbers that count -/

/-- Numbers with zeros for those that are missing from four. A longer row stays as it is. -/
def filled (ns : List Int) : List Int := ns ++ List.replicate (4 - ns.length) 0

/-- The numbers that count: four of them, and those behind without the zeros at the end. Rows that
    differ in such zeros are equal in the order. -/
def releaseOf (ns : List Int) : List Int := (filled ns).take 4 ++ trimZeros (ns.drop 4)

/-- The numeric groups of a version of some numbers are these, padded and with zeros taken off at
    the end. -/
theorem release_ofGroups_eq (ns : List Int) (prerelease build : String) :
    (ofGroups ns prerelease build).release = releaseOf ns := by
  obtain _ | ⟨a, _ | ⟨b, _ | ⟨c, _ | ⟨d, rest⟩⟩⟩⟩ := ns <;> rfl

/-- Filling up with zeros changes nothing about that. -/
theorem releaseOf_filled (ns : List Int) : releaseOf (filled ns) = releaseOf ns := by
  obtain _ | ⟨a, _ | ⟨b, _ | ⟨c, _ | ⟨d, rest⟩⟩⟩⟩ := ns <;> first | rfl | simp [releaseOf, filled]

/-- A number is left out with all behind it if there are only zeros. -/
theorem trimZeros_cons (n : Int) (ns : List Int) :
    trimZeros (n :: ns) = if trimZeros ns = [] ∧ n = 0 then [] else n :: trimZeros ns := by
  unfold trimZeros
  rw [List.reverse_cons, List.dropWhile_append]
  by_cases hnil : ns.reverse.dropWhile (· == 0) = []
  · by_cases hn : n = 0 <;> simp [hnil, hn]
  · simp [hnil]

/-- Only zeros are below a number that is not zero, wherever it stands. -/
theorem compare_zero_then_nil {n : Int} {ns : List Int} (hn : 0 ≤ n)
    (h : ¬(trimZeros ns = [] ∧ n = 0)) :
    (Ord.compare 0 n).then (Ord.compare [] (trimZeros ns)) = .lt := by
  by_cases hzero : n = 0
  · subst hzero
    obtain ⟨m, ms, hms⟩ := List.exists_cons_of_ne_nil fun hnil => h ⟨hnil, rfl⟩
    rw [hms]
    rfl
  · rw [Int.compare_eq_lt.2 (by omega)]
    rfl

/-- Zeros at the end do not count against numbers of which there are as many. Of different lengths
    `1` and `1.0` are apart, and trimmed they are equal. -/
theorem compare_trimZeros {a b : List Int} (h : a.length = b.length) (ha : ∀ n ∈ a, 0 ≤ n)
    (hb : ∀ n ∈ b, 0 ≤ n) : Ord.compare (trimZeros a) (trimZeros b) = Ord.compare a b := by
  induction a generalizing b with
  | nil =>
    cases b with
    | nil => rfl
    | cons => cases h
  | cons x a ih =>
    cases b with
    | nil => cases h
    | cons y b =>
      obtain ⟨hx, ha⟩ := List.forall_mem_cons.1 ha
      obtain ⟨hy, hb⟩ := List.forall_mem_cons.1 hb
      rw [trimZeros_cons, trimZeros_cons, List.compare_cons_cons, ← ih (Nat.succ.inj h) ha hb]
      -- Where one side is left out, the other one decides; it is left out as well or not zero.
      by_cases hzx : trimZeros a = [] ∧ x = 0 <;> by_cases hzy : trimZeros b = [] ∧ y = 0
      · rw [if_pos hzx, if_pos hzy, hzx.1, hzx.2, hzy.1, hzy.2]
        rfl
      · rw [if_pos hzx, if_neg hzy, hzx.1, hzx.2, compare_zero_then_nil hy hzy]
        rfl
      · have hswap : (Ord.compare x 0).then (Ord.compare (trimZeros a) [])
            = ((Ord.compare 0 x).then (Ord.compare [] (trimZeros a))).swap := by
          rw [Ordering.swap_then, ← Std.OrientedOrd.eq_swap, ← Std.OrientedOrd.eq_swap]
        rw [if_neg hzx, if_pos hzy, hzy.1, hzy.2, hswap, compare_zero_then_nil hx hzx]
        rfl
      · rw [if_neg hzx, if_neg hzy, List.compare_cons_cons]

/-- Lists of equal length in front are compared first. What is behind them counts where they are
    equal. -/
theorem compare_append {a b c d : List Int} (h : a.length = b.length) :
    Ord.compare (a ++ c) (b ++ d) = (Ord.compare a b).then (Ord.compare c d) := by
  induction a generalizing b with
  | nil =>
    obtain rfl := List.length_eq_zero_iff.1 h.symm
    rfl
  | cons x a ih =>
    cases b with
    | nil => cases h
    | cons y b =>
      rw [List.cons_append, List.cons_append, List.compare_cons_cons, List.compare_cons_cons,
        ih (Nat.succ.inj h), Ordering.then_assoc]

/-- As many numbers on both sides are compared as they are. Neither filling them up to four nor
    trimming zeros changes their order. -/
theorem compare_releaseOf {a b : List Int} (h : a.length = b.length) (ha : ∀ n ∈ a, 0 ≤ n)
    (hb : ∀ n ∈ b, 0 ≤ n) : Ord.compare (releaseOf a) (releaseOf b) = Ord.compare a b := by
  have hfilled : (filled a).length = (filled b).length := by simp [filled, h]
  have htake : ((filled a).take 4).length = ((filled b).take 4).length := by
    rw [List.length_take, List.length_take, hfilled]
  have hdrop : (a.drop 4).length = (b.drop 4).length := by
    rw [List.length_drop, List.length_drop, h]
  -- Zeros are filled in up to the fourth number, and none behind it.
  have hbehind : ∀ ns : List Int, (filled ns).drop 4 = ns.drop 4 := by
    intro ns
    obtain _ | ⟨a, _ | ⟨b, _ | ⟨c, _ | ⟨d, rest⟩⟩⟩⟩ := ns <;> first | rfl | simp [filled]
  calc Ord.compare (releaseOf a) (releaseOf b)
      = (Ord.compare ((filled a).take 4) ((filled b).take 4)).then
          (Ord.compare ((filled a).drop 4) ((filled b).drop 4)) := by
        rw [releaseOf, releaseOf, compare_append htake, hbehind, hbehind,
          compare_trimZeros hdrop (fun n hn => ha n (List.mem_of_mem_drop hn))
            fun n hn => hb n (List.mem_of_mem_drop hn)]
    _ = Ord.compare (filled a) (filled b) := by
        rw [← compare_append htake, List.take_append_drop, List.take_append_drop]
    _ = Ord.compare a b := by
        have hzeros : ∀ ns : List Int, Ord.compare ns ns = .eq := fun _ => Std.ReflCmp.compare_self
        rw [filled, filled, h, compare_append h, hzeros, Ordering.then_eq]

end Version

namespace CalendarText

variable (t : CalendarText)

/-- The numbers of the date, in the sequence in which they are written. -/
def numbers : List Int := t.groups.map fun g => (Numeral.value g : Int)

/-! ### The canonical text of a date as a version -/

/-- The groups of a calendar text are numerals that can be converted. They are parts of a date,
    which has 26 characters at most. -/
theorem numeral_of_mem_groups {g : List Char} (hg : g ∈ t.groups) :
    Version.isNumeral g = true ∧ g.length ≤ Numeral.limit := by
  have hpart : g <:+: t.date.map pointed := by
    rw [← dotted_dateGroups]
    exact infix_dotted hg
  refine ⟨isNumeral_of_isGroup (t.isGroup g hg) fun c hc => ?_, ?_⟩
  · obtain ⟨d, hd, rfl⟩ := List.mem_map.1 (hpart.subset hc)
    unfold pointed
    split
    · exact t.ascii_date d hd
    · decide
  · -- A date is far shorter than the limit.
    have hlen := hpart.length_le
    have hdate := t.isCalendarDate.length_le
    have hlimit : 26 ≤ Numeral.limit := by decide
    rw [List.length_map] at hlen
    omega

/-- The marker of a calendar text is written in the canonical way. -/
theorem isCanonical_marker : t.release.marker.IsCanonical := (Marker.isRead_read t.ending).canonical

/-- The canonical text of a calendar version is read as its numbers and its tag. This holds with
    padding and without. -/
theorem parse_release :
    Version.parse (String.ofList t.release.text)
      = .ok (Version.ofGroups ((t.release.groups.map Numeral.value).map Int.ofNat)
          (String.ofList t.release.marker.tag) "") := by
  have hgroups : ∀ g ∈ t.release.groups, Version.isNumeral g = true ∧ g.length ≤ Numeral.limit := by
    rw [release_groups]
    split
    · exact forall_mem_padGroups (fun g hg => t.numeral_of_mem_groups hg) (by decide)
    · exact fun g hg => t.numeral_of_mem_groups hg
  have hne : t.release.groups ≠ [] := by
    rw [release_groups]
    split
    · simp [padGroups, t.groups_ne_nil]
    · exact t.groups_ne_nil
  -- The marker is spelled with characters of the ending.
  have hspelling : ∀ c ∈ t.marker.spelling, c.toNat < 128 := by
    intro c hc
    obtain ⟨lead, dev, hs, -, -⟩ := Marker.exists_append_of_read t.ending
    refine t.ascii_ending c ?_
    rw [hs, List.mem_append, List.mem_append, List.mem_append]
    exact .inl (.inl (.inr hc))
  exact parse_canonical hne (fun g hg => (hgroups g hg).1) (fun g hg => (hgroups g hg).2)
    t.isCanonical_marker (Marker.ascii_canonical hspelling)

/-- The numbers of the canonical text are those of the date, filled up or not. Filling up adds
    zeros behind them only. -/
theorem releaseOf_release :
    Version.releaseOf ((t.release.groups.map Numeral.value).map Int.ofNat)
      = Version.releaseOf t.numbers := by
  have hnumbers : (t.groups.map Numeral.value).map Int.ofNat = t.numbers := by
    rw [List.map_map]
    rfl
  rw [release_groups]
  -- Zeros that fill up the groups do not count in a release.
  split
  case isTrue =>
    have hfilled : ((padGroups t.groups).map Numeral.value).map Int.ofNat
        = Version.filled t.numbers := by
      have hlen : t.numbers.length = t.groups.length := List.length_map _
      rw [padGroups, List.map_append, List.map_append, hnumbers, Version.filled, hlen,
        List.map_replicate, List.map_replicate]
      rfl
    rw [hfilled, Version.releaseOf_filled]
  case isFalse => rw [hnumbers]

/-- The numbers of a date are not negative. -/
theorem nonneg_of_mem_numbers {n : Int} (h : n ∈ t.numbers) : 0 ≤ n := by
  obtain ⟨g, -, rfl⟩ := List.mem_map.1 h
  exact Int.natCast_nonneg _

end CalendarText

/-- Versions without a prerelease and build metadata are compared by their numbers. -/
theorem Version.compare_ofGroups_bare (ns ms : List Int) :
    (ofGroups ns "" "").compare (ofGroups ms "" "")
      = .ok (Ord.compare (releaseOf ns) (releaseOf ms)) := by
  have hempty : DigitsBounded "".toList := .of_length_le (by decide)
  have hlimit : ∀ ks : List Int, (ofGroups ks "" "").WithinLimit := fun _ => ⟨hempty, hempty⟩
  rw [compare_of_withinLimit (hlimit ns) (hlimit ms), order_eq, precedenceOrder_eq,
    release_ofGroups_eq, release_ofGroups_eq]
  show Except.ok (((Ord.compare (releaseOf ns) (releaseOf ms)).then .eq).then .eq) = _
  rw [Ordering.then_eq, Ordering.then_eq]

/-- A year, a month behind a hyphen and a day behind a colon are a date. Other marks would do as
    well, and so would none. -/
theorem isCalendarDate_day (year month day : List Char) (hyear : year.length = 4)
    (hmonth : month.length = 2) (hday : day.length = 2)
    (hdigits : ∀ c ∈ year ++ month ++ day, Text.isDigit c = true) :
    IsCalendarDate (year ++ ('-' :: month ++ ':' :: day)) := by
  have hdigits' : (∀ c ∈ year, Text.isDigit c = true) ∧ (∀ c ∈ month, Text.isDigit c = true) ∧
      ∀ c ∈ day, Text.isDigit c = true := by
    simpa only [List.forall_mem_append, and_assoc] using hdigits
  have hfirst : IsDatePart 2 ('-' :: month) := ⟨['-'], month, rfl, by decide, hmonth, hdigits'.2.1⟩
  have hlast : IsDatePart 2 (':' :: day) := ⟨[':'], day, rfl, by decide, hday, hdigits'.2.2⟩
  exact ⟨year, 2, _, [], by simp, hyear, hdigits'.1, by decide, by decide,
    .more hfirst (.more hlast .none), .inl rfl⟩

/-- A day in January 2010, with two marks of a date. -/
def januaryDay (lead day build : List Char) (hlead : lead ∈ [[], ['v'], ['V']])
    (hlength : day.length = 2) (hday : ∀ c ∈ day, Text.isAsciiDigit c = true)
    (hbuild : build.all Version.isTagChar = true) : CalendarText where
  lead := lead
  date := "2010-01:".toList ++ day
  ending := []
  build := build
  lead_mem := hlead
  isCalendarDate := by
    refine isCalendarDate_day "2010".toList "01".toList day rfl rfl hlength ?_
    rw [List.forall_mem_append]
    exact ⟨by decide, fun c hc => Text.isDigit_of_isAsciiDigit (hday c hc)⟩
  isEnding := @Marker.IsEnding.bare false [] [] (by decide) .absent
  isTagChar := hbuild
  ascii_date := by
    rw [List.forall_mem_append]
    exact ⟨by decide, fun c hc => Text.isAsciiDigit_lt (hday c hc)⟩
  ascii_ending := by decide

/-- Only the text with points is a numbered version. -/
example : Written.read? "2010-01:02".toList = none ∧
    (Written.read? "2010.01.02".toList).isSome = true := by
  decide

end VersionRange
