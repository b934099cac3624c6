import VersionRange.Proofs.Version.Numeral

namespace VersionRange.Version

/-!
# Versions are read back from their texts

* `numbers`, `numerals`: all numbers of a version, and those that are written, in digits.
* `IsWritable`: the versions whose parts can all be written and read; `isWritable_of_parse`: those
  that were read are among them.
* `toList_text`: a version in writing is a row of numerals with its tags behind their marks.
* `ofGroups_written`: the groups that are left out in writing are zeros.
* `parse_text`: a version in writing is read as itself.
-/

/-- A number that is not negative and has no more digits than are converted. Any other number
    cannot be read back from its text. -/
def IsWritableNumber (n : Int) : Prop := ∃ k : Nat, n = k ∧ k < 10 ^ Numeral.limit

/-- The numbers of a version, written or not. There are four fields at least. -/
def numbers (v : Version) : List Int := [v.major, v.minor, v.patch, v.revision] ++ v.extra

/-- A version whose numbers can be converted and whose tags, where it has any, are made of the
    characters of tags. -/
structure IsWritable (v : Version) : Prop where
  numbers : ∀ n ∈ v.numbers, IsWritableNumber n
  prerelease : v.prerelease.toList.all isTagChar = true
  build : v.build.toList.all isTagChar = true

/-- Few digits are enough to tell that a number can be converted. -/
theorem IsWritableNumber.of_digits {n : Int} (hpos : 0 ≤ n)
    (hdigits : (Nat.toDigits 10 n.toNat).length ≤ Numeral.limit) : IsWritableNumber n :=
  ⟨n.toNat, (Int.toNat_of_nonneg hpos).symm,
    (Nat.length_toDigits_le_iff (by decide) (by decide)).1 hdigits⟩

/-- Zero is written with one digit. -/
theorem isWritableNumber_zero : IsWritableNumber 0 :=
  .of_digits (Int.le_refl 0) (by decide)

/-! ### Writing -/

/-- The numerals of a version in writing. -/
def numerals (v : Version) : List (List Char) := v.written.map fun n => Nat.toDigits 10 n.toNat

variable {v : Version}

/-- What is written are numbers of the version; only the revision may be left out. -/
theorem written_sublist (v : Version) : v.written.Sublist v.numbers := by
  unfold written numbers
  split
  case isTrue => exact List.Sublist.refl _
  case isFalse =>
    exact (List.sublist_append_left [v.major, v.minor, v.patch] [v.revision]).append_right _

/-- A number that can be written is not negative, so it is written in digits alone. -/
theorem toList_toString_of_writable {n : Int} (h : IsWritableNumber n) :
    (toString n).toList = Nat.toDigits 10 n.toNat := by
  obtain ⟨k, rfl, -⟩ := h
  exact Nat.toList_repr

/-- A tag in writing stands behind its mark, an empty one not at all. -/
theorem toList_tag (mark tag : String) (c : Char) (hmark : mark.toList = [c]) :
    (if tag = "" then "" else mark ++ tag).toList = marked c tag.toList := by
  unfold marked
  by_cases h : tag = ""
  · rw [if_pos h, if_pos (by rw [h]; rfl)]
    rfl
  · rw [if_neg h, if_neg fun hnil => h (String.toList_eq_nil_iff.1 hnil), String.toList_append,
      hmark]
    rfl

/-- A version in writing is a row of numerals with its tags behind their marks. -/
theorem toList_text (h : v.IsWritable) :
    v.text.toList = ['.'].intercalate v.numerals ++ marked '-' v.prerelease.toList
      ++ marked '+' v.build.toList := by
  have hnumerals : (v.written.map toString).map String.toList = v.numerals := by
    rw [List.map_map]
    refine List.map_congr_left fun n hn => ?_
    exact toList_toString_of_writable (h.numbers n ((written_sublist v).subset hn))
  rw [text, String.toList_append, String.toList_append, String.toList_intercalate, hnumerals,
    toList_tag "-" v.prerelease '-' rfl, toList_tag "+" v.build '+' rfl]
  rfl

/-! ### Reading back -/

/-- The groups that are left out in writing are zeros: the revision is written unless it is zero and
    no group follows. -/
theorem ofGroups_written (hrevision : 0 ≤ v.revision) :
    ofGroups v.written v.prerelease v.build = v := by
  obtain ⟨major, minor, patch, revision, prerelease, build, extra⟩ := v
  unfold written
  split
  case isTrue => rfl
  case isFalse hnone =>
    rw [not_or, not_not] at hnone
    obtain ⟨hzero, rfl⟩ := hnone
    obtain rfl : revision = 0 := Int.le_antisymm (Int.not_lt.1 hzero) hrevision
    rfl

/-- The numerals that are written for a version have its numbers as values. -/
theorem value_numerals (h : v.IsWritable) :
    (v.numerals.map Numeral.value).map Int.ofNat = v.written := by
  rw [numerals, List.map_map, List.map_map]
  conv_rhs => rw [← List.map_id v.written]
  refine List.map_congr_left fun n hn => ?_
  obtain ⟨k, rfl, -⟩ := h.numbers n ((written_sublist v).subset hn)
  show Int.ofNat (Numeral.value (Nat.toDigits 10 k)) = k
  rw [Numeral.value_toDigits]
  rfl

/-- **Round trip.** A version that can be written is read back from its text. A revision that is
    zero is not written, and is added again by reading. -/
theorem parse_text_of_isWritable (h : v.IsWritable) : parse v.text = .ok v := by
  have hne : v.numerals ≠ [] := by simp [numerals, written]
  have hnumerals : ∀ ds ∈ v.numerals, isNumeral ds = true ∧ ds.length ≤ Numeral.limit := by
    intro ds hds
    obtain ⟨n, hn, rfl⟩ := List.mem_map.1 hds
    obtain ⟨k, rfl, hk⟩ := h.numbers n ((written_sublist v).subset hn)
    exact ⟨Numeral.isNumeral_toDigits k, (Numeral.write_of_lt hk).2⟩
  have hrevision : 0 ≤ v.revision := by
    obtain ⟨k, hk, -⟩ := h.numbers v.revision (by simp [numbers])
    rw [hk]
    exact Int.natCast_nonneg k
  -- The text is a row of numerals with the tags behind it, and reading takes it apart there.
  have htext : v.text = String.ofList (['.'].intercalate v.numerals
      ++ marked '-' v.prerelease.toList ++ marked '+' v.build.toList) := by
    rw [← toList_text h, String.ofList_toList]
  rw [htext, parse_marked hne (fun ds hds => (hnumerals ds hds).1)
    (fun ds hds => (hnumerals ds hds).2) h.prerelease h.build, value_numerals h,
    String.ofList_toList, String.ofList_toList, ofGroups_written hrevision]

/-! ### What was read -/

/-- A tag that was read consists of characters of tags. An absent one is empty, so this holds of it
    as well. -/
theorem isTagChar_of_tag? {o : Option (List Char)} {tag : List Char} (h : tag? o = some tag) :
    tag.all isTagChar = true := by
  cases o with
  | none =>
    cases h
    rfl
  | some s =>
    rw [tag?, Option.ite_none_right_eq_some] at h
    obtain ⟨htag, h⟩ := h
    cases h
    exact (Bool.and_eq_true_iff.1 htag).2

/-- The numbers of a version that is made of groups are the groups, and zeros. Zeros stand for the
    fields that are not given. -/
theorem mem_numbers_ofGroups {ns : List Int} {prerelease build : String} {n : Int}
    (h : n ∈ (ofGroups ns prerelease build).numbers) : n = 0 ∨ n ∈ ns := by
  have hgetD : ∀ i, ns.getD i 0 = 0 ∨ ns.getD i 0 ∈ ns := by
    intro i
    rw [List.getD_eq_getElem?_getD]
    cases hi : ns[i]? with
    | none => exact .inl rfl
    | some m => exact .inr (List.mem_of_getElem? hi)
  simp only [numbers, ofGroups, List.cons_append, List.nil_append, List.mem_cons] at h
  rcases h with rfl | rfl | rfl | rfl | h
  · exact hgetD 0
  · exact hgetD 1
  · exact hgetD 2
  · exact hgetD 3
  · exact .inr (List.mem_of_mem_drop h)

/-- A version that was read can be written. Its numbers have no more digits than the numerals they
    were read from. -/
theorem isWritable_of_parse {s : String} (h : parse s = .ok v) : v.IsWritable := by
  unfold parse at h
  split at h
  case h_1 => cases h
  case h_2 p hp =>
    obtain ⟨-, -, hprerelease, hbuild⟩ := Parts.read?_eq_some_iff.1 hp
    obtain ⟨ns, hns, h⟩ := bind_eq_ok_iff.1 h
    obtain rfl := (Except.ok.inj h).symm
    refine ⟨fun n hn => ?_, ?_, ?_⟩
    · rcases mem_numbers_ofGroups hn with rfl | hn
      · exact isWritableNumber_zero
      · -- A number that was read has no more digits than its numeral.
        obtain ⟨k, hk, rfl⟩ := List.mem_map.1 hn
        obtain ⟨ds, -, hds⟩ := exists_of_mem_forall₂ (mapM_eq_ok_iff.1 hns) hk
        obtain ⟨hlen, rfl⟩ := Numeral.read_eq_ok_iff.1 hds
        exact ⟨_, rfl, Nat.lt_of_lt_of_le (Numeral.value_lt_pow ds)
          (Nat.pow_le_pow_right (by decide) hlen)⟩
    · exact (congrArg (·.all isTagChar) (String.toList_ofList)).trans
        (isTagChar_of_tag? hprerelease)
    · exact (congrArg (·.all isTagChar) (String.toList_ofList)).trans (isTagChar_of_tag? hbuild)

/-- **Round trip.** A version in writing is read as the same version, whatever zeros were left out
    and whatever characters of tags stand where.  So what was read from a text is read again from
    its own writing, and written again it is the same text. -/
theorem parse_text :
    (∀ v : Version, v.IsWritable → parse v.text = .ok v) ∧
    ∀ (s : String) (v : Version), parse s = .ok v →
      parse v.text = .ok v ∧ (parse v.text).map text = .ok v.text := by
  refine ⟨fun v hv => parse_text_of_isWritable hv, fun s v hs => ?_⟩
  have hv := parse_text_of_isWritable (isWritable_of_parse hs)
  exact ⟨hv, by rw [hv]; rfl⟩

/-- A version with a group behind a revision of zero and with tags that look like marks. -/
def roundTripExample : Version where
  major := 2010
  minor := 1
  extra := [7, 0]
  prerelease := "-rc.01"
  build := "-.2-"

/-- Nothing of it is lost, and a text with leading zeros is read again from its writing. The tags
    may hold any of their characters in any order. -/
theorem parse_text_marks :
    roundTripExample.text = "2010.1.0.0.7.0--rc.01+-.2-" ∧
      parse "2010.1.0.0.7.0--rc.01+-.2-" = .ok roundTripExample ∧
      parse "01.2-b" = .ok { major := 1, minor := 2, prerelease := "b" } ∧
      parse "1.2.0-b" = .ok { major := 1, minor := 2, prerelease := "b" } := by
  have hwritable : roundTripExample.IsWritable := by
    refine ⟨fun n hn => ?_, by decide, by decide⟩
    have hall : ∀ n ∈ roundTripExample.numbers,
        0 ≤ n ∧ (Nat.toDigits 10 n.toNat).length ≤ Numeral.limit := by decide
    exact .of_digits (hall n hn).1 (hall n hn).2
  have htext : roundTripExample.text = "2010.1.0.0.7.0--rc.01+-.2-" := by decide
  obtain ⟨hwritten, hread⟩ := parse_text
  have hzero : parse "01.2-b" = .ok { major := 1, minor := 2, prerelease := "b" } :=
    eq_ok_of_toOption (by decide)
  refine ⟨htext, htext ▸ hwritten _ hwritable, hzero, ?_⟩
  exact (hread _ _ hzero).1

end VersionRange.Version
