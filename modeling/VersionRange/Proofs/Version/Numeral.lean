import Mathlib.Algebra.Group.Nat.Defs
import Mathlib.Data.List.Induction
import VersionRange.Proofs.Version.Reading

namespace VersionRange

/-!
# Numbers in writing

* `Numeral.value_lt_pow`: digits denote a number below the power of ten with their number.
* `Numeral.isNumeral_toDigits`, `Numeral.value_toDigits`: a number is written with digits that
  denote it.
* `Numeral.IsReduced`, `Numeral.toDigits_value`: a numeral without leading zeros is how the number
  that it denotes is written.
* `Numeral.write_of_lt`: a number that is small enough can be written.
-/

/-- A decimal digit is less than ten, in any script. Each script has ten of them in a row. -/
theorem Text.digit?_lt {c : Char} {d : Nat} (h : Text.digit? c = some d) : d < 10 := by
  unfold Text.digit? at h
  split at h
  case isTrue =>
    split at h
    case isTrue hc =>
      have hle : c.toNat ≤ 57 := Char.le_def.1 hc.2
      have hd : c.toNat - 48 = d := Option.some.inj h
      omega
    case isFalse => cases h
  case isFalse =>
    obtain ⟨z, hz, rfl⟩ := Option.map_eq_some_iff.1 h
    have hrange := List.find?_some hz
    simp only [Bool.and_eq_true, decide_eq_true_eq] at hrange
    omega

namespace Numeral

/-- A further digit at the end counts once, and all others ten times as much as before. -/
theorem value_append_singleton (ds : List Char) (c : Char) :
    value (ds ++ [c]) = 10 * value ds + (Text.digit? c).getD 0 := by
  simp [value]

/-- A number is below the power of ten with its number of digits. Leading zeros make the bound
    larger than it need be. -/
theorem value_lt_pow (ds : List Char) : value ds < 10 ^ ds.length := by
  induction ds using List.reverseRecOn with
  | nil => decide
  | append_singleton ds c ih =>
    -- The last digit is the one that counts least, so the induction takes it off first.
    have hd : (Text.digit? c).getD 0 < 10 := by
      cases h : Text.digit? c with
      | none => decide
      | some d => exact Text.digit?_lt h
    rw [value_append_singleton, List.length_append, List.length_singleton, Nat.pow_succ]
    omega

/-- A number is written with the digits `0` to `9`. -/
theorem isAsciiDigit_of_mem_toDigits {n : Nat} {c : Char} (h : c ∈ Nat.toDigits 10 n) :
    Text.isAsciiDigit c = true := by
  have hd : c.isDigit = true := Nat.isDigit_of_mem_toDigits (by decide) (by decide) h
  simp only [Char.isDigit, Bool.and_eq_true, decide_eq_true_eq] at hd
  simp only [Text.isAsciiDigit, Bool.and_eq_true, decide_eq_true_eq]
  exact hd

/-- So what is written is a numeral. -/
theorem isNumeral_toDigits (n : Nat) : Version.isNumeral (Nat.toDigits 10 n) = true := by
  simp only [Version.isNumeral, Bool.and_eq_true, Bool.not_eq_true', List.isEmpty_eq_false_iff,
    List.all_eq_true]
  exact ⟨Nat.toDigits_ne_nil, fun c hc => isAsciiDigit_of_mem_toDigits hc⟩

/-- The value of one of the digits `0` to `9`. -/
theorem digit?_of_isAsciiDigit {c : Char} (h : Text.isAsciiDigit c = true) :
    Text.digit? c = some (c.toNat - 48) := by
  have hlt := Text.isAsciiDigit_lt h
  simp only [Text.isAsciiDigit, Bool.and_eq_true, decide_eq_true_eq] at h
  rw [Text.digit?, if_pos hlt, if_pos h]

/-- The value of a numeral in ASCII is that of the library. -/
theorem value_eq_ofDigitChars {ds : List Char} (h : ∀ c ∈ ds, Text.isAsciiDigit c = true) :
    value ds = Nat.ofDigitChars 10 ds 0 := by
  rw [value, Nat.ofDigitChars_eq_foldl]
  exact List.foldl_ext _ _ _ fun n c hc => by rw [digit?_of_isAsciiDigit (h c hc)]; rfl

/-- The digits of a number denote it. -/
theorem value_toDigits (n : Nat) : value (Nat.toDigits 10 n) = n := by
  rw [value_eq_ofDigitChars fun c hc => isAsciiDigit_of_mem_toDigits hc]
  exact Nat.ofDigitChars_ten_toDigits

/-! ### Numerals without leading zeros -/

/-- A numeral without leading zeros. Zero itself is written as one digit. -/
def IsReduced (ds : List Char) : Prop :=
  Version.isNumeral ds = true ∧ (ds.head? = some '0' → ds = ['0'])

instance (ds : List Char) : Decidable (IsReduced ds) := inferInstanceAs (Decidable (_ ∧ _))

/-- A numeral without leading zeros consists of the digits `0` to `9`. -/
theorem mem_isReduced {ds : List Char} (h : IsReduced ds) :
    ∀ c ∈ ds, Text.isAsciiDigit c = true := by
  have hdigits := h.1
  simp only [Version.isNumeral, Bool.and_eq_true, List.all_eq_true] at hdigits
  exact hdigits.2

/-- A digit is written as itself. -/
theorem digitChar_digit? {c : Char} (h : Text.isAsciiDigit c = true) :
    Nat.digitChar ((Text.digit? c).getD 0) = c := by
  rw [digit?_of_isAsciiDigit h, Option.getD_some]
  simp only [Text.isAsciiDigit, Bool.and_eq_true, decide_eq_true_eq] at h
  have hlow : 48 ≤ c.toNat := Char.le_def.1 h.1
  have hhigh : c.toNat ≤ 57 := Char.le_def.1 h.2
  apply Char.toNat_inj.1
  rw [Nat.toNat_digitChar_of_lt_ten (by omega)]
  omega

/-- Without its last digit a numeral has no leading zeros, either. As it is not empty then, it does
    not begin with a zero at all. -/
theorem IsReduced.of_concat {ds : List Char} {c : Char} (h : IsReduced (ds ++ [c]))
    (hne : ds ≠ []) : IsReduced ds ∧ ds.head? ≠ some '0' := by
  have hhead : ds.head? ≠ some '0' := by
    intro hzero
    -- A zero in front would be the whole numeral.
    have hone := h.2 (by rw [List.head?_append_of_ne_nil _ hne, hzero])
    have hlen := congrArg List.length hone
    have hpos := List.length_pos_iff.2 hne
    simp only [List.length_append, List.length_singleton] at hlen
    omega
  refine ⟨⟨?_, fun hzero => absurd hzero hhead⟩, hhead⟩
  have hdigits := mem_isReduced h
  simp only [Version.isNumeral, Bool.and_eq_true, Bool.not_eq_true', List.isEmpty_eq_false_iff,
    List.all_eq_true]
  exact ⟨hne, fun d hd => hdigits d (List.mem_append_left _ hd)⟩

/-- **One numeral for each number.** A numeral without leading zeros is how the number that it
    denotes is written. -/
theorem toDigits_value {ds : List Char} (h : IsReduced ds) : Nat.toDigits 10 (value ds) = ds := by
  induction ds using List.reverseRecOn with
  | nil => exact absurd h.1 (by decide)
  | append_singleton ds c ih =>
    have hc : Text.isAsciiDigit c = true := mem_isReduced h c List.mem_concat_self
    have hlt : (Text.digit? c).getD 0 < 10 := by
      rw [digit?_of_isAsciiDigit hc, Option.getD_some]
      exact Text.digit?_lt (digit?_of_isAsciiDigit hc)
    have hlast : Nat.toDigits 10 ((Text.digit? c).getD 0) = [c] := by
      rw [Nat.toDigits_of_lt_base hlt, digitChar_digit? hc]
    rw [value_append_singleton]
    by_cases hne : ds = []
    · -- A single digit is the last one.
      rw [hne, List.nil_append]
      show Nat.toDigits 10 (10 * 0 + _) = _
      rw [Nat.mul_zero, Nat.zero_add, hlast]
    · obtain ⟨hds, hhead⟩ := h.of_concat hne
      -- What is in front of the last digit denotes no zero, since it would be written as one.
      have hpos : 0 < value ds := by
        apply Nat.pos_of_ne_zero
        intro hzero
        have hwritten := ih hds
        rw [hzero] at hwritten
        exact hhead (by rw [← hwritten]; rfl)
      rw [← Nat.toDigits_append_toDigits (by decide) hpos hlt, ih hds, hlast]

/-- Such numerals come back from their values. -/
theorem map_toDigits_value {gs : List (List Char)} (h : ∀ g ∈ gs, IsReduced g) :
    (gs.map value).map (Nat.toDigits 10) = gs := by
  rw [List.map_map]
  conv_rhs => rw [← List.map_id gs]
  exact List.map_congr_left fun g hg => toDigits_value (h g hg)

/-! ### Limits -/

/-- Reading gives the value, exactly if the numeral is short enough. -/
theorem read_eq_ok_iff {ds : List Char} {n : Nat} :
    read ds = .ok n ↔ ds.length ≤ limit ∧ value ds = n := by
  unfold read
  split
  case isTrue h => simp [h]
  case isFalse h => simp [h]

/-- A number that is small enough can be written. -/
theorem write_of_lt {n : Nat} (h : n < 10 ^ limit) :
    write n = .ok (Nat.toDigits 10 n) ∧ (Nat.toDigits 10 n).length ≤ limit := by
  have hlen : (Nat.toDigits 10 n).length ≤ limit :=
    (Nat.length_toDigits_le_iff (by decide) (by decide)).2 h
  exact ⟨write_eq_ok_iff.2 ⟨rfl, hlen⟩, hlen⟩

/-- One more than a number with room for another digit is small enough. -/
theorem value_succ_lt {ds : List Char} (h : ds.length < limit) : value ds + 1 < 10 ^ limit := by
  have hpow : 10 ^ (ds.length + 1) ≤ 10 ^ limit := Nat.pow_le_pow_right (by decide) h
  have hpos : 0 < 10 ^ ds.length := Nat.pow_pos (by decide)
  have hlt := value_lt_pow ds
  rw [Nat.pow_succ] at hpow
  omega

end Numeral

end VersionRange
