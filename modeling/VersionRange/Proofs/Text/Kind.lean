import VersionRange.Canonical.Normalize

namespace VersionRange.Text

/-!
# Kinds of characters

Digits of any script, white space and the letters of keywords do not overlap.

* `forall_ascii`: what holds of the first 128 characters holds of every ASCII character.
* `map_plain_of_toLower`: a word of ASCII letters in any case.
* `isBlank_of_isDigit`, `plain_of_isDigit`: a digit is no white space and no letter of a keyword.
* `isSolid_of_plain`: a letter of a keyword is neither white space nor a comma.
* `toLower_of_plain`: which letters of keywords only their own capitals stand for.
-/

/-- What holds of the characters of a text is decided along the text, and not over all
    characters. -/
instance (priority := high) decidableForallMem (s : List Char) (p : Char → Prop)
    [DecidablePred p] : Decidable (∀ c ∈ s, p c) :=
  List.decidableBAll p s

/-! ### ASCII -/

/-- A property of ASCII characters can be checked one by one. -/
theorem forall_ascii {P : Char → Prop} (h : ∀ n < 128, P (Char.ofNat n)) {c : Char}
    (hc : c.toNat < 128) : P c := by
  rw [← Char.ofNat_toNat c]
  exact h c.toNat hc

/-- Mapping ASCII capitals leaves all other characters as they are. -/
theorem toLower_of_not_ascii {c : Char} (h : 128 ≤ c.toNat) : c.toLower = c := by
  unfold Char.toLower
  split
  case isTrue hc =>
    have : c.toNat ≤ 90 := hc.2
    omega
  case isFalse => rfl

/-- A character whose small letter is ASCII is ASCII. -/
theorem ascii_of_toLower {c : Char} (h : c.toLower.toNat < 128) : c.toNat < 128 := by
  by_cases hc : c.toNat < 128
  · exact hc
  · rwa [toLower_of_not_ascii (by omega)] at h

/-- A word of ASCII letters in any case spells the same without its case. -/
theorem map_plain_of_toLower {raw word : List Char} (h : raw.map Char.toLower = word)
    (hword : ∀ c ∈ word, c.toNat < 128) : raw.map plain = word := by
  rw [← h]
  refine List.map_congr_left fun c hc => ?_
  exact plain_of_ascii (ascii_of_toLower (hword _ (h ▸ List.mem_map_of_mem hc)))

/-! ### Digits -/

/-- A digit beyond ASCII is in one of the runs of ten. -/
theorem exists_zero_of_isDigit {c : Char} (h : isDigit c = true) (hc : 128 ≤ c.toNat) :
    ∃ z ∈ zeros, z ≤ c.toNat ∧ c.toNat < z + 10 := by
  simp only [isDigit, digit?, if_neg (Nat.not_lt.2 hc), Option.isSome_map] at h
  obtain ⟨z, hz⟩ := Option.isSome_iff_exists.1 h
  have hrange := List.find?_some hz
  simp only [Bool.and_eq_true, decide_eq_true_eq] at hrange
  exact ⟨z, List.mem_of_find?_eq_some hz, hrange⟩

/-- A code point outside the runs of ten is no digit beyond ASCII. -/
theorem toNat_ne_of_isDigit {c : Char} (h : isDigit c = true) (hc : 128 ≤ c.toNat) {n : Nat}
    (hn : ∀ z ∈ zeros, ¬ (z ≤ n ∧ n < z + 10)) : c.toNat ≠ n := by
  obtain ⟨z, hz, hrange⟩ := exists_zero_of_isDigit h hc
  rintro rfl
  exact hn z hz hrange

/-- A digit is no white space. In ASCII all characters are looked at, and beyond it the zeros of
    the scripts. -/
theorem isBlank_of_isDigit {c : Char} (h : isDigit c = true) : isBlank c = false := by
  by_cases hc : c.toNat < 128
  · revert h
    exact forall_ascii (P := fun c => isDigit c = true → isBlank c = false) (by decide) hc
  · have hc' : 128 ≤ c.toNat := by omega
    obtain ⟨z, hz, h₁, h₂⟩ := exists_zero_of_isDigit h hc'
    -- No run of ten digits meets a space or line end.
    have hout : ∀ z ∈ zeros, 0xA0 < z ∧ (z + 10 ≤ 0x1680 ∨ 0x1681 ≤ z) ∧
        (z + 10 ≤ 0x2000 ∨ 0x2060 ≤ z) ∧ (z + 10 ≤ 0x3000 ∨ 0x3001 ≤ z) := by decide
    have := hout z hz
    simp only [isBlank, if_neg hc]
    simp
    omega

/-- A digit stands for itself where case is ignored. -/
theorem plain_of_isDigit {c : Char} (h : isDigit c = true) : plain c = c := by
  by_cases hc : c.toNat < 128
  · revert h
    exact forall_ascii (P := fun c => isDigit c = true → plain c = c) (by decide) hc
  · have hc' : 128 ≤ c.toNat := by omega
    have h₁ := toNat_ne_of_isDigit h hc' (n := 0x17F) (by decide)
    have h₂ := toNat_ne_of_isDigit h hc' (n := 0x212A) (by decide)
    have h₃ := toNat_ne_of_isDigit h hc' (n := 0x130) (by decide)
    have h₄ := toNat_ne_of_isDigit h hc' (n := 0x131) (by decide)
    simp [plain, hc, h₁, h₂, h₃, h₄]

/-- A digit may stand in a version. -/
theorem isSolid_of_isDigit {c : Char} (h : isDigit c = true) : isSolid c = true := by
  have hcomma : c ≠ ',' := by
    rintro rfl
    revert h
    decide
  simp [isSolid, hcomma, isBlank_of_isDigit h]

/-! ### Letters of keywords -/

/-- Beyond ASCII a character stands for one of three letters of keywords, or for itself. These are
    the long `s`, the sign of the Kelvin, and two forms of the `i`. -/
theorem plain_beyond_ascii {c : Char} (hc : ¬ c.toNat < 128) :
    (c.toNat = 0x17F ∧ plain c = 's') ∨ (c.toNat = 0x212A ∧ plain c = 'k') ∨
      ((c.toNat = 0x130 ∨ c.toNat = 0x131) ∧ plain c = 'i') ∨ plain c = c := by
  by_cases h₁ : c.toNat = 0x17F
  · exact .inl ⟨h₁, by simp [plain, h₁]⟩
  by_cases h₂ : c.toNat = 0x212A
  · exact .inr (.inl ⟨h₂, by simp [plain, h₂]⟩)
  by_cases h₃ : c.toNat = 0x130 ∨ c.toNat = 0x131
  · exact .inr (.inr (.inl ⟨h₃, by rcases h₃ with h₃ | h₃ <;> simp [plain, h₃]⟩))
  · refine .inr (.inr (.inr ?_))
    unfold plain
    simp only [if_neg hc, if_neg h₁, if_neg h₂, if_neg h₃]

/-- Beyond ASCII a character can stand only for three letters of keywords. -/
theorem toLower_of_plain {c x : Char} (h : plain c = x) (hx : x.toNat < 128)
    (hs : x ≠ 's') (hk : x ≠ 'k') (hi : x ≠ 'i') : c.toLower = x := by
  by_cases hc : c.toNat < 128
  · rw [← plain_of_ascii hc, h]
  · rcases plain_beyond_ascii hc with ⟨-, hp⟩ | ⟨-, hp⟩ | ⟨-, hp⟩ | hp
    · exact absurd (h.symm.trans hp) hs
    · exact absurd (h.symm.trans hp) hk
    · exact absurd (h.symm.trans hp) hi
    · rw [← h, hp] at hx
      exact absurd hx hc

/-- The characters that stand for a small letter in a keyword may stand in a version. None of them
    is white space or a comma. -/
theorem isSolid_of_plain {c : Char} (h : (plain c).isLower = true) : isSolid c = true := by
  by_cases hc : c.toNat < 128
  · revert h
    exact forall_ascii (P := fun c => (plain c).isLower = true → isSolid c = true)
      (by decide) hc
  · have hcomma : c ≠ ',' := by
      rintro rfl
      exact hc (by decide)
    have hblank : isBlank c = false := by
      -- Beyond ASCII only a few characters stand for a letter, and none of them is white space.
      rcases plain_beyond_ascii hc with ⟨hn, -⟩ | ⟨hn, -⟩ | ⟨hn | hn, -⟩ | hp
      · simp [isBlank, hn]
      · simp [isBlank, hn]
      · simp [isBlank, hn]
      · simp [isBlank, hn]
      · -- A character that stands for itself would be a small letter.
        rw [hp] at h
        have hle : c.toNat ≤ 122 := of_decide_eq_true (Bool.and_eq_true_iff.1 h).2
        omega
    simp [isSolid, hcomma, hblank]

end VersionRange.Text
