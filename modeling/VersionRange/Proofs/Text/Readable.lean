import VersionRange.Numeral
import VersionRange.Text.Blank

namespace VersionRange

/-!
# Readable texts

* `RunsWithin n s`: no run of digits in `s` is longer than `n`.  It holds of each part of such a
  text, and of what is put together without joining runs of digits.
* `ReadableText`: a text in ASCII whose runs of digits have room for another digit.
* `infix_trim`, `piecesOf_splitOnP`: trimming and splitting give parts of a text.
-/

/-! ### Runs of digits -/

/-- No run of digits in a text is longer than `n`. Runs are parts of the text at any place, so a
    part of the text has none that are longer. -/
def RunsWithin (n : Nat) (s : List Char) : Prop :=
  ∀ ds, ds <:+: s → ds.all Text.isAsciiDigit = true → ds.length ≤ n

namespace RunsWithin

variable {n : Nat} {s t : List Char} {c : Char}

/-- A run is no longer than the text that it stands in. -/
theorem of_length_le (h : s.length ≤ n) : RunsWithin n s :=
  fun _ hds _ => Nat.le_trans hds.length_le h

/-- A part of a text has no longer runs than the text. -/
theorem part (h : RunsWithin n s) (ht : t <:+: s) : RunsWithin n t :=
  fun ds hds => h ds (hds.trans ht)

/-- A bound on the runs may be raised. -/
theorem mono {m : Nat} (h : RunsWithin n s) (hnm : n ≤ m) : RunsWithin m s :=
  fun ds hds hdigits => Nat.le_trans (h ds hds hdigits) hnm

/-- No run of digits goes on over a character that is no digit. -/
theorem cons (h : RunsWithin n s) (hc : Text.isAsciiDigit c = false) : RunsWithin n (c :: s) := by
  intro ds hds hdigits
  rcases List.infix_cons_iff.1 hds with hprefix | hinfix
  · -- A run that starts with the character is empty.
    rcases List.prefix_cons_iff.1 hprefix with rfl | ⟨r, rfl, -⟩
    · exact Nat.zero_le n
    · rw [List.all_cons, hc, Bool.false_and] at hdigits
      cases hdigits
  · exact h ds hinfix hdigits

/-- Text without digits in front adds no run and lengthens none. -/
theorem append_left (hs : ∀ c ∈ s, Text.isAsciiDigit c = false) (ht : RunsWithin n t) :
    RunsWithin n (s ++ t) := by
  induction s with
  | nil => exact ht
  | cons c s ih =>
    exact (ih fun d hd => hs d (List.mem_cons_of_mem c hd)).cons (hs c List.mem_cons_self)

/-- Two texts may be put together where the second one does not start with a digit. No run of
    digits then goes from the one into the other. -/
theorem append (hs : RunsWithin n s) (ht : RunsWithin n t)
    (hhead : ∀ c, t.head? = some c → Text.isAsciiDigit c = false) : RunsWithin n (s ++ t) := by
  intro ds hds hdigits
  rcases List.infix_append_iff.1 hds with h | h | ⟨l, r, rfl, hl, hr⟩
  · exact hs ds h hdigits
  · exact ht ds h hdigits
  · -- The part of the run that is in the second text is empty.
    obtain rfl : r = [] := by
      cases r with
      | nil => rfl
      | cons c r =>
        obtain ⟨u, rfl⟩ := hr
        rw [List.all_append, List.all_cons, hhead c rfl, Bool.false_and, Bool.and_false]
          at hdigits
        cases hdigits
    rw [List.append_nil] at hdigits ⊢
    exact hs l hl.isInfix hdigits

end RunsWithin

/-! ### Readable texts -/

/-- A text in ASCII whose runs of digits have room for another digit. No number that is read from
    it, or is one more than such a number, is too long. -/
structure ReadableText (s : List Char) : Prop where
  ascii : ∀ c ∈ s, c.toNat < 128
  runs : RunsWithin (Numeral.limit - 1) s

namespace ReadableText

variable {s t : List Char} {c : Char}

/-- A short text needs no look at its digits. -/
theorem of_length_le (hascii : ∀ c ∈ s, c.toNat < 128) (hlen : s.length ≤ Numeral.limit - 1) :
    ReadableText s :=
  ⟨hascii, .of_length_le hlen⟩

/-- A part of a readable text is readable. -/
theorem part (h : ReadableText s) (ht : t <:+: s) : ReadableText t :=
  ⟨fun c hc => h.ascii c (ht.subset hc), h.runs.part ht⟩

/-- Readability is about the characters, however they are packed. -/
theorem ofList (h : ReadableText s) : ReadableText (String.ofList s).toList := by
  rwa [String.toList_ofList]

/-- ASCII without digits may be put in front. -/
theorem append_left (hs : ∀ c ∈ s, c.toNat < 128 ∧ Text.isAsciiDigit c = false)
    (ht : ReadableText t) : ReadableText (s ++ t) where
  ascii c hc := (List.mem_append.1 hc).elim (fun hc => (hs c hc).1) (ht.ascii c)
  runs := ht.runs.append_left fun c hc => (hs c hc).2

/-- So may a single character. -/
theorem cons (h : ReadableText s) (hascii : c.toNat < 128) (hc : Text.isAsciiDigit c = false) :
    ReadableText (c :: s) :=
  h.append_left (s := [c]) (by simpa using ⟨hascii, hc⟩)

/-- Two readable texts are readable together, if the second one does not begin with a digit: no run
    goes on from one to the other. -/
theorem append (hs : ReadableText s) (ht : ReadableText t)
    (hhead : ∀ c, t.head? = some c → Text.isAsciiDigit c = false) : ReadableText (s ++ t) where
  ascii c hc := (List.mem_append.1 hc).elim (hs.ascii c) (ht.ascii c)
  runs := hs.runs.append ht.runs hhead

end ReadableText

/-! ### Parts -/

/-- Taking white space off the end leaves the front of a text. -/
theorem trimEnd_isPrefix (s : List Char) : Text.trimEnd s <+: s := by
  rw [← List.reverse_suffix, Text.trimEnd, List.reverse_reverse]
  exact List.dropWhile_suffix _

/-- Trimming leaves a part of a text. -/
theorem infix_trim (s : List Char) : Text.trim s <:+: s := by
  have hstart : Text.trimStart s <:+ s := List.dropWhile_suffix _
  exact (trimEnd_isPrefix _).isInfix.trans hstart.isInfix

/-- The pieces that a text is cut into are parts of it, the first one at its front. What holds of
    all parts of a text is handed down so. -/
structure PiecesOf (s : List Char) (ps : List (List Char)) : Prop where
  first : ∀ p, ps.head? = some p → p <+: s
  parts : ∀ p ∈ ps, p <:+: s

namespace PiecesOf

variable {r s : List Char} {ps : List (List Char)}

/-- Behind a separator a new piece starts, which is empty so far. -/
theorem start (h : PiecesOf r ps) (hr : r <:+: s) : PiecesOf s ([] :: ps) where
  first := by
    rintro p ⟨⟩
    exact List.nil_prefix
  parts p hp := by
    rcases List.mem_cons.1 hp with rfl | hp
    · exact List.nil_infix
    · exact (h.parts p hp).trans hr

/-- Any other character goes on with the first piece. -/
theorem extend {p : List Char} (h : PiecesOf s (p :: ps)) (c : Char) :
    PiecesOf (c :: s) ((c :: p) :: ps) where
  first := by
    rintro q ⟨⟩
    exact (List.prefix_cons_inj c).2 (h.first p rfl)
  parts q hq := by
    rcases List.mem_cons.1 hq with rfl | hq
    · exact ((List.prefix_cons_inj c).2 (h.first p rfl)).isInfix
    · exact List.infix_cons (h.parts q (List.mem_cons_of_mem p hq))

end PiecesOf

/-- Splitting at characters gives pieces of the text, in order. Nothing but those characters is
    lost. -/
theorem piecesOf_splitOnP (p : Char → Bool) (s : List Char) : PiecesOf s (s.splitOnP p) := by
  induction s with
  | nil => exact ⟨by simp, by simp⟩
  | cons c s ih =>
    rw [List.splitOnP_cons_eq_if_modifyHead]
    split
    case isTrue => exact ih.start (List.suffix_cons c s).isInfix
    case isFalse =>
      cases hrest : s.splitOnP p with
      | nil => exact absurd hrest (List.splitOnP_ne_nil p s)
      | cons k ks =>
        rw [hrest] at ih
        exact ih.extend c

end VersionRange
