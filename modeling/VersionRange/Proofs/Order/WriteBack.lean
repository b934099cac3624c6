import VersionRange.Proofs.Canonical.Surface
import VersionRange.Proofs.Order.Stability
import VersionRange.Proofs.Version.Numeral

namespace VersionRange

/-!
# Prereleases written back from their segments

The order sees nothing of a prerelease but the keys of its segments.  Where the numbers have no
leading zeros nothing is lost on the way: the prerelease can be written back from the keys, and so
the order tells any two of them apart.

* `SegmentKey.write`: keys in writing, with a point where two numbers meet.
* `Marker.AreNumbers`: numbers without leading zeros, joined by points and hyphens;
  `Marker.areNumbers_induction` goes through them from mark to mark.
* `Marker.IsReduced`: the markers of canonical texts whose numbers are such ones.
* `Marker.write_segmentKeys_tag`: the prerelease of a reduced marker is written back.
* `Marker.text_eq_of_order_eq`: reduced markers that compare equal are written alike.
-/

/-! ### Keys in writing -/

namespace SegmentKey

instance : Std.LawfulEqCmp cmp where
  eq_of_compare := eq_of_cmp_eq

/-- The canonical word with a weight, and nothing for a weight that no keyword has. -/
def spelling (w : Nat) : List Char :=
  let words := (Keyword.dev :: Marker.canonicalKeywords).map fun k => k.text.toList
  (words.find? fun word => weight? word == some w).getD []

/-- A key in writing. A number is written without leading zeros, so a numeral with such zeros is
    not written back. -/
def chars : SegmentKey → List Char
  | keyword w => spelling w
  | number n => Nat.toDigits 10 n
  | word s => s

/-- Whether a key is a number. -/
def isNumber : SegmentKey → Bool
  | number _ => true
  | _ => false

/-- Keys in writing.  Only two numbers have to be kept apart: next to anything else a number ends
    where its digits do. -/
def write : List SegmentKey → List Char
  | [] => []
  | k :: ks =>
    k.chars ++ ((if k.isNumber && ks.head?.any isNumber then ['.'] else []) ++ write ks)

/-- Between two numbers a point is written, or they would run together. -/
theorem write_number_number (m n : Nat) (ks : List SegmentKey) :
    write (.number m :: .number n :: ks) = Nat.toDigits 10 m ++ '.' :: write (.number n :: ks) :=
  rfl

/-- A number in front of anything else is written without one. -/
theorem write_number {ks : List SegmentKey} (h : ks.head?.any isNumber = false) (n : Nat) :
    write (.number n :: ks) = Nat.toDigits 10 n ++ write ks := by
  rw [write, h, Bool.and_false]
  rfl

/-- A word is written as it is. -/
theorem write_cons {k : SegmentKey} (h : k.isNumber = false) (ks : List SegmentKey) :
    write (k :: ks) = k.chars ++ write ks := by
  rw [write, h, Bool.false_and]
  rfl

end SegmentKey

/-- Tags that compare equal have the same keys. An absent tag is equal to an absent one only. -/
theorem eq_of_tagOrder_eq {absent : Ordering} (habsent : absent ≠ .eq)
    {a b : Option (List SegmentKey)} (h : tagOrder absent a b = .eq) : a = b := by
  cases a with
  | none =>
    cases b with
    | none => rfl
    | some b => exact absurd h habsent
  | some a =>
    cases b with
    | none => exact absurd (Ordering.swap_eq_eq.1 h) habsent
    | some b =>
      have hkeys : List.compareLex SegmentKey.cmp a b = .eq := h
      rw [Std.LawfulEqCmp.eq_of_compare hkeys]

namespace Marker

/-! ### Numbers behind a keyword -/

/-- Numbers without leading zeros, with a point or a hyphen between any two of them. -/
def AreNumbers (s : List Char) : Prop := ∀ n ∈ s.splitOnP isMark, Numeral.IsReduced n

instance (s : List Char) : Decidable (AreNumbers s) :=
  inferInstanceAs (Decidable (∀ n ∈ s.splitOnP isMark, _))

/-- Numbers are one number, or a number in front of a mark and further numbers. This is the
    induction for all that is said of them below. -/
theorem areNumbers_induction {motive : List Char → Prop}
    (last : ∀ n, Numeral.IsReduced n → motive n)
    (more : ∀ n c r, Numeral.IsReduced n → isMark c = true → AreNumbers r → motive r →
      motive (n ++ c :: r)) {s : List Char} (h : AreNumbers s) : motive s := by
  have hsplit := List.takeWhile_append_dropWhile (p := fun c => !isMark c) (l := s)
  have hfront : ∀ c ∈ s.takeWhile fun c => !isMark c, isMark c = false := fun c hc => by
    simpa using List.mem_takeWhile_imp hc
  cases hrest : s.dropWhile fun c => !isMark c with
  | nil =>
    rw [hrest, List.append_nil] at hsplit
    rw [hsplit] at hfront
    rw [AreNumbers, List.splitOnP_eq_singleton hfront] at h
    exact last s (h s List.mem_cons_self)
  | cons c r =>
    have hc : isMark c = true := by
      have hhead := List.head?_dropWhile_not (fun c => !isMark c) s
      rw [hrest] at hhead
      simpa using hhead
    -- What stands behind the first mark is shorter.
    have hlen : r.length < s.length := by
      have hsum := congrArg List.length hsplit
      rw [hrest, List.length_append, List.length_cons] at hsum
      omega
    rw [hrest] at hsplit
    rw [AreNumbers, ← hsplit, List.splitOnP_append_cons_of_forall_mem hfront c hc,
      List.forall_mem_cons] at h
    rw [← hsplit]
    exact more _ c r h.1 hc h.2 (areNumbers_induction last more h.2)
termination_by s.length

/-- Reduced numbers with points between them are numbers of a marker. -/
theorem AreNumbers.isNumbers {s : List Char} (h : AreNumbers s) : IsNumbers s := by
  apply areNumbers_induction (motive := IsNumbers) _ _ h
  · intro n hn
    exact .last (isGroup_of_isNumeral hn.1)
  · intro n c r hn hc _ ih
    exact .more (isGroup_of_isNumeral hn.1) hc ih

/-- They are written in ASCII. -/
theorem AreNumbers.ascii {s : List Char} (h : AreNumbers s) : ∀ c ∈ s, c.toNat < 128 := by
  apply areNumbers_induction (motive := fun s => ∀ c ∈ s, c.toNat < 128) _ _ h
  · intro n hn c hc
    exact Text.isAsciiDigit_lt (Numeral.mem_isReduced hn c hc)
  · intro n c r hn hc _ ih d hd
    rcases List.mem_append.1 hd with hd | hd
    · exact Text.isAsciiDigit_lt (Numeral.mem_isReduced hn d hd)
    · rcases List.mem_cons.1 hd with rfl | hd
      · rcases isMark_iff.1 hc with rfl | rfl <;> decide
      · exact ih d hd

/-! ### The keys of numbers -/

/-- The digits of a reduced numeral make up one run of numbers. -/
theorem runKind_of_mem_isReduced {n : List Char} (h : Numeral.IsReduced n) :
    ∀ c ∈ n, runKind c = some true := by
  intro c hc
  have hdigit := Numeral.mem_isReduced h c hc
  exact runKind_of_isDigit (Text.isAsciiDigit_lt hdigit) (Text.isDigit_of_isAsciiDigit hdigit)

/-- A numeral is one segment, a run of digits without anything to split it. -/
theorem segmentKeys_of_isReduced {n : List Char} (h : Numeral.IsReduced n) :
    segmentKeys n = [.number (Numeral.value n)] := by
  -- It is one run, as all of its characters are of one kind.
  have hkind := runKind_of_mem_isReduced h
  have hchain : n.IsChain fun a b => (runKind a == runKind b) = true := by
    apply List.Pairwise.isChain
    rw [List.pairwise_iff_forall_sublist]
    intro a b hab
    rw [hkind a (hab.subset (by simp)), hkind b (hab.subset (by simp))]
    rfl
  have hpoint : n.contains '.' = false := by
    rw [← Bool.not_eq_true, List.contains_iff_mem]
    intro hmem
    exact absurd (hkind '.' hmem) (by decide)
  have hne : n ≠ [] := by
    rintro rfl
    exact absurd h.1 (by decide)
  rw [segmentKeys, segments, List.splitBy_of_isChain hne hchain]
  simp only [List.filter_cons, List.filter_nil, hpoint, Bool.not_false, if_true, List.map_cons,
    List.map_nil, segmentKey_of_isNumeral h.1]

/-- Numbers begin with such a run. -/
theorem runKind_of_head {s : List Char} (h : AreNumbers s) :
    ∀ c ∈ s.head?, runKind c = some true := by
  intro c hc
  have hdigit : Text.isDigit c = true := by
    have hahead := h.isNumbers.digitAhead_eq
    rw [List.eq_cons_of_mem_head? hc] at hahead
    exact hahead
  exact runKind_of_isDigit (h.ascii c (List.mem_of_mem_head? hc)) hdigit

/-- A mark ends the numeral in front of it, and it is a segment if it is no point. -/
theorem segmentKeys_more {n r : List Char} {c : Char} (hn : Numeral.IsReduced n)
    (hc : isMark c = true) (hr : AreNumbers r) :
    segmentKeys (n ++ c :: r)
      = .number (Numeral.value n) :: (segmentKeys [c] ++ segmentKeys r) := by
  -- The mark is of another kind than the digits around it, so a segment ends on both sides of it.
  have hmark : runKind c ≠ some true := by
    rcases isMark_iff.1 hc with rfl | rfl <;> decide
  have hfront : segmentKeys (n ++ c :: r) = segmentKeys n ++ segmentKeys (c :: r) := by
    apply segmentKeys_append
    intro a ha b hb
    obtain rfl : c = b := Option.some.inj hb
    rw [runKind_of_mem_isReduced hn a (List.mem_of_getLast? ha)]
    exact hmark.symm
  have hbehind : segmentKeys ([c] ++ r) = segmentKeys [c] ++ segmentKeys r := by
    apply segmentKeys_append
    intro a ha b hb
    obtain rfl : c = a := Option.some.inj ha
    rw [runKind_of_head hr b hb]
    exact hmark
  rw [hfront, segmentKeys_of_isReduced hn]
  exact congrArg _ hbehind

/-- Numbers have a number for their first key. -/
theorem exists_number {s : List Char} (h : AreNumbers s) :
    ∃ n ks, segmentKeys s = .number n :: ks := by
  apply areNumbers_induction (motive := fun s => ∃ n ks, segmentKeys s = .number n :: ks) _ _ h
  · intro n hn
    exact ⟨_, [], segmentKeys_of_isReduced hn⟩
  · intro n c r hn hc hr _
    exact ⟨_, _, segmentKeys_more hn hc hr⟩

/-- Numbers are written back, whatever stands behind them but a further number. By induction over
    the numbers, with the rest of the keys as a parameter. -/
theorem write_segmentKeys {s : List Char} (h : AreNumbers s) {ks : List SegmentKey}
    (hks : ks.head?.any SegmentKey.isNumber = false) :
    SegmentKey.write (segmentKeys s ++ ks) = s ++ SegmentKey.write ks := by
  apply areNumbers_induction
    (motive := fun s => SegmentKey.write (segmentKeys s ++ ks) = s ++ SegmentKey.write ks) _ _ h
  · intro n hn
    rw [segmentKeys_of_isReduced hn, List.singleton_append, SegmentKey.write_number hks,
      Numeral.toDigits_value hn]
  · intro n c r hn hc hr ih
    rw [segmentKeys_more hn hc hr]
    rcases isMark_iff.1 hc with rfl | rfl
    · -- The point left no key, and it is put back in front of the next number.
      obtain ⟨k, rest, hfirst⟩ := exists_number hr
      have hpoint : segmentKeys ['.'] = [] := by decide
      rw [hfirst, List.cons_append] at ih
      rw [hpoint, hfirst, List.nil_append, List.cons_append, List.cons_append,
        SegmentKey.write_number_number, ih, Numeral.toDigits_value hn, List.append_assoc,
        List.cons_append]
    · -- The hyphen has a key of its own, next to which nothing has to be put back.
      have hhyphen : segmentKeys ['-'] = [.word ['-']] := by decide
      rw [hhyphen, List.singleton_append, List.cons_append, List.cons_append,
        SegmentKey.write_number rfl, SegmentKey.write_cons rfl, ih, Numeral.toDigits_value hn,
        List.append_assoc]
      rfl

/-! ### Prereleases -/

/-- The marker of a canonical text whose numbers have no leading zeros: one of the keywords with
    numbers or without, or no keyword, and in either case `dev` or not. -/
structure IsReduced (m : Marker) : Prop where
  keyword : ∀ word ∈ m.keyword, word ∈ canonicalKeywords.map fun k => k.text.toList
  bare : m.keyword = none → m.identifier = []
  numbers : m.identifier = [] ∨ AreNumbers m.identifier

instance (m : Marker) : Decidable m.IsReduced :=
  decidable_of_iff ((∀ word ∈ m.keyword, word ∈ canonicalKeywords.map fun k => k.text.toList) ∧
    (m.keyword = none → m.identifier = []) ∧ (m.identifier = [] ∨ AreNumbers m.identifier))
    ⟨fun h => ⟨h.1, h.2.1, h.2.2⟩, fun h => ⟨h.keyword, h.bare, h.numbers⟩⟩

namespace IsReduced

variable {m n : Marker}

/-- The identifier of a reduced marker is ASCII. -/
theorem ascii_identifier (h : m.IsReduced) : ∀ c ∈ m.identifier, c.toNat < 128 := by
  rcases h.numbers with hnil | hnumbers
  · rw [hnil]
    simp
  · exact hnumbers.ascii

/-- The whole text of a reduced marker is ASCII. Its keyword is one of four, and its numbers are
    digits of ASCII with marks. -/
theorem ascii_text (h : m.IsReduced) : ∀ c ∈ m.text, c.toNat < 128 := by
  intro c hc
  rw [text, List.mem_append] at hc
  rcases hc with hc | hc
  · cases hword : m.keyword with
    | none =>
      rw [hword] at hc
      exact absurd hc List.not_mem_nil
    | some word =>
      have hwords : ∀ word ∈ canonicalKeywords.map fun k => k.text.toList,
          ∀ c ∈ '-' :: word, c.toNat < 128 := by decide
      rw [hword] at hc
      rcases List.mem_append.1 hc with hc | hc
      · exact hwords word (h.keyword word hword) c hc
      · exact h.ascii_identifier c hc
  · have hdev : ∀ c ∈ "-dev".toList, c.toNat < 128 := by decide
    split at hc
    · exact hdev c hc
    · exact absurd hc List.not_mem_nil

/-- A reduced marker is written in the canonical way. The four keywords are written in their long
    form. -/
theorem isCanonical (h : m.IsReduced) : m.IsCanonical := by
  -- The four keywords are written in small letters and in their long form.
  have hwords : ∀ word ∈ canonicalKeywords.map fun k => k.text.toList,
      word.map Text.plain ∈ keywords ∧ Keyword.longForm word = word ∧
        word ≠ Keyword.stable.text.toList := by decide
  have hnumbers : IsIdentifier m.identifier ∧ m.identifier.dropWhile isMark = m.identifier := by
    rcases h.numbers with hnil | hnumbers
    · rw [hnil]
      exact ⟨isIdentifier_nil, rfl⟩
    · have hnone : [] ∈ marks := by decide
      exact hnumbers.isNumbers.isIdentifier_mark hnone
  exact {
    spelled := fun word hword => (hwords word (h.keyword word hword)).1
    identifier := hnumbers.1
    bare := h.bare
    long := fun word hword => (hwords word (h.keyword word hword)).2.1
    unstable := fun word hword => (hwords word (h.keyword word hword)).2.2
    joined := hnumbers.2 }

/-- **Written back.** A keyword is known by its weight and a number by its value, and the points are
    where numbers meet. -/
theorem write_segmentKeys_tag (h : m.IsReduced) :
    SegmentKey.write (segmentKeys m.tag) = m.tag := by
  cases hword : m.keyword with
  | none =>
    cases hdev : m.dev with
    | false =>
      have htag : m.tag = [] := by
        rw [tag, text, hword, hdev]
        rfl
      rw [htag]
      rfl
    | true =>
      rw [tag_of_dev hword hdev]
      decide
  | some word =>
    obtain ⟨k, hk, rfl⟩ := List.mem_map.1 (h.keyword word hword)
    rw [segmentKeys_tag h.isCanonical hk hword h.ascii_identifier, tag_of_keyword hword]
    by_cases hempty : m.identifier = []
    · -- The keyword and `dev` are one segment, which is a word.
      have hjoined : ∀ k ∈ canonicalKeywords, ∀ t ∈ ["-dev".toList, []],
          SegmentKey.write [segmentKey (k.text.toList ++ t)] = k.text.toList ++ t := by decide
      rw [if_pos hempty, hempty, List.nil_append]
      apply hjoined k hk
      rw [devText]
      cases m.dev <;> decide
    · have hkeyword : ∀ k ∈ canonicalKeywords, (segmentKey k.text.toList).isNumber = false ∧
          (segmentKey k.text.toList).chars = k.text.toList := by decide
      obtain ⟨hnumber, hchars⟩ := hkeyword k hk
      -- Behind the numbers there is `dev` or nothing, but no further number.
      have hbehind : ∀ ks, ks = (if m.dev then [.word "-dev".toList] else []) →
          ks.head?.any SegmentKey.isNumber = false ∧ SegmentKey.write ks = m.devText := by
        rintro ks rfl
        rw [devText]
        cases m.dev <;> exact ⟨rfl, rfl⟩
      obtain ⟨hnone, hdev⟩ := hbehind _ rfl
      rw [if_neg hempty, SegmentKey.write_cons hnumber, hchars,
        write_segmentKeys (h.numbers.resolve_left hempty) hnone, hdev]

/-- **Writing back.** The tag of a reduced marker is written back from its keys, and so is
    determined by them. -/
theorem write_tagKeys (h : m.IsReduced) :
    (tagKeys (String.ofList m.tag)).elim [] SegmentKey.write = m.tag := by
  by_cases hnil : m.tag = []
  · rw [hnil]
    rfl
  · rw [tagKeys_ofList hnil]
    exact h.write_segmentKeys_tag

/-- **Told apart.** Two such markers have equal prereleases only if they are written alike. -/
theorem text_eq_of_order_eq (hm : m.IsReduced) (hn : n.IsReduced) (h : m.order n = .eq) :
    m.text = n.text := by
  have hkeys : tagKeys (String.ofList m.tag) = tagKeys (String.ofList n.tag) :=
    eq_of_tagOrder_eq (by decide) h
  have htag : m.tag = n.tag := by rw [← hm.write_tagKeys, hkeys, hn.write_tagKeys]
  rw [text_eq_marked hm.isCanonical, text_eq_marked hn.isCanonical, htag]

end IsReduced

end Marker

end VersionRange
