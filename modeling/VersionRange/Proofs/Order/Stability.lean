import VersionRange.Proofs.Canonical.Maturity
import VersionRange.Proofs.Version.Canonical

namespace VersionRange

/-!
# Less stable versions sort lower

How stable a version is and where it sorts are both decided by its marker, but not in the same way:
behind a keyword, the word `dev` is one more segment of the prerelease and no level of its own.

* `segments_append`: the segments of a text that changes its kind of character somewhere.
* `Marker.segmentKeys_tag`: the segments of a prerelease with a keyword.
* `Marker.order`: the order of the prereleases of two markers; `Marker.order_of_rank_lt` where the
  levels decide it, and `Marker.order_dev` where they do not.
* `compareTexts_of_rank_lt`: less stable versions of the same numbers sort lower, unless a keyword
  with `dev` meets another keyword.
-/

/-! ### Segments -/

/-- Where the kind of the characters changes, a segment ends. -/
theorem segments_append {s t : List Char}
    (h : ∀ a ∈ s.getLast?, ∀ b ∈ t.head?, runKind a ≠ runKind b) :
    segments (s ++ t) = segments s ++ segments t := by
  have hkinds : ∀ a ∈ s.getLast?, ∀ b ∈ t.head?, (runKind a == runKind b) = false := by
    intro a ha b hb
    exact beq_eq_false_iff_ne.2 (h a ha b hb)
  rw [segments, segments, segments, List.splitBy_append hkinds, List.filter_append]

/-- Where two texts meet in characters of different kinds their segments are those of both. -/
theorem segmentKeys_append {s t : List Char}
    (h : ∀ a ∈ s.getLast?, ∀ b ∈ t.head?, runKind a ≠ runKind b) :
    segmentKeys (s ++ t) = segmentKeys s ++ segmentKeys t := by
  rw [segmentKeys, segments_append h, List.map_append]
  rfl

namespace SegmentKey

/-- Only equal keys are not apart. Weights, numbers and words are told apart from each other, and
    compared among themselves. -/
theorem eq_of_cmp_eq {a b : SegmentKey} (h : cmp a b = .eq) : a = b := by
  cases a with
  | keyword m =>
    cases b with
    | keyword n => rw [Nat.compare_eq_eq.1 h]
    | _ => cases h
  | number m =>
    cases b with
    | number n => rw [Nat.compare_eq_eq.1 h]
    | _ => cases h
  | word s =>
    cases b with
    | word t => rw [Std.LawfulEqOrd.eq_of_compare h]
    | _ => cases h

/-- The keys of some segments with `-dev` behind them, against others that all come before `-dev`:
    the first difference decides, and where there is none, `-dev` is too much. -/
theorem compareLex_append_dev {as bs : List SegmentKey}
    (hbs : ∀ b ∈ bs, cmp (.word "-dev".toList) b = .gt) :
    List.compareLex cmp (as ++ [.word "-dev".toList]) bs ≠ .eq ∧
      (List.compareLex cmp (as ++ [.word "-dev".toList]) bs = .lt ↔
        List.compareLex cmp as bs = .lt ∧ ¬ as <+: bs) := by
  induction as generalizing bs with
  | nil =>
    -- Only `-dev` is left, and it is greater than nothing and than any other segment.
    have hgt : List.compareLex cmp [.word "-dev".toList] bs = .gt := by
      cases bs with
      | nil => rfl
      | cons b bs => rw [List.compareLex_cons_cons, hbs b List.mem_cons_self, Ordering.gt_then]
    rw [List.nil_append, hgt]
    simp
  | cons a as ih =>
    cases bs with
    | nil => simp [List.compareLex_cons_nil]
    | cons b bs =>
      obtain ⟨hne, hiff⟩ := ih fun c hc => hbs c (List.mem_cons_of_mem b hc)
      rw [List.cons_append, List.compareLex_cons_cons, List.compareLex_cons_cons]
      cases hab : cmp a b with
      | lt =>
        -- The first difference is here, so there is no common start.
        have hstart : ¬ a :: as <+: b :: bs := by
          intro hp
          have hself : cmp b b = .eq := Std.ReflCmp.compare_self
          rw [(List.cons_prefix_cons.1 hp).1, hself] at hab
          cases hab
        simp [hstart]
      | gt => simp
      | eq =>
        obtain rfl := eq_of_cmp_eq hab
        rw [Ordering.eq_then, Ordering.eq_then, List.cons_prefix_cons]
        simp only [true_and]
        exact ⟨hne, hiff⟩

end SegmentKey

/-! ### Numbers behind a keyword -/

namespace Marker

variable {s : List Char}

/-- Numbers without a mark in front of them begin with a digit. The canonical form of a marker
    drops the marks. -/
theorem isDigit_head (h : IsIdentifier s) (hjoined : s.dropWhile isMark = s) :
    ∀ c ∈ s.head?, Text.isDigit c = true := by
  cases s with
  | nil => simp
  | cons d r =>
    intro c hc
    obtain rfl : d = c := by simpa using hc
    rcases mem_isIdentifier h List.mem_cons_self with hd | hm
    · exact hd
    · exfalso
      rw [List.dropWhile_cons_of_pos hm] at hjoined
      have hlen := (List.dropWhile_suffix (l := r) isMark).length_le
      rw [hjoined, List.length_cons] at hlen
      omega

/-- Digits of ASCII make up runs of numbers. -/
theorem runKind_of_isDigit {c : Char} (hascii : c.toNat < 128) (h : Text.isDigit c = true) :
    runKind c = some true := by
  rw [Text.isDigit_of_ascii hascii] at h
  have hpoint : c ≠ '.' := by
    rintro rfl
    exact absurd h (by decide)
  rw [runKind, if_neg hpoint, h]

/-- None of the weighted words begins with a digit or a hyphen. So numbers and the segments with
    hyphens have no weight. -/
theorem weight?_eq_none {c : Char} (h : (Text.isAsciiDigit c || c == '-') = true)
    (r : List Char) : weight? (c :: r) = none := by
  -- Such a character is ASCII, and there are few enough of those to look at them all.
  have hweights : ∀ p ∈ weights, p.1.toList.head? ≠ some c.toLower := by
    have hascii : c.toNat < 128 := by
      rcases Bool.or_eq_true_iff.1 h with hd | hm
      · exact Text.isAsciiDigit_lt hd
      · rw [beq_iff_eq.1 hm]
        decide
    revert h
    exact Text.forall_ascii (P := fun c => (Text.isAsciiDigit c || c == '-') = true →
      ∀ p ∈ weights, p.1.toList.head? ≠ some c.toLower) (by decide) hascii
  rw [weight?, Option.map_eq_none_iff, List.find?_eq_none]
  intro p hp hword
  have hhead := hweights p hp
  rw [beq_iff_eq.1 hword] at hhead
  exact hhead rfl

/-- A numeral has its number for a key. -/
theorem segmentKey_of_isNumeral {n : List Char} (h : Version.isNumeral n = true) :
    segmentKey n = .number (Numeral.value n) := by
  cases n with
  | nil => exact absurd h (by decide)
  | cons c r =>
    have hc : Text.isAsciiDigit c = true := by
      simp only [Version.isNumeral, Bool.and_eq_true, List.all_eq_true] at h
      exact h.2 c List.mem_cons_self
    rw [segmentKey, weight?_eq_none (by rw [hc, Bool.true_or])]
    exact if_pos h

/-- A segment of digits or of hyphens sorts before `-dev`. Numbers come before words, and a row of
    hyphens before a hyphen with letters. -/
theorem cmp_dev_of_run {run : List Char} (hne : run ≠ [])
    (h : run.all Text.isAsciiDigit = true ∨ ∀ c ∈ run, c = '-') :
    SegmentKey.cmp (.word "-dev".toList) (segmentKey run) = .gt := by
  rcases h with hd | hm
  · have hnumeral : Version.isNumeral run = true := by simpa [Version.isNumeral, hne] using hd
    rw [segmentKey_of_isNumeral hnumeral]
    rfl
  · obtain ⟨c, r, rfl⟩ := List.exists_cons_of_ne_nil hne
    obtain rfl := hm c List.mem_cons_self
    rw [segmentKey, weight?_eq_none (by decide)]
    -- One hyphen is a beginning of `-dev`, and the second one is below the `d`.
    cases r with
    | nil => decide
    | cons d r =>
      obtain rfl := hm d (by simp)
      rfl

/-- All segments of numbers sort before `-dev`. They are runs of digits or of hyphens, as the
    points are gone. -/
theorem cmp_dev_of_mem (h : IsIdentifier s) (hascii : ∀ c ∈ s, c.toNat < 128) :
    ∀ k ∈ segmentKeys s, SegmentKey.cmp (.word "-dev".toList) k = .gt := by
  intro k hk
  obtain ⟨run, hrun, rfl⟩ := List.mem_map.1 hk
  obtain ⟨hsplit, hpoint⟩ := List.mem_filter.1 hrun
  have hpart := infix_of_mem_segments hrun
  have hne : run ≠ [] := List.ne_nil_of_mem_splitBy hsplit
  refine cmp_dev_of_run hne ?_
  have hchars : ∀ c ∈ run, Text.isAsciiDigit c = true ∨ c = '-' := by
    intro c hc
    rcases mem_isIdentifier h (hpart.subset hc) with hd | hm
    · rw [Text.isDigit_of_ascii (hascii c (hpart.subset hc))] at hd
      exact .inl hd
    · rcases isMark_iff.1 hm with rfl | rfl
      · simp [hc] at hpoint
      · exact .inr rfl
  -- One segment holds characters of one kind, so with one hyphen there is nothing else in it.
  have hkind := runKind_eq_of_mem_run hsplit
  by_cases hhyphen : '-' ∈ run
  · right
    intro c hc
    rcases hchars c hc with hd | hm
    · have hdigit := runKind_of_isDigit (Text.isAsciiDigit_lt hd) (Text.isDigit_of_isAsciiDigit hd)
      rw [hkind c hc '-' hhyphen] at hdigit
      exact absurd hdigit (by decide)
    · exact hm
  · left
    rw [List.all_eq_true]
    intro c hc
    exact (hchars c hc).resolve_right fun heq => hhyphen (heq ▸ hc)

/-! ### Prereleases with a keyword -/

/-- The keywords that canonical markers have. The keyword `stable` is left out in writing, and
    `dev` has its own place. -/
def canonicalKeywords : List Keyword := [.patch, .beta, .rc, .alpha]

/-- The keyword of a canonical marker in ASCII is one of four. `stable` and `dev` are written in
    other ways or not at all. -/
theorem IsCanonical.exists_keyword {m : Marker} (hm : m.IsCanonical)
    (hascii : ∀ c ∈ m.text, c.toNat < 128) {word : List Char} (hword : m.keyword = some word) :
    ∃ k ∈ canonicalKeywords, word = k.text.toList := by
  have hletters : ∀ c ∈ word, c.toNat < 128 := fun c hc => hascii c (by simp [text, hword, hc])
  have hspelled : word.map Char.toLower ∈ keywords := by
    rw [← List.map_congr_left fun c hc => Text.plain_of_ascii (hletters c hc)]
    exact hm.spelled word hword
  -- In ASCII the letters of a keyword are its own, so it is in the table.
  have hknown : ∀ key ∈ keywords,
      Keyword.ofText? key ∈ (Keyword.stable :: canonicalKeywords).map some := by
    decide
  have hmem := hknown _ hspelled
  rw [Keyword.ofText?_toLower, List.mem_map] at hmem
  obtain ⟨k, hk, hfound⟩ := hmem
  have htext : word = k.text.toList := by
    have hlong := hm.long word hword
    rw [Keyword.longForm, ← hfound] at hlong
    exact hlong.symm
  rcases List.mem_cons.1 hk with rfl | hk
  · exact absurd htext (hm.unstable word hword)
  · exact ⟨k, hk, htext⟩

/-- The identifier of a marker is part of its text. -/
theorem IsCanonical.ascii_identifier {m : Marker} (hm : m.IsCanonical)
    (hascii : ∀ c ∈ m.text, c.toNat < 128) : ∀ c ∈ m.identifier, c.toNat < 128 := by
  cases hword : m.keyword with
  | none =>
    rw [hm.bare hword]
    simp
  | some word => exact fun c hc => hascii c (by simp [text, hword, hc])

/-- The word `dev` behind the numbers of a keyword. -/
def devText (m : Marker) : List Char := if m.dev then "-dev".toList else []

/-- Without a keyword the tag of a `dev` version is the word itself. -/
theorem tag_of_dev {m : Marker} (hkeyword : m.keyword = none) (hdev : m.dev = true) :
    m.tag = "dev".toList := by
  rw [tag, text, hkeyword, hdev]
  rfl

/-- With a keyword the tag begins with the keyword, then come the numbers and the `dev`. -/
theorem tag_of_keyword {m : Marker} {word : List Char} (hword : m.keyword = some word) :
    m.tag = word ++ (m.identifier ++ m.devText) := by
  rw [tag, text, hword, devText, List.append_assoc]
  rfl

/-- The keyword on its own is one segment, and it does not end with a digit. -/
theorem segmentKeys_keyword {k : Keyword} (hk : k ∈ canonicalKeywords) :
    segmentKeys k.text.toList = [segmentKey k.text.toList] ∧
      ∀ a ∈ k.text.toList.getLast?, runKind a = some false := by
  have hkeywords : ∀ k ∈ canonicalKeywords,
      segmentKeys k.text.toList = [segmentKey k.text.toList] ∧
        (k.text.toList.getLast?.map runKind).getD (some false) = some false := by decide
  obtain ⟨hkeys, hlast⟩ := hkeywords k hk
  refine ⟨hkeys, fun a ha => ?_⟩
  rw [Option.mem_def.1 ha] at hlast
  exact hlast

/-- The word `dev` is one segment, and it does not begin with a digit. -/
theorem segmentKeys_devText (m : Marker) :
    segmentKeys m.devText = (if m.dev then [.word "-dev".toList] else []) ∧
      ∀ b ∈ m.devText.head?, runKind b = some false := by
  rw [devText]
  cases m.dev with
  | false => exact ⟨rfl, by simp⟩
  | true =>
    refine ⟨by decide, fun b hb => ?_⟩
    obtain rfl : '-' = b := Option.some.inj hb
    decide

/-- The segments of a prerelease with a keyword: without numbers there is one segment, and else the
    keyword, the numbers and `dev` have segments of their own. -/
theorem segmentKeys_tag {m : Marker} (hm : m.IsCanonical) {k : Keyword}
    (hk : k ∈ canonicalKeywords) (hword : m.keyword = some k.text.toList)
    (hascii : ∀ c ∈ m.identifier, c.toNat < 128) :
    segmentKeys m.tag =
      if m.identifier = [] then [segmentKey (k.text.toList ++ m.devText)]
      else segmentKey k.text.toList ::
        (segmentKeys m.identifier ++ if m.dev then [.word "-dev".toList] else []) := by
  rw [tag_of_keyword hword]
  by_cases hempty : m.identifier = []
  · have hjoined : ∀ k ∈ canonicalKeywords, ∀ t ∈ ["-dev".toList, []],
        segmentKeys (k.text.toList ++ t) = [segmentKey (k.text.toList ++ t)] := by decide
    rw [if_pos hempty, hempty, List.nil_append]
    refine hjoined k hk m.devText ?_
    rw [devText]
    cases m.dev <;> decide
  · rw [if_neg hempty]
    obtain ⟨hkeyword, hkeywordEnd⟩ := segmentKeys_keyword hk
    obtain ⟨hdev, hdevStart⟩ := segmentKeys_devText m
    have hstart : ∀ b ∈ m.identifier.head?, runKind b = some true := fun b hb =>
      runKind_of_isDigit (hascii b (List.mem_of_mem_head? hb))
        (isDigit_head hm.identifier hm.joined b hb)
    have hend : ∀ a ∈ m.identifier.getLast?, runKind a = some true := fun a ha =>
      runKind_of_isDigit (hascii a (List.mem_of_getLast? ha)) (isDigit_getLast hm.identifier a ha)
    -- Neither the keyword nor `-dev` has a digit where it meets the numbers.
    rw [segmentKeys_append, hkeyword, segmentKeys_append, hdev, List.singleton_append]
    · intro a ha b hb
      rw [hend a ha, hdevStart b hb]
      decide
    · intro a ha b hb
      rw [List.head?_append_of_ne_nil _ hempty] at hb
      rw [hkeywordEnd a ha, hstart b hb]
      decide

/-- Among the keywords the less stable one sorts first. -/
theorem cmp_keyword {k l : Keyword} (hk : k ∈ canonicalKeywords) (hl : l ∈ canonicalKeywords) :
    (segmentKey k.text.toList).cmp (segmentKey l.text.toList)
      = compare l.stability.rank k.stability.rank := by
  have hkeywords : ∀ k ∈ canonicalKeywords, ∀ l ∈ canonicalKeywords,
      (segmentKey k.text.toList).cmp (segmentKey l.text.toList)
        = compare l.stability.rank k.stability.rank := by decide
  exact hkeywords k hk l hl

/-- Keywords of the same level are the same. -/
theorem eq_of_rank_eq {k l : Keyword} (hk : k ∈ canonicalKeywords) (hl : l ∈ canonicalKeywords)
    (h : l.stability.rank = k.stability.rank) : k = l := by
  have hkeywords : ∀ k ∈ canonicalKeywords, ∀ l ∈ canonicalKeywords,
      l.stability.rank = k.stability.rank → k = l := by decide
  exact hkeywords k hk l hl h

/-- A keyword that is joined to `dev` is a word, which no keyword but `patch` comes behind. -/
theorem cmp_keyword_dev {k l : Keyword} (hk : k ∈ canonicalKeywords)
    (hl : l ∈ canonicalKeywords) :
    SegmentKey.cmp (segmentKey (k.text.toList ++ "-dev".toList)) (segmentKey l.text.toList)
      = if k ≠ .patch ∧ l = .patch then .lt else .gt := by
  have hkeywords : ∀ k ∈ canonicalKeywords, ∀ l ∈ canonicalKeywords,
      SegmentKey.cmp (segmentKey (k.text.toList ++ "-dev".toList)) (segmentKey l.text.toList)
        = if k ≠ .patch ∧ l = .patch then .lt else .gt := by decide
  exact hkeywords k hk l hl

/-- Without `dev` the numbers stand behind the keyword. -/
theorem segmentKeys_tag_of_dev_eq_false {m : Marker} (hm : m.IsCanonical) {k : Keyword}
    (hk : k ∈ canonicalKeywords) (hword : m.keyword = some k.text.toList)
    (hascii : ∀ c ∈ m.identifier, c.toNat < 128) (hdev : m.dev = false) :
    segmentKeys m.tag = segmentKey k.text.toList :: segmentKeys m.identifier := by
  rw [segmentKeys_tag hm hk hword hascii, devText, hdev]
  by_cases hempty : m.identifier = []
  · rw [if_pos hempty, hempty]
    simp [segmentKeys]
  · rw [if_neg hempty]
    simp

/-! ### The order of prereleases -/

/-- The order of the prereleases that two markers are written as. An absent marker is behind all
    others. -/
def order (m n : Marker) : Ordering :=
  tagOrder .gt (tagKeys (String.ofList m.tag)) (tagKeys (String.ofList n.tag))

/-- A tag that is not empty has keys. -/
theorem tagKeys_ofList {t : List Char} (h : t ≠ []) :
    tagKeys (String.ofList t) = some (segmentKeys t) := by
  have hne : String.ofList t ≠ "" := by
    intro heq
    have hlist := congrArg String.toList heq
    rw [String.toList_ofList] at hlist
    exact h hlist
  rw [tagKeys, if_neg hne, String.toList_ofList]

/-- The tag of a marker with a keyword is not empty. -/
theorem tag_ne_nil {m : Marker} {k : Keyword} (hword : m.keyword = some k.text.toList) :
    m.tag ≠ [] := by
  rw [tag_of_keyword hword]
  cases k <;> exact List.cons_ne_nil _ _

variable {m n : Marker} {k l : Keyword}

/-- A marker with a keyword and no `dev` has the level of the keyword. -/
theorem stability_of_keyword (hword : m.keyword = some k.text.toList) (hdev : m.dev = false) :
    m.stability = k.stability := by
  rw [stability, hdev, hword, Option.getD_some, Stability.ofText, Keyword.ofText?_text]
  rfl

/-- Only `dev` itself is as unstable as can be. -/
theorem dev_eq_false_of_rank_lt (h : n.stability.rank < m.stability.rank) : n.dev = false := by
  rw [Bool.eq_false_iff]
  intro hdev
  rw [stability, if_pos hdev] at h
  have hle : ∀ level : Stability, level.rank ≤ Stability.dev.rank := by
    intro level
    cases level <;> decide
  exact Nat.not_lt.2 (hle _) h

/-- A prerelease sorts before the version without one. -/
theorem order_absent (hm : m.tag ≠ []) (hkeyword : n.keyword = none) (hdev : n.dev = false) :
    order m n = .lt := by
  have htag : n.tag = [] := by
    rw [tag, text, hkeyword, hdev]
    rfl
  rw [order, tagKeys_ofList hm, htag]
  rfl

/-- A marker that is less stable than another and has no keyword is `dev`. -/
theorem dev_of_rank_lt (hkeyword : m.keyword = none)
    (h : n.stability.rank < m.stability.rank) : m.dev = true := by
  by_contra hfalse
  rw [Bool.not_eq_true] at hfalse
  have hstable : m.stability = .stable := by
    rw [stability, hfalse, hkeyword]
    rfl
  rw [hstable] at h
  exact absurd h (Nat.not_lt_zero _)

/-- The prerelease `dev` sorts before any keyword. Its weight is the greatest, so the first segment
    decides. -/
theorem order_bare_dev (hn : n.IsCanonical) (hascii : ∀ c ∈ n.text, c.toNat < 128)
    (hl : l ∈ canonicalKeywords) (hkeyword : m.keyword = none)
    (hword : n.keyword = some l.text.toList) (hmdev : m.dev = true) (hndev : n.dev = false) :
    order m n = .lt := by
  have hdev : segmentKeys "dev".toList = [.keyword 20] := by decide
  have hkeywords : ∀ l ∈ canonicalKeywords,
      SegmentKey.cmp (.keyword 20) (segmentKey l.text.toList) = .lt := by decide
  rw [order, tag_of_dev hkeyword hmdev, tagKeys_ofList (by decide),
    tagKeys_ofList (tag_ne_nil hword), hdev,
    segmentKeys_tag_of_dev_eq_false hn hl hword (hn.ascii_identifier hascii) hndev]
  show List.compareLex SegmentKey.cmp _ _ = .lt
  rw [List.compareLex_cons_cons, hkeywords l hl, Ordering.lt_then]

/-- Of two keywords without `dev` the less stable one sorts first. Their weights are in the order
    of the levels, and `patch`, which has none, sorts behind them. -/
theorem order_keywords (hm : m.IsCanonical) (hn : n.IsCanonical)
    (hmAscii : ∀ c ∈ m.text, c.toNat < 128) (hnAscii : ∀ c ∈ n.text, c.toNat < 128)
    (hk : k ∈ canonicalKeywords) (hl : l ∈ canonicalKeywords)
    (hkeyword : m.keyword = some k.text.toList) (hword : n.keyword = some l.text.toList)
    (hmdev : m.dev = false) (hndev : n.dev = false)
    (h : n.stability.rank < m.stability.rank) : order m n = .lt := by
  rw [stability_of_keyword hword hndev, stability_of_keyword hkeyword hmdev] at h
  rw [order, tagKeys_ofList (tag_ne_nil hkeyword), tagKeys_ofList (tag_ne_nil hword),
    segmentKeys_tag_of_dev_eq_false hm hk hkeyword (hm.ascii_identifier hmAscii) hmdev,
    segmentKeys_tag_of_dev_eq_false hn hl hword (hn.ascii_identifier hnAscii) hndev]
  show List.compareLex SegmentKey.cmp _ _ = .lt
  rw [List.compareLex_cons_cons, cmp_keyword hk hl, Nat.compare_eq_lt.2 h, Ordering.lt_then]

/-- **The levels decide** the order of two prereleases, unless a keyword with `dev` meets a
    keyword. -/
theorem order_of_rank_lt (hm : m.IsCanonical) (hn : n.IsCanonical)
    (hmAscii : ∀ c ∈ m.text, c.toNat < 128) (hnAscii : ∀ c ∈ n.text, c.toNat < 128)
    (h : n.stability.rank < m.stability.rank)
    (hplain : m.dev = false ∨ m.keyword = none ∨ n.keyword = none) : order m n = .lt := by
  have hndev := dev_eq_false_of_rank_lt h
  -- By the keywords of both markers: a less stable marker without one is `dev`.
  cases hkeyword : m.keyword with
  | none =>
    have hmdev := dev_of_rank_lt hkeyword h
    cases hword : n.keyword with
    | none =>
      have htag : m.tag ≠ [] := by
        rw [tag_of_dev hkeyword hmdev]
        decide
      exact order_absent htag hword hndev
    | some word =>
      obtain ⟨l, hl, rfl⟩ := hn.exists_keyword hnAscii hword
      exact order_bare_dev hn hnAscii hl hkeyword hword hmdev hndev
  | some word =>
    obtain ⟨k, hk, rfl⟩ := hm.exists_keyword hmAscii hkeyword
    cases hword : n.keyword with
    | none => exact order_absent (tag_ne_nil hkeyword) hword hndev
    | some word =>
      obtain ⟨l, hl, rfl⟩ := hn.exists_keyword hnAscii hword
      have hmdev : m.dev = false := by
        refine hplain.resolve_right ?_
        rw [hkeyword, hword]
        simp
      exact order_keywords hm hn hmAscii hnAscii hk hl hkeyword hword hmdev hndev h

/-- What it takes for the keyword `k` of a marker with `dev` to sort before the keyword `l`.
    Without numbers the word `dev` is joined to its keyword, which is only less than `patch`. Behind
    numbers it counts only if the keywords are the same and the numbers do not differ. -/
def SortsBefore (m n : Marker) (k l : Keyword) : Prop :=
  if m.identifier = [] then k ≠ .patch ∧ l = .patch
  else if k = l then
    List.compareLex SegmentKey.cmp (segmentKeys m.identifier) (segmentKeys n.identifier) = .lt ∧
      ¬ segmentKeys m.identifier <+: segmentKeys n.identifier
  else l.stability.rank < k.stability.rank

/-- **Where the levels do not decide**: a keyword with `dev` against another keyword. Without
    numbers `dev` makes the keyword another word, with numbers it comes behind them. -/
theorem order_dev (hm : m.IsCanonical) (hn : n.IsCanonical)
    (hmAscii : ∀ c ∈ m.text, c.toNat < 128) (hnAscii : ∀ c ∈ n.text, c.toNat < 128)
    (hk : k ∈ canonicalKeywords) (hl : l ∈ canonicalKeywords)
    (hkeyword : m.keyword = some k.text.toList) (hword : n.keyword = some l.text.toList)
    (hmdev : m.dev = true) (hndev : n.dev = false) :
    order m n ≠ .eq ∧ (order m n = .lt ↔ m.SortsBefore n k l) := by
  have hnumbers := hn.ascii_identifier hnAscii
  rw [order, tagKeys_ofList (tag_ne_nil hkeyword), tagKeys_ofList (tag_ne_nil hword),
    segmentKeys_tag hm hk hkeyword (hm.ascii_identifier hmAscii),
    segmentKeys_tag_of_dev_eq_false hn hl hword hnumbers hndev, SortsBefore, devText, hmdev]
  show List.compareLex SegmentKey.cmp _ _ ≠ .eq ∧ (List.compareLex SegmentKey.cmp _ _ = .lt ↔ _)
  by_cases hempty : m.identifier = []
  · -- The keyword and `dev` are one segment, a word that is compared with the other keyword.
    rw [if_pos hempty, if_pos hempty, if_pos rfl, List.compareLex_cons_cons,
      cmp_keyword_dev hk hl]
    by_cases hpatch : k ≠ .patch ∧ l = .patch
    · rw [if_pos hpatch, Ordering.lt_then]
      exact ⟨by decide, fun _ => hpatch, fun _ => rfl⟩
    · rw [if_neg hpatch, Ordering.gt_then]
      exact ⟨by decide, fun hlt => absurd hlt (by decide), fun h => absurd h hpatch⟩
  · -- The keyword is a segment of its own, and behind the same keyword the numbers are compared.
    rw [if_neg hempty, if_neg hempty, if_pos rfl, List.compareLex_cons_cons, cmp_keyword hk hl]
    by_cases hkl : k = l
    · subst hkl
      rw [if_pos rfl, Nat.compare_eq_eq.2 rfl, Ordering.eq_then]
      exact SegmentKey.compareLex_append_dev (cmp_dev_of_mem hn.identifier hnumbers)
    · have hrank : l.stability.rank ≠ k.stability.rank := fun heq => hkl (eq_of_rank_eq hk hl heq)
      rw [if_neg hkl]
      rcases Nat.lt_or_gt_of_ne hrank with hlt | hgt
      · rw [Nat.compare_eq_lt.2 hlt, Ordering.lt_then]
        exact ⟨by decide, fun _ => hlt, fun _ => rfl⟩
      · rw [Nat.compare_eq_gt.2 hgt, Ordering.gt_then]
        exact ⟨by decide, fun h => absurd h (by decide), fun h => absurd h (Nat.not_lt.2 hgt.le)⟩

end Marker

/-! ### Canonical texts -/

/-- A canonical text in ASCII that is no branch: its marker, its level and what it is read as. -/
theorem exists_marker_of_normalized {s x : String} (hs : ∀ c ∈ s.toList, c.toNat < 128)
    (hx : (normalized s).outcome = .ok x) (hb : isBranch x = false)
    (hd : DigitsBounded x.toList) :
    ∃ v, Version.parse x = .ok v ∧ v.prerelease = String.ofList (Marker.search x.toList).tag ∧
      v.build = "" ∧ (Marker.search x.toList).IsCanonical ∧
      (∀ c ∈ (Marker.search x.toList).text, c.toNat < 128) ∧
      Stability.ofVersion x = (Marker.search x.toList).stability := by
  have hascii := ascii_of_normalized hs hx
  obtain ⟨gs, m, rfl, hne, hgs, hm⟩ := exists_dotted_of_normalized hx hb
  rw [String.toList_ofList] at hascii hd ⊢
  have hnumerals : ∀ g ∈ gs, Version.isNumeral g = true := fun g hg =>
    isNumeral_of_isGroup (hgs g hg) fun c hc =>
      hascii c (List.mem_append_left _ ((infix_dotted hg).subset hc))
  have hmarker : ∀ c ∈ m.text, c.toNat < 128 := fun c hc => hascii c (List.mem_append_right _ hc)
  -- The marker that is searched for in the canonical text is the one that it was written with.
  rw [Marker.search_row hgs hm]
  exact ⟨_, parse_canonical hne hnumerals (length_le_of_dotted hnumerals hd) hm hmarker, rfl, rfl,
    hm, hmarker, Stability.ofVersion_dotted hgs hne hm hascii⟩

/-- Versions with the same numbers and no build metadata are in the order of their prereleases.
    Nothing else of them is compared. -/
theorem Version.order_of_release_eq {v w : Version} {m n : Marker} (h : v.release = w.release)
    (hv : v.prerelease = String.ofList m.tag) (hw : w.prerelease = String.ofList n.tag)
    (hvBuild : v.build = "") (hwBuild : w.build = "") : v.order w = m.order n := by
  have hrelease : Ord.compare v.release w.release = .eq := by
    rw [h]
    exact Std.ReflCmp.compare_self
  have hbare : buildOrder v w = .eq := by
    rw [buildOrder, hvBuild, hwBuild]
    rfl
  rw [order_eq, hbare, Ordering.then_eq, precedenceOrder_eq, hrelease, Ordering.eq_then,
    prereleaseOrder, hv, hw]
  rfl

/-- **Less stable sorts lower.** Of two canonical texts with the same numbers the less stable one is
    less, unless it has a keyword with `dev` and the other one has a keyword, too.  Then the
    segments decide: without numbers the one with `dev` is less only if the other one is the
    only `patch` of the two, with numbers behind different keywords only if its keyword is the
    less stable one, and behind the same keyword only if its numbers are less where they first
    differ from those of the other. -/
theorem compareTexts_of_rank_lt {s t x y : String} (hs : ∀ c ∈ s.toList, c.toNat < 128)
    (ht : ∀ c ∈ t.toList, c.toNat < 128) (hx : (normalized s).outcome = .ok x)
    (hy : (normalized t).outcome = .ok y) (hxb : isBranch x = false) (hyb : isBranch y = false)
    (hxd : DigitsBounded x.toList) (hyd : DigitsBounded y.toList) :
    ∃ v w, Version.parse x = .ok v ∧ Version.parse y = .ok w ∧
      (v.release = w.release →
        (Stability.ofVersion y).rank < (Stability.ofVersion x).rank →
        let m := Marker.search x.toList
        let n := Marker.search y.toList
        ((m.dev = false ∨ m.keyword = none ∨ n.keyword = none) →
          compareTexts false x y = .ok (some .lt)) ∧
        ∀ word word', m.dev = true → m.keyword = some word → n.keyword = some word' →
          ∃ k l o, word = k.text.toList ∧ word' = l.text.toList ∧
            compareTexts false x y = .ok (some o) ∧ o ≠ .eq ∧
            (o = .lt ↔ m.SortsBefore n k l)) := by
  obtain ⟨v, hv, hvTag, hvBuild, hm, hmAscii, hxLevel⟩ := exists_marker_of_normalized hs hx hxb hxd
  obtain ⟨w, hw, hwTag, hwBuild, hn, hnAscii, hyLevel⟩ := exists_marker_of_normalized ht hy hyb hyd
  refine ⟨v, w, hv, hw, fun hrelease hrank => ?_⟩
  rw [hxLevel, hyLevel] at hrank
  intro m n
  have hcompare : compareTexts false x y = .ok (some (m.order n)) := by
    rw [Version.compareTexts_of_parse hv hw, Version.compare_of_withinLimit
      (withinLimit_of_parse hxd hv) (withinLimit_of_parse hyd hw),
      Version.order_of_release_eq hrelease hvTag hwTag hvBuild hwBuild]
    rfl
  refine ⟨fun hplain => ?_, fun word word' hdev hword hword' => ?_⟩
  · rw [hcompare, Marker.order_of_rank_lt hm hn hmAscii hnAscii hrank hplain]
  · obtain ⟨k, hk, rfl⟩ := hm.exists_keyword hmAscii hword
    obtain ⟨l, hl, rfl⟩ := hn.exists_keyword hnAscii hword'
    obtain ⟨hne, hiff⟩ := Marker.order_dev hm hn hmAscii hnAscii hk hl hword hword' hdev
      (Marker.dev_eq_false_of_rank_lt hrank)
    exact ⟨k, l, m.order n, rfl, rfl, hcompare, hne, hiff⟩

/-- An alpha version under development is less than a beta version. Both have numbers behind their
    keywords. -/
theorem compareTexts_of_rank_lt_alpha :
    (normalized "1.0-alpha1-dev").outcome = .ok "1.0.0.0-alpha1-dev" ∧
      (normalized "1.0-beta2").outcome = .ok "1.0.0.0-beta2" ∧
      compareTexts false "1.0.0.0-alpha1-dev" "1.0.0.0-beta2" = .ok (some .lt) := by
  have hx : (normalized "1.0-alpha1-dev").outcome = .ok "1.0.0.0-alpha1-dev" :=
    eq_ok_of_toOption (by decide)
  have hy : (normalized "1.0-beta2").outcome = .ok "1.0.0.0-beta2" := eq_ok_of_toOption (by decide)
  obtain ⟨v, w, hv, hw, h⟩ := compareTexts_of_rank_lt (by decide) (by decide) hx hy (by decide)
    (by decide) (.of_length_le (by decide)) (.of_length_le (by decide))
  have hv' : Version.parse "1.0.0.0-alpha1-dev"
      = .ok { major := 1, prerelease := "alpha1-dev" } := eq_ok_of_toOption (by decide)
  have hw' : Version.parse "1.0.0.0-beta2" = .ok { major := 1, prerelease := "beta2" } :=
    eq_ok_of_toOption (by decide)
  obtain rfl : v = { major := 1, prerelease := "alpha1-dev" } :=
    Except.ok.inj (hv.symm.trans hv')
  obtain rfl : w = { major := 1, prerelease := "beta2" } := Except.ok.inj (hw.symm.trans hw')
  obtain ⟨-, hdev⟩ := h rfl (by decide)
  obtain ⟨k, l, o, hk, hl, hcompare, -, hiff⟩ :=
    hdev "alpha".toList "beta".toList (by decide) (by decide) (by decide)
  obtain rfl : k = .alpha := by cases k <;> first | rfl | exact absurd hk (by decide)
  obtain rfl : l = .beta := by cases l <;> first | rfl | exact absurd hl (by decide)
  have hlt : o = .lt := by
    refine hiff.2 ?_
    rw [Marker.SortsBefore, if_neg (by decide), if_neg (by decide)]
    decide
  exact ⟨hx, hy, by rw [hcompare, hlt]⟩

/-- A version under development does not sort below its own beta version: its prerelease is the one
    word `beta-dev`, and words sort behind keywords. -/
theorem not_forall_compareTexts_eq_lt :
    ¬ ∀ (s t x y : String) (v w : Version), (∀ c ∈ s.toList, c.toNat < 128) →
      (∀ c ∈ t.toList, c.toNat < 128) → (normalized s).outcome = .ok x →
      (normalized t).outcome = .ok y → isBranch x = false → isBranch y = false →
      DigitsBounded x.toList → DigitsBounded y.toList → Version.parse x = .ok v →
      Version.parse y = .ok w → v.release = w.release →
      (Stability.ofVersion y).rank < (Stability.ofVersion x).rank →
        compareTexts false x y = .ok (some .lt) := by
  intro h
  have hlt := h "1.0-beta-dev" "1.0-beta" "1.0.0.0-beta-dev" "1.0.0.0-beta"
    { major := 1, prerelease := "beta-dev" } { major := 1, prerelease := "beta" } (by decide)
    (by decide) (eq_ok_of_toOption (by decide)) (eq_ok_of_toOption (by decide)) (by decide)
    (by decide) (.of_length_le (by decide)) (.of_length_le (by decide))
    (eq_ok_of_toOption (by decide)) (eq_ok_of_toOption (by decide)) rfl (by decide)
  have hgt : compareTexts false "1.0.0.0-beta-dev" "1.0.0.0-beta" = .ok (some .gt) :=
    eq_ok_of_toOption (by decide)
  rw [hgt] at hlt
  cases hlt

end VersionRange
