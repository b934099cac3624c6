import Mathlib.Data.List.SplitBy
import VersionRange.Proofs.Text.Readable
import VersionRange.Version.Order

namespace VersionRange

/-!
# Keys of segments, tags and versions

The comparison of versions may fail, because it converts digits to numbers on the way.  This file
splits it into a total order and the question when the conversion works.

* `SegmentKey`, `segmentKey`: what decides about a segment: a weight, a number or a word.
* `tagOrder`: the order of two tags by the keys of their segments.
* `Version.precedenceOrder`, `Version.order`: the order of versions without a way to fail.
* `Version.compare_of_withinLimit`: where all runs of digits can be converted, the comparison has
  the outcome of the order; `Version.order_eq_of_compare`: it never has another one.
-/

/-! ### Segments -/

/-- What decides about a segment in the order. Two segments are equal in the order if they have the
    same key, whatever their texts are. -/
inductive SegmentKey where
  /-- A weighted word with its weight. -/
  | keyword (weight : Nat)
  /-- A run of digits with its number. -/
  | number (value : Nat)
  /-- Any other text. -/
  | word (text : List Char)
  deriving DecidableEq

/-- The key of a segment. The words with a weight are looked up first, so none of them counts as a
    plain word. -/
def segmentKey (s : List Char) : SegmentKey :=
  match weight? s with
  | some w => .keyword w
  | none => if Version.isNumeral s then .number (Numeral.value s) else .word s

namespace SegmentKey

/-- Keywords come first, the heavier one before the lighter one, then numbers, then words. Numbers
    are compared by value and words letter by letter. -/
def cmp : SegmentKey → SegmentKey → Ordering
  | keyword m, keyword n => compare n m
  | keyword _, _ => .lt
  | number _, keyword _ => .gt
  | number m, number n => compare m n
  | number _, word _ => .lt
  | word s, word t => compare s t
  | word _, _ => .gt

/-- The order of keys does not depend on the side from which it is looked at. -/
theorem cmp_swap (a b : SegmentKey) : cmp a b = (cmp b a).swap := by
  cases a <;> cases b <;> simp only [cmp, Ordering.swap_lt, Ordering.swap_gt]
  · exact Std.OrientedOrd.eq_swap
  · exact Std.OrientedOrd.eq_swap
  · exact Std.OrientedOrd.eq_swap

instance : Std.OrientedCmp cmp where
  eq_swap := cmp_swap _ _

instance : Std.TransCmp cmp where
  isLE_trans {a b c} hab hbc := by
    -- Keys of different kinds are settled by the kinds alone; keywords compare from the right.
    cases a <;> cases b <;> cases c <;> simp only [cmp] at *
    case keyword.keyword.keyword => exact Std.TransOrd.isLE_trans hbc hab
    case number.number.number => exact Std.TransOrd.isLE_trans hab hbc
    case word.word.word => exact Std.TransOrd.isLE_trans hab hbc
    all_goals first | rfl | contradiction

end SegmentKey

/-- A text has no run of digits that is too long to be converted. Every part that is a numeral can
    be read as a number then. -/
def DigitsBounded (s : List Char) : Prop :=
  ∀ ds, ds <:+: s → ds.all Text.isAsciiDigit = true → ds.length ≤ Numeral.limit

/-- A short text needs no look at its digits. -/
theorem DigitsBounded.of_length_le {s : List Char} (h : s.length ≤ Numeral.limit) :
    DigitsBounded s :=
  RunsWithin.of_length_le h

/-- A part of a text has no longer numbers than the text. -/
theorem DigitsBounded.part {s t : List Char} (h : DigitsBounded s) (ht : t <:+: s) :
    DigitsBounded t :=
  RunsWithin.part h ht

/-- A numeral in a bounded text is short enough to be converted. -/
theorem DigitsBounded.read {s : List Char} (h : DigitsBounded s) (hs : Version.isNumeral s = true) :
    Numeral.read s = .ok (Numeral.value s) := by
  have had : s.all Text.isAsciiDigit = true := by
    simp only [Version.isNumeral, Bool.and_eq_true] at hs
    exact hs.2
  exact Numeral.read_of_length_le (h s (List.infix_refl s) had)

/-- The comparison of two segments fails only where both are numbers. Everywhere else it is the
    comparison of their keys. -/
theorem compareSegment_eq (a b : List Char) :
    compareSegment a b = .ok ((segmentKey a).cmp (segmentKey b)) ∨
      Version.isNumeral a = true ∧ Version.isNumeral b = true ∧
        compareSegment a b = (do return compare (← Numeral.read a) (← Numeral.read b)) ∧
        (segmentKey a).cmp (segmentKey b) = compare (Numeral.value a) (Numeral.value b) := by
  unfold compareSegment segmentKey
  -- By the weights of both: only where neither has one they may both be numbers.
  cases weight? a with
  | some m =>
    left
    cases weight? b with
    | some n => rfl
    | none => by_cases nb : Version.isNumeral b = true <;> simp [nb, SegmentKey.cmp]
  | none =>
    cases weight? b with
    | some n => left; by_cases na : Version.isNumeral a = true <;> simp [na, SegmentKey.cmp]
    | none =>
      by_cases na : Version.isNumeral a = true <;> by_cases nb : Version.isNumeral b = true <;>
        simp [na, nb, SegmentKey.cmp]

/-- Short segments are compared as their keys are. -/
theorem compareSegment_of_bounded {a b : List Char} (ha : DigitsBounded a) (hb : DigitsBounded b) :
    compareSegment a b = .ok ((segmentKey a).cmp (segmentKey b)) := by
  rcases compareSegment_eq a b with h | ⟨na, nb, h, hk⟩
  · exact h
  · rw [h, hk, ha.read na, hb.read nb]
    rfl

/-- If a comparison of segments has an outcome at all it is that of their keys. -/
theorem cmp_eq_of_compareSegment {a b : List Char} {o : Ordering}
    (h : compareSegment a b = .ok o) : (segmentKey a).cmp (segmentKey b) = o := by
  rcases compareSegment_eq a b with h' | ⟨na, nb, h', hk⟩
  · rw [h'] at h
    exact Except.ok.inj h
  · rw [h'] at h
    rw [hk]
    simp only [Numeral.read] at h
    split at h <;> split at h <;> first | exact Except.ok.inj h | cases h

/-! ### Lists of segments -/

/-- The keys of the segments of a tag, from the first to the last. -/
def segmentKeys (s : List Char) : List SegmentKey := (segments s).map segmentKey

/-- The segments of a text stand in it. -/
theorem infix_of_mem_segments {s run : List Char} (h : run ∈ segments s) : run <:+: s := by
  have hmem : run ∈ s.splitBy fun a b => runKind a == runKind b := (List.mem_filter.1 h).1
  have := List.infix_of_mem_flatten hmem
  rwa [List.flatten_splitBy] at this

/-- Lists of short segments are compared as their keys are, from left to right. A list that ends
    first is the lesser one. -/
theorem compareSegments_of_bounded {as bs : List (List Char)} (ha : ∀ s ∈ as, DigitsBounded s)
    (hb : ∀ s ∈ bs, DigitsBounded s) :
    compareSegments as bs
      = .ok (List.compareLex SegmentKey.cmp (as.map segmentKey) (bs.map segmentKey)) := by
  induction as generalizing bs with
  | nil => cases bs <;> rfl
  | cons a as ih =>
    cases bs with
    | nil => rfl
    | cons b bs =>
      have hab := compareSegment_of_bounded (ha a (by simp)) (hb b (by simp))
      have ha' : ∀ s ∈ as, DigitsBounded s := fun s hs => ha s (by simp [hs])
      have hb' : ∀ s ∈ bs, DigitsBounded s := fun s hs => hb s (by simp [hs])
      have ih' := ih ha' hb'
      simp only [compareSegments, hab, List.map_cons, List.compareLex_cons_cons]
      -- The first difference decides, and behind equal segments the rest does.
      cases (segmentKey a).cmp (segmentKey b) with
      | lt => rfl
      | eq => exact ih'
      | gt => rfl

/-- If the comparison has an outcome it is that of the keys. Segments behind the first difference
    need not be short for that. -/
theorem compareLex_eq_of_compareSegments {as bs : List (List Char)} {o : Ordering}
    (h : compareSegments as bs = .ok o) :
    List.compareLex SegmentKey.cmp (as.map segmentKey) (bs.map segmentKey) = o := by
  induction as generalizing bs with
  | nil => cases bs <;> exact Except.ok.inj h
  | cons a as ih =>
    cases bs with
    | nil => exact Except.ok.inj h
    | cons b bs =>
      simp only [compareSegments] at h
      cases hab : compareSegment a b with
      | error e => rw [hab] at h; cases h
      | ok p =>
        rw [hab] at h
        simp only [List.map_cons, List.compareLex_cons_cons, cmp_eq_of_compareSegment hab]
        cases p with
        | lt => exact Except.ok.inj h
        | eq => exact ih h
        | gt => exact Except.ok.inj h

/-! ### Tags -/

/-- The keys of a tag, if it is present. An empty text is an absent tag. -/
def tagKeys (s : String) : Option (List SegmentKey) :=
  if s = "" then none else some (segmentKeys s.toList)

/-- The order of two tags by their keys, where an absent tag compares as `absent` says: before all
    others for metadata, and behind them for prereleases. -/
def tagOrder (absent : Ordering) :
    Option (List SegmentKey) → Option (List SegmentKey) → Ordering
  | none, none => .eq
  | none, some _ => absent
  | some _, none => absent.swap
  | some a, some b => List.compareLex SegmentKey.cmp a b

/-- The order of tags does not depend on the side, if the rule for an absent tag is
    turned as well. -/
theorem tagOrder_swap (absent : Ordering) (a b : Option (List SegmentKey)) :
    tagOrder absent a b = (tagOrder absent b a).swap := by
  cases a <;> cases b <;> simp only [tagOrder, Ordering.swap_swap, Ordering.swap_eq]
  exact Std.OrientedCmp.eq_swap

/-- An absent tag may be the least or the greatest one, but it must not be equal to the others. -/
theorem transCmp_tagOrder {absent : Ordering} (h : absent ≠ .eq) :
    Std.TransCmp (tagOrder absent) where
  eq_swap := tagOrder_swap absent _ _
  isLE_trans {a b c} hab hbc := by
    -- Only where all three tags are present their segments are looked at.
    cases a <;> cases b <;> cases c <;> simp only [tagOrder] at *
    case some.some.some => exact Std.TransCmp.isLE_trans hab hbc
    all_goals first | rfl | assumption | (cases absent <;> contradiction)

/-- Tags in bounded texts are compared as their keys are. -/
theorem compareTag_of_bounded {absent : Ordering} {a b : String} (ha : DigitsBounded a.toList)
    (hb : DigitsBounded b.toList) :
    compareTag absent a b = .ok (tagOrder absent (tagKeys a) (tagKeys b)) := by
  unfold compareTag tagKeys
  by_cases ea : a = "" <;> by_cases eb : b = "" <;> simp only [ea, eb, if_true, if_false, tagOrder]
  exact compareSegments_of_bounded (fun s hs => ha.part (infix_of_mem_segments hs))
    fun s hs => hb.part (infix_of_mem_segments hs)

/-- If a comparison of tags has an outcome it is that of their keys. -/
theorem tagOrder_eq_of_compareTag {absent o : Ordering} {a b : String}
    (h : compareTag absent a b = .ok o) : tagOrder absent (tagKeys a) (tagKeys b) = o := by
  unfold compareTag at h
  unfold tagKeys
  by_cases ea : a = "" <;> by_cases eb : b = "" <;>
    simp only [ea, eb, if_true, if_false, tagOrder, Except.ok.injEq] at h ⊢ <;> try exact h
  exact compareLex_eq_of_compareSegments h

/-! ### Versions -/

namespace Version

/-- The prerelease and the build metadata of a version can be compared, since all their runs of
    digits can be converted. -/
def WithinLimit (v : Version) : Prop :=
  DigitsBounded v.prerelease.toList ∧ DigitsBounded v.build.toList

/-- The order of prereleases, in which an absent one is the greatest: a release comes behind all
    its prereleases. -/
def prereleaseOrder (a b : Version) : Ordering :=
  tagOrder .gt (tagKeys a.prerelease) (tagKeys b.prerelease)

/-- The order of build metadata, in which absent ones are the least. It counts only where all else
    is equal. -/
def buildOrder (a b : Version) : Ordering := tagOrder .lt (tagKeys a.build) (tagKeys b.build)

instance : Std.TransCmp prereleaseOrder where
  eq_swap := tagOrder_swap .gt _ _
  isLE_trans := (transCmp_tagOrder (by decide) : Std.TransCmp (tagOrder .gt)).isLE_trans

instance : Std.TransCmp buildOrder where
  eq_swap := tagOrder_swap .lt _ _
  isLE_trans := (transCmp_tagOrder (by decide) : Std.TransCmp (tagOrder .lt)).isLE_trans

/-- The order of versions without their build metadata: numbers first, then prereleases. -/
def precedenceOrder : Version → Version → Ordering := compareLex (compareOn release) prereleaseOrder

/-- The order of versions: precedence, and build metadata where it does not decide. -/
def order : Version → Version → Ordering := compareLex precedenceOrder buildOrder

instance : Std.TransCmp precedenceOrder :=
  inferInstanceAs (Std.TransCmp (compareLex (compareOn release) prereleaseOrder))

instance : Std.TransCmp order :=
  inferInstanceAs (Std.TransCmp (compareLex precedenceOrder buildOrder))

/-- Precedence is the order of the numeric groups and, where these are equal, of the prereleases. -/
theorem precedenceOrder_eq (a b : Version) :
    precedenceOrder a b = (Ord.compare a.release b.release).then (prereleaseOrder a b) := rfl

/-- The full order asks for the build metadata last. -/
theorem order_eq (a b : Version) : order a b = (precedenceOrder a b).then (buildOrder a b) := rfl

/-- Within the limit precedence has an outcome, and it is the order. -/
theorem comparePrecedence_of_withinLimit {a b : Version} (ha : a.WithinLimit)
    (hb : b.WithinLimit) : a.comparePrecedence b = .ok (precedenceOrder a b) := by
  unfold comparePrecedence
  rw [precedenceOrder_eq]
  cases Ord.compare a.release b.release with
  | lt => rfl
  | eq => exact compareTag_of_bounded ha.1 hb.1
  | gt => rfl

/-- If it has an outcome beyond the limit, that is the order as well. -/
theorem precedenceOrder_eq_of_compare {a b : Version} {o : Ordering}
    (h : a.comparePrecedence b = .ok o) : precedenceOrder a b = o := by
  unfold comparePrecedence at h
  rw [precedenceOrder_eq]
  cases hr : Ord.compare a.release b.release <;> rw [hr] at h
  · exact Except.ok.inj h
  · exact tagOrder_eq_of_compareTag h
  · exact Except.ok.inj h

/-- Within the limit the comparison of two versions has an outcome, and it is the order. -/
theorem compare_of_withinLimit {a b : Version} (ha : a.WithinLimit) (hb : b.WithinLimit) :
    a.compare b = .ok (order a b) := by
  unfold compare
  rw [comparePrecedence_of_withinLimit ha hb, order_eq]
  cases precedenceOrder a b with
  | lt => rfl
  | eq => exact compareTag_of_bounded ha.2 hb.2
  | gt => rfl

/-- If the comparison has an outcome beyond the limit, that is the order as well. Only the segments
    up to the first difference have to be short for it. -/
theorem order_eq_of_compare {a b : Version} {o : Ordering} (h : a.compare b = .ok o) :
    order a b = o := by
  unfold compare at h
  rw [order_eq]
  cases hp : a.comparePrecedence b with
  | error e => rw [hp] at h; cases h
  | ok p =>
    rw [hp] at h
    rw [precedenceOrder_eq_of_compare hp]
    cases p with
    | lt => exact Except.ok.inj h
    | eq => exact tagOrder_eq_of_compareTag h
    | gt => exact Except.ok.inj h

/-- Only versions with the same numeric groups are equal. -/
theorem release_eq_of_order_eq {a b : Version} (h : order a b = .eq) : a.release = b.release := by
  rw [order_eq, Ordering.then_eq_eq, precedenceOrder_eq, Ordering.then_eq_eq] at h
  exact Std.LawfulEqOrd.eq_of_compare h.1.1

end Version

end VersionRange
