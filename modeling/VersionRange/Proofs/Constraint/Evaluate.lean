import VersionRange.Proofs.Constraint.Between
import VersionRange.Proofs.Constraint.Tree
import VersionRange.Proofs.Version.Canonical

namespace VersionRange

/-!
# Matching one version is evaluating a tree

* `Comparator.admits`: what a comparator says about a version, without a way to fail.
* `relates_eq_admits`: operators say so wherever both texts can be compared.
* `accepts_eq_holds`: and so does a tree for all its leaves.
* `accepts_exactly`: a tree says about a version what its leaves say, put together by its groups.
-/

/-- What a comparator says about a version. Two releases stand to each other as their order tells; a
    branch is equal to itself, and in no other relation to anything. -/
def Comparator.admits (c : Comparator) (x : String) : Bool :=
  match isBranch x, isBranch c.version with
  | false, false => c.operator.check (Version.order (versionOf x) (versionOf c.version))
  | true, true => c.operator == .eq && x == c.version
  | _, _ => false

/-- A text that is read as a version, with runs of digits that can be converted. No branch is such
    a text. -/
def ReleaseText (text : String) : Prop :=
  DigitsBounded text.toList ∧ ∃ v, Version.parse text = .ok v

/-- A text that is short enough and is read as a version is the text of a release. -/
theorem ReleaseText.of_isSome {text : String} (hlen : text.toList.length ≤ Numeral.limit)
    (h : (Version.parse text).toOption.isSome = true) : ReleaseText text := by
  obtain ⟨v, hv⟩ := Option.isSome_iff_exists.1 h
  exact ⟨.of_length_le hlen, v, eq_ok_of_toOption hv⟩

/-- Texts of releases can be compared. -/
theorem ReleaseText.comparable {text : String} (h : ReleaseText text) : ComparableText text :=
  .inr h

/-- The text of a release begins with a digit, so it is no branch. -/
theorem ReleaseText.isBranch_eq_false {text : String} (h : ReleaseText text) :
    isBranch text = false := by
  obtain ⟨-, v, hv⟩ := h
  exact Version.isBranch_of_parse hv

/-- What can be compared and is no branch is the text of a release. -/
theorem ComparableText.release {text : String} (h : ComparableText text)
    (hb : isBranch text = false) : ReleaseText text :=
  h.resolve_left (by simp [hb])

/-- Between texts that are no branches it does not matter whether branches are compared. -/
theorem compareTexts_of_not_branch {l r : String} (hl : isBranch l = false)
    (hr : isBranch r = false) (branches : Bool) :
    compareTexts branches l r = compareTexts true l r := by
  unfold compareTexts
  rw [hl, hr]

/-- A branch is not compared with anything unless that is asked for. -/
theorem compareTexts_of_branch {l r : String} (h : isBranch l = true ∨ isBranch r = true) :
    compareTexts false l r = .ok none := by
  unfold compareTexts
  cases hl : isBranch l <;> cases hr : isBranch r <;> try rfl
  simp [hl, hr] at h

/-- Operators say about two texts what comparators admit. Branches can only be equal or not, and
    have no order to releases. -/
theorem relates_eq_admits {x v : String} (hx : ComparableText x) (hv : ComparableText v)
    (op : Operator) : op.relates false x v = .ok (Comparator.admits ⟨op, v⟩ x) := by
  cases ex : isBranch x <;> cases ev : isBranch v
  case false.false =>
    rw [relates_of_not_branch op x ev, compareTexts_of_not_branch ex ev,
      compareTexts_of_comparable hx hv]
    simp [Except.map, Comparator.admits, textOrder, ex, ev]
  case false.true =>
    simp only [Operator.relates, Comparator.admits, ex, ev, Bool.false_and, Bool.false_eq_true,
      if_false, compareTexts_of_branch (.inr ev)]
    rfl
  case true.false =>
    rw [relates_branch ex ev]
    simp [Comparator.admits, ex, ev]
  case true.true => simp [Operator.relates, Comparator.admits, ex, ev]

/-- Of two releases the comparison of their versions counts. It has an outcome within the limit of
    digits. -/
theorem exists_compare_of_admits {x : String} {c : Comparator} {v w : Version}
    (hx : ComparableText x) (hc : ComparableText c.version) (hv : Version.parse x = .ok v)
    (hw : Version.parse c.version = .ok w) :
    ∃ o, v.compare w = .ok o ∧ c.admits x = c.operator.check o := by
  have ex := Version.isBranch_of_parse hv
  have ec := Version.isBranch_of_parse hw
  obtain ⟨dx, -⟩ := hx.release ex
  obtain ⟨dc, -⟩ := hc.release ec
  refine ⟨_, Version.compare_of_withinLimit (withinLimit_of_parse dx hv)
    (withinLimit_of_parse dc hw), ?_⟩
  simp only [Comparator.admits, ex, ec, versionOf_eq hv, versionOf_eq hw]

/-! ### Trees -/

/-- A comparator that is matched with one version says what it admits. -/
theorem overlaps_eq_admits {x : String} {c : Comparator} (hx : ComparableText x)
    (hc : ComparableText c.version) : c.overlaps false ⟨.eq, x⟩ = .ok (c.admits x) := by
  rw [Comparator.overlaps_exactly]
  exact relates_eq_admits hx hc c.operator

/-- **Evaluation.** A constraint accepts a version if, taken as a formula, it holds of it; no leaf
    ends in an error. -/
theorem accepts_eq_holds {x : String} {t : Constraint} (hx : ComparableText x)
    (ht : ∀ c ∈ t.leaves, ComparableText c.version) :
    t.accepts (.exactly x) = .ok (t.holds (·.admits x)) :=
  Tree.ask_eq_holds t fun c hc => overlaps_eq_admits hx (ht c hc)

/-- **Evaluation.** A tree of constraints says about a version what its leaves say: a group of `all`
    that they all hold, a group of `any` that one does, and no restriction always holds. No branch
    stands in any relation to a release.  If the tree is more than a leaf, the version may ask it
    just as well. -/
theorem accepts_exactly {x : String} (hx : ComparableText x) :
    (∀ c : Comparator, ComparableText c.version →
      compareBy c.operator x c.version = .ok (c.admits x) ∧
      c.operator.relates false x c.version = .ok (c.admits x) ∧
      ∀ v w, Version.parse x = .ok v → Version.parse c.version = .ok w →
        ∃ o, v.compare w = .ok o ∧ c.admits x = c.operator.check o) ∧
    ∀ t : Constraint, (∀ c ∈ t.leaves, ComparableText c.version) →
      t.accepts (.exactly x) = .ok (t.holds (·.admits x)) ∧
      ((∀ c w, t ≠ .leaf c w) →
        Constraint.accepts (.exactly x) t = .ok (t.holds (·.admits x))) := by
  refine ⟨fun c hc => ⟨?_, relates_eq_admits hx hc c.operator, ?_⟩, fun t ht => ?_⟩
  · rw [compareBy_eq_overlaps]
    exact overlaps_eq_admits hx hc
  · intro v w hv hw
    exact exists_compare_of_admits hx hc hv hw
  · have htree := accepts_eq_holds hx ht
    refine ⟨htree, fun hne => ?_⟩
    rw [← htree]
    exact Tree.leaf_meets hne none

/-- A tree of two levels with a branch among its leaves, asked about a release. -/
def evaluateExample : Constraint :=
  .group .any
    [.group .all [.leaf ⟨.ne, "dev-main"⟩ none, .unrestricted none] none,
     .group .all [.leaf ⟨.ge, "1.0.0.0-beta2"⟩ none, .leaf ⟨.lt, "2.0.0.0-dev"⟩ none] none] none

/-- The branch settles nothing, and the range holds. Asking in the other order gives the same, as
    the tree is more than a leaf. -/
theorem accepts_exactly_rc :
    ComparableText "1.0.0.0-RC1" ∧
      evaluateExample.accepts (.exactly "1.0.0.0-RC1") = .ok true ∧
      Constraint.accepts (.exactly "1.0.0.0-RC1") evaluateExample = .ok true ∧
      compareBy .ne "1.0.0.0-RC1" "dev-main" = .ok false := by
  -- All texts of the example are branches or can be read as versions.
  have hbranch : ComparableText "dev-main" := .inl (by decide)
  have hx : ComparableText "1.0.0.0-RC1" :=
    (ReleaseText.of_isSome (by decide) (by decide)).comparable
  have hlow : ComparableText "1.0.0.0-beta2" :=
    (ReleaseText.of_isSome (by decide) (by decide)).comparable
  have hhigh : ComparableText "2.0.0.0-dev" :=
    (ReleaseText.of_isSome (by decide) (by decide)).comparable
  obtain ⟨hcomparator, htree⟩ := accepts_exactly hx
  have hleaves : ∀ c ∈ evaluateExample.leaves, ComparableText c.version := by
    intro c hc
    simp only [evaluateExample, Tree.leaves, Tree.leavesEach, List.mem_cons, List.mem_append,
      List.not_mem_nil, or_false] at hc
    rcases hc with rfl | rfl | rfl
    · exact hbranch
    · exact hlow
    · exact hhigh
  obtain ⟨hforth, hback⟩ := htree evaluateExample hleaves
  have hholds : evaluateExample.holds (·.admits "1.0.0.0-RC1") = true := by decide
  rw [hholds] at hforth hback
  refine ⟨hx, hforth, hback ?_, ?_⟩
  · rintro c w ⟨⟩
  · exact (hcomparator ⟨.ne, "dev-main"⟩ hbranch).1

end VersionRange
