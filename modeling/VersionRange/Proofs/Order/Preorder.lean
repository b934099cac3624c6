import Mathlib.Logic.ExistsUnique
import VersionRange.Proofs.Order.Key
import VersionRange.Proofs.Version.Reading

namespace VersionRange

/-!
# The comparison of versions is a total preorder

* `TotalPreorderOn p outcome`: a comparison, given by its outcomes, answers on everything with the
  property `p`, and its answers are those of a total preorder.
* `TotalPreorderOn.of_order`: a comparison whose outcomes are those of a total order function is
  one.
* `ComparableText`, `textOrder`: the canonical texts that can be compared, and their order with
  branches below all versions.
* `compare_totalPreorder`: versions, their precedence and canonical texts are totally preordered.
-/

/-- A comparison is a total preorder on the elements with a property.  The comparison is given by
    its outcomes: `outcome a b o` says that `a` compared with `b` gives `o`. -/
structure TotalPreorderOn {α : Type} (p : α → Prop) (outcome : α → α → Ordering → Prop) : Prop where
  total {a b : α} : p a → p b → ∃! o, outcome a b o
  refl {a : α} : p a → outcome a a .eq
  swap {a b : α} {o : Ordering} : p a → p b → outcome a b o → outcome b a o.swap
  trans {a b c : α} {o₁ o₂ o₃ : Ordering} : p a → p b → p c →
    outcome a b o₁ → o₁.isLE → outcome b c o₂ → o₂.isLE → outcome a c o₃ → o₃.isLE

/-- Outcomes that are told by an oriented and transitive order make up a total preorder. Each law
    is the law of the order. -/
theorem TotalPreorderOn.of_order {α : Type} {p : α → Prop} {outcome : α → α → Ordering → Prop}
    (order : α → α → Ordering) [Std.TransCmp order]
    (h : ∀ a b, p a → p b → ∀ o, outcome a b o ↔ o = order a b) : TotalPreorderOn p outcome where
  total {a b} ha hb := ⟨order a b, (h a b ha hb _).2 rfl, fun _ ho => (h a b ha hb _).1 ho⟩
  refl {a} ha := (h a a ha ha _).2 Std.ReflCmp.compare_self.symm
  swap {a b o} ha hb ho := by
    rw [(h a b ha hb o).1 ho]
    exact (h b a hb ha _).2 Std.OrientedCmp.eq_swap.symm
  trans {a b c o₁ o₂ o₃} ha hb hc h₁ le₁ h₂ le₂ h₃ := by
    rw [(h a b ha hb o₁).1 h₁] at le₁
    rw [(h b c hb hc o₂).1 h₂] at le₂
    rw [(h a c ha hc o₃).1 h₃]
    exact Std.TransCmp.isLE_trans le₁ le₂

/-! ### Canonical texts -/

/-- A text that can be compared: a branch, or a version whose runs of digits can be converted.
    Branches have no numbers, so nothing is asked of them. -/
def ComparableText (text : String) : Prop :=
  isBranch text = true ∨ DigitsBounded text.toList ∧ ∃ v, Version.parse text = .ok v

/-- The version that a text is read as. A text that cannot be read has the default version here. -/
def versionOf (text : String) : Version := (Version.parse text).toOption.getD default

/-- The version of a text is the one that it is read as. -/
theorem versionOf_eq {text : String} {v : Version} (h : Version.parse text = .ok v) :
    versionOf text = v := by
  simp [versionOf, h, Except.toOption]

/-- The tags of a version stand in its text, so they have no longer numbers. -/
theorem withinLimit_of_parse {text : String} {v : Version} (hd : DigitsBounded text.toList)
    (h : Version.parse text = .ok v) : v.WithinLimit :=
  ⟨hd.part (Version.infix_of_parse h).1, hd.part (Version.infix_of_parse h).2⟩

/-- The name of a branch without regard to case. Branches are equal in the order if these names
    are. -/
def foldedName (text : String) : List Char := Text.casefold text.toList

/-- The order of canonical texts with branches below all versions. It is total, and comparing texts
    gives it for all that can be compared. -/
def textOrder (l r : String) : Ordering :=
  match isBranch l, isBranch r with
  | true, true => compare (foldedName l) (foldedName r)
  | true, false => .lt
  | false, true => .gt
  | false, false => Version.order (versionOf l) (versionOf r)

/-- The order of texts does not depend on the side, branches included. -/
theorem textOrder_swap (l r : String) : textOrder l r = (textOrder r l).swap := by
  unfold textOrder
  cases isBranch l <;> cases isBranch r <;> simp only [Ordering.swap_lt, Ordering.swap_gt]
  · exact Std.OrientedCmp.eq_swap
  · exact Std.OrientedOrd.eq_swap

instance : Std.TransCmp textOrder where
  eq_swap := textOrder_swap _ _
  isLE_trans {a b c} hab hbc := by
    revert hab hbc
    unfold textOrder
    -- Texts of different kinds are settled by their kinds alone.
    cases isBranch a <;> cases isBranch b <;> cases isBranch c <;> intro hab hbc
    case false.false.false =>
      exact (inferInstance : Std.TransCmp Version.order).isLE_trans hab hbc
    case true.true.true =>
      exact (inferInstance : Std.TransOrd (List Char)).isLE_trans hab hbc
    all_goals first | rfl | contradiction

/-- Comparable texts are compared as the order has it: branches below all others and by their
    characters. -/
theorem compareTexts_of_comparable {l r : String} (hl : ComparableText l) (hr : ComparableText r) :
    compareTexts true l r = .ok (some (textOrder l r)) := by
  unfold compareTexts textOrder
  cases el : isBranch l <;> cases er : isBranch r <;> try rfl
  -- Only two versions are read.
  obtain ⟨dl, v, hv⟩ := hl.resolve_left (by simp [el])
  obtain ⟨dr, w, hw⟩ := hr.resolve_left (by simp [er])
  have := Version.compare_of_withinLimit (withinLimit_of_parse dl hv) (withinLimit_of_parse dr hw)
  simp only [hv, hw, bind, Except.bind, this, versionOf_eq hv, versionOf_eq hw]
  rfl

/-! ### The preorders -/

/-- **Comparison is a total preorder.** It always answers for versions whose digits can be
    converted, and so does the comparison by precedence, which it refines; versions that compare
    equal have the same numeric groups.  Canonical texts are totally preordered as well, with all
    branches below all versions. -/
theorem compare_totalPreorder :
    TotalPreorderOn Version.WithinLimit (fun a b o => a.compare b = .ok o) ∧
    TotalPreorderOn Version.WithinLimit (fun a b o => a.comparePrecedence b = .ok o) ∧
    (∀ (a b : Version) (o : Ordering), a.comparePrecedence b = .ok o → o ≠ .eq →
      a.compare b = .ok o) ∧
    (∀ a b : Version, a.compare b = .ok .eq → a.release = b.release) ∧
    TotalPreorderOn ComparableText (fun l r o => compareTexts true l r = .ok (some o)) ∧
    (∀ l r : String, ComparableText l → ComparableText r → isBranch l = true →
      isBranch r = false → compareTexts true l r = .ok (some .lt)) := by
  -- Wherever a comparison answers it answers with a lawful order, which gives the laws at once.
  refine ⟨.of_order Version.order ?_, .of_order Version.precedenceOrder ?_, ?_, ?_,
    .of_order textOrder ?_, ?_⟩
  · intro a b ha hb o
    rw [Version.compare_of_withinLimit ha hb, Except.ok.injEq, eq_comm]
  · intro a b ha hb o
    rw [Version.comparePrecedence_of_withinLimit ha hb, Except.ok.injEq, eq_comm]
  · intro a b o h hne
    unfold Version.compare
    rw [h]
    cases o with
    | lt => rfl
    | eq => exact absurd rfl hne
    | gt => rfl
  · intro a b h
    exact Version.release_eq_of_order_eq (Version.order_eq_of_compare h)
  · intro l r hl hr o
    rw [compareTexts_of_comparable hl hr, Except.ok.injEq, Option.some.injEq, eq_comm]
  · intro l r hl hr bl br
    rw [compareTexts_of_comparable hl hr]
    simp [textOrder, bl, br]

/-- Two prereleases with several segments, and a branch below one of them. There is just one
    outcome, as totality and uniqueness say. -/
theorem compare_totalPreorder_rc_beta :
    (∃! o, ({ major := 1, prerelease := "RC1-dev" } : Version).compare
      { major := 1, prerelease := "beta.2" } = .ok o) ∧
    compareTexts true "dev-main" "1.0.0.0-RC1" = .ok (some .lt) := by
  obtain ⟨hversions, -, -, -, -, hbranch⟩ := compare_totalPreorder
  have hshort {s : String} (h : s.toList.length ≤ Numeral.limit) : DigitsBounded s.toList :=
    .of_length_le h
  constructor
  · exact hversions.total ⟨hshort (by decide), hshort (by decide)⟩
      ⟨hshort (by decide), hshort (by decide)⟩
  · refine hbranch _ _ (.inl (by decide)) (.inr ⟨hshort (by decide), ?_⟩)
      (by decide) (by decide)
    exact ⟨{ major := 1, prerelease := "RC1" }, by rfl⟩

end VersionRange
