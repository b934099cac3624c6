import VersionRange.Proofs.Constraint.Accept
import VersionRange.Proofs.Order.Preorder

namespace VersionRange

/-!
# Versions between two bounds

A range asks of a version that it is not below a lower bound and that it is below an upper one.

* `relates_of_not_branch`, `exists_order_of_relates`, `relates_branch`: what operators say about
  releases and branches.
* `betweenBounds low high x`: what a range says about `x`; `Constraint.accepts_bounds`.
* `InOrder`, `betweenBounds_iff_of_inOrder`: a range between bounds in order means its two halves.
-/

/-! ### Operators -/

/-- What an operator says about a version and a text that is no branch. -/
theorem relates_of_not_branch {v : String} (op : Operator) (x : String) (hv : isBranch v = false) :
    op.relates false x v = (compareTexts false x v).map fun o => o.elim false op.check := by
  unfold Operator.relates
  rw [hv]
  simp only [Bool.and_false, Bool.false_and, Bool.false_eq_true, if_false]
  cases compareTexts false x v with
  | error e => rfl
  | ok o => cases o <;> rfl

/-- Texts are compared by the versions that they are read as. Where there is an order both of them
    can be read, and neither is a branch. -/
theorem order_of_compareTexts {l r : String} {o : Ordering}
    (h : compareTexts false l r = .ok (some o)) :
    isBranch l = false ∧ isBranch r = false ∧ Version.order (versionOf l) (versionOf r) = o := by
  unfold compareTexts at h
  split at h
  case h_1 hl hr =>
    obtain ⟨v, hv, h⟩ := bind_eq_ok_iff.1 h
    obtain ⟨w, hw, h⟩ := bind_eq_ok_iff.1 h
    obtain ⟨p, hp, h⟩ := bind_eq_ok_iff.1 h
    cases h
    rw [versionOf_eq hv, versionOf_eq hw]
    exact ⟨hl, hr, Version.order_eq_of_compare hp⟩
  case h_2 => cases h

/-- Only branches cannot be compared. A text that cannot be read ends in an error instead. -/
theorem isBranch_of_compareTexts_none {l r : String} (h : compareTexts false l r = .ok none) :
    isBranch l = true ∨ isBranch r = true := by
  unfold compareTexts at h
  split at h
  case h_1 =>
    obtain ⟨v, hv, h⟩ := bind_eq_ok_iff.1 h
    obtain ⟨w, hw, h⟩ := bind_eq_ok_iff.1 h
    obtain ⟨p, hp, h⟩ := bind_eq_ok_iff.1 h
    cases h
  case h_2 hne =>
    by_contra hcon
    rw [not_or, Bool.not_eq_true, Bool.not_eq_true] at hcon
    exact hne hcon.1 hcon.2

/-- Where an operator has an answer for a release, the two releases have an order. So all operators
    have an answer there. -/
theorem exists_order_of_relates {op : Operator} {x v : String} {b : Bool}
    (hx : isBranch x = false) (hv : isBranch v = false) (h : op.relates false x v = .ok b) :
    ∀ op' : Operator, op'.relates false x v
      = .ok (op'.check (Version.order (versionOf x) (versionOf v))) := by
  intro op'
  rw [relates_of_not_branch op x hv] at h
  obtain ⟨o, ho, -⟩ := map_eq_ok_iff.1 h
  rw [relates_of_not_branch op' x hv, ho]
  cases o with
  | none =>
    -- Only a branch has no order, and neither of the two is one.
    rcases isBranch_of_compareTexts_none ho with hb | hb
    · rw [hx] at hb
      cases hb
    · rw [hv] at hb
      cases hb
  | some o =>
    rw [(order_of_compareTexts ho).2.2]
    rfl

/-- A branch stands in no relation to a release. -/
theorem relates_branch {op : Operator} {x v : String} (hx : isBranch x = true)
    (hv : isBranch v = false) : op.relates false x v = .ok false := by
  have hcompare : compareTexts false x v = .ok none := by
    unfold compareTexts
    rw [hx, hv]
    rfl
  rw [relates_of_not_branch op x hv, hcompare]
  rfl

/-- The outcome for `>=` in terms of the order. -/
theorem ok_check_ge_iff {o : Ordering} :
    (Except.ok (Operator.ge.check o) : Except Fault Bool) = .ok true ↔ o.isGE = true := by
  rw [Except.ok.injEq]
  rfl

/-- The outcome for `<` in terms of the order. -/
theorem ok_check_lt_iff {o : Ordering} :
    (Except.ok (Operator.lt.check o) : Except Fault Bool) = .ok true ↔ o = .lt := by
  rw [Except.ok.injEq]
  exact Ordering.isLT_iff_eq_lt

/-! ### Ranges -/

/-- What the bounds of a range say about a version.  The upper bound is asked only where the lower
    one holds. -/
def betweenBounds (low high x : String) : Except Fault Bool :=
  Connective.all.decide [Operator.ge.relates false x low, Operator.lt.relates false x high]

/-- A constraint that is nothing but a range asks for both of its bounds. -/
theorem Constraint.accepts_bounds (low high x : String) (w₁ w₂ w : Option String) :
    accepts (.group .all [.leaf ⟨.ge, low⟩ w₁, .leaf ⟨.lt, high⟩ w₂] w) (exactly x)
      = betweenBounds low high x := by
  simp only [accepts_group, List.map_cons, List.map_nil, accepts_leaf]
  rfl

section Between

variable {low mid high x : String} {b : Bool}

/-- A version is between two bounds if it is related to both of them; that the upper one is asked
    last does not show. -/
theorem betweenBounds_eq_true_iff :
    betweenBounds low high x = .ok true ↔
      Operator.ge.relates false x low = .ok true ∧ Operator.lt.relates false x high = .ok true := by
  rw [betweenBounds, Connective.decide_all_eq_true_iff, List.forall_mem_cons,
    List.forall_mem_singleton]

/-- Above the lower bound the upper one decides. -/
theorem betweenBounds_of_ge (h : Operator.ge.relates false x low = .ok true) :
    betweenBounds low high x = Operator.lt.relates false x high := by
  rw [betweenBounds, Connective.decide_cons, Connective.decide_singleton, h]
  rfl

/-- A range that has an answer has one for its lower bound, which settles it if it does not hold. -/
theorem exists_of_betweenBounds (h : betweenBounds low high x = .ok b) :
    ∃ d, Operator.ge.relates false x low = .ok d ∧ (d = false → b = false) := by
  rw [betweenBounds, Connective.decide_cons, Connective.decide_singleton] at h
  obtain ⟨d, hd, hrest⟩ := bind_eq_ok_iff.1 h
  refine ⟨d, hd, ?_⟩
  rintro rfl
  exact (Except.ok.inj hrest).symm

/-- A branch is in no range. -/
theorem betweenBounds_branch (hx : isBranch x = true) (hlow : isBranch low = false)
    (high : String) : betweenBounds low high x = .ok false := by
  rw [betweenBounds, relates_branch hx hlow]
  rfl

end Between

/-- Between bounds in order, what lies between the outer ones lies in one of the halves. In
    descending order all three ranges are empty. -/
theorem range_split {α : Type} (cmp : α → α → Ordering) [Std.TransCmp cmp] {a m c x : α}
    (h : (cmp a m).isLE = true ∧ (cmp m c).isLE = true ∨
      (cmp a m).isGE = true ∧ (cmp m c).isGE = true) :
    ((cmp x a).isGE = true ∧ cmp x c = .lt) ↔
      ((cmp x a).isGE = true ∧ cmp x m = .lt) ∨ ((cmp x m).isGE = true ∧ cmp x c = .lt) := by
  -- Wherever the bound in the middle is, it has the version on one side.
  have hsplit : cmp x m = .lt ∨ (cmp x m).isGE = true := by
    cases cmp x m <;> simp
  have below {p q : α} (hge : (cmp x p).isGE = true) (hpq : (cmp p q).isGE = true)
      (hlt : cmp x q = .lt) : False := by
    have := Std.TransCmp.isGE_trans hge hpq
    rw [hlt] at this
    cases this
  rcases h with ⟨ham, hmc⟩ | ⟨ham, hmc⟩
  · constructor
    · rintro ⟨hxa, hxc⟩
      rcases hsplit with hxm | hxm
      · exact .inl ⟨hxa, hxm⟩
      · exact .inr ⟨hxm, hxc⟩
    · rintro (⟨hxa, hxm⟩ | ⟨hxm, hxc⟩)
      · exact ⟨hxa, Std.TransCmp.lt_of_lt_of_isLE hxm hmc⟩
      · have hma : (cmp m a).isGE = true := Std.OrientedCmp.isGE_iff_isLE.2 ham
        exact ⟨Std.TransCmp.isGE_trans hxm hma, hxc⟩
  · -- In descending order nothing lies between any two of the bounds.
    constructor
    · rintro ⟨hxa, hxc⟩
      exact absurd hxc fun hxc => below hxa (Std.TransCmp.isGE_trans ham hmc) hxc
    · rintro (⟨hxa, hxm⟩ | ⟨hxm, hxc⟩)
      · exact absurd hxm fun hxm => below hxa ham hxm
      · exact absurd hxc fun hxc => below hxm hmc hxc

/-- Three bounds in ascending or in descending order. Two of them may be equal, and all three can
    be compared. -/
def InOrder (low mid high : String) : Prop :=
  ∃ o₁ o₂, compareTexts false low mid = .ok (some o₁) ∧
    compareTexts false mid high = .ok (some o₂) ∧
    (o₁.isLE = true ∧ o₂.isLE = true ∨ o₁.isGE = true ∧ o₂.isGE = true)

/-- **Ranges that meet.** A range from `low` to `high` asks the same as the ranges from `low` to
    `mid` and from `mid` to `high` together, if the three bounds are in order.  In descending order
    nothing satisfies any of them. -/
theorem betweenBounds_iff_of_inOrder {low mid high x : String} (h : InOrder low mid high)
    {b c : Bool} (hmid : Operator.ge.relates false x mid = .ok c)
    (hb : betweenBounds low high x = .ok b) :
    b = true ↔ betweenBounds low mid x = .ok true ∨ betweenBounds mid high x = .ok true := by
  obtain ⟨o₁, o₂, h₁, h₂, hord⟩ := h
  obtain ⟨hlow, hmid', rfl⟩ := order_of_compareTexts h₁
  obtain ⟨-, hhigh, rfl⟩ := order_of_compareTexts h₂
  by_cases hx : isBranch x = true
  · rw [betweenBounds_branch hx hlow] at hb ⊢
    rw [betweenBounds_branch hx hmid', ← Except.ok.inj hb]
    simp
  · rw [Bool.not_eq_true] at hx
    obtain ⟨d, hd, hfalse⟩ := exists_of_betweenBounds hb
    have hxlow := exists_order_of_relates hx hlow hd
    have hxmid := exists_order_of_relates hx hmid' hmid
    have hhalves := range_split Version.order (x := versionOf x) hord
    rw [betweenBounds_eq_true_iff, betweenBounds_eq_true_iff, hxlow .ge, hxmid .lt, hxmid .ge,
      ok_check_ge_iff, ok_check_lt_iff, ok_check_ge_iff]
    rw [hxlow .ge, Except.ok.injEq] at hd
    cases d with
    | false =>
      -- What is in either half of the range is not below the lower bound.
      have hbelow : ¬ (Version.order (versionOf x) (versionOf low)).isGE = true :=
        Bool.eq_false_iff.1 hd
      rw [hfalse rfl]
      refine iff_of_false (by simp) ?_
      rintro (⟨hge, -⟩ | ⟨hge, hlt⟩)
      · exact hbelow hge
      · have hxhigh := exists_order_of_relates hx hhigh hlt .lt
        have hinside := ok_check_lt_iff.1 (hxhigh.symm.trans hlt)
        exact hbelow (hhalves.2 (.inr ⟨hge, hinside⟩)).1
    | true =>
      have hge : (Version.order (versionOf x) (versionOf low)).isGE = true := hd
      rw [betweenBounds_of_ge (by rw [hxlow .ge, hd])] at hb
      have hxhigh := exists_order_of_relates hx hhigh hb .lt
      have hinside : b = true ↔ Version.order (versionOf x) (versionOf high) = .lt := by
        rw [← ok_check_lt_iff, ← hxhigh, hb, Except.ok.injEq]
      rw [hxhigh, ok_check_lt_iff, ← hhalves, hinside]
      exact (and_iff_right hge).symm

end VersionRange
