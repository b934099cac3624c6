import VersionRange.Proofs.Constraint.Overlap

namespace VersionRange

/-!
# Asking two comparators in either order

* `Operator.IsBound`: an operator that is open to one side.
* `Comparator.PinnedAgainst`: one version against a bound, the one pair that is not asked alike in
  both orders.
* `Comparator.overlaps_lower_upper`: a lower and an upper bound leave room for each other if
  something lies between them.
* `Comparator.overlaps_of_common`: so do any two comparators that hold of one version.
* `Comparator.overlaps_comm`: any other pair is asked alike in both orders.
* `Constraint.accepts_leaf_comm`: the answers of two comparators in both orders, and what a denial
  says.
-/

/-- An operator that is open to one side: below or above a version, with or without the version
    itself. -/
def Operator.IsBound (op : Operator) : Prop := op.direction = .below ∨ op.direction = .above

/-- An operator that is neither a bound nor an exclusion pins one version. -/
theorem Operator.eq_of_not_isBound {op : Operator} (hne : op ≠ .ne) (hbound : ¬op.IsBound) :
    op = .eq := by
  cases op with
  | eq => rfl
  | ne => exact absurd rfl hne
  | lt | le => exact absurd (.inl rfl) hbound
  | gt | ge => exact absurd (.inr rfl) hbound

/-- An operator that is open downwards says the same of two versions apart as the strict one. -/
theorem Operator.check_below {op : Operator} (hop : op.direction = .below) {o : Ordering}
    (hne : o ≠ .eq) : op.check o = o.isLT := by
  cases op with
  | lt => rfl
  | le => cases o <;> first | rfl | exact absurd rfl hne
  | _ => cases hop

/-- An operator that is open upwards says the same of two versions apart as the strict one. -/
theorem Operator.check_above {op : Operator} (hop : op.direction = .above) {o : Ordering}
    (hne : o ≠ .eq) : op.check o = o.isGT := by
  cases op with
  | gt => rfl
  | ge => cases o <;> first | rfl | exact absurd rfl hne
  | _ => cases hop

namespace Comparator

variable {c d : Comparator}

/-- The order of the versions of two comparators. Their operators do not count in it. -/
def order (c d : Comparator) : Ordering :=
  Version.order (versionOf c.version) (versionOf d.version)

/-- Seen from the other comparator the order is the other way round. -/
theorem order_swap (c d : Comparator) : d.order c = (c.order d).swap :=
  show Version.order _ _ = _ from Std.OrientedCmp.eq_swap

/-- Comparators of the same version are not apart. -/
theorem order_eq_of_version (h : c.version = d.version) : c.order d = .eq := by
  unfold order
  rw [h]
  exact Std.ReflCmp.compare_self

/-- An operator relates two releases as the order of their versions has it. -/
theorem relates_of_release {x v : String} (op : Operator) (hx : ReleaseText x)
    (hv : ReleaseText v) :
    op.relates false x v = .ok (op.check (Version.order (versionOf x) (versionOf v))) := by
  rw [relates_eq_admits hx.comparable hv.comparable, admits_of_release hx hv]

/-- One version on one side, and a bound on the other. Only in this case the outcome depends on
    which of the two is asked. -/
def PinnedAgainst (c d : Comparator) : Prop := c.operator = .eq ∧ d.operator.IsBound

/-- Whether something lies between a lower bound and an upper one: their versions are apart in that
    order, or they have one end that both of them include. -/
def roomBelow (lower upper : Comparator) : Bool :=
  (lower.order upper).isLT ||
    (lower.order upper).isEq && lower.operator.hasEqual && upper.operator.hasEqual

/-- There is room below the other comparator if its version is greater, or if it is the same and
    both include it. -/
theorem roomBelow_eq_true_iff :
    c.roomBelow d = true ↔ c.order d = .lt ∨
      c.order d = .eq ∧ c.operator.hasEqual = true ∧ d.operator.hasEqual = true := by
  unfold roomBelow
  cases c.order d <;> simp

/-- Two bounds on one side leave room for each other. -/
theorem overlaps_of_direction_eq (hpin : c.operator ≠ .eq)
    (hne : c.operator ≠ .ne ∧ d.operator ≠ .ne)
    (hdir : c.operator.direction = d.operator.direction) : c.overlaps false d = .ok true := by
  unfold overlaps
  rw [if_neg (not_or.2 hne), if_pos ⟨hpin, hdir⟩]

section Overlap

variable (hc : ReleaseText c.version) (hd : ReleaseText d.version)

include hc hd

/-! ### What one question says -/

/-- Where one side excludes a version, there is room unless the other side is pinned to it. Two
    versions that are excluded leave room in any case. -/
theorem overlaps_of_ne (h : c.operator = .ne ∨ d.operator = .ne) :
    c.overlaps false d
      = .ok (decide (c.operator ≠ .eq ∧ d.operator ≠ .eq) || (c.order d).isNe) := by
  unfold overlaps
  rw [if_pos h, relates_of_release .ne hd hc]
  have hswap : Operator.ne.check (d.order c) = (c.order d).isNe := by
    rw [order_swap]
    cases c.order d <;> rfl
  change (if _ then _ else Except.ok (Operator.ne.check (d.order c))) = _
  rw [hswap]
  split
  case isTrue hopen => simp [hopen]
  case isFalse hopen => simp [hopen]

/-- Any other pair that is not open to one side is decided by the version of the provider. -/
theorem overlaps_of_direction (hne : ¬(c.operator = .ne ∨ d.operator = .ne))
    (hdir : ¬(c.operator ≠ .eq ∧ c.operator.direction = d.operator.direction)) :
    c.overlaps false d
      = .ok (c.operator.check (d.order c) &&
          !(d.version == c.version && !d.operator.hasEqual && c.operator.hasEqual)) := by
  unfold overlaps
  rw [if_neg hne, if_neg hdir, relates_of_release _ hd hc]
  change (if c.operator.check (d.order c) = true then _ else _) = _
  cases c.operator.check (d.order c) <;> rfl

/-- A comparator that is pinned to one version leaves room for a comparator with an equal version.
    A strict bound that is written like it is the exception. -/
theorem overlaps_pinned (hpin : c.operator = .eq) (hne : d.operator ≠ .ne) :
    c.overlaps false d
      = .ok (decide (c.order d = .eq ∧ (d.operator.hasEqual = true ∨ c.version ≠ d.version))) := by
  have hnone : ¬(c.operator = .ne ∨ d.operator = .ne) := by
    rw [not_or]
    exact ⟨by rw [hpin]; decide, hne⟩
  rw [overlaps_of_direction hc hd hnone fun h => h.1 hpin, order_swap, hpin]
  by_cases hsame : c.version = d.version
  · rw [order_eq_of_version hsame]
    cases d.operator.hasEqual <;> simp [hsame, Operator.hasEqual, Operator.check]
  · have hsame' : ¬d.version = c.version := fun h => hsame h.symm
    cases c.order d <;> simp [hsame, hsame', Operator.check]

/-- A comparator leaves room for one version if that version stands to its own as it says. -/
theorem overlaps_pinned_right (hpin : d.operator = .eq) :
    c.overlaps false d = .ok (c.operator.check (d.order c)) := by
  obtain ⟨op, v⟩ := d
  cases hpin
  rw [overlaps_exactly, relates_of_release _ hd hc]
  rfl

/-- **A lower and an upper bound.** They leave room for each other in either order if something lies
    between them, provided that equal ends are written alike. -/
theorem overlaps_lower_upper (hlower : c.operator.direction = .above)
    (hupper : d.operator.direction = .below) (hends : c.order d = .eq → c.version = d.version) :
    c.overlaps false d = .ok (c.roomBelow d) ∧
      d.overlaps false c = .ok (c.roomBelow d) := by
  -- Neither operator is `!=`, and they have different directions, so the answer is the general
  -- one.
  have hnone : c.operator ≠ .ne ∧ d.operator ≠ .ne := by
    constructor <;> intro h
    · rw [h] at hlower
      cases hlower
    · rw [h] at hupper
      cases hupper
  have hdir : c.operator.direction ≠ d.operator.direction := by
    rw [hlower, hupper]
    decide
  rw [overlaps_of_direction hc hd (not_or.2 hnone) fun h => hdir h.2,
    overlaps_of_direction hd hc (not_or.2 ⟨hnone.2, hnone.1⟩) fun h => hdir h.2.symm]
  by_cases hsame : c.version = d.version
  · -- A common end counts if both of them include it.
    have hcheck : c.operator.check .eq = c.operator.hasEqual ∧
        d.operator.check .eq = d.operator.hasEqual :=
      ⟨Operator.check_eq_of_direction (.inr hlower), Operator.check_eq_of_direction (.inl hupper)⟩
    rw [order_eq_of_version hsame, order_eq_of_version hsame.symm, hcheck.1, hcheck.2]
    unfold roomBelow
    rw [order_eq_of_version hsame]
    cases c.operator.hasEqual <;> cases d.operator.hasEqual <;> simp [hsame]
  · -- Ends apart are not written alike, and it does not matter who includes them.
    have hapart : c.order d ≠ .eq := fun h => hsame (hends h)
    have hapart' : d.order c ≠ .eq := by
      rw [order_swap]
      exact fun h => hapart (Ordering.swap_eq_eq.1 h)
    have hsame' : ¬d.version = c.version := fun h => hsame h.symm
    rw [Operator.check_above hlower hapart', Operator.check_below hupper hapart, order_swap]
    unfold roomBelow
    cases ho : c.order d <;> simp_all

/-- Two comparators leave room for each other if they hold of one version, unless a bound is asked
    by a comparator that is pinned to one version. -/
theorem overlaps_of_common {p : Version} (hpinned : ¬PinnedAgainst c d)
    (hcp : c.operator.check (Version.order p (versionOf c.version)) = true)
    (hdp : d.operator.check (Version.order p (versionOf d.version)) = true) :
    c.overlaps false d = .ok true := by
  by_cases hceq : c.operator = .eq
  · rw [hceq] at hcp
    have hpc : Version.order p (versionOf c.version) = .eq := Ordering.isEq_iff_eq_eq.1 hcp
    -- The version in common is the one that `c` is pinned to.
    have hsame : Version.order p (versionOf d.version) = c.order d := Std.TransCmp.congr_left hpc
    rw [hsame] at hdp
    cases hop : d.operator with
    | eq =>
      rw [overlaps_pinned_right hc hd hop, hceq, order_swap]
      rw [hop] at hdp
      cases ho : c.order d <;> rw [ho] at hdp <;> first | rfl | cases hdp
    | ne =>
      rw [hop] at hdp
      have hapart : (c.order d).isNe = true := hdp
      rw [overlaps_of_ne hc hd (.inr hop), hapart, Bool.or_true]
    | lt => exact absurd ⟨hceq, .inl (by rw [hop]; rfl)⟩ hpinned
    | le => exact absurd ⟨hceq, .inl (by rw [hop]; rfl)⟩ hpinned
    | gt => exact absurd ⟨hceq, .inr (by rw [hop]; rfl)⟩ hpinned
    | ge => exact absurd ⟨hceq, .inr (by rw [hop]; rfl)⟩ hpinned
  · by_cases hdeq : d.operator = .eq
    · rw [hdeq] at hdp
      have hpd : Version.order p (versionOf d.version) = .eq := Ordering.isEq_iff_eq_eq.1 hdp
      have hsame : Version.order p (versionOf c.version) = d.order c := Std.TransCmp.congr_left hpd
      rw [overlaps_pinned_right hc hd hdeq, ← hsame, hcp]
    · exact overlaps_of_check ⟨hceq, hc⟩ ⟨hdeq, hd⟩ hcp hdp

/-- **Symmetry.** Two comparators that are no version against a bound leave room for each other in
    either order or in none, if their versions are written alike wherever they are equal. -/
theorem overlaps_comm (hpinned : ¬PinnedAgainst c d) (hpinned' : ¬PinnedAgainst d c)
    (hends : c.order d = .eq → c.version = d.version) :
    ∃ room, c.overlaps false d = .ok room ∧ d.overlaps false c = .ok room := by
  by_cases hne : c.operator = .ne ∨ d.operator = .ne
  · refine ⟨_, overlaps_of_ne hc hd hne, ?_⟩
    have hapart : (d.order c).isNe = (c.order d).isNe := by
      rw [order_swap]
      cases c.order d <;> rfl
    rw [overlaps_of_ne hd hc hne.symm, hapart]
    simp only [and_comm]
  · rw [not_or] at hne
    by_cases hpin : c.operator = .eq ∨ d.operator = .eq
    · -- Neither of them is a bound, so both are pinned.
      have hboth : c.operator = .eq ∧ d.operator = .eq := by
        rcases hpin with h | h
        · exact ⟨h, Operator.eq_of_not_isBound hne.2 fun hbound => hpinned ⟨h, hbound⟩⟩
        · exact ⟨Operator.eq_of_not_isBound hne.1 fun hbound => hpinned' ⟨h, hbound⟩, h⟩
      have hequal : d.order c = .eq ↔ c.order d = .eq := by
        rw [order_swap]
        exact Ordering.swap_eq_eq
      refine ⟨_, overlaps_pinned hc hd hboth.1 hne.2, ?_⟩
      rw [overlaps_pinned hd hc hboth.2 hne.1, hboth.1, hboth.2]
      simp only [hequal, Operator.hasEqual, true_or]
    · rw [not_or] at hpin
      -- Two bounds: in one direction there always is room, otherwise one is a lower and one an
      -- upper bound.
      have hcopen : c.IsOpen := ⟨hpin.1, hc⟩
      have hdopen : d.IsOpen := ⟨hpin.2, hd⟩
      by_cases hdir : c.operator.direction = d.operator.direction
      · exact ⟨true, overlaps_of_direction_eq hpin.1 hne hdir,
          overlaps_of_direction_eq hpin.2 hne.symm hdir.symm⟩
      · rcases hcopen.direction hne.1 with hcdir | hcdir
        · have habove := (hdopen.direction hne.2).resolve_left fun h => hdir (hcdir.trans h.symm)
          have hends' : d.order c = .eq → d.version = c.version := fun h =>
            (hends (Ordering.swap_eq_eq.1 (order_swap c d ▸ h))).symm
          have hroom := overlaps_lower_upper hd hc habove hcdir hends'
          exact ⟨_, hroom.2, hroom.1⟩
        · have hbelow := (hdopen.direction hne.2).resolve_right fun h => hdir (hcdir.trans h.symm)
          exact ⟨_, overlaps_lower_upper hc hd hcdir hbelow hends⟩

end Overlap

end Comparator

namespace Constraint

/-- A comparator that accepts one version holds of the version that its text is read as. -/
theorem check_of_accepts {c : Comparator} {w : Option String} {x : String} {v : Version}
    (hc : ReleaseText c.version) (hx : Version.parse x = .ok v)
    (h : accepts (.leaf c w) (exactly x) = .ok true) :
    c.operator.check (Version.order (versionOf x) (versionOf c.version)) = true := by
  obtain ⟨op, t⟩ := c
  obtain ⟨-, y, hy⟩ := hc
  rw [accepts_leaf] at h
  have hall := exists_order_of_relates (Version.isBranch_of_parse hx)
    (Version.isBranch_of_parse hy) h op
  exact Except.ok.inj (hall.symm.trans h)

/-- **Two comparators in both orders.** Unless one is pinned to a version and the other is a bound,
    they answer alike, if their versions are written alike wherever they are equal; if there is no
    room, no version satisfies both, and a lower and an upper bound leave room exactly if something
    lies between them.  A bound that is asked about one version says what its operator says of it,
    but the version that is asked about a bound has only regard to its end. -/
theorem accepts_leaf_comm {a b : Comparator} (ha : ReleaseText a.version)
    (hb : ReleaseText b.version) (w u : Option String) :
    ∃ o, compareTexts false a.version b.version = .ok (some o) ∧
      (¬a.PinnedAgainst b → ¬b.PinnedAgainst a → (o = .eq → a.version = b.version) →
        ∃ room, accepts (.leaf a w) (.leaf b u) = .ok room ∧
          accepts (.leaf b u) (.leaf a w) = .ok room ∧
          (room = false → ∀ x v, Version.parse x = .ok v →
            ¬(accepts (.leaf a w) (exactly x) = .ok true ∧
              accepts (.leaf b u) (exactly x) = .ok true)) ∧
          (a.operator.direction = .above → b.operator.direction = .below →
            (room = true ↔ o = .lt ∨
              o = .eq ∧ a.operator.hasEqual = true ∧ b.operator.hasEqual = true))) ∧
      (a.PinnedAgainst b →
        accepts (.leaf b u) (.leaf a w) = .ok (b.operator.check o) ∧
        accepts (.leaf a w) (.leaf b u)
          = .ok (decide (o = .eq ∧ (b.operator.hasEqual = true ∨ a.version ≠ b.version)))) := by
  -- The order of the versions settles both cases: the one without a pinned version, where both
  -- sides are asked, and the one with it, where the sides differ.
  refine ⟨a.order b, ?_, ?_, ?_⟩
  · obtain ⟨da, v, hv⟩ := id ha
    obtain ⟨db, y, hy⟩ := id hb
    rw [compareTexts_of_not_branch (Version.isBranch_of_parse hv) (Version.isBranch_of_parse hy),
      compareTexts_of_comparable ha.comparable hb.comparable]
    simp only [textOrder, Version.isBranch_of_parse hv, Version.isBranch_of_parse hy]
    rfl
  · intro hpinned hpinned' hends
    obtain ⟨room, hab, hba⟩ := Comparator.overlaps_comm ha hb hpinned hpinned' hends
    refine ⟨room, hab, hba, ?_, ?_⟩
    · rintro rfl x v hx ⟨hax, hbx⟩
      have hroom := Comparator.overlaps_of_common ha hb hpinned (check_of_accepts ha hx hax)
        (check_of_accepts hb hx hbx)
      rw [hab] at hroom
      cases hroom
    · intro hlower hupper
      have hroom := (Comparator.overlaps_lower_upper ha hb hlower hupper hends).1
      rw [← Comparator.roomBelow_eq_true_iff, Except.ok.inj (hab.symm.trans hroom)]
  · rintro ⟨hpin, hbound⟩
    have hne : b.operator ≠ .ne := by
      intro h
      rw [h] at hbound
      rcases hbound with h | h <;> cases h
    exact ⟨Comparator.overlaps_pinned_right hb ha hpin, Comparator.overlaps_pinned ha hb hpin hne⟩

/-- One version conflicts with the bound that admits it, and nothing lies above and below one
    end. -/
theorem accepts_leaf_comm_one :
    accepts (.leaf ⟨.lt, "2.0.0.0"⟩ none) (.leaf ⟨.eq, "1.0.0.0"⟩ none) = .ok true ∧
      accepts (.leaf ⟨.eq, "1.0.0.0"⟩ none) (.leaf ⟨.lt, "2.0.0.0"⟩ none) = .ok false ∧
      accepts (.leaf ⟨.gt, "1.0.0.0"⟩ none) (.leaf ⟨.le, "1.0.0.0"⟩ none) = .ok false ∧
      ∀ x v, Version.parse x = .ok v →
        ¬(accepts (.leaf ⟨.gt, "1.0.0.0"⟩ none) (exactly x) = .ok true ∧
          accepts (.leaf ⟨.le, "1.0.0.0"⟩ none) (exactly x) = .ok true) := by
  have hone : ReleaseText "1.0.0.0" := .of_isSome (by decide) (by decide)
  have htwo : ReleaseText "2.0.0.0" := .of_isSome (by decide) (by decide)
  obtain ⟨o, ho, -, hpinned⟩ :=
    accepts_leaf_comm (a := ⟨.eq, "1.0.0.0"⟩) (b := ⟨.lt, "2.0.0.0"⟩) hone htwo none none
  have hlt : compareTexts false "1.0.0.0" "2.0.0.0" = .ok (some .lt) :=
    eq_ok_of_toOption (by decide)
  cases ho.symm.trans hlt
  obtain ⟨hbound, hpin⟩ := hpinned ⟨rfl, .inl rfl⟩
  -- The second pair has a common end that one of the two leaves out.
  obtain ⟨o, ho, hroom, -⟩ :=
    accepts_leaf_comm (a := ⟨.gt, "1.0.0.0"⟩) (b := ⟨.le, "1.0.0.0"⟩) hone hone none none
  have heq : compareTexts false "1.0.0.0" "1.0.0.0" = .ok (some .eq) :=
    eq_ok_of_toOption (by decide)
  cases ho.symm.trans heq
  obtain ⟨room, hab, -, hnone, hbetween⟩ :=
    hroom (fun h => nomatch h.1) (fun h => nomatch h.1) fun _ => rfl
  have hfalse : room = false := by
    rw [← Bool.not_eq_true, hbetween rfl rfl]
    decide
  exact ⟨hbound, hpin, hfalse ▸ hab, hnone hfalse⟩

end Constraint

end VersionRange
