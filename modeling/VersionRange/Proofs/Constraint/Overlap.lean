import VersionRange.Proofs.Constraint.Evaluate

namespace VersionRange

/-!
# Constraints that share a version are compatible

* `Operator.check_of_isLE`, `Operator.check_of_isGE`: an operator that is open to one side goes on
  to hold further on that side.
* `Operator.check_of_opposite`, `Operator.eq_of_check_of_opposite`: what an element says about the
  ends of two operators that are open to opposite sides and hold of it.
* `Comparator.IsOpen`: a comparator that is not pinned to one version.
* `Comparator.overlaps_of_admits`: two such comparators that admit a version in common leave room
  for each other.
* `accepts_of_common`: so do two trees of such comparators.
-/

namespace Operator

variable {α : Type} {cmp : α → α → Ordering} [Std.TransCmp cmp] {op : Operator} {a b x : α}

/-- What is below `a` stays below it further down. -/
theorem check_of_isLE (hop : op.direction = .below) (hbx : (cmp b x).isLE = true)
    (hxa : op.check (cmp x a) = true) : op.check (cmp b a) = true := by
  cases op with
  | lt =>
    have hlt : cmp x a = .lt := Ordering.isLT_iff_eq_lt.1 hxa
    exact Ordering.isLT_iff_eq_lt.2 (Std.TransCmp.lt_of_isLE_of_lt hbx hlt)
  | le => exact Std.TransCmp.isLE_trans hbx hxa
  | _ => cases hop

/-- What is above `a` stays above it further up. -/
theorem check_of_isGE (hop : op.direction = .above) (hbx : (cmp b x).isGE = true)
    (hxa : op.check (cmp x a) = true) : op.check (cmp b a) = true := by
  cases op with
  | gt =>
    have hgt : cmp x a = .gt := Ordering.isGT_iff_eq_gt.1 hxa
    exact Ordering.isGT_iff_eq_gt.2 (Std.TransCmp.gt_of_isGE_of_gt hbx hgt)
  | ge => exact Std.TransCmp.isGE_trans hbx hxa
  | _ => cases hop

/-- An operator that is open downwards holds of nothing above. -/
theorem isLE_of_check {o : Ordering} (hop : op.direction = .below) (h : op.check o = true) :
    o.isLE = true := by
  cases op with
  | lt => exact Ordering.isLE_of_eq_lt (Ordering.isLT_iff_eq_lt.1 h)
  | le => exact h
  | _ => cases hop

/-- An operator that is open upwards holds of nothing below. -/
theorem isGE_of_check {o : Ordering} (hop : op.direction = .above) (h : op.check o = true) :
    o.isGE = true := by
  cases op with
  | gt => exact Ordering.isGE_of_eq_gt (Ordering.isGT_iff_eq_gt.1 h)
  | ge => exact h
  | _ => cases hop

/-- Operators that are open to opposite sides hold of one outcome only if it is equality. So both
    of them include their end. -/
theorem eq_of_check_of_opposite {op' : Operator} {o : Ordering}
    (hne : op.direction ≠ op'.direction)
    (hop : op.direction = .below ∨ op.direction = .above)
    (hop' : op'.direction = .below ∨ op'.direction = .above)
    (h : op.check o = true) (h' : op'.check o = true) : o = .eq := by
  have hboth : o.isLE = true ∧ o.isGE = true := by
    rcases hop with hop | hop
    · have habove : op'.direction = .above := hop'.resolve_left fun h => hne (hop.trans h.symm)
      exact ⟨isLE_of_check hop h, isGE_of_check habove h'⟩
    · have hbelow : op'.direction = .below := hop'.resolve_right fun h => hne (hop.trans h.symm)
      exact ⟨isLE_of_check hbelow h', isGE_of_check hop h⟩
  cases o with
  | eq => rfl
  | lt => exact absurd hboth.2 (by decide)
  | gt => exact absurd hboth.1 (by decide)

/-- An operator that is open to one side holds of equality if its symbol says so. -/
theorem check_eq_of_direction (hop : op.direction = .below ∨ op.direction = .above) :
    op.check .eq = op.hasEqual := by
  cases op <;> first | rfl | exact absurd hop (by decide)

/-- Two operators that are open to opposite sides and hold of one element hold between the two that
    they compare it with. -/
theorem check_of_opposite {op' : Operator} (hne : op.direction ≠ op'.direction)
    (hop : op.direction = .below ∨ op.direction = .above)
    (hop' : op'.direction = .below ∨ op'.direction = .above)
    (h : op.check (cmp x a) = true) (h' : op'.check (cmp x b) = true) :
    op.check (cmp b a) = true := by
  rcases hop with hop | hop
  · have habove : op'.direction = .above := hop'.resolve_left fun h => hne (hop.trans h.symm)
    exact check_of_isLE hop (Std.OrientedCmp.isGE_iff_isLE.1 (isGE_of_check habove h')) h
  · have hbelow : op'.direction = .below := hop'.resolve_right fun h => hne (hop.trans h.symm)
    exact check_of_isGE hop (Std.OrientedCmp.isGE_iff_isLE.2 (isLE_of_check hbelow h')) h

end Operator

/-! ### Comparators -/

namespace Comparator

/-- A comparator with a release that is not pinned to it. It accepts a whole side of the order, or
    all of it but one place. -/
structure IsOpen (c : Comparator) : Prop where
  unpinned : c.operator ≠ .eq
  release : ReleaseText c.version

variable {c d : Comparator}

/-- A comparator that is not pinned and excludes nothing is open to one side. -/
theorem IsOpen.direction (h : c.IsOpen) (hne : c.operator ≠ .ne) :
    c.operator.direction = .below ∨ c.operator.direction = .above := by
  have hpinned := h.unpinned
  cases hop : c.operator <;> simp_all [Operator.direction]

/-- Between releases the operator is checked against the order of versions. -/
theorem admits_of_release {x : String} (hx : ReleaseText x) (hc : ReleaseText c.version) :
    c.admits x = c.operator.check (Version.order (versionOf x) (versionOf c.version)) := by
  simp only [admits, hx.isBranch_eq_false, hc.isBranch_eq_false]

/-- Open comparators are asked for room in both orders without failing. -/
theorem exists_overlaps (hc : c.IsOpen) (hd : d.IsOpen) : ∃ b, c.overlaps false d = .ok b := by
  unfold overlaps
  simp only [ne_eq, hc.unpinned, hd.unpinned, not_false_eq_true, and_self, if_true, true_and,
    relates_eq_admits hd.release.comparable hc.release.comparable]
  split
  · exact ⟨_, rfl⟩
  · split
    · exact ⟨_, rfl⟩
    · cases Comparator.admits ⟨c.operator, c.version⟩ d.version <;> exact ⟨_, rfl⟩

/-- Two open comparators leave room for each other if their operators hold of one version. That
    version need not be written anywhere. -/
theorem overlaps_of_check {p : Version} (hc : c.IsOpen) (hd : d.IsOpen)
    (hcp : c.operator.check (Version.order p (versionOf c.version)) = true)
    (hdp : d.operator.check (Version.order p (versionOf d.version)) = true) :
    c.overlaps false d = .ok true := by
  unfold overlaps
  split
  case isTrue => rw [if_pos ⟨hc.unpinned, hd.unpinned⟩]
  case isFalse hne =>
    rw [not_or] at hne
    split
    case isTrue => rfl
    case isFalse hdirection =>
      have hopposite : c.operator.direction ≠ d.operator.direction :=
        fun h => hdirection ⟨hc.unpinned, h⟩
      -- The version in common lies between the two versions of the comparators.
      have hbetween := Operator.check_of_opposite hopposite (hc.direction hne.1)
        (hd.direction hne.2) hcp hdp
      rw [relates_eq_admits hd.release.comparable hc.release.comparable,
        admits_of_release hd.release hc.release, hbetween]
      -- A common end point counts for both, so neither of them excludes it.
      have hend : (d.version == c.version && !d.operator.hasEqual && c.operator.hasEqual)
          = false := by
        by_contra hcon
        simp only [Bool.not_eq_false, Bool.and_eq_true, beq_iff_eq, Bool.not_eq_true'] at hcon
        obtain ⟨⟨hsame, hstrict⟩, -⟩ := hcon
        rw [hsame] at hdp
        have heq := Operator.eq_of_check_of_opposite hopposite (hc.direction hne.1)
          (hd.direction hne.2) hcp hdp
        rw [heq, Operator.check_eq_of_direction (hd.direction hne.2), hstrict] at hdp
        cases hdp
      show Except.ok (!_) = _
      rw [hend]
      rfl

/-- Two open comparators that admit a version in common leave room for each other. -/
theorem overlaps_of_admits {x : String} (hc : c.IsOpen) (hd : d.IsOpen) (hx : ReleaseText x)
    (hcx : c.admits x = true) (hdx : d.admits x = true) : c.overlaps false d = .ok true := by
  rw [admits_of_release hx hc.release] at hcx
  rw [admits_of_release hx hd.release] at hdx
  exact overlaps_of_check hc hd hcx hdx

end Comparator

/-! ### Trees -/

variable {s t : Constraint} {x : String}

/-- A tree leaves room for another one with which it has a version in common. By induction on both
    trees, down to two leaves that hold of the version. -/
theorem accepts_of_holds (hs : ∀ c ∈ s.leaves, c.IsOpen) (ht : ∀ c ∈ t.leaves, c.IsOpen)
    (hx : ReleaseText x) (hsx : s.holds (·.admits x) = true) (htx : t.holds (·.admits x) = true) :
    s.accepts t = .ok true := by
  -- Leaf by leaf: one of `s` that admits the version leaves room for `t`, and none of them fails.
  refine Tree.ask_eq_true (p := (·.admits x)) (fun c hc => ?_) (fun c hc hcx => ?_) hsx
  · refine Tree.exists_leafMeets fun d hd => ⟨?_, ?_⟩
    · exact Comparator.exists_overlaps (hs c hc) (ht d hd)
    · exact Comparator.exists_overlaps (ht d hd) (hs c hc)
  · refine Tree.leafMeets_eq_true (p := (·.admits x)) (fun d hd => ?_) (fun d hd hdx => ?_) htx
    · exact Comparator.exists_overlaps (ht d hd) (hs c hc)
    · exact ⟨Comparator.overlaps_of_admits (hs c hc) (ht d hd) hx hcx hdx,
        Comparator.overlaps_of_admits (ht d hd) (hs c hc) hx hdx hcx⟩

/-- What accepts a version is a formula that holds of it. -/
theorem holds_of_accepts (hs : ∀ c ∈ s.leaves, c.IsOpen) (hx : ReleaseText x)
    (h : s.accepts (.exactly x) = .ok true) : s.holds (·.admits x) = true := by
  have hask := accepts_eq_holds hx.comparable fun c hc => (hs c hc).release.comparable
  exact Except.ok.inj (hask.symm.trans h)

/-- **No false conflict.** Two trees of open comparators that both accept a release leave room for
    each other, whichever of them is asked. -/
theorem accepts_of_common (hs : ∀ c ∈ s.leaves, c.IsOpen) (ht : ∀ c ∈ t.leaves, c.IsOpen)
    (hx : ReleaseText x) (hsx : s.accepts (.exactly x) = .ok true)
    (htx : t.accepts (.exactly x) = .ok true) :
    s.accepts t = .ok true ∧ t.accepts s = .ok true := by
  have hsholds := holds_of_accepts hs hx hsx
  have htholds := holds_of_accepts ht hx htx
  exact ⟨accepts_of_holds hs ht hx hsholds htholds, accepts_of_holds ht hs hx htholds hsholds⟩

/-- What is at most one release, a pre-release left out. -/
def upToExample : Constraint :=
  .group .all [.leaf ⟨.le, "1.0.0.0"⟩ none, .leaf ⟨.ne, "1.0.0.0-RC1"⟩ none] none

/-- What is at least the same release, or above another one. -/
def fromExample : Constraint :=
  .group .any
    [.group .all [.leaf ⟨.ge, "1.0.0.0"⟩ none, .unrestricted none] none,
     .leaf ⟨.gt, "3.0.0.0"⟩ none] none

/-- The two trees meet in nothing but their common end. That is enough, in either order. -/
theorem accepts_of_common_end :
    upToExample.accepts (.exactly "1.0.0.0") = .ok true ∧
      fromExample.accepts (.exactly "1.0.0.0") = .ok true ∧
      upToExample.accepts fromExample = .ok true ∧
      fromExample.accepts upToExample = .ok true := by
  have hone : ReleaseText "1.0.0.0" := .of_isSome (by decide) (by decide)
  have hrc : ReleaseText "1.0.0.0-RC1" := .of_isSome (by decide) (by decide)
  have hthree : ReleaseText "3.0.0.0" := .of_isSome (by decide) (by decide)
  have hup : ∀ c ∈ upToExample.leaves, c.IsOpen := by
    intro c hc
    simp only [upToExample, Tree.leaves, Tree.leavesEach, List.mem_cons, List.mem_append,
      List.not_mem_nil, or_false] at hc
    rcases hc with rfl | rfl
    · exact ⟨by decide, hone⟩
    · exact ⟨by decide, hrc⟩
  have hfrom : ∀ c ∈ fromExample.leaves, c.IsOpen := by
    intro c hc
    simp only [fromExample, Tree.leaves, Tree.leavesEach, List.mem_cons, List.mem_append,
      List.not_mem_nil, or_false] at hc
    rcases hc with rfl | rfl
    · exact ⟨by decide, hone⟩
    · exact ⟨by decide, hthree⟩
  have hs : upToExample.accepts (.exactly "1.0.0.0") = .ok true := eq_ok_of_toOption (by decide)
  have ht : fromExample.accepts (.exactly "1.0.0.0") = .ok true := eq_ok_of_toOption (by decide)
  exact ⟨hs, ht, accepts_of_common hup hfrom hone hs ht⟩

end VersionRange
