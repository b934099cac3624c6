import VersionRange.Constraint.Tree

namespace VersionRange

/-!
# Trees of restrictions by induction

* `Tree.recMembers`: what holds of a group if it holds of its members holds of every tree.
* `Tree.holds_mono`: a tree that holds goes on to hold when more of its leaves do.
* `Tree.exists_ask`, `Tree.ask_eq_true`: a tree has an outcome where its leaves have one, and what
  makes it hold.
* `Tree.leafMeets_eq_true`: a leaf leaves room for a tree that holds, if it leaves room for all the
  leaves that do.
* `Tree.leaf_meets`: between a leaf and anything but a leaf the lead does not matter.
-/

/-- What the members of a group hold to be true decides as a list. If more of them hold the group
    does not cease to hold. -/
theorem Connective.combine_mono {g : Connective} {ι : Type} {l : List ι} {p q : ι → Bool}
    (h : ∀ i ∈ l, p i = true → q i = true) :
    g.combine (l.map p) = true → g.combine (l.map q) = true := by
  cases g with
  | all =>
    simp only [combine, List.all_map, List.all_eq_true]
    exact fun hall i hi => h i hi (hall i hi)
  | any =>
    simp only [combine, List.any_map, List.any_eq_true]
    rintro ⟨i, hi, hp⟩
    exact ⟨i, hi, h i hi hp⟩

namespace Tree

variable {α ε : Type}

/-- Induction over a tree: for a group the members may be taken for granted. -/
@[elab_as_elim, induction_eliminator]
theorem recMembers {motive : Tree α → Prop} (leaf : ∀ a w, motive (.leaf a w))
    (group : ∀ g ts w, (∀ t ∈ ts, motive t) → motive (.group g ts w))
    (unrestricted : ∀ w, motive (.unrestricted w)) : ∀ t, motive t
  | .leaf a w => leaf a w
  | .group g ts w => group g ts w fun t _ => recMembers leaf group unrestricted t
  | .unrestricted w => unrestricted w

/-- A group holds as the truth of its members combines. -/
@[simp] theorem holds_group (p : α → Bool) (g : Connective) (ts : List (Tree α))
    (w : Option String) : (group g ts w).holds p = g.combine (ts.map (holds p)) := by
  rw [holds, holdsEach_eq_map]

/-- The leaves of a group are the leaves of its members. -/
theorem mem_leaves_group {g : Connective} {ts : List (Tree α)} {w : Option String} {a : α} :
    a ∈ (group g ts w).leaves ↔ ∃ t ∈ ts, a ∈ t.leaves := by
  rw [leaves, leavesEach_eq_flatMap, List.mem_flatMap]

/-- What a tree remembers is no leaf of it. -/
@[simp] theorem leaves_withWritten (t : Tree α) (w : Option String) :
    (t.withWritten w).leaves = t.leaves := by
  cases t <;> rfl

/-- A tree that holds goes on to hold when more of its leaves do. -/
theorem holds_mono {p q : α → Bool} {t : Tree α} (h : ∀ a ∈ t.leaves, p a = true → q a = true) :
    t.holds p = true → t.holds q = true := by
  induction t with
  | leaf a w => exact h a (by simp [leaves])
  | group g ts w ih =>
    rw [holds_group, holds_group]
    refine Connective.combine_mono fun t ht => ih t ht fun a ha => ?_
    exact h a (mem_leaves_group.2 ⟨t, ht, ha⟩)
  | unrestricted w => exact id

variable {lead : α → Except ε Bool} {t : Tree α}

/-- A tree whose leaves all have an outcome has the truth of its leaves. The induction is on the
    tree, with the lists of its members beside it. -/
theorem ask_eq_holds {p : α → Bool} (t : Tree α) (h : ∀ a ∈ t.leaves, lead a = .ok (p a)) :
    t.ask lead = .ok (t.holds p) := by
  induction t with
  | leaf a w => exact h a (by simp [leaves])
  | group g ts w ih =>
    have hmembers : ts.map (ask lead) = (ts.map (holds p)).map .ok := by
      rw [List.map_map]
      refine List.map_congr_left fun t ht => ih t ht fun a ha => ?_
      exact h a (mem_leaves_group.2 ⟨t, ht, ha⟩)
    rw [ask, askEach_eq_map, hmembers, Connective.decide_map_ok, holds_group]
  | unrestricted w => rfl

/-- Where its leaves have an outcome, a tree has the truth of what they end with. -/
theorem ask_eq_holds_toOption (h : ∀ a ∈ t.leaves, ∃ b, lead a = .ok b) :
    t.ask lead = .ok (t.holds fun a => (lead a).toOption.getD false) := by
  refine ask_eq_holds t fun a ha => ?_
  obtain ⟨b, hb⟩ := h a ha
  rw [hb]
  rfl

/-- A tree has an outcome where its leaves have one. -/
theorem exists_ask (h : ∀ a ∈ t.leaves, ∃ b, lead a = .ok b) : ∃ b, t.ask lead = .ok b :=
  ⟨_, ask_eq_holds_toOption h⟩

/-- A tree that holds is found to hold, if all leaves have an outcome and those that hold have the
    right one. -/
theorem ask_eq_true {p : α → Bool} (houtcome : ∀ a ∈ t.leaves, ∃ b, lead a = .ok b)
    (htrue : ∀ a ∈ t.leaves, p a = true → lead a = .ok true) (h : t.holds p = true) :
    t.ask lead = .ok true := by
  rw [ask_eq_holds_toOption houtcome, Except.ok.injEq]
  refine holds_mono (fun a ha hp => ?_) h
  rw [htrue a ha hp]
  rfl

/-! ### A leaf and a tree -/

variable {meet : α → α → Except ε Bool} {a : α}

/-- A leaf and a tree have an outcome where the leaf has one with each leaf of the tree, in both
    orders. -/
theorem exists_leafMeets
    (h : ∀ b ∈ t.leaves, (∃ r, meet a b = .ok r) ∧ ∃ r, meet b a = .ok r) :
    ∃ r, leafMeets meet a t = .ok r := by
  have hask : ∃ r, t.ask (fun b => meet b a) = .ok r := exists_ask fun b hb => (h b hb).2
  cases t with
  | leaf b w => exact (h b (by simp [leaves])).1
  | group g ts w => exact hask
  | unrestricted w => exact hask

/-- A leaf leaves room for a tree that holds, if it leaves room for all the leaves that do. -/
theorem leafMeets_eq_true {p : α → Bool}
    (houtcome : ∀ b ∈ t.leaves, ∃ r, meet b a = .ok r)
    (htrue : ∀ b ∈ t.leaves, p b = true → meet a b = .ok true ∧ meet b a = .ok true)
    (h : t.holds p = true) : leafMeets meet a t = .ok true := by
  have hask : t.ask (fun b => meet b a) = .ok true :=
    ask_eq_true houtcome (fun b hb hp => (htrue b hb hp).2) h
  cases t with
  | leaf b w => exact (htrue b (by simp [leaves]) h).1
  | group g ts w => exact hask
  | unrestricted w => exact hask

/-- Between a leaf and anything but a leaf the lead does not matter. -/
theorem leaf_meets (h : ∀ b w, t ≠ leaf b w) (w : Option String) :
    (leaf a w).meets meet t = t.meets meet (leaf a w) := by
  cases t with
  | leaf b w => exact absurd rfl (h b w)
  | group g ts w => rfl
  | unrestricted w => rfl

end Tree

end VersionRange
