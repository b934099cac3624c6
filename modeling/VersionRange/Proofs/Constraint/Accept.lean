import VersionRange.Constraint.Basic

namespace VersionRange

/-!
# What a constraint says about one version

* `Connective.decide_flatten`: a group of groups of its own kind is one group.
* `Connective.decide_all_eq_true_iff`, `Connective.decide_any_eq_ok`: what the outcome of a group
  says about its members.
* `Comparator.overlaps_exactly`: a comparator accepts the versions that stand to its own one as its
  operator says.
* `Constraint.accepts_group`: a group is decided by what its members say.
-/

namespace Connective

variable {ε : Type}

/-- Nothing stands against a group of all without members. -/
@[simp] theorem decide_nil_all : decide all ([] : List (Except ε Bool)) = .ok true := rfl

/-- Nothing speaks for a group of any without members. -/
@[simp] theorem decide_nil_any : decide any ([] : List (Except ε Bool)) = .ok false := rfl

/-- The outcome that a group has without members. It is also what a member must give for the next
    one to be asked. -/
def idle : Connective → Bool
  | all => true
  | any => false

/-- A member that does not settle the group leaves the decision to the others. -/
theorem decide_cons (g : Connective) (x : Except ε Bool) (xs : List (Except ε Bool)) :
    g.decide (x :: xs) = x.bind fun b => if b = g.idle then g.decide xs else .ok b := by
  rcases x with e | b
  · cases g <;> rfl
  · cases g <;> cases b <;> rfl

/-- A group of one member is decided by it. -/
@[simp] theorem decide_singleton (g : Connective) (x : Except ε Bool) : g.decide [x] = x := by
  rcases x with e | b
  · cases g <;> rfl
  · cases g <;> cases b <;> rfl

/-- The first members decide, and if they settle nothing the others do. An error among the first
    ones is an error of all. -/
theorem decide_append (g : Connective) (xs ys : List (Except ε Bool)) :
    g.decide (xs ++ ys)
      = (g.decide xs).bind fun b => if b = g.idle then g.decide ys else .ok b := by
  induction xs with
  | nil =>
    have hidle : g.decide ([] : List (Except ε Bool)) = .ok g.idle := by
      cases g <;> rfl
    rw [List.nil_append, hidle]
    simp [Except.bind]
  | cons x xs ih =>
    rw [List.cons_append, decide_cons, ih, decide_cons]
    rcases x with e | b
    · rfl
    · -- Either this member settles the group, or it is skipped on both sides.
      by_cases hb : b = g.idle
      · simp only [Except.bind, if_pos hb]
      · simp [Except.bind, hb]

/-- A group of groups that ask the same can be asked as one. -/
theorem decide_flatten (g : Connective) (xss : List (List (Except ε Bool))) :
    g.decide xss.flatten = g.decide (xss.map g.decide) := by
  induction xss with
  | nil => rfl
  | cons xs xss ih => rw [List.flatten_cons, decide_append, ih, List.map_cons, decide_cons]

/-- All of some outcomes is true if each of them is; an error among them would have been met. -/
theorem decide_all_eq_true_iff {xs : List (Except ε Bool)} :
    decide all xs = .ok true ↔ ∀ x ∈ xs, x = .ok true := by
  induction xs with
  | nil => simp
  | cons x xs ih =>
    rw [decide_cons, List.forall_mem_cons, ← ih]
    rcases x with e | b
    · simp [Except.bind]
    · cases b <;> simp [Except.bind, idle]

/-- An outcome of `any` tells whether some member holds. Members behind the first one that holds
    may end in an error, which is never found. -/
theorem decide_any_eq_ok {xs : List (Except ε Bool)} {b : Bool} (h : decide any xs = .ok b) :
    b = true ↔ ∃ x ∈ xs, x = .ok true := by
  induction xs with
  | nil => simpa using h.symm
  | cons x xs ih =>
    rw [decide_cons] at h
    rcases x with e | c
    · cases h
    · -- A member that holds ends the search; behind one that does not the others decide.
      cases c with
      | true =>
        have hb : b = true := by simpa [Except.bind, idle] using h.symm
        simp [hb]
      | false =>
        have hrest : decide any xs = .ok b := by simpa [Except.bind, idle] using h
        rw [ih hrest]
        simp

/-- If every member has an outcome, so has the group. By induction: a member settles the group, or
    the rest does. -/
theorem exists_decide (g : Connective) {xs : List (Except ε Bool)}
    (h : ∀ x ∈ xs, ∃ b, x = .ok b) : ∃ b, g.decide xs = .ok b := by
  induction xs with
  | nil => cases g <;> exact ⟨_, rfl⟩
  | cons x xs ih =>
    obtain ⟨b, rfl⟩ := h x (by simp)
    obtain ⟨c, hc⟩ := ih fun y hy => h y (by simp [hy])
    rw [decide_cons, hc]
    by_cases hb : b = g.idle
    · exact ⟨c, by simp [Except.bind, hb]⟩
    · exact ⟨b, by simp [Except.bind, hb]⟩

end Connective

/-- A comparator accepts one version if the version stands to its own as the operator says. -/
theorem Comparator.overlaps_exactly (branches : Bool) (op : Operator) (v x : String) :
    Comparator.overlaps branches ⟨op, v⟩ ⟨.eq, x⟩ = op.relates branches x v := by
  unfold Comparator.overlaps
  cases op <;> simp only [reduceCtorEq, ne_eq, not_true_eq_false, not_false_eq_true, or_self,
    if_false, and_true, and_false, Operator.direction]
  -- The text of the version does not count: the operator of the provider includes it.
  all_goals
    cases hrel : Operator.relates _ branches x v with
    | error e => rfl
    | ok b => cases b <;> simp [bind, Except.bind, pure, Except.pure, Operator.hasEqual]

namespace Constraint

/-- A leaf accepts what its operator relates to its version. -/
theorem accepts_leaf (op : Operator) (v x : String) (w : Option String) :
    accepts (.leaf ⟨op, v⟩ w) (exactly x) = op.relates false x v :=
  Comparator.overlaps_exactly false op v x

/-- A group is decided by what its members say. -/
theorem accepts_group (g : Connective) (cs : List Constraint) (w : Option String) (x : String) :
    accepts (.group g cs w) (exactly x) = g.decide (cs.map fun c => accepts c (exactly x)) := by
  show Tree.ask _ (.group g cs w) = _
  rw [Tree.ask, Tree.askEach_eq_map]
  rfl

/-- What a constraint remembers has no part in what it accepts. -/
@[simp] theorem accepts_withWritten (c : Constraint) (w : Option String) (x : String) :
    accepts (c.withWritten w) (exactly x) = accepts c (exactly x) :=
  Tree.meets_withWritten _ c _ w

end Constraint

end VersionRange
