namespace VersionRange

/-!
# Trees of restrictions

* `Tree α`: leaves of type `α` under groups that ask for all or for any of their members; a node may
  remember how it was written.
* `Tree.leaves`: the leaves of a tree.
* `Tree.holds`: the truth of a tree for a truth value of each leaf.
* `Tree.ask`: the same where a leaf may end in an error.
* `Tree.meets`: whether two trees leave room for each other, decided leaf by leaf.
* `Tree.render`, `Tree.pretty`: a tree in writing.
* `Tree.same`: equality of trees, whatever they remember.
-/

/-- What a group asks of its members. -/
inductive Connective where
  /-- All members have to hold. -/
  | all
  /-- One member has to hold. -/
  | any
  deriving DecidableEq, Repr, Inhabited

namespace Connective

/-- The truth of a group from the truth of its members. A group of all without members holds, and
    one of any does not. -/
def combine : Connective → List Bool → Bool
  | all, bs => bs.all id
  | any, bs => bs.any id

/-- The outcome of a group from the outcomes of its members in order.  The first member that settles
    the group ends the search, and so does the first error before it. -/
def decide {ε : Type} : Connective → List (Except ε Bool) → Except ε Bool
  | all, [] => .ok true
  | any, [] => .ok false
  | g, x :: xs => do
    match g, ← x with
    | all, false => return false
    | any, true => return true
    | g, _ => decide g xs

/-- The text between two members. -/
def glue : Connective → String
  | all => " "
  | any => " || "

/-- If every member has an outcome, the group has the truth of its members. -/
theorem decide_map_ok {ε : Type} (g : Connective) (bs : List Bool) :
    decide g (bs.map (.ok : Bool → Except ε Bool)) = .ok (g.combine bs) := by
  induction bs with
  | nil => cases g <;> rfl
  | cons b bs ih =>
    cases g <;> cases b <;>
      simp_all [decide, combine, bind, Except.bind, pure, Except.pure]

end Connective

/-- A tree of restrictions. A node may remember the text it was written as, which has no part in
    what it means. -/
inductive Tree (α : Type) where
  /-- One restriction. -/
  | leaf (a : α) (written : Option String)
  /-- Several restrictions. -/
  | group (connective : Connective) (members : List (Tree α)) (written : Option String)
  /-- No restriction. -/
  | unrestricted (written : Option String)
  deriving Repr, Inhabited

namespace Tree

variable {α β ε : Type}

/-- The text that the root remembers. -/
def written : Tree α → Option String
  | leaf _ w | group _ _ w | unrestricted w => w

/-- The tree with another text remembered at its root. -/
def withWritten : Tree α → Option String → Tree α
  | leaf a _, w => leaf a w
  | group g ts _, w => group g ts w
  | unrestricted _, w => unrestricted w

mutual

/-- The truth of a tree for a truth value of each leaf. This is what a tree means where no leaf
    fails. -/
def holds (p : α → Bool) : Tree α → Bool
  | leaf a _ => p a
  | group g ts _ => g.combine (holdsEach p ts)
  | unrestricted _ => true

/-- The truth of each tree in a list. -/
def holdsEach (p : α → Bool) : List (Tree α) → List Bool
  | [] => []
  | t :: ts => holds p t :: holdsEach p ts

end

mutual

/-- The leaves of a tree, from left to right. -/
def leaves : Tree α → List α
  | leaf a _ => [a]
  | group _ ts _ => leavesEach ts
  | unrestricted _ => []

/-- The leaves of several trees, from left to right. -/
def leavesEach : List (Tree α) → List α
  | [] => []
  | t :: ts => leaves t ++ leavesEach ts

end

mutual

/-- The outcome of a tree from an outcome of each leaf. Leaves are asked from left to right, and
    only as far as the groups need. -/
def ask (lead : α → Except ε Bool) : Tree α → Except ε Bool
  | leaf a _ => lead a
  | group g ts _ => g.decide (askEach lead ts)
  | unrestricted _ => .ok true

/-- The outcome of each tree in a list. -/
def askEach (lead : α → Except ε Bool) : List (Tree α) → List (Except ε Bool)
  | [] => []
  | t :: ts => ask lead t :: askEach lead ts

end

/-- Whether a leaf leaves room for a tree. Two leaves are left to `meet`, which is given the leading
    leaf first; to anything but a leaf the lead is given away. -/
def leafMeets (meet : α → α → Except ε Bool) (a : α) : Tree α → Except ε Bool
  | leaf b _ => meet a b
  | other => other.ask fun b => meet b a

/-- Whether a tree leaves room for another, decided by its leaves. The other tree is passed on as a
    whole, and a leaf asks it in turn. -/
def meets (meet : α → α → Except ε Bool) (t other : Tree α) : Except ε Bool :=
  t.ask fun a => leafMeets meet a other

mutual

/-- The tree with every leaf replaced. -/
def map (f : α → β) : Tree α → Tree β
  | leaf a w => leaf (f a) w
  | group g ts w => group g (mapEach f ts) w
  | unrestricted w => unrestricted w

/-- The trees with every leaf replaced. -/
def mapEach (f : α → β) : List (Tree α) → List (Tree β)
  | [] => []
  | t :: ts => map f t :: mapEach f ts

end

mutual

/-- The tree in writing, from its structure alone. -/
def render (text : α → String) : Tree α → String
  | leaf a _ => text a
  | group g ts _ => "[" ++ g.glue.intercalate (renderEach text ts) ++ "]"
  | unrestricted _ => "[]"

/-- Each tree in writing. -/
def renderEach (text : α → String) : List (Tree α) → List String
  | [] => []
  | t :: ts => render text t :: renderEach text ts

end

/-- The tree in writing, as it was written if it remembers a text that is not empty. What is
    remembered is not checked against the tree. -/
def pretty (text : α → String) (t : Tree α) : String :=
  match t.written with
  | none | some "" => t.render text
  | some w => w

mutual

/-- Equality of trees up to what they remember. The order of the members counts. -/
def same (eq : α → α → Bool) : Tree α → Tree α → Bool
  | leaf a _, leaf b _ => eq a b
  | group g ts _, group h us _ => g == h && sameEach eq ts us
  | unrestricted _, unrestricted _ => true
  | _, _ => false

/-- Equality of lists of trees up to what they remember. -/
def sameEach (eq : α → α → Bool) : List (Tree α) → List (Tree α) → Bool
  | [], [] => true
  | t :: ts, u :: us => same eq t u && sameEach eq ts us
  | _, _ => false

end

/-! ### Lists of trees -/

/-- The list version of `holds` asks each tree on its own. -/
theorem holdsEach_eq_map (p : α → Bool) (ts : List (Tree α)) :
    holdsEach p ts = ts.map (holds p) := by
  induction ts with
  | nil => rfl
  | cons t ts ih => simp [holdsEach, ih]

/-- The leaves of several trees are those of each, one tree after the other. -/
theorem leavesEach_eq_flatMap (ts : List (Tree α)) : leavesEach ts = ts.flatMap leaves := by
  induction ts with
  | nil => rfl
  | cons t ts ih => simp [leavesEach, ih]

/-- The list version of `ask` asks each tree on its own; that a group may stop early is left to
    `decide`. -/
theorem askEach_eq_map (lead : α → Except ε Bool) (ts : List (Tree α)) :
    askEach lead ts = ts.map (ask lead) := by
  induction ts with
  | nil => rfl
  | cons t ts ih => simp [askEach, ih]

/-- What a tree remembers has no part in its outcome. -/
@[simp] theorem ask_withWritten (lead : α → Except ε Bool) (t : Tree α) (w : Option String) :
    (t.withWritten w).ask lead = t.ask lead := by
  cases t <;> rfl

/-- Nor has it in whether the tree leaves room for another. -/
@[simp] theorem meets_withWritten (meet : α → α → Except ε Bool) (t u : Tree α)
    (w : Option String) : (t.withWritten w).meets meet u = t.meets meet u := by
  simp [meets]

end Tree

end VersionRange
