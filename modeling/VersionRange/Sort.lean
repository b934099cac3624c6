namespace VersionRange

/-!
# Stable sorting with a comparison that may fail

* `insertBy`: a new element goes in front of the first one that is not greater.
* `pile`: the elements, the greatest first and the latest first among equal ones.
* `sortBy`, `sortDownBy`: ascending and descending order; equal elements stay in their order.
* `distinctBy`: the first of each class of equal elements.
-/

variable {α ε : Type}

/-- Puts an element into a descending list, in front of those that are equal to it. The comparison
    may fail, and then nothing is put in. -/
def insertBy (cmp : α → α → Except ε Ordering) (x : α) : List α → Except ε (List α)
  | [] => .ok [x]
  | y :: ys => do
    match ← cmp x y with
    | .lt => return y :: (← insertBy cmp x ys)
    | _ => return x :: y :: ys

/-- The elements in descending order, the latest first among equal ones. Each element is compared
    with those before it only. -/
def pile (cmp : α → α → Except ε Ordering) (xs : List α) : Except ε (List α) :=
  xs.foldlM (fun ys x => insertBy cmp x ys) []

/-- The elements in ascending order. Equal elements stay in their order, as the pile has them the
    other way round. -/
def sortBy (cmp : α → α → Except ε Ordering) (xs : List α) : Except ε (List α) :=
  return (← pile cmp xs).reverse

/-- The elements in descending order. Equal elements stay in their order, as the pile is made from
    the end. -/
def sortDownBy (cmp : α → α → Except ε Ordering) (xs : List α) : Except ε (List α) :=
  pile cmp xs.reverse

/-- Adds an element in front unless an equal one is there; the oldest elements are asked first. -/
def insertNew (cmp : α → α → Except ε Ordering) (kept : List α) (x : α) : Except ε (List α) := do
  if ← kept.reverse.anyM fun y => return (← cmp x y) == .eq then return kept
  else return x :: kept

/-- The first of each class of equal elements, in order. Equality is what the comparison says, so
    it may fail too. -/
def distinctBy (cmp : α → α → Except ε Ordering) (xs : List α) : Except ε (List α) :=
  return (← xs.foldlM (insertNew cmp) []).reverse

end VersionRange
