import Mathlib.Data.List.Induction
import Mathlib.Data.List.Sort
import VersionRange.Sort

namespace VersionRange

/-!
# Sorting by a comparison that has the outcomes of an order

* `NotBelow`: the relation that the pile is sorted by; it is total and transitive.
* `insertBy_eq_orderedInsert`, `pile_eq_insertionSort`: while the comparison does not fail, the pile
  is insertion sort.
* `StablySorted`: one list is another one in order, and equal elements have kept their order.
* `stablySorted_insertionSort`, `StablySorted.reverse`: insertion sort is stable, also in the
  direction that reads its input and its result from the end.
-/

variable {α ε : Type} {order : α → α → Ordering} {cmp : α → α → Except ε Ordering}

/-- One element is greater than another one or equal to it. Sorted downwards, each element is so to
    all behind it. -/
def NotBelow (order : α → α → Ordering) (a b : α) : Prop := (order a b).isGE = true

instance : DecidableRel (NotBelow order) :=
  fun a b => inferInstanceAs (Decidable ((order a b).isGE = true))

instance [Std.TransCmp order] : Std.Total (NotBelow order) where
  total a b := by
    have hswap : order b a = (order a b).swap := Std.OrientedCmp.eq_swap
    unfold NotBelow
    rw [hswap]
    cases order a b with
    | lt => exact .inr rfl
    | eq => exact .inl rfl
    | gt => exact .inl rfl

instance [Std.TransCmp order] : IsTrans α (NotBelow order) where
  trans _ _ _ := Std.TransCmp.isGE_trans

/-! ### The pile -/

/-- Inserting with a comparison that always has an outcome is the library's ordered insertion. The
    relation there is the one that the new element must be in. -/
theorem insertBy_eq_orderedInsert {x : α} {ys : List α}
    (h : ∀ y ∈ ys, cmp x y = .ok (order x y)) :
    insertBy cmp x ys = .ok (ys.orderedInsert (NotBelow order) x) := by
  induction ys with
  | nil => rfl
  | cons y ys ih =>
    have hrest := ih fun z hz => h z (List.mem_cons_of_mem y hz)
    have hxy := h y List.mem_cons_self
    rw [List.orderedInsert_cons]
    -- The element goes behind all that are greater, and in front of the first one that is not.
    cases ho : order x y with
    | lt =>
      rw [if_neg (by simp [NotBelow, ho])]
      simp only [insertBy, hxy, ho, hrest]
      rfl
    | _ =>
      rw [if_pos (by simp [NotBelow, ho])]
      simp only [insertBy, hxy, ho]
      rfl

/-- The elements are put in one after the other, the last one at the end. So the library's
    insertion sort has them the other way round. -/
theorem pile_eq_insertionSort {xs : List α}
    (h : ∀ a ∈ xs, ∀ b ∈ xs, cmp a b = .ok (order a b)) :
    pile cmp xs = .ok (xs.reverse.insertionSort (NotBelow order)) := by
  induction xs using List.reverseRecOn with
  | nil => rfl
  -- The induction is from the end: the pile of the others is sorted when the last one is put in.
  | append_singleton xs x ih =>
    have hpile : pile cmp xs = .ok (xs.reverse.insertionSort (NotBelow order)) :=
      ih fun a ha b hb => h a (List.mem_append_left _ ha) b (List.mem_append_left _ hb)
    have hinsert : insertBy cmp x (xs.reverse.insertionSort (NotBelow order)) = .ok _ :=
      insertBy_eq_orderedInsert fun y hy => by
        rw [List.mem_insertionSort, List.mem_reverse] at hy
        exact h x List.mem_concat_self y (List.mem_append_left _ hy)
    rw [List.reverse_concat, List.insertionSort_cons, ← hinsert]
    unfold pile at hpile ⊢
    rw [List.foldlM_append, hpile]
    show (insertBy cmp x _ >>= pure) = _
    rw [bind_pure]

/-- Sorting downwards is the library's insertion sort. -/
theorem sortDownBy_eq_insertionSort {xs : List α}
    (h : ∀ a ∈ xs, ∀ b ∈ xs, cmp a b = .ok (order a b)) :
    sortDownBy cmp xs = .ok (xs.insertionSort (NotBelow order)) := by
  unfold sortDownBy
  rw [pile_eq_insertionSort fun a ha b hb => h a (List.mem_reverse.1 ha) b (List.mem_reverse.1 hb),
    List.reverse_reverse]

/-- Sorting upwards is the same on the reversed list, with the result reversed. -/
theorem sortBy_eq_insertionSort {xs : List α}
    (h : ∀ a ∈ xs, ∀ b ∈ xs, cmp a b = .ok (order a b)) :
    sortBy cmp xs = .ok (xs.reverse.insertionSort (NotBelow order)).reverse := by
  unfold sortBy
  rw [pile_eq_insertionSort h]
  rfl

/-! ### Stability -/

/-- A list in order.  The comparison is given by its outcomes, and `side` tells which of them two
    elements may have that stand in the list one before the other. -/
structure StablySorted (outcome : α → α → Ordering → Prop) (side : Ordering → Bool)
    (given sorted : List α) : Prop where
  /-- Every element is there as often as it was given. -/
  perm : sorted.Perm given
  /-- The elements stand on the right side of each other. -/
  ordered : sorted.Pairwise fun a b => ∃ o, outcome a b o ∧ side o = true
  /-- Elements that are all equal stand in the order in which they were given. -/
  stable {equals : List α} : equals.Sublist given → equals.Pairwise (outcome · · .eq) →
    equals.Sublist sorted

/-- The reversed list is in order in the other direction. Elements that are equal change their
    places twice, and so they stay. -/
theorem StablySorted.reverse {outcome : α → α → Ordering → Prop} {given sorted : List α}
    (hswap : ∀ a ∈ given, ∀ b ∈ given, ∀ o, outcome a b o → outcome b a o.swap)
    (h : StablySorted outcome Ordering.isGE given.reverse sorted) :
    StablySorted outcome Ordering.isLE given sorted.reverse where
  perm := (sorted.reverse_perm.trans h.perm).trans given.reverse_perm
  ordered := by
    rw [List.pairwise_reverse]
    refine h.ordered.imp_of_mem fun {a b} ha hb ⟨o, ho, hside⟩ => ⟨o.swap, ?_, ?_⟩
    · exact hswap a (List.mem_reverse.1 (h.perm.subset ha)) b
        (List.mem_reverse.1 (h.perm.subset hb)) o ho
    · rwa [Ordering.isLE_swap]
  stable {equals} hsub heq := by
    refine List.sublist_reverse_iff.2 (h.stable (List.reverse_sublist.2 hsub) ?_)
    rw [List.pairwise_reverse]
    exact heq.imp_of_mem fun {a b} ha hb => hswap a (hsub.subset ha) b (hsub.subset hb) .eq

/-- Insertion sort is stable. The library knows that it keeps each sublist that is in order, and
    equal elements are one. -/
theorem stablySorted_insertionSort [Std.TransCmp order] {outcome : α → α → Ordering → Prop}
    {xs : List α} (h : ∀ a ∈ xs, ∀ b ∈ xs, ∀ o, outcome a b o ↔ order a b = o) :
    StablySorted outcome Ordering.isGE xs (xs.insertionSort (NotBelow order)) where
  perm := List.perm_insertionSort _ xs
  ordered := by
    refine (List.pairwise_insertionSort (NotBelow order) xs).imp_of_mem fun {a b} ha hb hab => ?_
    rw [List.mem_insertionSort] at ha hb
    exact ⟨order a b, (h a ha b hb _).2 rfl, hab⟩
  stable {equals} hsub heq := by
    refine List.sublist_insertionSort (heq.imp_of_mem fun {a b} ha hb hab => ?_) hsub
    have heqab : order a b = .eq := (h a (hsub.subset ha) b (hsub.subset hb) .eq).1 hab
    show (order a b).isGE = true
    rw [heqab]
    rfl

end VersionRange
