import Mathlib.Data.List.Forall2
import VersionRange.Error
import VersionRange.Traced

namespace VersionRange

/-!
# Outcomes of traversals

* `Traced.outcome_mapM`: a traversal without its notes.
* `mapM_eq_ok_iff`: a traversal succeeds with the values that the elements succeed with;
  `mapM_eq_error_of_append`: it fails as the first element that does.
* `Yields p x`: the outcome `x` is a value with the property `p`, or reports a text that cannot be
  read.
* `Gives p x`: the value, if the outcome `x` is one, has the property `p`.
* `Blames p x`: a report, if the outcome `x` is one, has the property `p`.
* `forall_iff_of_forall₂`, `exists_iff_of_forall₂`: related lists agree on related properties.
* `forall₂_pair_left_iff`, `forall₂_pair_right_iff`: a list that is related to two elements.
-/

variable {ε α β : Type}

/-- An outcome is known from the value alone. -/
theorem eq_ok_of_toOption {x : Except ε α} {a : α} (h : x.toOption = some a) : x = .ok a := by
  cases x with
  | error => cases h
  | ok => exact congrArg _ (Option.some.inj h)

/-- Two steps end in a value if the first one does and the second one does with that value. -/
theorem bind_eq_ok_iff {x : Except ε α} {f : α → Except ε β} {b : β} :
    x.bind f = .ok b ↔ ∃ a, x = .ok a ∧ f a = .ok b := by
  cases x with
  | error => simp [Except.bind]
  | ok a => simp [Except.bind]

/-- A changed value comes from a value. -/
theorem map_eq_ok_iff {x : Except ε α} {f : α → β} {b : β} :
    x.map f = .ok b ↔ ∃ a, x = .ok a ∧ f a = b := by
  cases x with
  | error => simp [Except.map]
  | ok a => simp [Except.map]

/-- Rewording errors keeps the values. -/
theorem mapError_eq_ok_iff {ε' : Type} {x : Except ε α} {f : ε → ε'} {a : α} :
    x.mapError f = .ok a ↔ x = .ok a := by
  cases x with
  | error => simp [Except.mapError]
  | ok a => simp [Except.mapError]

/-- Changing the value does not decide about whether there is one. -/
theorem exists_map_eq_ok_iff {x : Except ε α} {f : α → β} :
    (∃ b, x.map f = .ok b) ↔ ∃ a, x = .ok a := by
  cases x with
  | error => simp [Except.map]
  | ok a => simp [Except.map]

/-- Leaving the notes aside, a traversal is the traversal of the outcomes. It ends at the same
    element. -/
theorem Traced.outcome_mapM (f : α → Traced ε β) (l : List α) :
    (l.mapM f).outcome = l.mapM fun a => (f a).outcome := by
  induction l with
  | nil => rfl
  | cons a l ih =>
    rw [List.mapM_cons, List.mapM_cons, Traced.outcome_bind]
    show Except.bind _ _ = Except.bind _ _
    congr 1
    funext b
    rw [Traced.outcome_bind, ih]
    rfl

/-- A traversal succeeds with the values of the elements in order. One value belongs to each
    element. -/
theorem mapM_eq_ok_iff {f : α → Except ε β} {l : List α} {bs : List β} :
    l.mapM f = .ok bs ↔ List.Forall₂ (fun a b => f a = .ok b) l bs := by
  induction l generalizing bs with
  | nil =>
    rw [List.mapM_nil, List.forall₂_nil_left_iff]
    exact ⟨fun h => (Except.ok.inj h).symm, fun h => by rw [h]; rfl⟩
  | cons a l ih =>
    rw [List.mapM_cons, List.forall₂_cons_left_iff]
    show Except.bind _ _ = _ ↔ _
    rw [bind_eq_ok_iff]
    -- The first value and those of the rest are found one after the other.
    constructor
    · rintro ⟨b, hb, h⟩
      obtain ⟨rest, hrest, h⟩ := bind_eq_ok_iff.1 h
      exact ⟨b, rest, hb, ih.1 hrest, (Except.ok.inj h).symm⟩
    · rintro ⟨b, rest, hb, hrest, rfl⟩
      exact ⟨b, hb, bind_eq_ok_iff.2 ⟨rest, ih.2 hrest, rfl⟩⟩

/-- A traversal succeeds where each element succeeds with a known value. -/
theorem mapM_eq_ok_map {f : α → Except ε β} {g : α → β} {l : List α}
    (h : ∀ a ∈ l, f a = .ok (g a)) : l.mapM f = .ok (l.map g) := by
  rw [mapM_eq_ok_iff, List.forall₂_map_right_iff, List.forall₂_same]
  exact h

/-- A traversal succeeds if every element does. Which values there are is not asked here. -/
theorem exists_mapM_iff {f : α → Except ε β} {l : List α} :
    (∃ bs, l.mapM f = .ok bs) ↔ ∀ a ∈ l, ∃ b, f a = .ok b := by
  induction l with
  | nil => exact ⟨fun _ => by simp, fun _ => ⟨[], rfl⟩⟩
  | cons a l ih =>
    rw [List.forall_mem_cons, ← ih]
    constructor
    · rintro ⟨bs, h⟩
      obtain ⟨b, rest, hb, hrest, -⟩ := List.forall₂_cons_left_iff.1 (mapM_eq_ok_iff.1 h)
      exact ⟨⟨b, hb⟩, rest, mapM_eq_ok_iff.2 hrest⟩
    · rintro ⟨⟨b, hb⟩, rest, hrest⟩
      exact ⟨b :: rest, mapM_eq_ok_iff.2 (.cons hb (mapM_eq_ok_iff.1 hrest))⟩

/-- A traversal stops at the first element that fails. -/
theorem mapM_eq_error_of_append {f : α → Except ε β} {before after : List α} {a : α} {e : ε}
    (hbefore : ∀ b ∈ before, ∃ c, f b = .ok c) (ha : f a = .error e) :
    (before ++ a :: after).mapM f = .error e := by
  obtain ⟨cs, hcs⟩ := exists_mapM_iff.2 hbefore
  rw [List.mapM_append, hcs, List.mapM_cons, ha]
  rfl

/-- Each value of a list is related to an element of the other. -/
theorem exists_of_mem_forall₂ {R : α → β → Prop} {l : List α} {l' : List β} {b : β}
    (h : List.Forall₂ R l l') (hb : b ∈ l') : ∃ a ∈ l, R a b := by
  induction h with
  | nil => cases hb
  | @cons a c l l' hac _ ih =>
    rcases List.mem_cons.1 hb with rfl | hb
    · exact ⟨a, by simp, hac⟩
    · obtain ⟨a', ha', hR⟩ := ih hb
      exact ⟨a', List.mem_cons_of_mem a ha', hR⟩

/-- Each value of a traversal without errors is that of an element. So what holds of all of those
    values holds of these. -/
theorem exists_of_mem_mapM {f : α → Option β} {l : List α} {bs : List β} (h : l.mapM f = some bs)
    {b : β} (hb : b ∈ bs) : ∃ a ∈ l, f a = some b := by
  induction l generalizing bs with
  | nil =>
    cases h
    cases hb
  | cons a l ih =>
    rw [List.mapM_cons] at h
    obtain ⟨c, hc, h⟩ := Option.bind_eq_some_iff.1 h
    obtain ⟨cs, hcs, h⟩ := Option.bind_eq_some_iff.1 h
    cases h
    rcases List.mem_cons.1 hb with rfl | hb
    · exact ⟨a, List.mem_cons_self, hc⟩
    · obtain ⟨a', ha', hb'⟩ := ih hcs hb
      exact ⟨a', List.mem_cons_of_mem a ha', hb'⟩

/-- Two elements correspond to two. -/
theorem forall₂_pair_left_iff {R : α → β → Prop} {a₁ a₂ : α} {l : List β} :
    List.Forall₂ R [a₁, a₂] l ↔ ∃ b₁ b₂, l = [b₁, b₂] ∧ R a₁ b₁ ∧ R a₂ b₂ := by
  constructor
  · intro h
    obtain ⟨b₁, rest, h₁, hrest, rfl⟩ := List.forall₂_cons_left_iff.1 h
    obtain ⟨b₂, rest, h₂, hnil, rfl⟩ := List.forall₂_cons_left_iff.1 hrest
    obtain rfl := List.forall₂_nil_left_iff.1 hnil
    exact ⟨b₁, b₂, rfl, h₁, h₂⟩
  · rintro ⟨b₁, b₂, rfl, h₁, h₂⟩
    exact .cons h₁ (.cons h₂ .nil)

/-- The same from the other side. -/
theorem forall₂_pair_right_iff {R : α → β → Prop} {l : List α} {b₁ b₂ : β} :
    List.Forall₂ R l [b₁, b₂] ↔ ∃ a₁ a₂, l = [a₁, a₂] ∧ R a₁ b₁ ∧ R a₂ b₂ := by
  constructor
  · intro h
    exact forall₂_pair_left_iff.1 (List.Forall₂.flip (R := flip R) h)
  · rintro ⟨a₁, a₂, rfl, h₁, h₂⟩
    exact .cons h₁ (.cons h₂ .nil)

/-- What corresponds element by element holds of all elements on both sides or on none. -/
theorem forall_iff_of_forall₂ {R : α → β → Prop} {p : α → Prop} {q : β → Prop} {l : List α}
    {l' : List β} (h : List.Forall₂ R l l') (hpq : ∀ a b, R a b → (p a ↔ q b)) :
    (∀ a ∈ l, p a) ↔ ∀ b ∈ l', q b := by
  induction h with
  | nil => simp
  | cons hab _ ih => rw [List.forall_mem_cons, List.forall_mem_cons, hpq _ _ hab, ih]

/-- And of some element on both sides or on none. -/
theorem exists_iff_of_forall₂ {R : α → β → Prop} {p : α → Prop} {q : β → Prop} {l : List α}
    {l' : List β} (h : List.Forall₂ R l l') (hpq : ∀ a b, R a b → (p a ↔ q b)) :
    (∃ a ∈ l, p a) ↔ ∃ b ∈ l', q b := by
  induction h with
  | nil => simp
  | cons hab _ ih => rw [List.exists_mem_cons_iff, List.exists_mem_cons_iff, hpq _ _ hab, ih]

/-! ### Reports -/

/-- The outcome is a value with a property, or the report of a text that cannot be read. -/
inductive Yields (p : α → Prop) : Except Fault α → Prop where
  | value {a : α} (h : p a) : Yields p (.ok a)
  | report (e : ParseError) : Yields p (.error (.parse e))

namespace Yields

variable {p : α → Prop} {q : β → Prop} {x : Except Fault α}

/-- A value that is yielded has the property. -/
theorem of_ok {a : α} (h : Yields p (.ok a)) : p a := by
  cases h with
  | value h => exact h

/-- The property of the first value is what the second step may count on. -/
theorem bind {f : α → Except Fault β} (hx : Yields p x) (hf : ∀ a, p a → Yields q (f a)) :
    Yields q (x.bind f) := by
  cases hx with
  | value h => exact hf _ h
  | report e => exact .report e

/-- Changing the value at the end changes the property with it. -/
theorem map {f : α → β} (hx : Yields p x) (hf : ∀ a, p a → q (f a)) : Yields q (x.map f) := by
  cases hx with
  | value h => exact .value (hf _ h)
  | report e => exact .report e

/-- The property may be weakened. -/
theorem mono {p' : α → Prop} (hx : Yields p x) (h : ∀ a, p a → p' a) : Yields p' x := by
  cases hx with
  | value ha => exact .value (h _ ha)
  | report e => exact .report e

/-- A traversal stops at the first report, or it has a value for each element in order. -/
theorem mapM_forall₂ {R : α → β → Prop} {f : α → Except Fault β} {l : List α}
    (h : ∀ a ∈ l, Yields (R a) (f a)) : Yields (List.Forall₂ R l) (l.mapM f) := by
  induction l with
  | nil => exact .value .nil
  | cons a l ih =>
    rw [List.mapM_cons]
    refine (h a List.mem_cons_self).bind fun b hb => ?_
    refine (ih fun c hc => h c (List.mem_cons_of_mem a hc)).bind fun bs hbs => .value ?_
    exact .cons hb hbs

/-- A traversal yields a list of values that have the property, or the first report. -/
theorem mapM {f : α → Except Fault β} {l : List α} (h : ∀ a ∈ l, Yields q (f a)) :
    Yields (fun bs => ∀ b ∈ bs, q b) (l.mapM f) := by
  refine (mapM_forall₂ h).mono fun bs hbs b hb => ?_
  obtain ⟨_, -, hq⟩ := exists_of_mem_forall₂ hbs hb
  exact hq

/-- A text that cannot be read is reported as such. Every report of the normalizer becomes a fault
    of that kind. -/
theorem mapError (x : Traced ParseError α) :
    Yields (fun a => x.outcome = .ok a) (x.mapError Fault.parse).outcome := by
  rw [Traced.outcome_mapError]
  cases x.outcome with
  | error e => exact .report e
  | ok a => exact .value rfl

end Yields

/-! ### What a value or a report is like, if there is one -/

/-- The value, if the outcome is one, has a property. Nothing is said about an outcome that is a
    report. -/
def Gives (p : α → Prop) (x : Except ε α) : Prop := ∀ a, x = .ok a → p a

namespace Gives

variable {p : α → Prop} {q : β → Prop} {x : Except ε α}

/-- A value with the property. -/
theorem value {a : α} (h : p a) : Gives p (.ok a : Except ε α) := by
  rintro b ⟨⟩
  exact h

/-- An error is no value, so there is nothing to show. -/
theorem error (e : ε) : Gives p (.error e) := by
  rintro b ⟨⟩

/-- The property may be weakened. -/
theorem mono {p' : α → Prop} (hx : Gives p x) (h : ∀ a, p a → p' a) : Gives p' x :=
  fun a ha => h a (hx a ha)

/-- The property of the first value, if there is one, is what the second step may count on. -/
theorem bind {f : α → Except ε β} (hx : Gives p x) (hf : ∀ a, p a → Gives q (f a)) :
    Gives q (x.bind f) := by
  intro b hb
  obtain ⟨a, ha, hb⟩ := bind_eq_ok_iff.1 hb
  exact hf a (hx a ha) b hb

/-- Changing the value at the end changes the property with it. -/
theorem map {f : α → β} (hx : Gives p x) (hf : ∀ a, p a → q (f a)) : Gives q (x.map f) := by
  intro b hb
  obtain ⟨a, ha, rfl⟩ := map_eq_ok_iff.1 hb
  exact hf a (hx a ha)

/-- A traversal gives a value for each element. -/
theorem mapM {f : α → Except ε β} {l : List α} (h : ∀ a ∈ l, Gives q (f a)) :
    Gives (fun bs => (∀ b ∈ bs, q b) ∧ bs.length = l.length) (l.mapM f) := by
  intro bs hbs
  have hrelated := mapM_eq_ok_iff.1 hbs
  refine ⟨fun b hb => ?_, hrelated.length_eq.symm⟩
  obtain ⟨a, ha, hb⟩ := exists_of_mem_forall₂ hrelated hb
  exact h a ha b hb

end Gives

/-- A report of a text that cannot be read, if the outcome is one, has a property. Nothing is said
    about a value. -/
def Blames (p : ParseError → Prop) (x : Except Fault α) : Prop :=
  ∀ e, x = .error (.parse e) → p e

namespace Blames

variable {p q : ParseError → Prop} {x : Except Fault α}

/-- Nothing is blamed for a value. -/
theorem value (a : α) : Blames p (.ok a) := by
  intro e h
  cases h

/-- What is said about the report may be weakened. -/
theorem mono (hx : Blames p x) (h : ∀ e, p e → q e) : Blames q x :=
  fun e he => h e (hx e he)

/-- The report of two steps is that of the first, or of the second behind a value of the first. -/
theorem bind {f : α → Except Fault β} (hx : Blames p x) (hf : ∀ a, x = .ok a → Blames p (f a)) :
    Blames p (x.bind f) := by
  cases x with
  | error fault =>
    intro e he
    exact hx e (congrArg _ (Except.error.inj he))
  | ok a => exact hf a rfl

/-- Changing the value changes no report. -/
theorem map {f : α → β} (hx : Blames p x) : Blames p (x.map f) := by
  cases x with
  | error fault =>
    intro e he
    exact hx e (congrArg _ (Except.error.inj he))
  | ok a => exact value (f a)

/-- A traversal reports what one of its elements reports. -/
theorem mapM {f : α → Except Fault β} {l : List α} (h : ∀ a ∈ l, Blames p (f a)) :
    Blames p (l.mapM f) := by
  induction l with
  | nil => exact value []
  | cons a l ih =>
    rw [List.mapM_cons]
    refine (h a List.mem_cons_self).bind fun b _ => ?_
    exact (ih fun c hc => h c (List.mem_cons_of_mem a hc)).bind fun bs _ => value (b :: bs)

/-- An error of the normalizer is reported as it is. It only changes its type. -/
theorem mapError {x : Traced ParseError α} (h : ∀ e, x.outcome = .error e → p e) :
    Blames p (x.mapError Fault.parse).outcome := by
  rw [Traced.outcome_mapError]
  intro e he
  cases hx : x.outcome with
  | error e' =>
    rw [hx] at he
    cases he
    exact h e hx
  | ok a =>
    rw [hx] at he
    cases he

end Blames

end VersionRange
