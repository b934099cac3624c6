import VersionRange.Expression.Bound
import VersionRange.Proofs.Canonical.Release
import VersionRange.Proofs.Version.Numeral

namespace VersionRange

/-!
# Bounds of ranges as versions

The bounds of a range are numbers that are written and read again as a version.

* `compare_raiseAt_iff`: of the versions that are not below a list of numbers, those below the
  raised list begin with the same numbers.
* `groupValues`, `devVersion`: the numbers of some groups, and the lowest version with some numbers.
* `parse_devVersion`: numbers are written and read back.
* `exists_devBound`: a bound can be written, and it is read as the lowest version of its numbers.
-/

/-! ### Raised lists -/

section Raised

variable {x : List Int} {f : List Nat} {p : Nat}

/-- Zeros are below any other numbers of the same or greater length. The numbers must not be
    negative. -/
theorem isGE_compare_zeros (hx : ∀ n ∈ x, 0 ≤ n) (hlen : f.length ≤ x.length) :
    (compare x ((f.map fun _ => 0).map Int.ofNat)).isGE = true := by
  induction f generalizing x with
  | nil => exact List.isGE_compare_nil_right
  | cons n f ih =>
    cases x with
    | nil => simp at hlen
    | cons m x =>
      have hm : 0 ≤ m := hx m (by simp)
      have hx' : ∀ k ∈ x, 0 ≤ k := fun k hk => hx k (List.mem_cons_of_mem m hk)
      have ih' := ih hx' (by simpa using hlen)
      rw [List.map_cons, List.map_cons, List.compare_cons_cons]
      -- Either this number decides, or it is zero as well and the others do.
      rcases Int.lt_or_eq_of_le hm with hlt | heq
      · rw [Int.compare_eq_gt.2 (show Int.ofNat 0 < m from hlt)]
        rfl
      · rw [Int.compare_eq_eq.2 (show m = Int.ofNat 0 from heq.symm)]
        exact ih'

/-- What is below the next number with zeros behind it starts with the number at most. This is why
    an upper bound can be computed in integers. -/
theorem compare_succ_then_zeros {m : Int} {n : Nat} (hx : ∀ n ∈ x, 0 ≤ n)
    (hlen : f.length ≤ x.length) :
    (compare m (Int.ofNat (n + 1))).then (compare x ((f.map fun _ => 0).map Int.ofNat)) = .lt ↔
      m ≤ Int.ofNat n := by
  have hfirst : compare m (Int.ofNat (n + 1)) = .lt ↔ m ≤ Int.ofNat n := by
    rw [Int.compare_eq_lt]
    show m < (n : Int) + 1 ↔ m ≤ (n : Int)
    omega
  have hrest : compare x ((f.map fun _ => 0).map Int.ofNat) ≠ .lt :=
    Ordering.isGE_iff_ne_lt.1 (isGE_compare_zeros hx hlen)
  rw [Ordering.then_eq_lt, hfirst]
  exact or_iff_left fun h => hrest h.2

/-- What is below a raised list begins with the numbers of the list at most, up to the raised
    one. -/
theorem compare_raiseAt_eq_lt_iff (hx : ∀ n ∈ x, 0 ≤ n) (hlen : f.length ≤ x.length)
    (hp : p < f.length) :
    compare x ((raiseAt 1 p f).map Int.ofNat) = .lt ↔
      (compare (x.take (p + 1)) ((f.take (p + 1)).map Int.ofNat)).isLE = true := by
  induction f generalizing x p with
  | nil => simp at hp
  | cons n f ih =>
    cases x with
    | nil => simp at hlen
    | cons m x =>
      have hx' : ∀ k ∈ x, 0 ≤ k := fun k hk => hx k (List.mem_cons_of_mem m hk)
      have hlen' : f.length ≤ x.length := by simpa using hlen
      rw [List.take_succ_cons, List.take_succ_cons, List.map_cons, List.compare_cons_cons]
      cases p with
      | zero =>
        -- Only the first number counts, as there are zeros behind the raised place.
        rw [raiseAt, List.map_cons, List.compare_cons_cons, compare_succ_then_zeros hx' hlen']
        show m ≤ Int.ofNat n ↔ ((compare m (Int.ofNat n)).then .eq).isLE = true
        rw [Ordering.then_eq, Int.isLE_compare]
      | succ p =>
        rw [raiseAt, List.map_cons, List.compare_cons_cons]
        have ih' := ih hx' hlen' (by simpa using hp)
        cases compare m (Int.ofNat n) with
        | lt => simp
        | eq => simpa using ih'
        | gt => simp

/-- What is not below a list of numbers does not begin with numbers below those of the list.
    Comparing is from left to right. -/
theorem isGE_compare_take {x y : List Int} (h : (compare x y).isGE = true) (k : Nat) :
    (compare (x.take k) (y.take k)).isGE = true := by
  induction k generalizing x y with
  | zero => rfl
  | succ k ih =>
    cases x with
    | nil =>
      cases y with
      | nil => rfl
      | cons n y => cases h
    | cons m x =>
      cases y with
      | nil => exact List.isGE_compare_nil_right
      | cons n y =>
        rw [List.compare_cons_cons] at h
        rw [List.take_succ_cons, List.take_succ_cons, List.compare_cons_cons]
        -- The first difference decides, wherever the numbers are cut off behind it.
        cases hfirst : compare m n with
        | lt =>
          rw [hfirst] at h
          cases h
        | eq =>
          rw [hfirst] at h
          exact ih h
        | gt => rfl

/-- What is not below a list of numbers is below the raised list if it begins with the same
    numbers, up to the raised one. -/
theorem compare_raiseAt_iff (hx : ∀ n ∈ x, 0 ≤ n) (hlen : f.length ≤ x.length)
    (hp : p < f.length) (hge : (compare x (f.map Int.ofNat)).isGE = true) :
    compare x ((raiseAt 1 p f).map Int.ofNat) = .lt ↔
      x.take (p + 1) = (f.take (p + 1)).map Int.ofNat := by
  have hfront : (compare (x.take (p + 1)) ((f.take (p + 1)).map Int.ofNat)).isGE = true := by
    rw [List.map_take]
    exact isGE_compare_take hge (p + 1)
  have hsame : compare (x.take (p + 1)) ((f.take (p + 1)).map Int.ofNat) = .eq ↔
      x.take (p + 1) = (f.take (p + 1)).map Int.ofNat := Std.LawfulEqOrd.compare_eq_iff_eq
  rw [compare_raiseAt_eq_lt_iff hx hlen hp, ← hsame]
  -- What is not below something is at most that only if they are equal.
  revert hfront
  cases compare (x.take (p + 1)) ((f.take (p + 1)).map Int.ofNat) <;> decide

/-- What begins with the same numbers, up to a position, is not below the list with zeros behind
    it. -/
theorem isGE_compare_raiseAt_zero (hx : ∀ n ∈ x, 0 ≤ n) (hlen : f.length ≤ x.length)
    (htake : x.take (p + 1) = (f.take (p + 1)).map Int.ofNat) :
    (compare x ((raiseAt 0 p f).map Int.ofNat)).isGE = true := by
  induction f generalizing x p with
  | nil => cases p <;> exact List.isGE_compare_nil_right
  | cons n f ih =>
    cases x with
    | nil => simp at hlen
    | cons m x =>
      have hx' : ∀ k ∈ x, 0 ≤ k := fun k hk => hx k (List.mem_cons_of_mem m hk)
      have hlen' : f.length ≤ x.length := by simpa using hlen
      rw [List.take_succ_cons, List.take_succ_cons, List.map_cons, List.cons.injEq] at htake
      obtain ⟨rfl, htake⟩ := htake
      have hself : compare (Int.ofNat n) (Int.ofNat n) = .eq := Int.compare_eq_eq.2 rfl
      cases p with
      -- From the position on there are only zeros on the other side.
      | zero =>
        rw [raiseAt, Nat.add_zero, List.map_cons, List.compare_cons_cons, hself]
        exact isGE_compare_zeros hx' hlen'
      | succ p =>
        rw [raiseAt, List.map_cons, List.compare_cons_cons, hself]
        exact ih hx' hlen' htake

end Raised

/-- Raising by nothing changes only what is behind the position. -/
theorem take_succ_raiseAt_zero (p : Nat) (f : List Nat) :
    (raiseAt 0 p f).take (p + 1) = f.take (p + 1) := by
  induction f generalizing p with
  | nil => cases p <;> rfl
  | cons n f ih => cases p <;> simp [raiseAt, ih]

/-- The numbers behind the position are set to zero either way, so doing it twice is
    doing it once. -/
theorem raiseAt_raiseAt_zero (p : Nat) (f : List Nat) :
    raiseAt 1 p (raiseAt 0 p f) = raiseAt 1 p f := by
  induction f generalizing p with
  | nil => cases p <;> rfl
  | cons n f ih => cases p <;> simp [raiseAt, ih]

/-- A list is raised by the amount at one place and nowhere else. So a number that can be written
    before can be written afterwards, with one digit more. -/
theorem le_of_mem_raiseAt {amount p m : Nat} {f : List Nat} (h : m ∈ raiseAt amount p f) :
    ∃ n ∈ f, m ≤ n + amount := by
  induction f generalizing p with
  | nil => cases p <;> cases h
  | cons n f ih =>
    cases p with
    | zero =>
      rw [raiseAt, List.mem_cons, List.mem_map] at h
      rcases h with rfl | ⟨k, -, rfl⟩
      · exact ⟨n, by simp, le_refl _⟩
      · exact ⟨n, by simp, Nat.zero_le _⟩
    | succ p =>
      rw [raiseAt, List.mem_cons] at h
      rcases h with rfl | h
      · exact ⟨m, by simp, Nat.le_add_right m amount⟩
      · obtain ⟨k, hk, hle⟩ := ih h
        exact ⟨k, List.mem_cons_of_mem n hk, hle⟩

/-! ### Bounds -/

/-- The four numbers of some groups; a missing one is zero. The groups themselves may have leading
    zeros. -/
def groupValues (gs : List (List Char)) : List Nat := (padGroups gs).map Numeral.value

/-- The numbers of the groups that are written come first. -/
theorem take_groupValues (gs : List (List Char)) :
    (groupValues gs).take gs.length = gs.map Numeral.value := by
  rw [groupValues, padGroups, List.map_append]
  exact List.take_left' (List.length_map Numeral.value)

/-- Up to four groups are padded to four numbers. -/
theorem length_groupValues {gs : List (List Char)} (h : gs.length ≤ 4) :
    (groupValues gs).length = 4 := by
  rw [groupValues, List.length_map, length_padGroups]
  omega

/-- The lowest version with some numbers: the one in development, which comes before all its
    prereleases. -/
def devVersion (ns : List Nat) : Version := Version.ofGroups (ns.map Int.ofNat) "dev" ""

/-- Four numbers are the numeric groups of the version that they make. -/
theorem Version.release_ofGroups {ns : List Int} (h : ns.length = 4) (prerelease build : String) :
    (ofGroups ns prerelease build).release = ns := by
  match ns, h with
  | [a, b, c, d], _ => rfl

/-- The numeric groups of the lowest version of four numbers are these numbers. -/
theorem release_devVersion {ns : List Nat} (h : ns.length = 4) :
    (devVersion ns).release = ns.map Int.ofNat :=
  Version.release_ofGroups (by rw [List.length_map, h]) "dev" ""

/-- Numbers that are small enough are written, and read back as the lowest version with them. The
    bounds of ranges are written in this way. -/
theorem parse_devVersion {ns : List Nat} (hne : ns ≠ []) (hns : ∀ n ∈ ns, n < 10 ^ Numeral.limit) :
    Version.parse (String.ofList (dotted (ns.map (Nat.toDigits 10)) ++ "-dev".toList))
      = .ok (devVersion ns) := by
  have hdigits : ns.map (Nat.toDigits 10) ≠ [] := by
    simpa using hne
  have hnumeral : ∀ ds ∈ ns.map (Nat.toDigits 10), Version.isNumeral ds = true := by
    intro ds hds
    obtain ⟨n, -, rfl⟩ := List.mem_map.1 hds
    exact Numeral.isNumeral_toDigits n
  have hlen : ∀ ds ∈ ns.map (Nat.toDigits 10), ds.length ≤ Numeral.limit := by
    intro ds hds
    obtain ⟨n, hn, rfl⟩ := List.mem_map.1 hds
    exact (Numeral.write_of_lt (hns n hn)).2
  -- Writing a number in digits and reading them back gives the number.
  have hvalues : (ns.map (Nat.toDigits 10)).map Numeral.value = ns := by
    rw [List.map_map]
    exact List.map_id'' Numeral.value_toDigits ns
  have hdev : "dev".toList.all Version.isTagChar = true := by decide
  have hparse := Version.parse_dotted hdigits hnumeral hlen hdev
  rw [hvalues] at hparse
  exact hparse

/-- Raising the numbers of groups that have room for another digit leaves them small enough. -/
theorem lt_of_mem_raiseAt {gs : List (List Char)} {amount p n : Nat} (hamount : amount ≤ 1)
    (hgs : ∀ g ∈ padGroups gs, g.length < Numeral.limit)
    (hn : n ∈ raiseAt amount p (groupValues gs)) : n < 10 ^ Numeral.limit := by
  obtain ⟨m, hm, hle⟩ := le_of_mem_raiseAt hn
  obtain ⟨g, hg, rfl⟩ := List.mem_map.1 hm
  have hlt := Numeral.value_succ_lt (hgs g hg)
  omega

/-- **Bounds.** Where the groups have room for another digit, a bound can be written, and it is
    read as the lowest version with the raised numbers. -/
theorem exists_devBound {gs : List (List Char)} {amount : Nat} (p : Nat) (hamount : amount ≤ 1)
    (hgs : ∀ g ∈ gs, g.length < Numeral.limit) :
    ∃ s, devBound gs p amount = .ok s ∧
      Version.parse s = .ok (devVersion (raiseAt amount p (groupValues gs))) := by
  -- A number with a digit less than can be converted has room to be raised by one, and zeros have
  -- it anyway.
  have hroom : ∀ g ∈ padGroups gs, g.length < Numeral.limit := forall_mem_padGroups hgs (by decide)
  have hread : (padGroups gs).mapM Numeral.read = .ok (groupValues gs) :=
    Version.mapM_read_of_length_le fun g hg => Nat.le_of_lt (hroom g hg)
  have hsmall : ∀ n ∈ raiseAt amount p (groupValues gs), n < 10 ^ Numeral.limit :=
    fun n hn => lt_of_mem_raiseAt hamount hroom hn
  have hne : raiseAt amount p (groupValues gs) ≠ [] := by
    rw [← List.length_pos_iff, length_raiseAt, groupValues, List.length_map, length_padGroups]
    omega
  refine ⟨_, ?_, parse_devVersion hne hsmall⟩
  rw [devBound, hread]
  show Except.bind ((raiseAt amount p (groupValues gs)).mapM Numeral.write) _ = _
  rw [mapM_eq_ok_map fun n hn => (Numeral.write_of_lt (hsmall n hn)).1]
  rfl

end VersionRange
