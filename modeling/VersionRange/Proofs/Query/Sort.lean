import VersionRange.Proofs.Order.Preorder
import VersionRange.Proofs.Order.Sort
import VersionRange.Proofs.Outcome
import VersionRange.Query

namespace VersionRange

/-!
# Sorting versions

* `Ranks`: how two versions compare by their canonical texts.
* `canonicalOf`, `rankOrder`: the canonical text of a version that has one, and the order by it.
* `outcome_sortVersions_descending`, `outcome_sortVersions_ascending`: sorting versions is insertion
  sort by that order.
* `sortVersions_stable`: versions are sorted stably in both directions, and the first one without a
  canonical text is reported.
-/

/-- The canonical texts of two versions compare with an outcome, where branches count as well. -/
def Ranks (v w : String) (o : Ordering) : Prop :=
  ∃ l r, (normalized v).outcome = .ok l ∧ (normalized w).outcome = .ok r ∧
    compareTexts true l r = .ok (some o)

/-- A version with a canonical text that can be compared. Sorting reports the first version that is
    not such. -/
def Sortable (v : String) : Prop := ∃ text, (normalized v).outcome = .ok text ∧ ComparableText text

/-- The canonical text of a version. For a version that cannot be read it is empty. -/
def canonicalOf (v : String) : String := (normalized v).outcome.toOption.getD ""

/-- The order of versions by their canonical texts.  Two spellings of one version are equal
    in it. -/
def rankOrder (v w : String) : Ordering := textOrder (canonicalOf v) (canonicalOf w)

instance : Std.TransCmp rankOrder where
  eq_swap := (inferInstance : Std.TransCmp textOrder).eq_swap
  isLE_trans := (inferInstance : Std.TransCmp textOrder).isLE_trans

variable {v w : String} {vs : List String}

/-- What makes a version sortable can be evaluated if its canonical text is short. -/
theorem Sortable.of_text (text : String) (h : (normalized v).outcome.toOption = some text)
    (hlen : text.toList.length ≤ Numeral.limit)
    (hread : isBranch text = true ∨ (Version.parse text).toOption.isSome = true) : Sortable v := by
  refine ⟨text, eq_ok_of_toOption h, hread.imp_right fun hsome => ⟨.of_length_le hlen, ?_⟩⟩
  obtain ⟨w, hw⟩ := Option.isSome_iff_exists.1 hsome
  exact ⟨w, eq_ok_of_toOption hw⟩

/-- A sortable version is normalized to its canonical text. -/
theorem Sortable.outcome (h : Sortable v) : (normalized v).outcome = .ok (canonicalOf v) := by
  obtain ⟨text, htext, -⟩ := h
  simp [canonicalOf, htext, Except.toOption]

/-- That text can be compared with every other one. -/
theorem Sortable.comparable (h : Sortable v) : ComparableText (canonicalOf v) := by
  obtain ⟨text, htext, hcomparable⟩ := h
  simpa [canonicalOf, htext, Except.toOption] using hcomparable

/-- Between sortable versions the outcome of the comparison is the order of ranks. -/
theorem ranks_iff (hv : Sortable v) (hw : Sortable w) (o : Ordering) :
    Ranks v w o ↔ rankOrder v w = o := by
  have hcompare := compareTexts_of_comparable hv.comparable hw.comparable
  constructor
  · rintro ⟨l, r, hl, hr, h⟩
    obtain rfl := Except.ok.inj (hv.outcome.symm.trans hl)
    obtain rfl := Except.ok.inj (hw.outcome.symm.trans hr)
    exact Option.some.inj (Except.ok.inj (hcompare.symm.trans h))
  · rintro rfl
    exact ⟨_, _, hv.outcome, hw.outcome, hcompare⟩

/-! ### Keys -/

/-- A version with its canonical text in front. -/
def keyed (v : String) : Keyed := ⟨canonicalOf v, v⟩

/-- Equal texts need not be read; they are equal in the order as well. All others are compared as
    canonical texts. -/
theorem compareKeyed_keyed (hv : Sortable v) (hw : Sortable w) :
    compareKeyed (keyed v) (keyed w) = .ok (textOrder (keyed v).key (keyed w).key) := by
  unfold compareKeyed
  split
  case isTrue heq =>
    have hself : textOrder (keyed w).key (keyed w).key = .eq := Std.ReflCmp.compare_self
    rw [heq, hself]
  case isFalse =>
    rw [show compareTexts true (keyed v).key (keyed w).key = _ from
      compareTexts_of_comparable hv.comparable hw.comparable]
    rfl

/-- Sorting reads all versions in order, and then sorts what was read. The canonical texts are the
    keys, and the versions come back as they were given. -/
theorem outcome_sortVersions (descending : Bool) (vs : List String) :
    (sortVersions descending vs).outcome
      = (vs.mapM fun v => (normalized v).outcome.map (Keyed.mk · v)).bind fun keys =>
          ((if descending then sortDownBy compareKeyed keys
            else sortBy compareKeyed keys).map (·.map Keyed.version)) := by
  unfold sortVersions
  rw [Traced.outcome_bind, Traced.outcome_mapM]
  congr 1
  · congr 1
    funext v
    rw [Traced.outcome_bind]
    rfl
  · funext keys
    rw [Traced.outcome_bind]
    rfl

/-- Sortable versions all get their keys. -/
theorem mapM_keyed (hvs : ∀ v ∈ vs, Sortable v) :
    (vs.mapM fun v => (normalized v).outcome.map (Keyed.mk · v)) = .ok (vs.map keyed) := by
  refine mapM_eq_ok_map fun v hv => ?_
  rw [(hvs v hv).outcome]
  rfl

/-- Keys are compared as the order of the canonical texts says. -/
theorem compareKeyed_of_mem (hvs : ∀ v ∈ vs, Sortable v) :
    ∀ a ∈ vs.map keyed, ∀ b ∈ vs.map keyed,
      compareKeyed a b = .ok (textOrder a.key b.key) := by
  intro a ha b hb
  obtain ⟨v, hv, rfl⟩ := List.mem_map.1 ha
  obtain ⟨w, hw, rfl⟩ := List.mem_map.1 hb
  exact compareKeyed_keyed (hvs v hv) (hvs w hw)

/-- Sorting versions with their keys sorts the versions. -/
theorem map_version_insertionSort (vs : List String) :
    ((vs.map keyed).insertionSort (NotBelow fun a b => textOrder a.key b.key)).map Keyed.version
      = vs.insertionSort (NotBelow rankOrder) := by
  rw [← List.map_insertionSort (NotBelow rankOrder) _ keyed vs fun _ _ _ _ => Iff.rfl,
    List.map_map]
  exact List.map_id _

/-- Sorting downwards is an insertion sort by rank: each version is read once, and the ranks order
    the texts as the comparison orders the versions. -/
theorem outcome_sortVersions_descending (hvs : ∀ v ∈ vs, Sortable v) :
    (sortVersions true vs).outcome = .ok (vs.insertionSort (NotBelow rankOrder)) := by
  rw [outcome_sortVersions, mapM_keyed hvs]
  show (sortDownBy compareKeyed (vs.map keyed)).map _ = _
  rw [sortDownBy_eq_insertionSort (compareKeyed_of_mem hvs), ← map_version_insertionSort]
  rfl

/-- Sorting upwards is the same sort on the reversed list with the result reversed, which keeps
    versions of equal rank in their order. -/
theorem outcome_sortVersions_ascending (hvs : ∀ v ∈ vs, Sortable v) :
    (sortVersions false vs).outcome
      = .ok (vs.reverse.insertionSort (NotBelow rankOrder)).reverse := by
  rw [outcome_sortVersions, mapM_keyed hvs]
  show (sortBy compareKeyed (vs.map keyed)).map _ = _
  rw [sortBy_eq_insertionSort (compareKeyed_of_mem hvs), ← List.map_reverse]
  show Except.ok (List.map _ (List.reverse _)) = _
  rw [List.map_reverse, map_version_insertionSort]

/-- The first version that cannot be read is reported. All versions are read before two of them are
    compared. -/
theorem outcome_sortVersions_error {before after : List String} {e : ParseError}
    (descending : Bool)
    (hbefore : ∀ u ∈ before, ∃ text, (normalized u).outcome = .ok text)
    (hv : (normalize v none).outcome = .error e) :
    (sortVersions descending (before ++ v :: after)).outcome = .error (.parse e) := by
  have hnormalized : (normalized v).outcome = .error (.parse e) := by
    unfold normalized
    rw [Traced.outcome_bind, Traced.outcome_mapError, hv]
    rfl
  -- All versions are read before any two are compared.
  have hfail : ((before ++ v :: after).mapM fun v => (normalized v).outcome.map (Keyed.mk · v))
      = .error (.parse e) := by
    refine mapM_eq_error_of_append (fun u hu => ?_) ?_
    · exact exists_map_eq_ok_iff.2 (hbefore u hu)
    · rw [hnormalized]
      rfl
  rw [outcome_sortVersions, hfail]
  rfl

/-! ### Both directions -/

/-- So the result is stably sorted downwards. -/
theorem stablySorted_descending (hvs : ∀ v ∈ vs, Sortable v) :
    StablySorted Ranks Ordering.isGE vs (vs.insertionSort (NotBelow rankOrder)) :=
  stablySorted_insertionSort fun v hv w hw o => ranks_iff (hvs v hv) (hvs w hw) o

/-- And, as reversing twice keeps equal versions in their order, upwards. -/
theorem stablySorted_ascending (hvs : ∀ v ∈ vs, Sortable v) :
    StablySorted Ranks Ordering.isLE vs
      (vs.reverse.insertionSort (NotBelow rankOrder)).reverse := by
  refine StablySorted.reverse (fun v hv w hw o h => ?_)
    (stablySorted_descending fun v hv => hvs v (List.mem_reverse.1 hv))
  rw [ranks_iff (hvs v hv) (hvs w hw)] at h
  rw [ranks_iff (hvs w hw) (hvs v hv), ← h]
  exact Std.OrientedCmp.eq_swap

/-- **Sorting.** Versions are sorted upwards and downwards by their canonical texts, equal ones in
    the order in which they were given.  Sorting downwards is sorting the reversed list upwards and
    reversing the result, and sorting again changes nothing.  If a version cannot be read, the first
    of them is reported, whatever follows it. -/
theorem sortVersions_stable :
    (∀ vs : List String, (∀ v ∈ vs, Sortable v) →
      ∃ up down, (sortVersions false vs).outcome = .ok up ∧
        (sortVersions true vs).outcome = .ok down ∧
        StablySorted Ranks Ordering.isLE vs up ∧ StablySorted Ranks Ordering.isGE vs down ∧
        (sortVersions false vs.reverse).outcome = .ok down.reverse ∧
        (sortVersions false up).outcome = .ok up ∧
        (sortVersions true down).outcome = .ok down) ∧
    ∀ (descending : Bool) (before after : List String) (v : String) (e : ParseError),
      (∀ u ∈ before, ∃ text, (normalized u).outcome = .ok text) →
      (normalize v none).outcome = .error e →
      (sortVersions descending (before ++ v :: after)).outcome = .error (.parse e) := by
  refine ⟨fun vs hvs => ?_, fun descending before after v e hbefore hv => ?_⟩
  · have hreverse : ∀ v ∈ vs.reverse, Sortable v := fun v hv => hvs v (List.mem_reverse.1 hv)
    have hup := outcome_sortVersions_ascending hvs
    have hdown := outcome_sortVersions_descending hvs
    have hback := outcome_sortVersions_ascending hreverse
    rw [List.reverse_reverse] at hback
    have hupward := stablySorted_ascending hvs
    have hdownward := stablySorted_descending hvs
    refine ⟨_, _, hup, hdown, hupward, hdownward, hback, ?_, ?_⟩
    -- What is sorted is left as it is by the insertion sort behind both directions.
    · rw [outcome_sortVersions_ascending fun v hv => hvs v (hupward.perm.subset hv),
        List.reverse_reverse, (List.pairwise_insertionSort _ _).insertionSort_eq]
    · rw [outcome_sortVersions_descending fun v hv => hvs v (hdownward.perm.subset hv),
        (List.pairwise_insertionSort _ _).insertionSort_eq]
  · exact outcome_sortVersions_error descending hbefore hv

/-- Versions two of which have the same canonical text, with two spellings of one branch. -/
def sortExample : List String := ["1.0", "2.0-beta", "dev-Main", "v1.0.0", "dev-main"]

/-- Equal versions keep their order in both directions; of two texts that are no versions the first
    one is reported. -/
theorem sortVersions_stable_spellings :
    StablySorted Ranks Ordering.isLE sortExample
        ["dev-Main", "dev-main", "1.0", "v1.0.0", "2.0-beta"] ∧
      StablySorted Ranks Ordering.isGE sortExample
        ["2.0-beta", "1.0", "v1.0.0", "dev-Main", "dev-main"] ∧
      (sortVersions true ["1.0", "one", "two"]).outcome
        = .error (.parse { message := "Invalid version string \"one\"", fragment := "one" }) := by
  obtain ⟨hsort, herror⟩ := sortVersions_stable
  have hsortable : ∀ v ∈ sortExample, Sortable v := by
    intro v hv
    simp only [sortExample, List.mem_cons, List.not_mem_nil, or_false] at hv
    rcases hv with rfl | rfl | rfl | rfl | rfl
    · exact .of_text "1.0.0.0" (by decide) (by decide) (by decide)
    · exact .of_text "2.0.0.0-beta" (by decide) (by decide) (by decide)
    · exact .of_text "dev-Main" (by decide) (by decide) (by decide)
    · exact .of_text "1.0.0.0" (by decide) (by decide) (by decide)
    · exact .of_text "dev-main" (by decide) (by decide) (by decide)
  obtain ⟨up, down, hup, hdown, hupward, hdownward, -⟩ := hsort sortExample hsortable
  have eup : (sortVersions false sortExample).outcome
      = .ok ["dev-Main", "dev-main", "1.0", "v1.0.0", "2.0-beta"] :=
    eq_ok_of_toOption (by decide)
  have edown : (sortVersions true sortExample).outcome
      = .ok ["2.0-beta", "1.0", "v1.0.0", "dev-Main", "dev-main"] :=
    eq_ok_of_toOption (by decide)
  obtain rfl := Except.ok.inj (hup.symm.trans eup)
  obtain rfl := Except.ok.inj (hdown.symm.trans edown)
  refine ⟨hupward, hdownward, herror true ["1.0"] ["two"] "one" _ ?_ rfl⟩
  intro u hu
  rw [List.mem_singleton.1 hu]
  exact ⟨"1.0.0.0", eq_ok_of_toOption (by decide)⟩

end VersionRange
