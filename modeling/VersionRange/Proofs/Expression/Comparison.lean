import VersionRange.Proofs.Constraint.Overlap
import VersionRange.Proofs.Expression.Range
import VersionRange.Proofs.Expression.Readable

namespace VersionRange

/-!
# What comparisons mean

A comparison is an operator in front of a version.  Behind `<` and `>=` a version without a marker
stands for its prereleases, too.

* `isBranch_of_mark`: only the name of a branch could start like an operator or a range.
* `Operator.bound`: the text that an operator compares with; `bound_eq`, `bound_eq_dev`.
* `satisfies_comparison`: opposite comparisons are complementary.
-/

/-! ### What starts like an operator -/

section TermMarks

variable {m : Char} {r : List Char}

/-- A mark is no part of a numeric branch. Its first group would be neither digits nor a
    wildcard. -/
theorem branchGroups?_mark (hm : m ∈ termMarks) : branchGroups? (m :: r) = none := by
  obtain ⟨-, hdigit, hopen, hpoint, -⟩ := termMarks_foreign m hm
  obtain ⟨p, ps, hsplit⟩ : ∃ p ps, (m :: r).splitOn '.' = (m :: p) :: ps := by
    obtain ⟨p, ps, hr⟩ := List.exists_cons_of_ne_nil (List.splitOnP_ne_nil (· == '.') r)
    refine ⟨p, ps, ?_⟩
    rw [List.splitOn, List.splitOnP_cons_eq_if_modifyHead, if_neg (by simpa using hpoint), hr]
    rfl
  have hgroup : branchGroup? (m :: p) = none := by
    simp only [isWildcard, Bool.or_eq_false_iff, beq_eq_false_iff_ne] at hopen
    simp [branchGroup?, isOpenGroup, hopen, hdigit]
  rw [branchGroups?, skipV_mark hm, hsplit, List.mapM_cons, hgroup]
  rfl

/-- What starts with a mark is, with `dev` behind it, nothing but the name of a branch. The mark
    stays a part of the name. -/
theorem isBranch_of_normalizeBranch {ε : Type} {stem : List Char} {c : Canonical}
    (hhead : ∀ d, stem.head? = some d → d ∈ termMarks) (hsolid : ∀ d ∈ stem, isSolid d = true)
    (h : (normalizeBranch (String.ofList stem) : Traced ε Canonical).outcome = .ok c) :
    isBranch c.text = true := by
  -- Neither the main line nor a numeric branch begins with a mark.
  have hname : masterBranches.contains stem = false ∧ branchGroups? stem = none := by
    cases stem with
    | nil => exact ⟨by decide, by decide⟩
    | cons d t =>
      have hd := hhead d rfl
      refine ⟨?_, branchGroups?_mark hd⟩
      rw [List.contains_eq_mem, decide_eq_false_iff_not]
      intro hmem
      have hheads : ∀ n ∈ masterBranches, n.headD 'm' ∉ termMarks := by decide
      exact hheads _ hmem hd
  simp only [normalizeBranch, String.toList_ofList, trim_of_isSolid hsolid, hname.1, hname.2,
    Bool.false_eq_true, if_false] at h
  split at h <;> cases h <;> exact isBranch_branch _

/-- Only the name of a branch could start with a mark. So a release behind an operator has no mark
    of one in front. -/
theorem isBranch_of_mark {nv : String} (hm : m ∈ termMarks)
    (hsolid : ∀ c ∈ m :: r, isSolid c = true)
    (h : (normalized (String.ofList (m :: r))).outcome = .ok nv) : isBranch nv = true := by
  obtain ⟨hv, hdigit, -, -, hinitial⟩ := termMarks_foreign m hm
  obtain ⟨c, hc, rfl⟩ := outcome_normalized_eq_ok_iff.1 h
  have hmaster := isMaster_cons (r := r) hinitial
  have hbare := Canonical.withoutBuild_isPrefix (m :: r)
  have hhead {s : List Char} (hs : s <+: m :: r) : ∀ d, s.head? = some d → d = m := by
    intro d hd
    cases s with
    | nil => cases hd
    | cons e t => exact (Option.some.inj hd).symm.trans (List.cons_prefix_cons.1 hs).1
  rw [outcome_normalize_of_isSolid hsolid] at hc
  simp only [normalizePlain, hmaster.1, hmaster.2, Bool.false_eq_true, if_false] at hc
  split at hc
  case h_1 k hk =>
    -- A release starts with a digit or a `v`.
    obtain ⟨d, t, heq, hd⟩ := Release.exists_head_of_ofText? hk
    obtain rfl : d = m := hhead hbare d (by rw [heq]; rfl)
    rcases hd with hd | hd
    · exact absurd hd hv
    · rw [hdigit] at hd
      cases hd
  case h_2 =>
    split at hc
    case h_2 => cases hc
    case h_1 stem hstem =>
      have hfront := (Canonical.isPrefix_of_devStem? hstem).trans hbare
      refine isBranch_of_normalizeBranch (fun d hd => ?_) (fun d hd => ?_) hc
      · rw [hhead hfront d hd]
        exact hm
      · exact hsolid d (hfront.subset hd)

/-- So nothing else that is normalized starts with a mark. -/
theorem head_ne_of_normalized {v nv : String} (hsolid : ∀ c ∈ v.toList, isSolid c = true)
    (h : (normalized v).outcome = .ok nv) (hb : isBranch nv = false) :
    ∀ m ∈ termMarks, v.toList.head? ≠ some m := by
  intro m hm hhead
  obtain ⟨r, heq⟩ := List.head?_eq_some_iff.1 hhead
  rw [← String.ofList_toList (s := v), heq] at h
  rw [heq] at hsolid
  rw [isBranch_of_mark hm hsolid h] at hb
  cases hb

end TermMarks

/-- The empty text is not normalized. -/
theorem ne_nil_of_normalized {v nv : String} (h : (normalized v).outcome = .ok nv) :
    v.toList ≠ [] := by
  intro hnil
  have hnone : (normalized "").outcome.toOption = none := by decide
  rw [String.toList_eq_nil_iff.1 hnil] at h
  rw [h] at hnone
  cases hnone

/-! ### The text that is compared with -/

namespace Operator

/-- An operator is written with its symbol. -/
theorem sign_mem (op : Operator) : ⟨op.symbol.toList, op⟩ ∈ Term.signs := by
  cases op <;> decide

/-- Whether an operator counts the prereleases of a version to it. A bound of such an operator is
    set below them all. -/
def countsPrereleases (op : Operator) : Bool := op == .lt || op == .ge

end Operator

/-- The ending that a comparison without a flag puts behind a version. -/
theorem Term.ending_none (sign : Sign) (version : List Char) (text : String) :
    ending sign version none text
      = if sign.operator.countsPrereleases = true ∧ isBranch text = false ∧ text ≠ master ∧
          (Marker.search version).isAbsent = true then "-dev" else "" := by
  simp [ending, Operator.countsPrereleases]

/-- What a comparison stands for, if its version can be normalized. -/
theorem Term.outcome_meaning_comparison {u : List Char} {c : Canonical}
    (hc : (normalize (String.ofList u) none).outcome = .ok c) (sign : Sign) (s : List Char) :
    (meaning s none (.comparison sign u)).outcome
      = .ok (leaves [⟨sign.operator, c.text ++ ending sign u none c.text⟩]) := by
  have hcomparator : (comparator s sign u none).outcome
      = .ok ⟨sign.operator, c.text ++ ending sign u none c.text⟩ := by
    rw [comparator, Traced.outcome_bind, Traced.outcome_attempt, hc]
    rfl
  rw [meaning, Traced.outcome_bind, hcomparator]
  rfl

namespace Operator

variable {op : Operator} {v nv : String}

/-- The text that an operator compares with: behind `<` and `>=` a version without a marker gets the
    ending `-dev`. -/
def bound (op : Operator) (v nv : String) : String :=
  nv ++ Term.ending ⟨op.symbol.toList, op⟩ v.toList none nv

/-- The other operators compare with the version itself. -/
theorem bound_eq (h : op.countsPrereleases = false) : op.bound v nv = nv := by
  have hcounts : ¬ (op.countsPrereleases = true ∧ isBranch nv = false ∧ nv ≠ master ∧
      (Marker.search v.toList).isAbsent = true) := by
    simp [h]
  rw [bound, Term.ending_none, if_neg hcounts, String.append_empty]

/-- The ending is the same behind both operators that put one. -/
theorem bound_lt_eq_bound_ge : lt.bound v nv = ge.bound v nv := by
  rw [bound, bound, Term.ending_none, Term.ending_none]
  rfl

/-- A version without a marker is compared at its prereleases. -/
theorem bound_eq_dev (h : op.countsPrereleases = true) (hb : isBranch nv = false)
    (hmaster : nv ≠ master) (habsent : (Marker.search v.toList).isAbsent = true) :
    op.bound v nv = nv ++ "-dev" := by
  rw [bound, Term.ending_none, if_pos ⟨h, hb, hmaster, habsent⟩]

end Operator

/-- A version as it may stand behind an operator: it has no character with a meaning of its own in
    an expression, and it is normalized to something else than a branch. -/
structure Operand (v nv : String) : Prop where
  inert : ∀ c ∈ v.toList, isInert c = true
  readable : ReadableText v.toList
  normal : (normalized v).outcome = .ok nv
  release : isBranch nv = false

namespace Operand

variable {x nx v nv : String} {xv : Version}

/-- A version that is compared does not begin with a sign, or it would be part of the sign. -/
theorem head_ne (h : Operand v nv) : ∀ m ∈ signMarks, v.toList.head? ≠ some m := fun m hm =>
  head_ne_of_normalized (isSolid_of_isInert h.inert) h.normal h.release m (mem_termMarks hm)

/-- The text that is compared with is a release. -/
theorem releaseText_bound (h : Operand v nv) (op : Operator) : ReleaseText (op.bound v nv) := by
  rcases Term.ending_cases ⟨op.symbol.toList, op⟩ v.toList none nv with
    hnone | ⟨tag, htag, hform, hletters⟩
  · rw [Operator.bound, hnone, String.append_empty]
    exact (comparable_of_normalized h.readable h.normal).release h.release
  · rw [Operator.bound, htag]
    exact release_append_tag h.readable h.normal h.release hform hletters

/-- An operator in front of a version asks what it says about the text that it compares with. That
    is the canonical text, with `-dev` behind it where prereleases count. -/
theorem outcome_satisfies (h : Operand v nv) (hnx : (normalized x).outcome = .ok nx)
    (op : Operator) :
    (satisfies x (op.symbol ++ v)).outcome = op.relates false nx (op.bound v nv) := by
  have hsign := op.sign_mem
  obtain ⟨-, -, -, -, hinertSign⟩ := Term.exists_mark_of_sign hsign
  have htext : op.symbol ++ v = String.ofList (op.symbol.toList ++ v.toList) := by
    rw [String.ofList_append, String.ofList_toList, String.ofList_toList]
  -- The sign and the version hold nothing that an expression is split at, so there is one term.
  have hinert : ∀ c ∈ op.symbol.toList ++ v.toList, isInert c = true := by
    intro c hc
    rcases List.mem_append.1 hc with hc | hc
    · exact hinertSign c hc
    · exact h.inert c hc
  have hne : op.symbol.toList ++ v.toList ≠ [] := fun hnil =>
    ne_nil_of_normalized h.normal (List.append_eq_nil_iff.1 hnil).2
  have hblank : ∀ c, v.toList.head? = some c → Text.isBlank c = false := fun c hc =>
    isBlank_of_isSolid (isSolid_of_isInert h.inert c (List.mem_of_mem_head? hc))
  obtain ⟨c, hc, hcnv⟩ := outcome_normalized_eq_ok_iff.1 h.normal
  rw [← String.ofList_toList (s := v)] at hc
  have hmeaning := Term.outcome_meaning_comparison hc ⟨op.symbol.toList, op⟩
    (op.symbol.toList ++ v.toList)
  rw [htext, (isSingle_of_inert hne hinert).outcome_satisfies hnx,
    Term.read_sign hsign h.head_ne hblank, hmeaning, hcnv]
  show Connective.all.decide ((leaves _).map _) = _
  rw [map_accepts_leaves]
  exact Connective.decide_singleton .all _

/-- No comparison holds of a branch. -/
theorem outcome_satisfies_branch (h : Operand v nv) (hnx : (normalized x).outcome = .ok nx)
    (hb : isBranch nx = true) (op : Operator) :
    (satisfies x (op.symbol ++ v)).outcome = .ok false := by
  obtain ⟨-, w, hw⟩ := h.releaseText_bound op
  rw [h.outcome_satisfies hnx op, relates_branch hb (Version.isBranch_of_parse hw)]

/-- Of a release the order decides. -/
theorem outcome_satisfies_release (h : Operand v nv) (hnx : (normalized x).outcome = .ok nx)
    (hx : ReadAs nx xv) (op : Operator) :
    (satisfies x (op.symbol ++ v)).outcome
      = .ok (op.check (xv.order (versionOf (op.bound v nv)))) := by
  obtain ⟨hd, w, hw⟩ := h.releaseText_bound op
  rw [h.outcome_satisfies hnx op, hx.relates hw (withinLimit_of_parse hd hw), versionOf_eq hw]

/-- A version without a marker is compared at its prereleases, which is asking for its numbers.
    Nothing with the same numbers is below `dev`. -/
theorem order_bound_eq_lt_iff {g : GroupText} {vv : Version} (h : Operand v nv)
    (hx : ReadAs nx xv) (hv : Version.parse nv = .ok vv) (hlen : g.groups.length ≤ 4)
    (hmajor : isMajor g.groups = true) (hg : v.toList = g.chars) :
    xv.order (versionOf (Operator.lt.bound v nv)) = .lt ↔
      compare xv.release vv.release = .lt := by
  -- The canonical text is made of the groups alone, so it is that of no main line.
  have hnv : nv = String.ofList (dotted (padGroups g.groups) ++ ({} : Marker).text) := by
    have hnormal := g.normalize_append (t := []) hlen hmajor (by decide)
    rw [List.append_nil, ← hg, String.ofList_toList] at hnormal
    have hsome := outcome_normalized_eq_ok_iff.2 ⟨_, hnormal, rfl⟩
    exact Except.ok.inj (h.normal.symm.trans hsome)
  have hmaster : nv ≠ master := by
    rintro rfl
    have hhyphen : '-' ∈ master.toList := by decide
    rw [hnv, String.toList_ofList] at hhyphen
    have hgroups : ∀ k ∈ padGroups g.groups, IsGroup k :=
      forall_mem_padGroups g.isGroup ⟨by decide, by decide⟩
    rcases List.mem_append.1 hhyphen with hmem | hmem
    · exact not_mem_dotted hgroups (by decide) (by decide) hmem
    · cases hmem
  have habsent : (Marker.search v.toList).isAbsent = true := by
    rw [hg, Marker.search_of_letterless fun c hc => ?_]
    · rfl
    · rcases g.mem_chars hc with rfl | rfl | rfl | hd
      · decide
      · decide
      · decide
      · exact Marker.letterless_of_isDigit hd
  obtain ⟨w, hw, hwRelease, -⟩ :=
    g.parse_padGroups hlen (Marker.isCanonical_dev false) (by decide)
  obtain ⟨d, hd, hdRelease, hdev, hbuild⟩ :=
    g.parse_padGroups hlen (Marker.isCanonical_dev true) (by decide)
  obtain rfl : vv = w := Except.ok.inj (hv.symm.trans (hnv ▸ hw))
  -- As there is no marker, the bound is the text with `-dev` behind it, the lowest version with
  -- these numbers.
  have hbound : Operator.lt.bound v nv
      = String.ofList (dotted (padGroups g.groups) ++ ({ dev := true } : Marker).text) := by
    have hdevText : "-dev" = String.ofList ({ dev := true } : Marker).text := by decide
    rw [Operator.bound_eq_dev rfl h.release hmaster habsent, hnv, hdevText, ← String.ofList_append]
    simp [Marker.text]
  rw [hbound, versionOf_eq hd, Version.order_dev_eq_lt_iff hx.canonical hdev hbuild, hdRelease,
    hwRelease]

end Operand

/-- Of two outcomes one is true and the other one is false, and neither of them is a fault. -/
def Complementary (a b : Except Fault Bool) : Prop := ∃ t, a = .ok t ∧ b = .ok !t

/-- **Comparisons.** Of opposite comparisons of a release exactly one holds, and no comparison holds
    of a branch.  Behind `>`, `<=`, `=` and `!=` the version itself counts.  Behind `<` and `>=` the
    numbers of a version without a marker count, so all its prereleases are on the same side as the
    version. -/
theorem satisfies_comparison {x nx v nv : String} (hx : ReadableText x.toList)
    (hnx : (normalized x).outcome = .ok nx) (hv : Operand v nv) :
    (isBranch nx = false →
      Complementary (satisfies x ("<" ++ v)).outcome (satisfies x (">=" ++ v)).outcome ∧
      Complementary (satisfies x (">" ++ v)).outcome (satisfies x ("<=" ++ v)).outcome ∧
      Complementary (satisfies x ("=" ++ v)).outcome (satisfies x ("!=" ++ v)).outcome ∧
      ∃ xv vv o, Version.parse nx = .ok xv ∧ Version.parse nv = .ok vv ∧ xv.compare vv = .ok o ∧
        (satisfies x (">" ++ v)).outcome = .ok o.isGT ∧
        (satisfies x ("<=" ++ v)).outcome = .ok o.isLE ∧
        (satisfies x ("=" ++ v)).outcome = .ok o.isEq ∧
        (satisfies x ("!=" ++ v)).outcome = .ok o.isNe ∧
        ∀ g : GroupText, g.groups.length ≤ 4 → isMajor g.groups = true → v.toList = g.chars →
          ((satisfies x ("<" ++ v)).outcome = .ok true ↔ compare xv.release vv.release = .lt) ∧
          (xv.release = vv.release → (satisfies x (">=" ++ v)).outcome = .ok true)) ∧
    (isBranch nx = true → ∀ op : Operator, (satisfies x (op.symbol ++ v)).outcome = .ok false) := by
  refine ⟨fun hb => ?_, hv.outcome_satisfies_branch hnx⟩
  have hreadable := readable_of_normalized hx hnx hb
  obtain ⟨xv, hparse, hcanonical⟩ :=
    exists_parse_of_normalized hnx hb hreadable.ascii hreadable.digitsBounded
  have hxv : ReadAs nx xv :=
    ⟨hparse, hcanonical, withinLimit_of_parse hreadable.digitsBounded hparse⟩
  obtain ⟨hd, vv, hvv⟩ := (comparable_of_normalized hv.readable hv.normal).release hv.release
  have hcompare := Version.compare_of_withinLimit hxv.within (withinLimit_of_parse hd hvv)
  have hof (op : Operator) := hv.outcome_satisfies_release hnx hxv op
  -- Behind `<` and `>=` the same text is compared with, behind the others the version itself.
  have hge := hof .ge
  rw [← Operator.bound_lt_eq_bound_ge, Operator.check_ge] at hge
  have hself (op : Operator) (hop : op.countsPrereleases = false) :
      (satisfies x (op.symbol ++ v)).outcome = .ok (op.check (xv.order vv)) := by
    rw [hof op, Operator.bound_eq hop, versionOf_eq hvv]
  have hlt : (satisfies x ("<" ++ v)).outcome = .ok true ↔
      xv.order (versionOf (Operator.lt.bound v nv)) = .lt := by
    rw [← ok_check_lt_iff, ← hof .lt]
    rfl
  refine ⟨⟨_, hof .lt, hge⟩, ⟨_, hself .gt rfl, ?_⟩, ⟨_, hself .eq rfl, ?_⟩, xv, vv, _, hparse, hvv,
    hcompare, hself .gt rfl, hself .le rfl, hself .eq rfl, hself .ne rfl,
    fun g hlen hmajor hg => ?_⟩
  · rw [← Operator.check_le]
    exact hself .le rfl
  · rw [← Operator.check_ne]
    exact hself .ne rfl
  · have hnumbers := hv.order_bound_eq_lt_iff hxv hvv hlen hmajor hg
    refine ⟨hlt.trans hnumbers, fun hsame => ?_⟩
    have hnot : xv.order (versionOf (Operator.lt.bound v nv)) ≠ .lt := by
      have hself : compare vv.release vv.release = .eq := Std.ReflCmp.compare_self
      rw [Ne, hnumbers, hsame, hself]
      decide
    have hcheck : Operator.lt.check (xv.order (versionOf (Operator.lt.bound v nv))) = false :=
      Bool.eq_false_iff.2 fun hlt => hnot (Ordering.isLT_iff_eq_lt.1 hlt)
    rw [hcheck] at hge
    exact hge

/-- A prerelease is not below the version that it belongs to, but behind `>` the version itself
    counts. -/
theorem satisfies_comparison_beta :
    (normalized "1.2-beta2").outcome = .ok "1.2.0.0-beta2" ∧
      (satisfies "1.2-beta2" "<1.2").outcome = .ok false ∧
      (satisfies "1.2-beta2" ">=1.2").outcome = .ok true ∧
      (satisfies "1.2-beta2" "<=1.2").outcome = .ok true ∧
      (satisfies "dev-main" "!=1.2").outcome = .ok false := by
  have hv : Operand "1.2" "1.2.0.0" :=
    ⟨by decide, .of_length_le (by decide) (by decide), eq_ok_of_toOption (by decide), by decide⟩
  have hbeta : (normalized "1.2-beta2").outcome = .ok "1.2.0.0-beta2" :=
    eq_ok_of_toOption (by decide)
  have hmain : (normalized "dev-main").outcome = .ok "dev-main" := eq_ok_of_toOption (by decide)
  have hrelease := satisfies_comparison (.of_length_le (by decide) (by decide)) hbeta hv
  have hbranch := satisfies_comparison (.of_length_le (by decide) (by decide)) hmain hv
  -- The release is compared by its numbers, and they are those of `1.2`.
  obtain ⟨⟨t, hlt, hge⟩, -, -, xv, vv, o, hxv, hvv, ho, -, hle, -, -, hplain⟩ :=
    hrelease.1 (by decide)
  have hx : Version.parse "1.2.0.0-beta2" = .ok { major := 1, minor := 2, prerelease := "beta2" } :=
    eq_ok_of_toOption (by decide)
  have hself : Version.parse "1.2.0.0" = .ok { major := 1, minor := 2 } :=
    eq_ok_of_toOption (by decide)
  obtain rfl := Except.ok.inj (hx.symm.trans hxv)
  obtain rfl := Except.ok.inj (hself.symm.trans hvv)
  have hnumbers : ∃ g : GroupText, g.groups = [['1'], ['2']] ∧ "1.2".toList = g.chars :=
    ⟨⟨[], [['1'], ['2']], by decide, by decide, by decide, by decide⟩, rfl, by decide⟩
  obtain ⟨g, hgroups, hg⟩ := hnumbers
  obtain ⟨-, hsame⟩ := hplain g (by rw [hgroups]; decide) (by rw [hgroups]; decide) hg
  have htrue := hsame (by decide)
  have hfalse : t = false := by
    have hnot := Except.ok.inj (hge.symm.trans htrue)
    simpa using hnot
  obtain rfl : o = .lt := Except.ok.inj (ho.symm.trans (eq_ok_of_toOption (by decide)))
  exact ⟨hbeta, hfalse ▸ hlt, htrue, hle, hbranch.2 (by decide) .ne⟩

end VersionRange
