import VersionRange.Proofs.Canonical.Readable
import VersionRange.Proofs.Expression.Parse
import VersionRange.Proofs.Trace

namespace VersionRange

/-!
# What is read for an expression

Reading hands texts to the normalizer: versions as they are written, and texts that are made of
them.  The lists here tell which ones, in order.  A text counts only if all that comes before it
ends without an error.  Besides that reading leaves nothing but debug messages.

* `mainName?`, `versionReadings`: the texts for one version; `tell_normalize`.
* `Term.readings`, `Term.tell_constraints`: the texts for a term.
* `Expression.readings`, `Expression.tell_parse`: the texts for an expression.
-/

open Traced

/-! ### Versions -/

/-- The name of the main line of development in a text that puts `dev` behind it.  It is read as a
    version of its own. -/
def mainName? (s : List Char) : Option (List Char) :=
  (devStem? s).bind fun stem =>
    if masterBranches.contains (Text.trim stem) then some (Text.trim stem) else none

/-- The texts that are read for a version: the version itself, and the name of the main line of
    development where the version puts `dev` behind it. -/
def versionReadings (version : String) : List String :=
  let s := Text.trim version.toList
  let plain := withoutBuild ((aliasSource? s).getD s)
  version :: ((mainName? plain).map String.ofList).toList

/-- The name of the main line in front of a `dev`, described by what is in front of it. -/
theorem mainName?_eq_some_iff {s name : List Char} :
    mainName? s = some name ↔
      ∃ stem, devStem? s = some stem ∧ Text.trim stem = name ∧ name ∈ masterBranches := by
  simp only [mainName?, Option.bind_eq_some_iff, Option.ite_none_right_eq_some, Option.some.injEq,
    List.contains_iff_mem]
  constructor
  · rintro ⟨stem, hstem, hmem, rfl⟩
    exact ⟨stem, hstem, rfl, hmem⟩
  · rintro ⟨stem, hstem, rfl, hmem⟩
    exact ⟨stem, hstem, hmem, rfl⟩

section MainName

variable {s stem name : List Char}

/-- A text in front of the name of the main line of development is white space. If there is none,
    the text begins with the name. -/
theorem head_of_trim (htrim : Text.trim stem = name) (hname : name ∈ masterBranches) :
    ∃ c r, stem = c :: r ∧ (Text.isBlank c = true ∨ name <+: stem) := by
  cases stem with
  | nil =>
    have hnil : ([] : List Char) ∉ masterBranches := by decide
    rw [Text.trim_nil] at htrim
    exact absurd (htrim ▸ hname) hnil
  | cons c r =>
    refine ⟨c, r, rfl, ?_⟩
    by_cases hc : Text.isBlank c = true
    · exact .inl hc
    · rw [Text.trim, Text.trimStart_of_head (by simpa using hc)] at htrim
      exact .inr (htrim ▸ trimEnd_isPrefix _)

/-- What starts with a name of the main line of development does not start with `dev-`. None of the
    three names begins with these letters, although one begins with two of them. -/
theorem devName?_eq_none_of_trim (htrim : Text.trim stem = name) (hname : name ∈ masterBranches)
    (hstem : stem <+: s) : devName? s = none := by
  rw [devName?, Option.map_eq_none_iff, Option.eq_none_iff_forall_not_mem]
  rintro ⟨raw, r⟩ hlead
  obtain ⟨rfl, hraw⟩ := Text.eq_append_of_keywordLead? hlead
  obtain ⟨c, t, rfl, hc⟩ := head_of_trim htrim hname
  cases raw with
  | nil => cases hraw
  | cons d raw =>
    obtain rfl : c = d := (List.cons_prefix_cons.1 hstem).1
    have hsolid : isSolid c = true := by
      have hplain : Text.plain c = 'd' := (List.cons.inj hraw).1
      exact Text.isSolid_of_plain (by rw [hplain]; decide)
    rcases hc with hblank | hfront
    · simp [isSolid, hblank] at hsolid
    · -- Both the name and `dev-` are at the front of the text, and the name is longer.
      have hlen : raw.length = 3 := by simpa using congrArg List.length hraw
      have hnames : ∀ m ∈ masterBranches,
          4 ≤ m.length ∧ (m.take 4).map Text.plain ≠ "dev-".toList := by decide
      obtain ⟨hfour, hne⟩ := hnames name hname
      have hlead : c :: raw <+: name := by
        refine List.prefix_of_prefix_length_le (List.prefix_append _ r) (hfront.trans hstem) ?_
        rw [List.length_cons, hlen]
        exact hfour
      have htake : c :: raw = name.take 4 := by
        rw [List.prefix_iff_eq_take.1 hlead, List.length_cons, hlen]
      exact absurd (htake ▸ hraw) hne

/-- What starts with a name of the main line of development is no release. It starts with a letter
    other than `v`, or with white space. -/
theorem ofText?_eq_none_of_trim (htrim : Text.trim stem = name) (hname : name ∈ masterBranches)
    (hstem : stem <+: s) : Release.ofText? s = none := by
  rw [Option.eq_none_iff_forall_not_mem]
  intro r hr
  obtain ⟨c, t, rfl, hc⟩ := Release.exists_head_of_ofText? hr
  obtain ⟨d, u, rfl, hd⟩ := head_of_trim htrim hname
  obtain rfl : d = c := (List.cons_prefix_cons.1 hstem).1
  have hsolid : isSolid d = true := by
    rcases hc with hv | hdigit
    · exact Text.isSolid_of_plain (by rw [hv]; decide)
    · exact Text.isSolid_of_isDigit hdigit
  rcases hd with hblank | hfront
  · simp [isSolid, hblank] at hsolid
  · cases name with
    | nil => exact absurd hname (by decide)
    | cons k rest =>
      obtain rfl : k = d := (List.cons_prefix_cons.1 hfront).1
      have hinitials : ∀ m ∈ masterBranches, m.headD 'm' ∈ branchInitials := by decide
      have hletters : ∀ k ∈ branchInitials, Text.plain k ≠ 'v' ∧ Text.isDigit k = false := by decide
      -- The first letter of such a name is neither a `v` nor a digit, and a release begins with
      -- one of them.
      obtain ⟨hplain, hletter⟩ := hletters k (hinitials _ hname)
      rcases hc with hv | hdigit
      · exact hplain hv
      · rw [hletter] at hdigit
        cases hdigit

/-- With `dev` behind it a name of the main line of development is too long for one. The names
    differ by less than that in length. -/
theorem isMaster_eq_false_of_trim {r : List Char} (htrim : Text.trim stem = name)
    (hname : name ∈ masterBranches) (hstem : stem ++ r <+: s) (hr : 3 ≤ r.length) :
    isMaster s = false := by
  have hdev := devName?_eq_none_of_trim htrim hname ((List.prefix_append stem r).trans hstem)
  rw [devName?, Option.map_eq_none_iff] at hdev
  rw [isMaster, hdev, List.any_eq_false]
  intro m hm hkey
  -- The names of the main line differ by less than three letters in length.
  have hlong : m.length < name.length + 3 := by
    have hnames : ∀ m ∈ masterBranches, ∀ n ∈ masterBranches, m.length < n.length + 3 := by decide
    exact hnames m hm name hname
  have hlen : s.length = m.length := by
    rw [← Text.isKeyword_iff.1 hkey, List.length_map]
  have hinner : name.length ≤ stem.length := htrim ▸ (infix_trim stem).length_le
  have houter := hstem.length_le
  rw [List.length_append] at houter
  omega

end MainName

/-! ### Normalizing -/

variable {ε γ : Type} {g : Note → Option γ}

/-- The name of a branch is read only if it is one of the main line. Then the parser is asked to
    normalize that name. -/
theorem tell_normalizeBranch (branch : List Char) :
    (normalizeBranch (String.ofList branch) : Traced ε Canonical).tell g
      = heard g (if masterBranches.contains (Text.trim branch) then
          [String.ofList (Text.trim branch)] else []) := by
  unfold normalizeBranch
  simp only [String.toList_ofList]
  by_cases hmaster : masterBranches.contains (Text.trim branch) = true
  · rw [if_pos hmaster, if_pos hmaster]
    rfl
  · rw [if_neg hmaster, if_neg hmaster]
    split
    case h_1 => rfl
    case h_2 => split <;> rfl

/-- Besides the text itself only a name of the main line of development is read. It is one if the
    text has `dev` behind it. -/
theorem tell_normalizePlain (s full : List Char) :
    (normalizePlain s full).tell g
      = heard g ((mainName? (withoutBuild s)).map String.ofList).toList := by
  cases hmain : mainName? (withoutBuild s) with
  | some name =>
    obtain ⟨stem, hstem, htrim, hname⟩ := mainName?_eq_some_iff.1 hmain
    obtain ⟨r, happend, hr⟩ := Canonical.exists_append_of_devStem? hstem
    have hwhole : stem ++ r <+: s := happend ▸ Canonical.withoutBuild_isPrefix s
    have hfront : stem <+: withoutBuild s := Canonical.isPrefix_of_devStem? hstem
    have hmaster := isMaster_eq_false_of_trim htrim hname hwhole hr
    have hdev := devName?_eq_none_of_trim htrim hname
      (hfront.trans (Canonical.withoutBuild_isPrefix s))
    have hrelease := ofText?_eq_none_of_trim htrim hname hfront
    simp only [normalizePlain, hmaster, hdev, hrelease, hstem, Bool.false_eq_true, if_false]
    rw [tell_normalizeBranch, htrim, if_pos (List.contains_iff_mem.2 hname)]
    rfl
  | none =>
    unfold normalizePlain
    split
    case isTrue => rfl
    case isFalse =>
      split
      case h_1 => rfl
      case h_2 =>
        dsimp only
        split
        case h_1 => rfl
        case h_2 =>
          split
          case h_1 stem hstem =>
            -- The stem is no name of the main line of development, or it would be read.
            have hforeign : ¬ masterBranches.contains (Text.trim stem) = true := by
              intro hmem
              rw [mainName?, hstem, Option.bind_some, if_pos hmem] at hmain
              cases hmain
            rw [tell_normalizeBranch, if_neg hforeign]
            rfl
          case h_2 => rfl

/-- What is read for a version does not depend on the text that it was taken from. That text is for
    the report only. -/
theorem tell_normalize (hg : IsDeaf g) (version : String) (full : Option String) :
    (normalize version full).tell g = heard g (versionReadings version) := by
  rw [normalize, tell_bind_of_ok (Traced.outcome_receive version), tell_receive, versionReadings]
  dsimp only
  rw [heard_cons]
  cases aliasSource? (Text.trim version.toList) with
  | none => rw [Option.getD_none, tell_normalizePlain]
  | some source =>
    dsimp only
    rw [tell_bind_of_ok (Traced.outcome_say _ _ _), tell_debug hg, List.nil_append,
      tell_normalizePlain, Option.getD_some]

/-- The texts that are to be normalized for a version are those of its readings. -/
theorem received_normalize (version : String) (full : Option String) :
    (normalize version full).tell receivedText? = versionReadings version := by
  rw [tell_normalize isDeaf_receivedText, heard_receivedText]

/-- A version is read without warnings. -/
theorem warnings_normalize {g : Note → Option String} (hg : HearsWarnings g) (version : String)
    (full : Option String) : (normalize version full).tell g = [] := by
  rw [tell_normalize hg.deaf, hg.heard_eq_nil]

example : versionReadings "trunk.dev+1 as 2.0" = ["trunk.dev+1 as 2.0", "trunk"] := by decide

/-! ### Terms -/

namespace Term

/-- The text that is read for the lower end of a range: that of the prereleases, unless the version
    has a marker. -/
def lowerText (v : Spelled) : String :=
  String.ofList (if v.version.marker.isAbsent then v.chars ++ "-dev".toList else v.chars)

/-- The texts that are read for a range up to a bound.  The bound is written first, and if it
    cannot be written nothing is read. -/
def rangeReadings (v : Spelled) (position : Nat) : List String :=
  if (devBound v.version.groups position 1).isOk then versionReadings (lowerText v) else []

/-- The texts that are read for the upper end of a hyphen range.  For a version with less than three
    groups and no marker a bound is written in place of it. -/
def upperReadings (v : Spelled) : List String :=
  if 3 ≤ v.version.groups.length ∨ !v.version.marker.isAbsent then
    versionReadings (String.ofList v.chars)
  else []

/-- The texts that are read for a term, in the sequence in which they are read. A wildcard has only
    numbers, so nothing is read for it. -/
def readings : Term → List String
  | anything | wildcard _ => []
  | tilde v => rangeReadings v (tildePosition v.version.groups)
  | caret v => rangeReadings v (caretPosition v.version.groups)
  | hyphen low high =>
    versionReadings (lowerText low)
      ++ (if (lowerEnd low).outcome.isOk then upperReadings high else [])
  | comparison _ version => versionReadings (String.ofList version)

/-- The texts that are read for the text of a term, with a flag or without. Nothing is read for an
    empty one. -/
def readingsIn (s : List Char) : List String :=
  if s.isEmpty then []
  else match splitFlag? s with
    | some (front@(_ :: _), _) => (read front).readings
    | _ => (read s).readings

/-- For a lower end one text is read, the version with `-dev` behind it where it has no marker. -/
theorem tell_lowerEnd (hg : IsDeaf g) (v : Spelled) :
    (lowerEnd v).tell g = heard g (versionReadings (lowerText v)) := by
  rw [lowerEnd, tell_bind_silent fun _ => tell_pure _, tell_mapError, tell_normalize hg, lowerText]

/-- For an upper end the version is read, unless a bound is written in place of it. -/
theorem tell_upperEnd (hg : IsDeaf g) (v : Spelled) :
    (upperEnd v).tell g = heard g (upperReadings v) := by
  unfold upperEnd upperReadings
  dsimp only
  split
  case isTrue => rw [tell_bind_silent fun _ => tell_pure _, tell_mapError, tell_normalize hg]
  case isFalse => rw [tell_bind_silent fun _ => tell_pure _, tell_lift, heard_nil]

/-- For a range its lower end is read, if the bound could be written. -/
theorem tell_rangeTo (hg : IsDeaf g) (v : Spelled) (position : Nat) :
    (rangeTo v position).tell g = heard g (rangeReadings v position) := by
  have hlow : ∀ high : String, (lowerEnd v >>= fun low =>
      (pure [low, ⟨.lt, high⟩] : Traced Fault (List Comparator))).tell g
        = heard g (versionReadings (lowerText v)) := by
    intro high
    rw [tell_bind_silent fun _ => tell_pure _, tell_lowerEnd hg]
  rw [rangeTo, tell_bind_constant hlow, tell_lift, List.nil_append, outcome_lift, rangeReadings,
    heard_ite]

/-- For a comparison its version is read, whatever comes of it. -/
theorem tell_comparator (hg : IsDeaf g) (term : List Char) (sign : Sign) (version : List Char)
    (flag : Option (List Char)) :
    (comparator term sign version flag).tell g
      = heard g (versionReadings (String.ofList version)) := by
  rw [comparator, tell_bind_silent, tell_attempt, tell_normalize hg]
  intro result
  cases result <;> rfl

/-- For a term the texts of its readings are read, form by form. A bound that cannot be computed
    ends it before anything is read. -/
theorem tell_meaning (hg : IsDeaf g) (s : List Char) (flag : Option (List Char)) (t : Term) :
    (meaning s flag t).tell g = heard g t.readings := by
  cases t with
  | anything => rfl
  | tilde v => rw [meaning, tell_map, tell_rangeTo hg, readings]
  | caret v => rw [meaning, tell_map, tell_rangeTo hg, readings]
  | wildcard gs => rw [meaning, tell_map, tell_lift, readings, heard_nil]
  | hyphen low high =>
    rw [meaning, tell_bind_constant (t := heard g (upperReadings high)), tell_lowerEnd hg, readings,
      heard_append, heard_ite]
    intro c
    rw [tell_bind_silent fun _ => tell_pure _, tell_upperEnd hg]
  | comparison sign version =>
    rw [meaning, tell_bind_silent fun _ => tell_pure _, tell_comparator hg, readings]

/-- The flag of a term is not read. It says something about the version that is read in front of
    it. -/
theorem tell_constraints (hg : IsDeaf g) (s : List Char) :
    (constraints s).tell g = heard g (readingsIn s) := by
  unfold constraints readingsIn
  split
  case isTrue => rfl
  case isFalse =>
    -- A flag needs a version in front of it; otherwise it belongs to the version.
    rcases splitFlag? s with _ | ⟨_ | ⟨c, front⟩, flag⟩
    · exact tell_meaning hg _ _ _
    · exact tell_meaning hg _ _ _
    · exact tell_meaning hg _ _ _

end Term

/-! ### Expressions -/

namespace Expression

/-- The texts that are read for an alternative, up to the first term that is reported. That term is
    the last one of which anything is read. -/
def alternativeReadings (s : List Char) : List String :=
  (reached (fun t => (Term.constraints t).outcome) (splitTerms s)).flatMap Term.readingsIn

/-- The texts that are read for an expression, up to the first alternative that is reported. -/
def readings (e : String) : List String :=
  (reached (fun a => (parseAlternative a).outcome) (splitAlternatives (body e))).flatMap
    alternativeReadings

/-- For an alternative the texts of its terms are read, up to the first that is reported. -/
theorem tell_parseAlternative (hg : IsDeaf g) (s : List Char) :
    (parseAlternative s).tell g = heard g (alternativeReadings s) := by
  rw [parseAlternative, tell_bind_silent fun _ => tell_pure _, tell_mapM, alternativeReadings,
    heard_flatMap]
  exact List.flatMap_congr fun t _ => Term.tell_constraints hg t

/-- Joining alternatives reads nothing. -/
theorem tell_alternativesOf (hg : IsDeaf g) (gs : List Constraint) :
    (alternativesOf gs).tell g = [] := by
  unfold alternativesOf
  split
  case h_1 => rfl
  case h_2 =>
    split
    case h_1 => exact tell_bind_eq_nil (tell_debug hg _ _) fun _ => tell_pure _
    case h_2 => rfl

/-- **Reading.** Whoever does not listen to debug messages hears the texts that are read for an
    expression, and nothing else. -/
theorem tell_parse (hg : IsDeaf g) (e : String) : (parse e).tell g = heard g (readings e) := by
  have hrest : ∀ r : List Char,
      (do
        let groups ← (splitAlternatives r).mapM parseAlternative
        return (← alternativesOf groups).withWritten (some e) :
          Traced Fault Constraint).tell g
        = heard g ((reached (fun a => (parseAlternative a).outcome) (splitAlternatives r)).flatMap
            alternativeReadings) := by
    intro r
    rw [tell_bind_silent, tell_mapM, heard_flatMap]
    · exact List.flatMap_congr fun a _ => tell_parseAlternative hg a
    · intro gs
      exact tell_bind_eq_nil (tell_alternativesOf hg gs) fun _ => tell_pure _
  unfold parse readings body
  -- A reference is told in a debug message, which is not listened to.
  cases hreference : versionOfReference? (withoutFlag e.toList) with
  | none =>
    simp only [hreference, pure_bind]
    exact hrest _
  | some version =>
    simp only [hreference, pure_bind]
    rw [tell_bind_of_ok (Traced.outcome_say _ _ _), tell_debug hg, List.nil_append]
    exact hrest version

/-- An expression is read without warnings. -/
theorem warnings_parse {g : Note → Option String} (hg : HearsWarnings g) (e : String) :
    (parse e).tell g = [] := by
  rw [tell_parse hg.deaf, hg.heard_eq_nil]

end Expression

end VersionRange
