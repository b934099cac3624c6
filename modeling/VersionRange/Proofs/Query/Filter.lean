import VersionRange.Proofs.Expression.Readings

namespace VersionRange

/-!
# Filtering, version by version

* `judge`: what filtering finds out about one version; `judgeNotes`: what it leaves in the trace.
* `outcome_acceptedBy_of_ok`, `outcome_acceptedBy_of_error`: the versions that are judged to be
  accepted are selected, and the first one that ends in an error is reported.
* `notes_acceptedBy`: the versions up to that one are looked at.
* `warnings_acceptedBy_skipping`, `warnings_acceptedBy_strict`: there is a warning for each version
  that is skipped, in order, and none where nothing is skipped.
-/

open Traced

/-- What filtering finds out about one version: whether the constraint accepts it. A version that
    cannot be read is either skipped or reported. -/
def judge (skipInvalid : Bool) (c : Constraint) (version : String) : Except Fault Bool :=
  match (normalize version none).outcome with
  | .error e => if skipInvalid then .ok false else .error (.parse e)
  | .ok v => c.accepts (.exactly v.text)

variable {skip : Bool} {c : Constraint} {v : String} {versions : List String}

/-! ### Outcomes -/

/-- Leaving messages aside, the first version is judged, and it comes in front of what is selected
    from the others. -/
theorem outcome_acceptedBy_cons (skip : Bool) (c : Constraint) (v : String) (rest : List String) :
    (acceptedBy skip c (v :: rest)).outcome
      = (judge skip c v).bind fun accepted =>
          (acceptedBy skip c rest).outcome.map fun vs => if accepted then v :: vs else vs := by
  rw [acceptedBy, outcome_bind, outcome_attempt]
  -- A version that is not read ends the run or is skipped; one that is read is asked about.
  cases hv : (normalize v none).outcome with
  | error e =>
    cases skip with
    | false => rw [show judge false c v = .error (.parse e) by rw [judge, hv]; rfl]; rfl
    | true =>
      rw [show judge true c v = .ok false by rw [judge, hv]; rfl]
      show (Traced.say _ _ _ >>= fun _ => acceptedBy true c rest).outcome = _
      rw [outcome_bind, outcome_say]
      cases (acceptedBy true c rest).outcome <;> rfl
  | ok n =>
    rw [show judge skip c v = c.accepts (.exactly n.text) by rw [judge, hv]]
    show (Traced.lift (c.accepts (.exactly n.text)) >>= _).outcome = _
    rw [outcome_bind, outcome_lift]
    congr 1
    funext accepted
    cases accepted with
    | false =>
      show (acceptedBy skip c rest).outcome = (acceptedBy skip c rest).outcome.map id
      cases (acceptedBy skip c rest).outcome <;> rfl
    | true =>
      show (acceptedBy skip c rest >>= fun vs => pure (v :: vs)).outcome = _
      rw [outcome_bind]
      rfl

/-- The versions that are judged to be accepted are selected, in their order. -/
theorem outcome_acceptedBy_of_ok {p : String → Bool}
    (h : ∀ v ∈ versions, judge skip c v = .ok (p v)) :
    (acceptedBy skip c versions).outcome = .ok (versions.filter p) := by
  induction versions with
  | nil => rfl
  | cons v rest ih =>
    rw [outcome_acceptedBy_cons, h v List.mem_cons_self,
      ih fun u hu => h u (List.mem_cons_of_mem v hu), List.filter_cons]
    rfl

/-- The first version that ends in an error is reported. The versions behind it are not
    looked at. -/
theorem outcome_acceptedBy_of_error {before after : List String} {f : Fault}
    (hbefore : ∀ u ∈ before, ∃ accepted, judge skip c u = .ok accepted)
    (hv : judge skip c v = .error f) :
    (acceptedBy skip c (before ++ v :: after)).outcome = .error f := by
  induction before with
  | nil =>
    rw [List.nil_append, outcome_acceptedBy_cons, hv]
    rfl
  | cons u before ih =>
    obtain ⟨accepted, hu⟩ := hbefore u List.mem_cons_self
    rw [List.cons_append, outcome_acceptedBy_cons, hu,
      ih fun w hw => hbefore w (List.mem_cons_of_mem u hw)]
    rfl

/-! ### Traces -/

/-- The warning about a version that is skipped because it cannot be read. It quotes the version
    and ends with the message of the report. -/
def skipWarning? (version : String) : Option String :=
  match (normalize version none).outcome with
  | .error e => some ("Skipping invalid version " ++ Text.quote version ++ ": " ++ e.message)
  | .ok _ => none

/-- What filtering leaves in the trace for one version: the call that is made to read it, and
    behind that the warning, if it is skipped. -/
def judgeNotes (skipInvalid : Bool) (version : String) : List Note :=
  (normalize version none).notes ++ (if skipInvalid then
    (skipWarning? version).toList.map fun text =>
      let m : Message := ⟨facadeChannel, .warning, text⟩
      .message m (m.printed {}) else [])

/-- Filtering looks at the versions one by one, up to the first that ends it. Each of those leaves
    the notes of its reading, and a warning if it is skipped. -/
theorem notes_acceptedBy (skip : Bool) (c : Constraint) (versions : List String) :
    (acceptedBy skip c versions).notes
      = (reached (judge skip c) versions).flatMap (judgeNotes skip) := by
  induction versions with
  | nil => rfl
  | cons v rest ih =>
    rw [acceptedBy, notes_bind, notes_attempt, outcome_attempt]
    cases hv : (normalize v none).outcome with
    | error e =>
      -- What cannot be read ends the filtering, or it leaves a warning and is passed over.
      have hwarning : skipWarning? v
          = some ("Skipping invalid version " ++ Text.quote v ++ ": " ++ e.message) := by
        rw [skipWarning?, hv]
      cases skip with
      | false =>
        have hjudge : judge false c v = .error (.parse e) := by rw [judge, hv]; rfl
        rw [reached_cons_of_error hjudge]
        simp [judgeNotes]
      | true =>
        have hjudge : judge true c v = .ok false := by rw [judge, hv]; rfl
        rw [reached_cons_of_ok hjudge, List.flatMap_cons, ← ih]
        simp [judgeNotes, hwarning, notes_bind]
    | ok n =>
      have hjudge : judge skip c v = c.accepts (.exactly n.text) := by rw [judge, hv]
      have hnotes : judgeNotes skip v = (normalize v none).notes := by
        simp [judgeNotes, skipWarning?, hv]
      simp only [notes_bind, notes_lift, outcome_lift, List.nil_append]
      cases haccepts : c.accepts (.exactly n.text) with
      | error e =>
        rw [reached_cons_of_error (hjudge.trans haccepts), List.flatMap_singleton, hnotes]
        simp
      | ok b =>
        rw [reached_cons_of_ok (hjudge.trans haccepts), List.flatMap_cons, hnotes, ← ih]
        cases b with
        | false => rfl
        | true => simp

/-- The only warning about a version is that it is skipped. -/
theorem warnings_judgeNotes {g : Note → Option String} (hg : HearsWarnings g) (skip : Bool)
    (v : String) :
    (judgeNotes skip v).filterMap g = if skip then (skipWarning? v).toList else [] := by
  have hquiet : (normalize v none).notes.filterMap g = [] := warnings_normalize hg v none
  rw [judgeNotes, List.filterMap_append, hquiet, List.nil_append]
  cases skip with
  | false => rfl
  | true => cases skipWarning? v <;> simp [hg.warning]

/-- Filtering that skips versions warns about each one that cannot be read. -/
theorem warnings_acceptedBy_skipping {g : Note → Option String} (hg : HearsWarnings g)
    (c : Constraint) (versions : List String) :
    (acceptedBy true c versions).tell g
      = (reached (judge true c) versions).filterMap skipWarning? := by
  rw [Traced.tell, notes_acceptedBy, List.filterMap_flatMap, List.filterMap_eq_flatMap_toList]
  refine List.flatMap_congr fun v _ => ?_
  rw [warnings_judgeNotes hg, if_pos rfl]

/-- Filtering that skips nothing gives no warning. -/
theorem warnings_acceptedBy_strict {g : Note → Option String} (hg : HearsWarnings g)
    (c : Constraint) (versions : List String) : (acceptedBy false c versions).tell g = [] := by
  rw [Traced.tell, notes_acceptedBy, List.filterMap_flatMap, List.flatMap_eq_nil_iff]
  intro v _
  rw [warnings_judgeNotes hg, if_neg Bool.false_ne_true]

end VersionRange
