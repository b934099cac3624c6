import VersionRange.Proofs.Context
import VersionRange.Proofs.Log
import VersionRange.Proofs.Query.Filter

namespace VersionRange

/-!
# What a query leaves behind

* `Query.readings`, `Query.calls_run`: the texts that are read for a query, and that the parser
  which is asked receives them.
* `Query.warnings`, `Query.warnings_run`: the warnings of a query, and that they are given.
* `Query.messages`, `Query.printed_run`: the messages of a query, and that they are printed.
* `Query.outcome_run`: what a query ends with, whoever is asked.
-/

open Traced

variable {γ : Type} {g : Note → Option γ}

/-- For the canonical text of a version the texts of its readings are read. -/
theorem tell_normalized (hg : IsDeaf g) (v : String) :
    (normalized v).tell g = heard g (versionReadings v) := by
  rw [normalized, tell_bind_silent fun _ => tell_pure _, tell_mapError, tell_normalize hg]

/-- For filtering the readings of the versions are read, up to the version that ends it. That one
    is read as well. -/
theorem received_acceptedBy (skip : Bool) (c : Constraint) (versions : List String) :
    (acceptedBy skip c versions).tell receivedText?
      = (reached (judge skip c) versions).flatMap versionReadings := by
  rw [Traced.tell, notes_acceptedBy, List.filterMap_flatMap]
  refine List.flatMap_congr fun v _ => ?_
  have hnormalize : (normalize v none).notes.filterMap receivedText? = versionReadings v :=
    received_normalize v none
  rw [judgeNotes, List.filterMap_append, hnormalize]
  -- A warning is no reading.
  cases skip with
  | false => exact List.append_nil _
  | true => cases skipWarning? v <;> exact List.append_nil _

namespace Query

/-- The texts that are read for a query.  A single check reads the version first, filtering reads
    the expression first. -/
def readings : Query → List String
  | satisfies version e =>
    versionReadings version
      ++ (if (normalized version).outcome.isOk then Expression.readings e else [])
  | satisfiedBy versions e skip =>
    Expression.readings e ++ (match (Expression.parse e).outcome with
      | .ok c => (reached (judge skip c) versions).flatMap versionReadings
      | .error _ => [])
  | sort versions _ =>
    (reached (fun v => (normalized v).outcome) versions).flatMap versionReadings

/-- The warnings that a query gives: those about skipped versions, if any may be skipped and the
    expression can be read. -/
def warnings : Query → List String
  | satisfies _ _ | sort _ _ => []
  | satisfiedBy versions e skip =>
    if skip then
      match (Expression.parse e).outcome with
      | .ok c => (reached (judge true c) versions).filterMap skipWarning?
      | .error _ => []
    else []

/-- For a single check the version is read, and then the expression if the version could be read. -/
theorem tell_satisfies (hg : IsDeaf g) (v e : String) :
    (VersionRange.satisfies v e).tell g = heard g (satisfies v e).readings := by
  rw [VersionRange.satisfies, tell_bind_constant (t := heard g (Expression.readings e)),
    tell_normalized hg, readings, heard_append, heard_ite]
  intro text
  rw [tell_bind_silent fun _ => tell_lift _, Expression.tell_parse hg]

/-- For sorting all versions are read, up to the first that is reported. The order in which they
    are sorted does not matter. -/
theorem tell_sortVersions (hg : IsDeaf g) (descending : Bool) (vs : List String) :
    (sortVersions descending vs).tell g = heard g (sort vs descending).readings := by
  have hkeyed : ∀ v, (normalized v >>= fun text =>
      (pure ⟨text, v⟩ : Traced Fault Keyed)).tell g = heard g (versionReadings v) := by
    intro v
    rw [tell_bind_silent fun _ => tell_pure _, tell_normalized hg]
  have hreached : reached (fun v => (normalized v >>= fun text =>
        (pure ⟨text, v⟩ : Traced Fault Keyed)).outcome) vs
      = reached (fun v => (normalized v).outcome) vs := by
    refine reached_congr fun v _ => ?_
    rw [outcome_bind]
    cases (normalized v).outcome <;> rfl
  rw [sortVersions, tell_bind_silent, tell_mapM, hreached, readings, heard_flatMap]
  · exact List.flatMap_congr fun v _ => hkeyed v
  · intro keyed
    exact tell_bind_eq_nil (tell_lift _) fun _ => tell_pure _

/-- **Readings.** The texts that are read for a query are to be normalized, each as often as it is
    read, and in order. -/
theorem texts_computation (q : Query) : q.computation.tell receivedText? = q.readings := by
  cases q with
  | satisfies version e =>
    rw [computation, tell_map, tell_satisfies isDeaf_receivedText, heard_receivedText]
  | satisfiedBy versions e skip =>
    rw [computation, tell_map, VersionRange.satisfiedBy, tell_bind,
      Expression.tell_parse isDeaf_receivedText, heard_receivedText, readings]
    cases (Expression.parse e).outcome with
    | ok c => exact congrArg (Expression.readings e ++ ·) (received_acceptedBy skip c versions)
    | error f => rfl
  | sort versions descending =>
    rw [computation, tell_map, tell_sortVersions isDeaf_receivedText, heard_receivedText]

example : (satisfies "1.8" "1.0 - 2 || !=master-dev").readings
    = ["1.8", "1.0-dev", "master-dev", "master"] := by decide +kernel

/-- **Warnings.** A query warns about the versions that it skips, in order, and about nothing
    else. -/
theorem warnings_computation {g : Note → Option String} (hg : HearsWarnings g) (q : Query) :
    q.computation.tell g = q.warnings := by
  cases q with
  | satisfies version e =>
    rw [computation, tell_map, tell_satisfies hg.deaf, hg.heard_eq_nil, warnings]
  | sort versions descending =>
    rw [computation, tell_map, tell_sortVersions hg.deaf, hg.heard_eq_nil, warnings]
  | satisfiedBy versions e skip =>
    rw [computation, tell_map, VersionRange.satisfiedBy, tell_bind, Expression.warnings_parse hg,
      List.nil_append, warnings]
    cases (Expression.parse e).outcome with
    | error f => cases skip <;> rfl
    | ok c =>
      cases skip with
      | false => exact warnings_acceptedBy_strict hg c versions
      | true => exact warnings_acceptedBy_skipping hg c versions

/-! ### Whoever is asked -/

/-- The messages of a query that is put to a new plain parser without settings. Other parsers and
    settings give the same ones. -/
def messages (q : Query) : List Message := (q.run .initial {}).messages

variable (q : Query) (p : Parser) (env : Environment)

/-- A query is the same computation for all parsers and settings. -/
theorem run_eq : q.run p env = (q.run .initial {}).inContext ⟨p, env⟩ :=
  q.isPortable_computation ⟨p, env⟩

/-- **Results.** What a query ends with depends neither on the parser nor on the settings. -/
theorem outcome_run : (q.run p env).outcome = q.computation.outcome :=
  q.isPortable_computation.outcome_run _

/-- **Routing.** The parser that is asked receives all texts that are read for the query, and no
    other parser receives any. -/
theorem calls_run : (q.run p env).calls = q.readings.map (Call.mk p) := by
  rw [run_eq, Trace.calls_inContext, texts_calls]
  exact congrArg (List.map (Call.mk p)) q.texts_computation

/-- The messages are the same for all parsers and settings. -/
theorem messages_run : (q.run p env).messages = q.messages := by
  rw [run_eq, Trace.messages_inContext, messages]

/-- **Printing.** The messages are printed one after the other, as the settings tell. -/
theorem printed_run : (q.run p env).printed = String.join (q.messages.map env.line) := by
  rw [run_eq, Trace.printed_inContext, messages]
  exact congrArg String.join (List.map_congr_left fun m _ => m.printed_eq_line env)

/-- **Warnings.** The warnings of the library itself are the same for all parsers and settings. -/
theorem warnings_run : (q.run p env).warningsOn facadeChannel = q.warnings := by
  rw [run_eq, Trace.warningsOn_inContext, warningsOn_eq]
  exact q.warnings_computation hearsWarnings_warningOn

end Query

end VersionRange
