import VersionRange.Proofs.Query.Trace

namespace VersionRange

/-!
# Sessions told by their calls

What a session remembers can be read off the list of the calls so far, the latest first, and so can
everything that the next call does.

* `History.named?`, `History.chosen`, `History.serving?`, `History.settings`: the parser that a name
  stands for, the default parser, the parser that a query is answered with, and the settings.
* `History.result`, `History.calls`, `History.told`, `History.added`: what a call ends with, which
  parser receives which texts in it, its messages, and the warnings among them.
* `Session.Reflects`: the state is what the history tells.
* `Session.IsTrace`, `Session.Reflects.exists_trace`: what a call does is what the history tells,
  case by case over the calls.
* `Session.Reflects.step`, `Session.reflects_after`: the state stays what the history tells.
-/

/-! ### Calls on their own -/

namespace Step

/-- The name of the parser that a call refers to. A call without one means a default. -/
def reference? : Step → Option String
  | .setEnvironment _ | .newParser _ _ => none
  | .setParser name => name
  | .ask parser _ => parser

/-- What a call ends with if the parser that it refers to is known: a query, what it does for a new
    plain parser without settings. -/
def outcome : Step → Except Fault Value
  | .ask _ query => query.computation.outcome
  | _ => .ok .done

end Step

/-! ### Histories -/

namespace History

variable {past : List Step} {name : String} {p : Parser}

/-- The number of parsers that were created. It tells a new parser from all those so far. -/
def created : List Step → Nat
  | [] => 0
  | .newParser _ _ :: past => created past + 1
  | _ :: past => created past

/-- The parser that a name stands for: the latest one that was created with it.  The parsers are
    numbered in the order in which they are created. -/
def named? : List Step → String → Option Parser
  | [], _ => none
  | .newParser n kind :: past, name =>
    if name = n then some ⟨created past + 1, kind⟩ else named? past name
  | _ :: past, name => named? past name

/-- The parser that a call means: the one with the name, or else a given one. There is none if no
    parser has the name. -/
def meant? (past : List Step) (default : Parser) : Option String → Option Parser
  | none => some default
  | some name => named? past name

/-- The default parser: the one that was set last, and the initial one if none was set.  A name that
    no parser has sets none. -/
def chosen : List Step → Parser
  | [] => .initial
  | .setParser reference :: past => (meant? past .initial reference).getD (chosen past)
  | _ :: past => chosen past

/-- The parser that a query is answered with: the one that is passed, or else the default at that
    time. -/
def serving? (past : List Step) : Option String → Option Parser := meant? past (chosen past)

/-- The settings for messages: those that were made last, and none if none were made. Earlier ones
    are replaced as a whole. -/
def settings : List Step → Environment
  | [] => {}
  | .setEnvironment env :: _ => env
  | _ :: past => settings past

/-- What a call ends with. A name that no parser has is reported, whatever the call is. -/
def result (past : List Step) (t : Step) : Except Fault Value :=
  match t.reference? with
  | none => t.outcome
  | some name =>
    if (named? past name).isSome then t.outcome else .error (.unknownParser name)

/-- The calls of a normalizer: all texts that are read for a query are received by the parser that
    the query is answered with. -/
def calls (past : List Step) : Step → List Call
  | .ask parser query =>
    match serving? past parser with
    | some p => query.readings.map (Call.mk p)
    | none => []
  | _ => []

/-- The messages of a call, printed or not. A query without a parser to answer it gives none, and a
    change of the default parser is told to those who debug. -/
def told (past : List Step) : Step → List Message
  | .setParser reference =>
    match meant? past .initial reference with
    | some p => [⟨"version_constraints.api", .debug,
        "Replacing default version parser with " ++ p.kind.name⟩]
    | none => []
  | .ask parser query => if (serving? past parser).isSome then query.messages else []
  | _ => []

/-- The warnings that a call adds: those of its query, if a parser answers it. -/
def added (past : List Step) : Step → List String
  | .ask parser query => if (serving? past parser).isSome then query.warnings else []
  | _ => []

/-- All warnings so far, in the sequence in which they were given. -/
def warned : List Step → List String
  | [] => []
  | t :: past => warned past ++ added past t

/-- The parsers are numbered from one on. So a parser with a name is not the initial one, and it is
    not one that is still to come. -/
theorem serial_le_created (h : named? past name = some p) :
    0 < p.serial ∧ p.serial ≤ created past := by
  induction past with
  | nil => cases h
  | cons t past ih =>
    cases t with
    | newParser n kind =>
      rw [named?] at h
      split at h
      case isTrue =>
        cases h
        exact ⟨Nat.succ_pos _, Nat.le_refl _⟩
      case isFalse =>
        obtain ⟨hpos, hle⟩ := ih h
        exact ⟨hpos, Nat.le_succ_of_le hle⟩
    | _ => exact ih h

/-- Different names stand for different parsers. The numbers of those that were created before are
    less than the number of a new one. -/
theorem name_eq_of_named? {other : String} (h : named? past name = some p)
    (hother : named? past other = some p) : name = other := by
  induction past with
  | nil => cases h
  | cons t past ih =>
    cases t with
    | newParser n kind =>
      rw [named?] at h hother
      -- The parser that was created last has a greater number than all others.
      split at h <;> split at hother
      case isTrue.isTrue hn hn' => rw [hn, hn']
      case isTrue.isFalse =>
        cases h
        have hle := (serial_le_created hother).2
        exact absurd hle (Nat.not_succ_le_self _)
      case isFalse.isTrue =>
        cases hother
        have hle := (serial_le_created h).2
        exact absurd hle (Nat.not_succ_le_self _)
      case isFalse.isFalse => exact ih h hother
    | _ => exact ih h hother

/-- A call that refers to names of parsers only ends as it does on its own. -/
theorem result_of_known {t : Step}
    (h : ∀ name, t.reference? = some name → (named? past name).isSome = true) :
    result past t = t.outcome := by
  unfold result
  cases href : t.reference? with
  | none => rfl
  | some name => exact if_pos (h name href)

/-- A call that means a parser ends as it does on its own. -/
theorem result_of_meant (t : Step) {default : Parser}
    (h : meant? past default t.reference? = some p) : result past t = t.outcome := by
  refine result_of_known fun name href => ?_
  rw [href] at h
  exact Option.isSome_iff_exists.2 ⟨p, h⟩

/-- A call that refers to a name of no parser reports the name. -/
theorem result_of_unknown (t : Step) (href : t.reference? = some name)
    (hname : named? past name = none) : result past t = .error (.unknownParser name) := by
  rw [result, href]
  exact if_neg (by rw [hname]; exact Bool.false_ne_true)

end History

/-! ### States -/

namespace Session

open History

variable {s : Session} {past : List Step} {name : String} {p : Parser}

/-- The state behind some calls, where the answers are left out. -/
def after (s : Session) (steps : List Step) : Session := steps.foldl (fun s t => (s.step t).1) s

/-- The calls after the first one are made in the state behind it. -/
theorem after_cons (s : Session) (t : Step) (steps : List Step) :
    s.after (t :: steps) = (s.step t).1.after steps := rfl

/-- Each call is answered once. -/
theorem length_run (s : Session) (steps : List Step) : (s.run steps).length = steps.length := by
  induction steps generalizing s with
  | nil => rfl
  | cons t steps ih => exact congrArg (· + 1) (ih _)

/-- Later calls are answered in the state that the earlier ones leave. -/
theorem run_append (s : Session) (earlier later : List Step) :
    s.run (earlier ++ later) = s.run earlier ++ (s.after earlier).run later := by
  induction earlier generalizing s with
  | nil => rfl
  | cons t earlier ih => exact congrArg ((s.step t).2 :: ·) (ih _)

/-- A call is answered in the state behind the calls before it. -/
theorem getElem?_run (s : Session) (earlier : List Step) (t : Step) (later : List Step) :
    (s.run (earlier ++ t :: later))[earlier.length]? = some ((s.after earlier).step t).2 := by
  have hbehind : (s.run earlier).length ≤ earlier.length := Nat.le_of_eq (length_run s earlier)
  rw [run_append, List.getElem?_append_right hbehind, length_run, Nat.sub_self]
  rfl

/-- The parsers and the settings are what the calls so far, the latest first, tell about them.
    These fields decide about every answer but for its list of warnings. -/
structure Knows (past : List Step) (s : Session) : Prop where
  next : s.next = created past + 1
  named : ∀ name, s.named.lookup name = named? past name
  current : s.current = chosen past
  environment : s.environment = settings past

/-- The whole state is what the calls so far tell: the logger remembers the warnings besides. -/
structure Reflects (past : List Step) (s : Session) : Prop extends Knows past s where
  log : s.log = { name := facadeChannel, warnings := warned past }

/-- Nothing is told about a new session. -/
theorem reflects_initial : Reflects [] {} where
  next := rfl
  named _ := rfl
  current := rfl
  environment := rfl
  log := rfl

/-- What a call does is what the history tells about it: how it ends, who is called in it, what is
    printed and which warnings are given. -/
structure IsTrace (past : List Step) (t : Step) (x : Trace Fault Value) : Prop where
  outcome : x.outcome = result past t
  calls : x.calls = History.calls past t
  printed : x.printed = String.join ((told past t).map (settings past).line)
  warnings : x.warningsOn facadeChannel = added past t

namespace Knows

/-- A call finds the parser that it means. -/
theorem findOr_eq_ok (h : Knows past s) {default : Parser} {reference : Option String}
    (hp : meant? past default reference = some p) : s.findOr default reference = .ok p := by
  cases reference with
  | none => exact congrArg Except.ok (Option.some.inj hp)
  | some name =>
    rw [findOr, find, h.named]
    rw [meant?] at hp
    rw [hp]

/-- A call that means no parser refers to a name that none has. -/
theorem findOr_eq_error (h : Knows past s) {default : Parser} {reference : Option String}
    (hnone : meant? past default reference = none) :
    ∃ name, reference = some name ∧ named? past name = none ∧
      s.findOr default reference = .error (.unknownParser name) := by
  cases reference with
  | none => cases hnone
  | some name =>
    refine ⟨name, rfl, hnone, ?_⟩
    rw [meant?] at hnone
    rw [findOr, find, h.named, hnone]

/-- A new parser has its name from then on, also if another one had it before. -/
theorem newParser (h : Knows past s) (name : String) (kind : Parser.Kind) :
    Knows (.newParser name kind :: past)
      { s with named := (name, ⟨s.next, kind⟩) :: s.named, next := s.next + 1 } where
  next := congrArg (· + 1) h.next
  named := by
    intro other
    show List.lookup other ((name, ⟨s.next, kind⟩) :: s.named) = _
    rw [List.lookup_cons, h.named, named?, h.next]
    by_cases hname : other = name
    · rw [if_pos hname, hname, beq_self_eq_true]
    · rw [if_neg hname, beq_false_of_ne hname]
  current := h.current
  environment := h.environment

/-- A parser that is made the default is the default from then on. -/
theorem setParser (h : Knows past s) {reference : Option String}
    (hp : meant? past .initial reference = some p) :
    Knows (.setParser reference :: past) { s with current := p } where
  next := h.next
  named := h.named
  current := by rw [chosen, hp, Option.getD_some]
  environment := h.environment

/-- A name that no parser has changes nothing. -/
theorem setParser_unknown (h : Knows past s) {reference : Option String}
    (hnone : meant? past .initial reference = none) : Knows (.setParser reference :: past) s where
  next := h.next
  named := h.named
  current := by rw [chosen, hnone, Option.getD_none, h.current]
  environment := h.environment

end Knows

/-- The trace of a call in which nothing is read and nothing is told. -/
theorem isTrace_quiet {t : Step} {o : Except Fault Value} (ho : o = result past t)
    (hcalls : History.calls past t = []) (htold : told past t = []) (hadded : added past t = []) :
    IsTrace past t ⟨[], o⟩ where
  outcome := ho
  calls := hcalls.symm
  printed := by
    rw [htold]
    rfl
  warnings := hadded.symm

/-- The trace of the call that makes a parser the default. -/
theorem isTrace_announce {reference : Option String} (hp : meant? past .initial reference = some p)
    (former : Parser) :
    IsTrace past (.setParser reference) ((announce p).run ⟨former, settings past⟩) where
  outcome := (result_of_meant (.setParser reference) hp).symm
  calls := rfl
  printed := by
    rw [told, hp, List.map_singleton, ← Message.printed_eq_line]
    rfl
  warnings := rfl

/-- The trace of a query that is answered. -/
theorem isTrace_run {parser : Option String} (hp : serving? past parser = some p) (query : Query) :
    IsTrace past (.ask parser query) (query.run p (settings past)) where
  outcome := (query.outcome_run p _).trans (result_of_meant (.ask parser query) hp).symm
  calls := by rw [query.calls_run, History.calls, hp]
  printed := by rw [query.printed_run, told, hp, Option.isSome_some, if_pos rfl]
  warnings := by rw [query.warnings_run, added, hp, Option.isSome_some, if_pos rfl]

namespace Reflects

/-- **What a call does.** It answers with the trace that the history tells.  Besides what the logger
    remembers, the state behind it is what the history with the call tells. -/
theorem exists_trace (h : Reflects past s) (t : Step) :
    ∃ s₀ x, s.step t = answer s₀ x ∧ Knows (t :: past) s₀ ∧ s₀.log = s.log ∧ IsTrace past t x := by
  cases t with
  | setEnvironment env =>
    exact ⟨{ s with environment := env }, _, rfl, ⟨h.next, h.named, h.current, rfl⟩, rfl,
      isTrace_quiet rfl rfl rfl rfl⟩
  | newParser name kind =>
    exact ⟨_, _, rfl, h.toKnows.newParser name kind, rfl, isTrace_quiet rfl rfl rfl rfl⟩
  -- A reference without a parser behind it changes nothing and is answered with an error.
  | setParser reference =>
    cases hmeant : meant? past .initial reference with
    | some p =>
      refine ⟨{ s with current := p }, _, ?_, h.toKnows.setParser hmeant, rfl,
        isTrace_announce hmeant s.current⟩
      rw [step, h.findOr_eq_ok hmeant, h.environment]
    | none =>
      obtain ⟨name, href, hname, hfind⟩ := h.findOr_eq_error hmeant
      have hresult := result_of_unknown (.setParser reference) href hname
      refine ⟨s, _, by rw [step, hfind], h.toKnows.setParser_unknown hmeant, rfl,
        isTrace_quiet hresult.symm rfl ?_ rfl⟩
      rw [told, hmeant]
  -- The parser that is passed serves, or else the default one.
  | ask parser query =>
    have hknows : Knows (.ask parser query :: past) s := ⟨h.next, h.named, h.current, h.environment⟩
    have hmeant : meant? past s.current parser = serving? past parser := by
      rw [serving?, h.current]
    cases hserving : serving? past parser with
    | some p =>
      have hfind := h.findOr_eq_ok (hmeant.trans hserving)
      refine ⟨s, _, ?_, hknows, rfl, isTrace_run hserving query⟩
      rw [step, hfind, h.environment]
    | none =>
      obtain ⟨name, href, hname, hfind⟩ := h.findOr_eq_error (hmeant.trans hserving)
      have hresult := result_of_unknown (.ask parser query) href hname
      refine ⟨s, _, by rw [step, hfind], hknows, rfl, isTrace_quiet hresult.symm ?_ ?_ ?_⟩
      · rw [History.calls, hserving]
      · rw [told, hserving]
        rfl
      · rw [added, hserving]
        rfl

/-- **Step.** After each call the state is what the history tells. -/
theorem step (h : Reflects past s) (t : Step) : Reflects (t :: past) (s.step t).1 := by
  obtain ⟨s₀, x, hstep, hknows, hlog, htrace⟩ := h.exists_trace t
  rw [hstep]
  refine ⟨⟨hknows.next, hknows.named, hknows.current, hknows.environment⟩, ?_⟩
  show s₀.log.follow s₀.environment x.messages = _
  rw [hlog, h.log, Logger.follow_eq, htrace.warnings, warned]

end Reflects

/-- **Run.** The state behind any calls is what their history tells. -/
theorem reflects_after (h : Reflects past s) (steps : List Step) :
    Reflects (steps.reverse ++ past) (s.after steps) := by
  induction steps generalizing s past with
  | nil => exact h
  | cons t steps ih =>
    rw [List.reverse_cons, List.append_assoc, after_cons]
    exact ih (h.step t)

/-- From the start on, the state is what the calls tell. -/
theorem reflects_reverse (steps : List Step) : Reflects steps.reverse (Session.after {} steps) := by
  have h := reflects_after reflects_initial steps
  rwa [List.append_nil] at h

end Session

end VersionRange
