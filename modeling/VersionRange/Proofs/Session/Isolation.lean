import VersionRange.Proofs.Session.History

namespace VersionRange

/-!
# Calls of a session do not interfere

A call is answered as if it were made alone.  What the calls before it leave behind for it is the
default parser, the names of parsers, the settings for messages and the warnings so far, and nothing
else.

* `Session.readBy`, `Session.mem_seenBy`: which parser reads which texts in a call, and sees them.
* `Step.unset`, `Session.run_unset`: the settings for messages decide about printing only.
* `Session.IsAnswer`, `Session.isAnswer_step`: what an answer owes to the calls before.
* `Session.run_isolated`: so is every answer of every session.
-/

open History

/-! ### Calls on their own -/

namespace Step

/-- The same call with another parser. A call that takes no parser stays as it is. -/
def withParser (name : String) : Step → Step
  | .setParser _ => .setParser (some name)
  | .ask _ query => .ask (some name) query
  | t => t

/-- The parser that is asked has no part in what a call ends with. -/
@[simp] theorem outcome_withParser (name : String) (t : Step) :
    (t.withParser name).outcome = t.outcome := by
  cases t <;> rfl

/-- A call with another parser refers to that parser, if it refers to any. -/
theorem reference?_withParser {name other : String} {t : Step}
    (h : (t.withParser name).reference? = some other) : other = name := by
  cases t with
  | setEnvironment env => cases h
  | newParser n kind => cases h
  | setParser reference => exact (Option.some.inj h).symm
  | ask parser query => exact (Option.some.inj h).symm

/-- The same call with no settings for messages in place of any that it makes. -/
def unset : Step → Step
  | .setEnvironment _ => .setEnvironment {}
  | t => t

end Step

/-- The answer without what was printed, which is all of it that settings may change. -/
def Answer.unprinted (a : Answer) : Answer := { a with printed := "" }

namespace Session

variable {s : Session} {past : List Step} {t : Step} {name : String}

/-! ### What parsers see -/

/-- The texts that a call has a parser read: those of the query for the one that answers it, and
    none for all others. -/
def readBy (past : List Step) (t : Step) (p : Parser) : List String :=
  match t with
  | .ask parser query => if serving? past parser = some p then query.readings else []
  | _ => []

/-- What a parser reads is what it receives among the calls of a normalizer. The parser that serves
    receives all of them. -/
theorem texts_received (past : List Step) (t : Step) (p : Parser) :
    ((History.calls past t).filter fun c => c.receiver == p).map Call.text = readBy past t p := by
  cases t with
  | ask parser query =>
    unfold History.calls readBy
    dsimp only
    cases serving? past parser with
    | none => rfl
    | some q =>
      dsimp only
      by_cases hq : q = p <;> simp [List.filter_map, Function.comp_def, hq]
  | _ => rfl

/-- No two parsers have a share in one call. -/
theorem eq_of_readBy {p q : Parser} (hp : readBy past t p ≠ []) (hq : readBy past t q ≠ []) :
    p = q := by
  cases t with
  | ask parser query =>
    simp only [readBy, ne_eq, ite_eq_right_iff, Classical.not_imp] at hp hq
    exact Option.some.inj (hp.1.symm.trans hq.1)
  | _ => exact absurd rfl hp

/-- Of the parsers with one name the latest counts. A lookup by name finds the same one. -/
theorem mem_latest {named : List (String × Parser)} {p : Parser} :
    (name, p) ∈ latest named ↔ named.lookup name = some p := by
  induction named with
  | nil => simp [latest]
  | cons q named ih =>
    obtain ⟨n, r⟩ := q
    rw [latest, List.mem_cons, List.mem_filter, ih, List.lookup_cons]
    by_cases hn : name = n
    · subst hn
      simp [eq_comm]
    · simp [hn, beq_false_of_ne hn]

/-- A recording parser sees the texts that it receives, and no others. -/
theorem mem_seenBy {calls : List Call} {texts : List String} :
    (name, texts) ∈ s.seenBy calls ↔
      ∃ p, s.named.lookup name = some p ∧ p.kind = .recording ∧
        texts = (calls.filter fun c => c.receiver == p).map Call.text := by
  simp only [seenBy, recorders, List.mem_map, List.mem_filter, beq_iff_eq, Prod.mk.injEq]
  constructor
  · rintro ⟨⟨n, p⟩, ⟨hmem, hkind⟩, rfl, rfl⟩
    exact ⟨p, mem_latest.1 hmem, hkind, rfl⟩
  · rintro ⟨p, hlookup, hkind, rfl⟩
    exact ⟨(name, p), ⟨mem_latest.2 hlookup, hkind⟩, rfl, rfl⟩

/-! ### Settings for messages -/

/-- The state without settings for messages, and with the same parsers and warnings. -/
def unset (s : Session) : Session := { s with environment := {} }

/-- Parsers are found by their names under any settings. -/
theorem findOr_unset (s : Session) (default : Parser) (reference : Option String) :
    s.unset.findOr default reference = s.findOr default reference := by
  cases reference <;> rfl

/-- Traces that differ in what is printed are answered the same but for that, and leave the same
    state but for the settings under which they are answered. -/
theorem answer_unset (s : Session) {x y : Trace Fault Value} (houtcome : x.outcome = y.outcome)
    (hcalls : x.calls = y.calls) (hmessages : x.messages = y.messages) :
    (answer s.unset x).1 = (answer s y).1.unset ∧
      (answer s.unset x).2.unprinted = (answer s y).2.unprinted := by
  have hlog : s.log.follow {} x.messages = s.log.follow s.environment y.messages := by
    rw [Logger.follow_eq, Logger.follow_eq, Trace.warningsOn, Trace.warningsOn, hmessages]
  constructor
  · exact congrArg (fun log => { s.unset with log }) hlog
  · simp only [answer, unset, Answer.unprinted, houtcome, hcalls, hlog]
    rfl

/-- A call that is made without settings leaves the same state but for them, and is answered the
    same but for what is printed. -/
theorem step_unset (s : Session) (t : Step) :
    (s.unset.step t.unset).1 = (s.step t).1.unset ∧
      (s.unset.step t.unset).2.unprinted = (s.step t).2.unprinted := by
  cases t with
  | setEnvironment env => exact answer_unset { s with environment := env } rfl rfl rfl
  | newParser n kind =>
    exact answer_unset { s with named := (n, ⟨s.next, kind⟩) :: s.named, next := s.next + 1 }
      rfl rfl rfl
  | setParser reference =>
    simp only [Step.unset, step, findOr_unset]
    cases s.findOr Parser.initial reference with
    | error e => exact answer_unset s rfl rfl rfl
    | ok p => exact answer_unset { s with current := p } rfl rfl rfl
  | ask parser query =>
    have hfind : s.unset.findOr s.unset.current parser = s.findOr s.current parser :=
      findOr_unset s _ parser
    simp only [Step.unset, step, hfind]
    cases s.findOr s.current parser with
    | error e => exact answer_unset s rfl rfl rfl
    | ok p =>
      -- The query is run twice, under no settings and under those of the session.
      refine answer_unset s ?_ ?_ ?_
      · rw [query.outcome_run, query.outcome_run]
      · rw [query.calls_run, query.calls_run]
      · rw [query.messages_run, query.messages_run]

/-- **Settings.** Calls that are made without settings are answered the same but for what is
    printed. -/
theorem run_unset (s : Session) (steps : List Step) :
    (s.unset.run (steps.map Step.unset)).map Answer.unprinted
      = (s.run steps).map Answer.unprinted := by
  induction steps generalizing s with
  | nil => rfl
  | cons t steps ih =>
    obtain ⟨hstate, hanswer⟩ := step_unset s t
    show (s.unset.step t.unset).2.unprinted
        :: ((s.unset.step t.unset).1.run (steps.map Step.unset)).map Answer.unprinted
      = (s.step t).2.unprinted :: ((s.step t).1.run steps).map Answer.unprinted
    rw [hstate, hanswer, ih]

/-! ### Answers -/

/-- An answer that depends on the calls so far, the latest first, in no other way than this. Each
    field says for one part of the answer what it depends on, and no part is left out. -/
structure IsAnswer (past : List Step) (t : Step) (a : Answer) : Prop where
  /-- The default parser is the one that was set last. -/
  current : a.current = (chosen (t :: past)).kind
  /-- The result is that of the same call with a new plain parser in a session of its own. -/
  alone : (∀ name, t.reference? = some name → (named? past name).isSome = true) →
    ∀ name, (Session.run {} [.newParser name .plain, t.withParser name])[1]?.map Answer.result
      = some a.result
  /-- A name that no parser has is reported. -/
  unknown : ∀ name, t.reference? = some name → named? past name = none →
    a.result = .error (.unknownParser name)
  /-- Every text that is read is received by the parser that is passed, or else by the default. -/
  calls : a.calls = History.calls past t
  /-- Each recording parser sees the texts that it is asked to read, by its name. -/
  seen : ∀ name texts, (name, texts) ∈ a.seen ↔
    ∃ p, named? (t :: past) name = some p ∧ p.kind = .recording ∧ texts = readBy past t p
  /-- At most one of them sees any. -/
  single : ∀ p ∈ a.seen, ∀ q ∈ a.seen, p.2 ≠ [] → q.2 ≠ [] → p.1 = q.1
  /-- Warnings are added behind those so far, under any settings. -/
  warnings : a.warnings = warned past ++ added past t
  /-- The messages are printed as the settings tell. -/
  printed : a.printed = String.join ((told past t).map (settings past).line)

/-- A call ends with what the history tells. -/
theorem result_step (h : Reflects past s) (t : Step) : (s.step t).2.result = result past t := by
  obtain ⟨s₀, x, hstep, -, -, htrace⟩ := h.exists_trace t
  rw [hstep]
  exact htrace.outcome

/-- **Step.** In a state that is what the history tells, each call is answered so. Every part of
    the answer comes from the trace of the call or from the state behind it. -/
theorem isAnswer_step (h : Reflects past s) (t : Step) : IsAnswer past t (s.step t).2 := by
  have hbehind : Reflects (t :: past) (s.step t).1 := h.step t
  have hresult := result_step h t
  obtain ⟨s₀, x, hstep, -, -, htrace⟩ := h.exists_trace t
  rw [hstep] at hbehind hresult ⊢
  have hseen : ∀ name texts, (name, texts) ∈ (answer s₀ x).2.seen ↔
      ∃ p, named? (t :: past) name = some p ∧ p.kind = .recording ∧ texts = readBy past t p := by
    intro name texts
    show (name, texts) ∈ (answer s₀ x).1.seenBy x.calls ↔ _
    rw [mem_seenBy, htrace.calls, hbehind.named]
    simp only [texts_received]
  constructor
  case current => exact congrArg Parser.kind hbehind.current
  case alone =>
    intro hknown name
    -- Alone there is one parser, which has the name that the call refers to.
    have hfresh : Reflects [.newParser name .plain] (Session.after {} [.newParser name .plain]) :=
      reflects_reverse [.newParser name .plain]
    have hnew : ∀ other, (t.withParser name).reference? = some other →
        (named? [.newParser name .plain] other).isSome = true := by
      intro other hother
      rw [Step.reference?_withParser hother, named?, if_pos rfl]
      rfl
    have hrun := getElem?_run {} [.newParser name .plain] (t.withParser name) []
    rw [List.singleton_append, List.length_singleton] at hrun
    rw [hrun, Option.map_some, result_step hfresh, hresult, result_of_known hnew,
      result_of_known hknown, Step.outcome_withParser]
  case unknown =>
    intro name href hunknown
    rw [hresult, result_of_unknown t href hunknown]
  case calls => exact htrace.calls
  case seen => exact hseen
  case single =>
    intro p hp q hq hsome hsome'
    obtain ⟨r, hr, -, htexts⟩ := (hseen p.1 p.2).1 hp
    obtain ⟨r', hr', -, htexts'⟩ := (hseen q.1 q.2).1 hq
    rw [htexts] at hsome
    rw [htexts'] at hsome'
    obtain rfl : r = r' := eq_of_readBy hsome hsome'
    exact name_eq_of_named? hr hr'
  case warnings => exact congrArg Logger.warnings hbehind.log
  case printed => exact htrace.printed

/-- **Isolation.** Every answer of every session owes to the calls before it the default parser,
    the names of parsers, the settings for messages and the warnings so far, and nothing else.  The
    default parser is the one that was set last, and settings for messages change nothing but what
    is printed. -/
theorem run_isolated (earlier : List Step) (t : Step) (later : List Step) :
    (∃ a, (Session.run {} (earlier ++ t :: later))[earlier.length]? = some a ∧
      IsAnswer earlier.reverse t a) ∧
    (Session.after {} (earlier ++ [t])).current = chosen (t :: earlier.reverse) ∧
    ∀ other : List Step, other.map Step.unset = (earlier ++ t :: later).map Step.unset →
      (Session.run {} other).map Answer.unprinted
        = (Session.run {} (earlier ++ t :: later)).map Answer.unprinted := by
  have hstate : Reflects earlier.reverse (Session.after {} earlier) := reflects_reverse earlier
  have hbehind : Reflects (t :: earlier.reverse) (Session.after {} (earlier ++ [t])) := by
    have h := reflects_reverse (earlier ++ [t])
    rwa [List.reverse_append] at h
  refine ⟨⟨_, getElem?_run {} earlier t later, isAnswer_step hstate t⟩, hbehind.current, ?_⟩
  intro other hother
  have hleft := run_unset {} other
  have hright := run_unset {} (earlier ++ t :: later)
  rw [← hleft, ← hright, hother]

/-- Two recording parsers, of which one is the default and the other one is passed, and settings
    that ask for all messages. -/
theorem run_isolated_explicit :
    ∃ a, (Session.run {} [.setEnvironment { level := some " Debug" },
        .newParser "default" .recording, .newParser "explicit" .recording,
        .setParser (some "default"),
        .ask (some "explicit") (.satisfiedBy ["1.8 as 2.0", "nope!"] "^1.5" true)])[4]? = some a ∧
      a.current = .recording ∧ a.result.toOption = some (.versions ["1.8 as 2.0"]) ∧
      a.calls = [⟨⟨2, .recording⟩, "1.5-dev"⟩, ⟨⟨2, .recording⟩, "1.8 as 2.0"⟩,
        ⟨⟨2, .recording⟩, "nope!"⟩] ∧
      ("default", []) ∈ a.seen ∧ ("explicit", ["1.5-dev", "1.8 as 2.0", "nope!"]) ∈ a.seen ∧
      a.warnings = ["Skipping invalid version 'nope!': Invalid version string \"nope!\""] ∧
      a.printed = "DEBUG: version_constraints.parser Ignoring alias in '1.8 as 2.0'\n"
        ++ "WARNING: version_constraints.api Skipping invalid version 'nope!': "
        ++ "Invalid version string \"nope!\"\n" := by
  obtain ⟨⟨a, ha, h⟩, -, -⟩ := run_isolated [.setEnvironment { level := some " Debug" },
    .newParser "default" .recording, .newParser "explicit" .recording, .setParser (some "default")]
    (.ask (some "explicit") (.satisfiedBy ["1.8 as 2.0", "nope!"] "^1.5" true)) []
  have halone := h.alone (fun _ hname => by cases hname; rfl) "alone"
  have hresult : ((Session.run {} [.newParser "alone" .plain,
      .ask (some "alone") (.satisfiedBy ["1.8 as 2.0", "nope!"] "^1.5" true)])[1]?.map
        Answer.result).bind Except.toOption = some (.versions ["1.8 as 2.0"]) := by decide +kernel
  have hreadings : (Query.satisfiedBy ["1.8 as 2.0", "nope!"] "^1.5" true).readings
      = ["1.5-dev", "1.8 as 2.0", "nope!"] := by decide +kernel
  refine ⟨a, ha, h.current, ?_, ?_, (h.seen _ _).2 ⟨⟨1, .recording⟩, rfl, rfl, rfl⟩,
    (h.seen _ _).2 ⟨⟨2, .recording⟩, rfl, rfl, hreadings.symm⟩, ?_, ?_⟩
  · have hbind := congrArg (Option.bind · Except.toOption) halone
    exact hbind.symm.trans hresult
  · exact h.calls.trans (congrArg (List.map (Call.mk ⟨2, .recording⟩)) hreadings)
  · exact h.warnings.trans (by decide +kernel)
  · exact h.printed.trans (by decide +kernel)

end Session

end VersionRange
