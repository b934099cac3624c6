import VersionRange.Query

namespace VersionRange

/-!
# Sessions

Queries that share a default parser, the settings for messages and the warnings given so far.

* `Session`, `Step`, `Answer`: the shared state, one call and what it answers.
* `Query.run`: a query that is put to a parser, under settings for messages.
* `Session.run`: one call after the other.
-/

/-- The state that the calls of a session share. Which texts a parser was asked to normalize is
    told in the answer of each call and not kept here. -/
structure Session where
  environment : Environment := {}
  current : Parser := Parser.initial
  /-- The parsers that were created, the latest first, by name. -/
  named : List (String × Parser) := []
  /-- The serial number of the next parser. -/
  next : Nat := 1
  /-- The logger of the library itself, which remembers all warnings. -/
  log : Logger := { name := facadeChannel }

/-- A question to the library. Sorting in both directions is one question with a flag. -/
inductive Query where
  | satisfies (version expression : String)
  | satisfiedBy (versions : List String) (expression : String) (skipInvalid : Bool)
  | sort (versions : List String) (descending : Bool)

/-- A call of a session. Any of them may come at any time, in any number. -/
inductive Step where
  | setEnvironment (env : Environment)
  | newParser (name : String) (kind : Parser.Kind)
  /-- Makes a parser the default; without a name the initial one. -/
  | setParser (name : Option String)
  /-- Asks a question, with the named parser or else the default. -/
  | ask (parser : Option String) (query : Query)

/-- The value of a call. -/
inductive Value where
  | done
  | truth (b : Bool)
  | versions (vs : List String)
  deriving DecidableEq, Repr

/-- What a call answers: the result, and all that can be seen from outside behind the call. -/
structure Answer where
  result : Except Fault Value
  printed : String
  /-- The kind of the default parser after the call. -/
  current : Parser.Kind
  /-- All calls of a normalizer in the call. -/
  calls : List Call
  /-- What each recording parser was asked to normalize, by name. -/
  seen : List (String × List String)
  /-- All warnings so far that the library itself gave. -/
  warnings : List String

/-- What a question asks for. It is the same computation for all parsers and settings, which it
    meets only when it is run. -/
def Query.computation : Query → Traced Fault Value
  | satisfies version expression => .truth <$> VersionRange.satisfies version expression
  | satisfiedBy versions expression skipInvalid =>
    .versions <$> VersionRange.satisfiedBy versions expression skipInvalid
  | sort versions descending => .versions <$> sortVersions descending versions

/-- A question that is put to a parser, under settings for messages. The parser goes along into all
    calls of the normalizer. -/
def Query.run (query : Query) (parser : Parser) (env : Environment) : Trace Fault Value :=
  query.computation.run ⟨parser, env⟩

/-- Makes it known that a parser becomes the default. Only the name of its kind is told. -/
def announce (parser : Parser) : Traced Fault Value := do
  Traced.say facadeChannel .debug ("Replacing default version parser with " ++ parser.kind.name)
  return .done

namespace Session

/-- The parser with a name. Of several with one name the latest counts. -/
def find (s : Session) (name : String) : Except Fault Parser :=
  match s.named.lookup name with
  | some p => .ok p
  | none => .error (.unknownParser name)

/-- The parser with a name, or else a given one: where a name is optional, there is a parser to
    fall back on. -/
def findOr (s : Session) (default : Parser) : Option String → Except Fault Parser
  | none => .ok default
  | some name => s.find name

/-- The first pair of each name. -/
def latest : List (String × Parser) → List (String × Parser)
  | [] => []
  | p :: ps => p :: (latest ps).filter fun q => q.1 != p.1

/-- The recording parsers by name; of a name that was given twice the latest. -/
def recorders (s : Session) : List (String × Parser) :=
  (latest s.named).filter fun p => p.2.kind == .recording

/-- What each recording parser was asked to normalize among some calls of a normalizer. It sees
    those calls that it is the receiver of. -/
def seenBy (s : Session) (calls : List Call) : List (String × List String) :=
  s.recorders.map fun p => (p.1, (calls.filter fun c => c.receiver == p.2).map Call.text)

/-- Answers with the trace of a call.  Its messages are given to the logger under the settings of
    the session. -/
def answer (s : Session) (x : Trace Fault Value) : Session × Answer :=
  let s := { s with log := s.log.follow s.environment x.messages }
  (s, { result := x.outcome, printed := x.printed, current := s.current.kind, calls := x.calls,
        seen := s.seenBy x.calls, warnings := s.log.warnings })

/-- One call. A call that refers to an unknown name leaves the state as it is. -/
def step (s : Session) : Step → Session × Answer
  | .setEnvironment env => answer { s with environment := env } (return .done)
  | .newParser name kind =>
    answer { s with named := (name, ⟨s.next, kind⟩) :: s.named, next := s.next + 1 } (return .done)
  | .setParser name =>
    match s.findOr Parser.initial name with
    | .error e => answer s ⟨[], .error e⟩
    | .ok p => answer { s with current := p } ((announce p).run ⟨s.current, s.environment⟩)
  | .ask parser query =>
    match s.findOr s.current parser with
    | .error e => answer s ⟨[], .error e⟩
    | .ok p => answer s (query.run p s.environment)

/-- A sequence of calls and their answers, one for each call, whatever the others ended with. -/
def run (s : Session) : List Step → List Answer
  | [] => []
  | t :: ts =>
    let (s, a) := s.step t
    a :: s.run ts

end Session

end VersionRange
