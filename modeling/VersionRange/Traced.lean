import VersionRange.Log

namespace VersionRange

/-!
# Runs and what they leave behind

Versions are read by a parser.  Others may stand in for it, such as one that records what it is
asked to read, and whatever a parser has to read on the way it asks itself for again.  Messages are
printed while they are given, as the settings of that moment have it.  So a computation runs in a
context, and besides its outcome it leaves a trace.

* `Parser`: plain, or recording the texts that it is asked to normalize.
* `Context`: the parser that a computation runs for, and the settings for messages.
* `Note`, `Trace`: what happened in a run, in order, and the value or error at its end.
* `Traced ε α`: a computation, which runs in any context.  The notes of a failed run are kept.
* `Traced.receive`, `Traced.say`: the two steps that look at the context.
* `Traced.outcome`, `Traced.notes`: the run for a new plain parser without settings.
-/

/-! ### Parsers -/

/-- What a parser does besides reading. A recording parser notes each text that it is asked to
    normalize, and then reads it as a plain one does. -/
inductive Parser.Kind where
  | plain
  | recording
  deriving DecidableEq, Repr, Inhabited

/-- The name of a kind of parser in messages. -/
def Parser.Kind.name : Parser.Kind → String
  | plain => "VersionParser"
  | recording => "RecordingParser"

/-- A parser.  The serial number tells parsers of one kind apart. -/
structure Parser where
  serial : Nat
  kind : Parser.Kind
  deriving DecidableEq, Repr, Inhabited

/-- The parser that is there from the start. It is plain, and the default until another one
    is set. -/
def Parser.initial : Parser := ⟨0, .plain⟩

/-- What a computation can look at besides what it is given. Both are passed on to all computations
    that it is made of. -/
structure Context where
  /-- The parser whose computation it is. -/
  parser : Parser := .initial
  /-- The settings for messages. -/
  environment : Environment := {}
  deriving DecidableEq, Repr

/-! ### Traces -/

/-- A parser is asked to normalize a text, from outside or by itself on the way. -/
structure Call where
  receiver : Parser
  text : String
  deriving DecidableEq, Repr

/-- Something that happens during a computation besides its result. Notes are in the order in which
    things happen. -/
inductive Note where
  /-- A text was to be normalized. -/
  | received (call : Call)
  /-- A message was given, and printed as the second text. -/
  | message (m : Message) (printed : String)
  deriving DecidableEq, Repr

/-- An outcome with what happened on the way to it. An error does not undo what happened before. -/
structure Trace (ε α : Type) where
  notes : List Note
  outcome : Except ε α

namespace Trace

variable {ε α β : Type}

instance : Monad (Trace ε) where
  pure a := ⟨[], .ok a⟩
  bind x f :=
    match x.outcome with
    | .ok a => ⟨x.notes ++ (f a).notes, (f a).outcome⟩
    | .error e => ⟨x.notes, .error e⟩

/-- The outcome of two computations in a row is the outcomes in a row. -/
theorem outcome_bind (x : Trace ε α) (f : α → Trace ε β) :
    (x >>= f).outcome = x.outcome.bind fun a => (f a).outcome := by
  simp only [bind, Except.bind]
  split <;> simp_all

/-- A second computation adds its notes, unless the first one ends in an error. -/
theorem notes_bind (x : Trace ε α) (f : α → Trace ε β) :
    (x >>= f).notes = x.notes ++ (match x.outcome with
      | .ok a => (f a).notes
      | .error _ => []) := by
  simp only [bind]
  split <;> simp_all

instance : LawfulMonad (Trace ε) := LawfulMonad.mk' _
  (fun x => by
    obtain ⟨notes, outcome⟩ := x
    cases outcome <;> simp [Functor.map])
  (fun _ _ => by simp [bind, pure])
  (fun x f g => by
    obtain ⟨notes, outcome⟩ := x
    cases outcome with
    | error e => rfl
    | ok a =>
      simp only [bind]
      split <;> simp)

/-- All calls of a normalizer, with the parser that received them. -/
def calls (x : Trace ε α) : List Call :=
  x.notes.filterMap fun | .received call => some call | .message _ _ => none

/-- The messages that were given, printed or not. -/
def messages (x : Trace ε α) : List Message :=
  x.notes.filterMap fun | .received _ => none | .message m _ => some m

/-- What was printed, line after line; of a message below the threshold nothing is. -/
def printed (x : Trace ε α) : String :=
  String.join (x.notes.filterMap fun | .received _ => none | .message _ line => some line)

/-- The texts of the warnings on one channel. -/
def warningsOn (channel : String) (x : Trace ε α) : List String :=
  (x.messages.filter fun m => m.channel == channel && m.level == .warning).map Message.text

end Trace

/-! ### Computations -/

/-- A computation: its run in each context. Nothing forbids that it looks at the context in other
    ways than the steps below. -/
structure Traced (ε α : Type) where
  run : Context → Trace ε α

namespace Traced

variable {ε ε' α β : Type}

instance : Monad (Traced ε) where
  pure a := ⟨fun _ => pure a⟩
  bind x f := ⟨fun ctx => x.run ctx >>= fun a => (f a).run ctx⟩

/-- A plain outcome, without notes. -/
def lift (x : Except ε α) : Traced ε α := ⟨fun _ => ⟨[], x⟩⟩

/-- Ends in an error. -/
def fail (e : ε) : Traced ε α := lift (.error e)

/-- The parser that the computation runs for is asked to normalize a text. This is the only step
    that tells the parser. -/
def receive (text : String) : Traced ε Unit :=
  ⟨fun ctx => ⟨[.received ⟨ctx.parser, text⟩], .ok ()⟩⟩

/-- Gives a message, which is printed as the settings tell. This is the only step that looks at the
    settings. -/
def say (channel : String) (level : Level) (text : String) : Traced ε Unit :=
  let m : Message := ⟨channel, level, text⟩
  ⟨fun ctx => ⟨[.message m (m.printed ctx.environment)], .ok ()⟩⟩

/-- Rewords the error. What happened until then stays. -/
def mapError (f : ε → ε') (x : Traced ε α) : Traced ε' α :=
  ⟨fun ctx => ⟨(x.run ctx).notes, (x.run ctx).outcome.mapError f⟩⟩

/-- Runs a computation that may fail and goes on with its outcome, value or error. -/
def attempt (x : Traced ε α) : Traced ε' (Except ε α) :=
  ⟨fun ctx => ⟨(x.run ctx).notes, .ok (x.run ctx).outcome⟩⟩

instance : LawfulMonad (Traced ε) := LawfulMonad.mk' _
  (fun x => congrArg Traced.mk (funext fun ctx => id_map (x.run ctx)))
  (fun a f => congrArg Traced.mk (funext fun ctx => pure_bind a fun a => (f a).run ctx))
  (fun x f g => congrArg Traced.mk (funext fun ctx =>
    bind_assoc (x.run ctx) (fun a => (f a).run ctx) fun b => (g b).run ctx))

/-- What a computation ends with for a new plain parser without settings. -/
def outcome (x : Traced ε α) : Except ε α := (x.run {}).outcome

/-- What happens in the run for a new plain parser without settings. -/
def notes (x : Traced ε α) : List Note := (x.run {}).notes

/-- What is printed under given settings. -/
def printed (env : Environment) (x : Traced ε α) : String :=
  (x.run { environment := env }).printed

/-! ### Outcomes and notes of the steps -/

/-- A value alone is its own outcome, for whichever parser it is computed. -/
@[simp] theorem outcome_pure (a : α) : (pure a : Traced ε α).outcome = .ok a := rfl

/-- It leaves no note. -/
@[simp] theorem notes_pure (a : α) : (pure a : Traced ε α).notes = [] := rfl

/-- Leaving the notes aside, one computation behind another is an ordinary sequence. -/
@[simp] theorem outcome_bind (x : Traced ε α) (f : α → Traced ε β) :
    (x >>= f).outcome = x.outcome.bind fun a => (f a).outcome :=
  Trace.outcome_bind _ _

/-- A second computation adds its notes, unless the first one ends in an error. -/
theorem notes_bind (x : Traced ε α) (f : α → Traced ε β) :
    (x >>= f).notes = x.notes ++ (match x.outcome with
      | .ok a => (f a).notes
      | .error _ => []) :=
  Trace.notes_bind _ _

/-- Changing the value changes the outcome with it. -/
@[simp] theorem outcome_map (f : α → β) (x : Traced ε α) :
    (f <$> x).outcome = x.outcome.map f := by
  rw [map_eq_pure_bind, outcome_bind]
  cases x.outcome <;> rfl

/-- A plain outcome is the outcome, and no parser has a part in it. -/
@[simp] theorem outcome_lift (x : Except ε α) : (lift x).outcome = x := rfl

/-- It leaves no note. -/
@[simp] theorem notes_lift (x : Except ε α) : (lift x).notes = [] := rfl

/-- An error that is raised is the outcome. -/
@[simp] theorem outcome_fail (e : ε) : (fail e : Traced ε α).outcome = .error e := rfl

/-- It leaves no note either. -/
@[simp] theorem notes_fail (e : ε) : (fail e : Traced ε α).notes = [] := rfl

/-- The parser does not refuse a text that it is to normalize. -/
@[simp] theorem outcome_receive (text : String) :
    (receive text : Traced ε Unit).outcome = .ok () := rfl

/-- The note tells who is asked, and for what. -/
@[simp] theorem notes_receive (text : String) :
    (receive text : Traced ε Unit).notes = [.received ⟨.initial, text⟩] := rfl

/-- A message is given without fail. -/
@[simp] theorem outcome_say (channel : String) (level : Level) (text : String) :
    (say channel level text : Traced ε Unit).outcome = .ok () := rfl

/-- The note tells the message, and how it is printed. -/
@[simp] theorem notes_say (channel : String) (level : Level) (text : String) :
    (say channel level text : Traced ε Unit).notes
      = [.message ⟨channel, level, text⟩ (Message.printed {} ⟨channel, level, text⟩)] := rfl

/-- An error is reworded where there is one. -/
@[simp] theorem outcome_mapError (f : ε → ε') (x : Traced ε α) :
    (x.mapError f).outcome = x.outcome.mapError f := rfl

/-- The notes stay as they were. -/
@[simp] theorem notes_mapError (f : ε → ε') (x : Traced ε α) : (x.mapError f).notes = x.notes := rfl

/-- What can fail is gone on with as an outcome. -/
@[simp] theorem outcome_attempt (x : Traced ε α) :
    (x.attempt : Traced ε' (Except ε α)).outcome = .ok x.outcome := rfl

/-- What happened on the way to it has happened. -/
@[simp] theorem notes_attempt (x : Traced ε α) :
    (x.attempt : Traced ε' (Except ε α)).notes = x.notes := rfl

end Traced

end VersionRange
