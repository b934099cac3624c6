import VersionRange.Text.Blank

namespace VersionRange

/-!
# Messages

What the library tells its user besides the results, and how it is printed.

* `Level`, `Message`: what is said, how important it is and on which channel.
* `Environment`: the two settings that decide about printing.
* `Message.printed`: the printed text of a message, empty below the threshold.
* `Logger`: one channel with the warnings it was given so far; `Logger.say` and `Logger.follow` give
  it one message or those of a whole run.
-/

/-- The importance of a message. Messages below a threshold are not printed. -/
inductive Level where
  | debug
  | info
  | warning
  | error
  deriving DecidableEq, Repr, Inhabited

namespace Level

/-- All levels, the least important first. -/
def all : List Level := [debug, info, warning, error]

/-- The level as a number; a higher one is more important. Only the order of these numbers
    matters. -/
def severity : Level → Nat
  | debug => 10
  | info => 20
  | warning => 30
  | error => 40

/-- The name of a level in the settings. -/
def name : Level → String
  | debug => "debug"
  | info => "info"
  | warning => "warning"
  | error => "error"

/-- The label of a message in plain output. -/
def label : Level → String
  | debug => "DEBUG"
  | info => "INFO"
  | warning => "WARNING"
  | error => "ERROR"

/-- The command of a message in annotated output. -/
def command : Level → String
  | debug => "debug"
  | info => "notice"
  | warning => "warning"
  | error => "error"

/-- The level with a name, white space around it and case aside. An unknown name is none, and the
    default stands in for it. -/
def ofName? (s : String) : Option Level :=
  let key := (Text.trim s.toList).map Char.toLower
  all.find? fun l => l.name.toList == key

end Level

/-- The settings for messages; a setting may be absent. They are looked up anew for each message,
    so a change counts from the next message on. -/
structure Environment where
  /-- The name of the least important level that is printed. -/
  level : Option String := none
  /-- Present, whatever its value, if messages are to be printed as annotations. -/
  github : Option String := none
  deriving DecidableEq, Repr, Inhabited

namespace Environment

/-- The severity from which on messages are printed: that of warnings unless the setting names
    another level. -/
def threshold (env : Environment) : Nat := ((env.level.bind Level.ofName?).getD .warning).severity

/-- Whether messages are printed as annotations. -/
def annotates (env : Environment) : Bool := env.github.isSome

end Environment

/-- A message on a channel. The channel tells which part of the library speaks. -/
structure Message where
  channel : String
  level : Level
  text : String
  deriving DecidableEq, Repr

/-- The printed line of a message; nothing if the message is below the threshold. An annotation has
    another lead in front of the same text. -/
def Message.printed (env : Environment) (m : Message) : String :=
  if m.level.severity < env.threshold then ""
  else
    let lead := if env.annotates then "::" ++ m.level.command ++ "::" else m.level.label ++ ": "
    lead ++ m.channel ++ " " ++ m.text ++ "\n"

/-- A channel together with the warnings it was given, the oldest one first. -/
structure Logger where
  name : String
  warnings : List String := []
  deriving DecidableEq, Repr

/-- Gives a message to a channel: warnings are remembered whether they are printed or not. The
    second value is what is printed. -/
def Logger.say (log : Logger) (env : Environment) (level : Level) (text : String) :
    Logger × String :=
  let warnings := if level = .warning then log.warnings ++ [text] else log.warnings
  ({ log with warnings }, (Message.mk log.name level text).printed env)

/-- Gives a logger the messages of a run.  It takes those on its own channel, one after the
    other. -/
def Logger.follow (env : Environment) : Logger → List Message → Logger
  | log, [] => log
  | log, m :: ms =>
    if m.channel = log.name then follow env (log.say env m.level m.text).1 ms
    else follow env log ms

/-- The channel of the messages about expressions and versions. They are for debugging, and none of
    them is a warning. -/
def parserChannel : String := "version_constraints.parser"

/-- The channel of the messages about filtering and the default parser. Its logger is the one that
    sessions keep. -/
def facadeChannel : String := "version_constraints.api"

/-- A message is remembered if it is a warning, whatever is printed. -/
theorem Logger.say_warnings (log : Logger) (env : Environment) (level : Level) (text : String) :
    (log.say env level text).1 = { log with
      warnings := log.warnings ++ (if level = .warning then [text] else []) } := by
  by_cases h : level = .warning <;> simp [say, h]

end VersionRange
