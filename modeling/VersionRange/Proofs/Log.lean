import VersionRange.Traced

namespace VersionRange

/-!
# What is printed

Two settings decide about the printed text of a message: one names the least important level that is
printed, the other asks for annotations.

* `Environment.printedLevels`, `Environment.lead`: the levels that are printed under some settings,
  and what stands in front of a printed message.
* `Environment.line`, `Message.printed_eq_line`: the line that a message is printed as.
* `Logger.follow_eq`: what a logger remembers of a run does not depend on the settings.
-/

namespace Environment

/-- The levels that are printed.  The setting names the least important of them, whatever the case
    of its letters and with white space around it or not.  A setting that names no level, or none at
    all, asks for warnings and errors. -/
def printedLevels (env : Environment) : List Level :=
  match env.level.map fun s => String.ofList ((Text.trim s.toList).map Char.toLower) with
  | some "debug" => [.debug, .info, .warning, .error]
  | some "info" => [.info, .warning, .error]
  | some "error" => [.error]
  | _ => [.warning, .error]

/-- What stands in front of a printed message: its level, or a command if annotations are asked
    for. -/
def lead (env : Environment) (level : Level) : String :=
  if env.github.isSome then
    match level with
    | .debug => "::debug::"
    | .info => "::notice::"
    | .warning => "::warning::"
    | .error => "::error::"
  else
    match level with
    | .debug => "DEBUG: "
    | .info => "INFO: "
    | .warning => "WARNING: "
    | .error => "ERROR: "

/-- The printed line of a message: its channel and its text behind the lead, or nothing if its level
    is not printed. -/
def line (env : Environment) (m : Message) : String :=
  if m.level ∈ env.printedLevels then
    env.lead m.level ++ m.channel ++ " " ++ m.text ++ "\n"
  else ""

/-- The level that a setting names, once its case and the white space around it are gone. The names
    are written out, and any other text names none. -/
theorem ofName?_eq (s : String) :
    Level.ofName? s = match String.ofList ((Text.trim s.toList).map Char.toLower) with
      | "debug" => some .debug
      | "info" => some .info
      | "warning" => some .warning
      | "error" => some .error
      | _ => none := by
  unfold Level.ofName?
  dsimp only
  generalize (Text.trim s.toList).map Char.toLower = key
  have hname : (fun l : Level => l.name.toList == key)
      = fun l : Level => l.name == String.ofList key := by
    funext l
    rw [Bool.eq_iff_iff, beq_iff_eq, beq_iff_eq, ← String.toList_inj, String.toList_ofList]
  rw [hname]
  split
  case h_5 hdebug hinfo hwarning herror =>
    rw [List.find?_eq_none]
    intro l _ hl
    -- The setting would be the name of this level.
    have hname : l.name = String.ofList key := by simpa using hl
    cases l with
    | debug => exact hdebug hname.symm
    | info => exact hinfo hname.symm
    | warning => exact hwarning hname.symm
    | error => exact herror hname.symm
  all_goals simp_all [Level.all, Level.name]

/-- The threshold lets through what the settings ask for. The numbers of the levels do not matter
    here any more. -/
theorem threshold_le_iff (env : Environment) (level : Level) :
    env.threshold ≤ level.severity ↔ level ∈ env.printedLevels := by
  unfold threshold printedLevels
  cases env.level with
  | none => cases level <;> decide
  | some s =>
    rw [Option.bind_some, Option.map_some, ofName?_eq]
    generalize String.ofList ((Text.trim s.toList).map Char.toLower) = name
    by_cases hwarning : name = "warning"
    · subst hwarning
      cases level <;> decide
    · split <;> cases level <;> simp_all [Level.severity]

/-- The program makes the lead out of a label or a command. -/
theorem lead_eq (env : Environment) (level : Level) :
    env.lead level
      = if env.annotates then "::" ++ level.command ++ "::" else level.label ++ ": " := by
  unfold lead annotates
  split <;> cases level <;> decide

end Environment

/-- **Printing.** A message is printed as its line, and not at all if its level is not asked for. -/
theorem Message.printed_eq_line (env : Environment) (m : Message) :
    m.printed env = env.line m := by
  unfold printed Environment.line
  by_cases hlevel : m.level ∈ env.printedLevels
  · have hreach := (env.threshold_le_iff m.level).2 hlevel
    rw [if_neg (Nat.not_lt.2 hreach), if_pos hlevel, Environment.lead_eq]
  · have hbelow := mt (env.threshold_le_iff m.level).1 hlevel
    rw [if_pos (Nat.not_le.1 hbelow), if_neg hlevel]

example : Message.printed { level := some " Info ", github := some "" }
    ⟨parserChannel, .info, "read"⟩ = "::notice::version_constraints.parser read\n" := by decide

/-! ### Loggers -/

/-- **Loggers.** After a run the logger of a channel remembers the warnings on it behind those from
    before.  The settings have no part in that. -/
theorem Logger.follow_eq {ε α : Type} (log : Logger) (env : Environment) (x : Trace ε α) :
    log.follow env x.messages
      = { log with warnings := log.warnings ++ x.warningsOn log.name } := by
  rw [Trace.warningsOn]
  generalize x.messages = ms
  induction ms generalizing log with
  | nil => simp [follow]
  | cons m ms ih =>
    rw [follow]
    by_cases hchannel : m.channel = log.name
    · rw [if_pos hchannel, ih, say_warnings]
      by_cases hlevel : m.level = .warning <;> simp [hchannel, hlevel]
    · rw [if_neg hchannel, ih]
      simp [hchannel]

end VersionRange
