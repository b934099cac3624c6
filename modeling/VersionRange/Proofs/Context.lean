import VersionRange.Proofs.Trace

namespace VersionRange

/-!
# Runs in different contexts

A computation may look at the parser that it runs for and at the settings for messages.  Those of
the library make one use of each: what is to be normalized is received by that parser, and a
message is printed as the settings tell.  So two runs of a computation differ in nothing else.

* `Trace.inContext ctx x`: the trace `x` with another parser and other settings; what it keeps and
  what it changes.
* `Traced.IsPortable`: each run of a computation is the run for a new plain parser without settings,
  in the other context.
* `Traced.IsPortable.bind`, `Traced.IsPortable.mapM`: computations are portable if their parts are.
* `isPortable_normalize`, `Expression.isPortable_parse`, `Query.isPortable_computation`: all
  computations of the library are, from the normalizer up to the queries.
* `normalizeBranch_eq_normalize`: a name of the main line is read by a call of the normalizer.
-/

/-! ### Traces in another context -/

section Trace

variable {ε α β : Type}

/-- What takes the place of a note in another context: the parser there receives the text, and the
    message is printed as the settings there tell. -/
def Note.inContext (ctx : Context) : Note → Note
  | .received call => .received ⟨ctx.parser, call.text⟩
  | .message m _ => .message m (m.printed ctx.environment)

namespace Trace

/-- The trace in another context: who receives a call changes, and so does what is printed with a
    message. Texts, calls and the outcome stay. -/
def inContext (ctx : Context) (x : Trace ε α) : Trace ε α :=
  ⟨x.notes.map (Note.inContext ctx), x.outcome⟩

/-- The outcome does not depend on the context. -/
@[simp] theorem outcome_inContext (ctx : Context) (x : Trace ε α) :
    (x.inContext ctx).outcome = x.outcome := rfl

/-- All texts are received by the parser of the context. -/
theorem calls_inContext (ctx : Context) (x : Trace ε α) :
    (x.inContext ctx).calls = (x.calls.map Call.text).map (Call.mk ctx.parser) := by
  obtain ⟨notes, outcome⟩ := x
  unfold inContext calls
  induction notes with
  | nil => rfl
  | cons n notes ih =>
    cases n with
    | received call => exact congrArg (Call.mk ctx.parser call.text :: ·) ih
    | message m line => exact ih

/-- The messages do not depend on the context. -/
theorem messages_inContext (ctx : Context) (x : Trace ε α) :
    (x.inContext ctx).messages = x.messages := by
  obtain ⟨notes, outcome⟩ := x
  unfold inContext messages
  induction notes with
  | nil => rfl
  | cons n notes ih =>
    cases n with
    | received call => exact ih
    | message m line => exact congrArg (m :: ·) ih

/-- What is printed are the messages, as the settings tell. Calls of a normalizer leave nothing
    that is printed. -/
theorem printed_inContext (ctx : Context) (x : Trace ε α) :
    (x.inContext ctx).printed = String.join (x.messages.map (·.printed ctx.environment)) := by
  obtain ⟨notes, outcome⟩ := x
  refine congrArg String.join ?_
  unfold inContext messages
  induction notes with
  | nil => rfl
  | cons n notes ih =>
    cases n with
    | received call => exact ih
    | message m line => exact congrArg (m.printed ctx.environment :: ·) ih

/-- Nor do the warnings among them. -/
theorem warningsOn_inContext (ctx : Context) (channel : String) (x : Trace ε α) :
    (x.inContext ctx).warningsOn channel = x.warningsOn channel := by
  rw [warningsOn, messages_inContext, warningsOn]

/-- Two computations in a row are so in every context. -/
theorem inContext_bind (ctx : Context) (x : Trace ε α) (f : α → Trace ε β) :
    (x >>= f).inContext ctx = x.inContext ctx >>= fun a => (f a).inContext ctx := by
  obtain ⟨notes, outcome⟩ := x
  cases outcome with
  | ok a => exact congrArg (Trace.mk · (f a).outcome) (List.map_append ..)
  | error e => rfl

end Trace

end Trace

/-! ### Portable computations -/

namespace Traced

variable {ε ε' α β : Type}

/-- Each run is that for a new plain parser without settings, in the other context. So no parser
    and no setting is asked about what is to be found. -/
def IsPortable (x : Traced ε α) : Prop := ∀ ctx, x.run ctx = (x.run {}).inContext ctx

namespace IsPortable

variable {x : Traced ε α} {f : α → Traced ε β}

/-- The steps that do not look at the context are portable. -/
theorem lift (y : Except ε α) : (Traced.lift y).IsPortable := fun _ => rfl

/-- A value alone leaves no trace. -/
theorem pure (a : α) : (pure a : Traced ε α).IsPortable := fun _ => rfl

/-- Nor does an error. -/
theorem fail (e : ε) : (Traced.fail e : Traced ε α).IsPortable := fun _ => rfl

/-- The two steps that look at the context take from it what a trace in another context does. -/
theorem receive (text : String) : (Traced.receive text : Traced ε Unit).IsPortable := fun _ => rfl

/-- A message is printed as the settings of the context tell. -/
theorem say (channel : String) (level : Level) (text : String) :
    (Traced.say channel level text : Traced ε Unit).IsPortable := fun _ => rfl

/-- Portable steps in a row are portable. -/
theorem bind (hx : x.IsPortable) (hf : ∀ a, (f a).IsPortable) : (x >>= f).IsPortable := by
  intro ctx
  show (x.run ctx >>= fun a => (f a).run ctx) = (x.run {} >>= fun a => (f a).run {}).inContext ctx
  have hcontinued : (fun a => (f a).run ctx) = fun a => ((f a).run {}).inContext ctx :=
    funext fun a => hf a ctx
  rw [hx ctx, hcontinued, ← Trace.inContext_bind]

/-- Changing the value at the end changes no note. -/
theorem map (g : α → β) (hx : x.IsPortable) : (g <$> x).IsPortable := by
  rw [map_eq_pure_bind]
  exact hx.bind fun a => .pure (g a)

/-- Rewording an error changes no note. -/
theorem mapError (g : ε → ε') (hx : x.IsPortable) : (x.mapError g).IsPortable := by
  intro ctx
  show Trace.mk (x.run ctx).notes ((x.run ctx).outcome.mapError g) = _
  rw [hx ctx]
  rfl

/-- An outcome that is gone on with is the same in every context. -/
theorem attempt (hx : x.IsPortable) : (x.attempt : Traced ε' (Except ε α)).IsPortable := by
  intro ctx
  show Trace.mk (x.run ctx).notes (.ok (x.run ctx).outcome) = _
  rw [hx ctx]
  rfl

/-- A traversal is portable if it is so for each element. -/
theorem mapM (hf : ∀ a, (f a).IsPortable) (l : List α) : (l.mapM f).IsPortable := by
  induction l with
  | nil => exact .pure []
  | cons a l ih =>
    rw [List.mapM_cons]
    exact (hf a).bind fun b => ih.bind fun bs => .pure (b :: bs)

/-- What a portable computation ends with is the same for all parsers and settings. -/
theorem outcome_run (hx : x.IsPortable) (ctx : Context) : (x.run ctx).outcome = x.outcome := by
  rw [hx ctx, Trace.outcome_inContext, Traced.outcome]

end IsPortable

end Traced

open Traced

/-! ### The computations of the library -/

/-- A branch asks for a name of the main line to be normalized, and for nothing else. -/
theorem isPortable_normalizeBranch {ε : Type} (branch : String) :
    (normalizeBranch branch : Traced ε Canonical).IsPortable := by
  unfold normalizeBranch
  dsimp only
  split
  case isTrue => exact (IsPortable.receive _).bind fun _ => .pure _
  case isFalse =>
    split
    case h_1 => exact .pure _
    case h_2 => split <;> exact .pure _

/-- Only the stem of a `dev` version is handed on, to the reader of branches. All other forms are
    read at once. -/
theorem isPortable_normalizePlain (s full : List Char) : (normalizePlain s full).IsPortable := by
  unfold normalizePlain
  split
  case isTrue => exact .pure _
  case isFalse =>
    split
    case h_1 => exact .pure _
    case h_2 =>
      dsimp only
      split
      case h_1 => exact .pure _
      case h_2 =>
        split
        case h_1 => exact isPortable_normalizeBranch _
        case h_2 => exact .fail _

/-- **Normalizing.** The parser receives the text; what the text means does not depend on the
    parser. -/
theorem isPortable_normalize (version : String) (full : Option String) :
    (normalize version full).IsPortable := by
  unfold normalize
  refine (IsPortable.receive version).bind fun _ => ?_
  dsimp only
  split
  case h_1 => exact (IsPortable.say _ _ _).bind fun _ => isPortable_normalizePlain _ _
  case h_2 => exact isPortable_normalizePlain _ _

/-- The canonical text of a version is the same for all parsers. -/
theorem isPortable_normalized (version : String) : (normalized version).IsPortable := by
  unfold normalized
  exact ((isPortable_normalize version none).mapError _).bind fun _ => .pure _

namespace Term

/-- A lower end is read by one call of the normalizer. -/
theorem isPortable_lowerEnd (v : Spelled) : (lowerEnd v).IsPortable := by
  unfold lowerEnd
  exact ((isPortable_normalize _ none).mapError _).bind fun _ => .pure _

/-- An upper end is read by a call of the normalizer, or made from numbers alone. -/
theorem isPortable_upperEnd (v : Spelled) : (upperEnd v).IsPortable := by
  unfold upperEnd
  dsimp only
  split
  case isTrue => exact ((isPortable_normalize _ none).mapError _).bind fun _ => .pure _
  case isFalse => exact (IsPortable.lift _).bind fun _ => .pure _

/-- A range computes its upper bound and reads its lower end. -/
theorem isPortable_rangeTo (v : Spelled) (position : Nat) : (rangeTo v position).IsPortable := by
  unfold rangeTo
  exact (IsPortable.lift _).bind fun _ => (isPortable_lowerEnd v).bind fun _ => .pure _

/-- A comparison goes on with the outcome of its version, be it an error or not. -/
theorem isPortable_comparator (term : List Char) (sign : Sign) (version : List Char)
    (flag : Option (List Char)) : (comparator term sign version flag).IsPortable := by
  unfold comparator
  refine (isPortable_normalize _ none).attempt.bind fun result => ?_
  cases result with
  | ok c => exact .pure _
  | error e => exact .fail _

/-- Each form of a term is read by portable steps. Ends of ranges and compared versions are
    normalized, and bounds are computed. -/
theorem isPortable_meaning (s : List Char) (flag : Option (List Char)) (t : Term) :
    (meaning s flag t).IsPortable := by
  cases t with
  | anything => exact .pure _
  | tilde v => exact (isPortable_rangeTo v _).map _
  | caret v => exact (isPortable_rangeTo v _).map _
  | wildcard groups => exact (IsPortable.lift _).map _
  | hyphen low high =>
    exact (isPortable_lowerEnd low).bind fun _ => (isPortable_upperEnd high).bind fun _ => .pure _
  | comparison sign version =>
    exact (isPortable_comparator s sign version flag).bind fun _ => .pure _

/-- A flag is taken off without looking at the context. -/
theorem isPortable_constraints (s : List Char) : (constraints s).IsPortable := by
  unfold constraints
  split
  case isTrue => exact .fail _
  case isFalse => split <;> exact isPortable_meaning _ _ _

end Term

namespace Expression

/-- The terms of an alternative are read one after the other. -/
theorem isPortable_parseAlternative (s : List Char) : (parseAlternative s).IsPortable := by
  unfold parseAlternative
  exact (IsPortable.mapM Term.isPortable_constraints _).bind fun _ => .pure _

/-- Merging two ranges gives a message and looks at nothing else. -/
theorem isPortable_alternativesOf (groups : List Constraint) :
    (alternativesOf groups).IsPortable := by
  unfold alternativesOf
  split
  case h_1 => exact .pure _
  case h_2 =>
    split
    case h_1 => exact (IsPortable.say _ _ _).bind fun _ => .pure _
    case h_2 => exact .pure _

/-- **Reading.** An expression has the same constraint for all parsers and settings. Which of them
    it meets shows in the notes only. -/
theorem isPortable_parse (e : String) : (parse e).IsPortable := by
  have hrest : ∀ s : List Char, (do
      let groups ← (splitAlternatives s).mapM parseAlternative
      return (← alternativesOf groups).withWritten (some e) :
        Traced Fault Constraint).IsPortable := fun s =>
    (IsPortable.mapM isPortable_parseAlternative _).bind fun groups =>
      (isPortable_alternativesOf groups).bind fun _ => .pure _
  unfold parse
  dsimp only
  split
  case h_1 => exact (IsPortable.pure _).bind hrest
  case h_2 version _ =>
    exact (IsPortable.say _ _ _).bind fun _ => (IsPortable.pure version).bind hrest

end Expression

/-- Filtering reads version by version, by induction on the list; a version that is skipped leaves a
    warning. -/
theorem isPortable_acceptedBy (skip : Bool) (c : Constraint) (versions : List String) :
    (acceptedBy skip c versions).IsPortable := by
  induction versions with
  | nil => exact .pure []
  | cons v rest ih =>
    rw [acceptedBy]
    -- What is done next depends on what came out, but not on the parser that it came from.
    refine (isPortable_normalize v none).attempt.bind fun result => ?_
    cases result with
    | error e =>
      cases skip with
      | false => exact .fail _
      | true => exact (IsPortable.say _ _ _).bind fun _ => ih
    | ok n =>
      refine (IsPortable.lift _).bind fun accepted => ?_
      cases accepted with
      | false => exact ih
      | true => exact ih.bind fun vs => .pure (v :: vs)

/-- Sorting reads all versions first; the comparisons leave no trace. -/
theorem isPortable_sortVersions (descending : Bool) (versions : List String) :
    (sortVersions descending versions).IsPortable := by
  unfold sortVersions
  refine (IsPortable.mapM (fun v => (isPortable_normalized v).bind fun _ => .pure _) _).bind ?_
  exact fun _ => (IsPortable.lift _).bind fun _ => .pure _

/-- **Queries.** A query differs from one run to another in the parser that receives the texts and
    in what is printed of its messages, and in nothing else. -/
theorem Query.isPortable_computation (q : Query) : q.computation.IsPortable := by
  cases q with
  | satisfies version e =>
    refine IsPortable.map _ ?_
    exact (isPortable_normalized version).bind fun _ =>
      (Expression.isPortable_parse e).bind fun _ => .lift _
  | satisfiedBy versions e skip =>
    refine IsPortable.map _ ?_
    exact (Expression.isPortable_parse e).bind fun c => isPortable_acceptedBy skip c versions
  | sort versions descending => exact (isPortable_sortVersions descending versions).map _

/-! ### Calls within calls -/

/-- A name of the main line of development is read by a call of the normalizer, which goes to the
    parser at work.  Its last text needs no further call, so the call can be written out. -/
theorem normalizeBranch_eq_normalize {branch : String}
    (h : Text.trim branch.toList ∈ masterBranches) :
    normalizeBranch branch = normalize (String.ofList (Text.trim branch.toList)) none := by
  have hnames : ∀ name ∈ masterBranches,
      Text.trim name = name ∧ aliasSource? name = none ∧ isMaster name = true := by decide
  obtain ⟨htrim, halias, hmaster⟩ := hnames _ h
  have hcontains : masterBranches.contains (Text.trim branch.toList) = true :=
    List.contains_iff_mem.2 h
  simp only [normalizeBranch, normalize, hcontains, if_true, String.toList_ofList, htrim, halias,
    normalizePlain, hmaster]

end VersionRange
