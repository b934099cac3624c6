import VersionRange.Proofs.Outcome
import VersionRange.Session

namespace VersionRange

/-!
# What is told on the way to an outcome

* `reached f l`: the elements of a traversal that are looked at, up to the first one that fails.
* `Traced.tell g x`: what the notes of `x` say to a listener `g`; `Traced.tell_bind` and
  `Traced.tell_mapM`, how that is put together.
* `Traced.IsDeaf`, `Traced.heard`: listeners who hear no debug messages, and what they hear of texts
  that are read.
* `Traced.warnings`: the warnings in a trace.
-/

variable {ε ε' α β γ : Type}

/-! ### Traversals that stop -/

/-- The elements of a traversal up to the first one that fails. That one is reached as well. -/
def reached (f : α → Except ε β) : List α → List α
  | [] => []
  | a :: l =>
    match f a with
    | .ok _ => a :: reached f l
    | .error _ => [a]

variable {f : α → Except ε β} {l : List α}

/-- Behind an element that does not fail the traversal goes on. -/
theorem reached_cons_of_ok {a : α} {b : β} (h : f a = .ok b) :
    reached f (a :: l) = a :: reached f l := by
  rw [reached, h]

/-- The first element that fails is the last one that is looked at. -/
theorem reached_cons_of_error {a : α} {e : ε} (h : f a = .error e) : reached f (a :: l) = [a] := by
  rw [reached, h]

/-- Where nothing fails all elements are reached. -/
theorem reached_eq_self (h : ∀ a ∈ l, ∃ b, f a = .ok b) : reached f l = l := by
  induction l with
  | nil => rfl
  | cons a l ih =>
    obtain ⟨b, hb⟩ := h a List.mem_cons_self
    rw [reached_cons_of_ok hb, ih fun c hc => h c (List.mem_cons_of_mem a hc)]

/-- Only whether an element fails decides about those behind it. So another traversal that fails at
    the same elements reaches the same ones. -/
theorem reached_congr {f' : α → Except ε' γ} (h : ∀ a ∈ l, (f a).isOk = (f' a).isOk) :
    reached f l = reached f' l := by
  induction l with
  | nil => rfl
  | cons a l ih =>
    have ha := h a List.mem_cons_self
    have ih' := ih fun b hb => h b (List.mem_cons_of_mem a hb)
    unfold reached
    cases hf : f a <;> cases hf' : f' a
    case ok.ok => exact congrArg (a :: ·) ih'
    case error.error => rfl
    all_goals
      rw [hf, hf'] at ha
      cases ha

namespace Traced

variable {g : Note → Option γ}

/-! ### Listening -/

/-- What the notes of a computation say to a listener, who makes something of a note or
    skips it. -/
def tell (g : Note → Option γ) (x : Traced ε α) : List γ := x.notes.filterMap g

/-- A value alone tells nothing. -/
@[simp] theorem tell_pure (a : α) : (pure a : Traced ε α).tell g = [] := rfl

/-- Nor does a plain outcome. -/
@[simp] theorem tell_lift (x : Except ε α) : (lift x).tell g = [] := rfl

/-- Rewording an error tells nothing new. -/
@[simp] theorem tell_mapError (h : ε → ε') (x : Traced ε α) :
    (x.mapError h).tell g = x.tell g := rfl

/-- Going on with an outcome tells what was told on the way to it. -/
@[simp] theorem tell_attempt (x : Traced ε α) :
    (x.attempt : Traced ε' (Except ε α)).tell g = x.tell g := rfl

/-- A listener hears that a text is to be normalized. -/
theorem tell_receive (text : String) :
    (receive text : Traced ε Unit).tell g = (g (.received ⟨.initial, text⟩)).toList := by
  cases h : g (.received ⟨.initial, text⟩) <;> simp [tell, h]

/-- A listener hears a message. -/
theorem tell_say (channel : String) (level : Level) (text : String) :
    (say channel level text : Traced ε Unit).tell g
      = (g (.message ⟨channel, level, text⟩
          (Message.printed {} ⟨channel, level, text⟩))).toList := by
  cases h : g (.message ⟨channel, level, text⟩ (Message.printed {} ⟨channel, level, text⟩)) <;>
    simp [tell, h]

/-- What is told first, and what is told behind it if there is no error. -/
theorem tell_bind (x : Traced ε α) (k : α → Traced ε β) :
    (x >>= k).tell g = x.tell g ++ (match x.outcome with
      | .ok a => (k a).tell g
      | .error _ => []) := by
  rw [tell, notes_bind, List.filterMap_append]
  cases x.outcome <;> rfl

/-- Behind a value the next step is told. -/
theorem tell_bind_of_ok {x : Traced ε α} {k : α → Traced ε β} {a : α} (h : x.outcome = .ok a) :
    (x >>= k).tell g = x.tell g ++ (k a).tell g := by
  rw [tell_bind, h]

/-- Behind an error nothing more is told. -/
theorem tell_bind_of_error {x : Traced ε α} {k : α → Traced ε β} {e : ε}
    (h : x.outcome = .error e) : (x >>= k).tell g = x.tell g := by
  rw [tell_bind, h, List.append_nil]

/-- A last step that tells nothing may be left out. -/
theorem tell_bind_silent {x : Traced ε α} {k : α → Traced ε β} (h : ∀ a, (k a).tell g = []) :
    (x >>= k).tell g = x.tell g := by
  cases hx : x.outcome with
  | ok a => rw [tell_bind_of_ok hx, h a, List.append_nil]
  | error e => exact tell_bind_of_error hx

/-- A last step that always tells the same tells it if it is reached. -/
theorem tell_bind_constant {x : Traced ε α} {k : α → Traced ε β} {t : List γ}
    (h : ∀ a, (k a).tell g = t) :
    (x >>= k).tell g = x.tell g ++ (if x.outcome.isOk then t else []) := by
  cases hx : x.outcome with
  | ok a =>
    rw [tell_bind_of_ok hx, h a]
    rfl
  | error e =>
    rw [tell_bind_of_error hx]
    exact (List.append_nil _).symm

/-- Changing the value at the end leaves the notes alone. -/
@[simp] theorem notes_map (k : α → β) (x : Traced ε α) : (k <$> x).notes = x.notes := by
  rw [map_eq_pure_bind, notes_bind]
  cases x.outcome <;> exact List.append_nil x.notes

/-- So nothing else is told. -/
@[simp] theorem tell_map (k : α → β) (x : Traced ε α) : (k <$> x).tell g = x.tell g := by
  rw [tell, notes_map, tell]

/-- Two steps that tell nothing tell nothing together. -/
theorem tell_bind_eq_nil {x : Traced ε α} {k : α → Traced ε β} (hx : x.tell g = [])
    (hk : ∀ a, (k a).tell g = []) : (x >>= k).tell g = [] := by
  rw [tell_bind_silent hk, hx]

/-- A traversal tells what the elements tell that are reached. The element that ends it is one of
    them. -/
theorem tell_mapM (k : α → Traced ε β) (l : List α) :
    (l.mapM k).tell g
      = (reached (fun a => (k a).outcome) l).flatMap fun a => (k a).tell g := by
  induction l with
  | nil => rfl
  | cons a l ih =>
    rw [List.mapM_cons]
    cases h : (k a).outcome with
    | ok b =>
      have hreached : reached (fun a => (k a).outcome) (a :: l) = a :: reached _ l :=
        reached_cons_of_ok h
      rw [tell_bind_of_ok h, tell_bind_silent fun _ => rfl, ih, hreached, List.flatMap_cons]
    | error e =>
      have hreached : reached (fun a => (k a).outcome) (a :: l) = [a] := reached_cons_of_error h
      rw [tell_bind_of_error h, hreached, List.flatMap_singleton]

/-! ### Texts that are read -/

/-- A listener who hears no debug messages. Such messages are all that reading an expression gives,
    so only calls are left for such a listener. -/
def IsDeaf (g : Note → Option γ) : Prop :=
  ∀ channel text line, g (.message ⟨channel, .debug, text⟩ line) = none

/-- What a listener hears of texts that are to be normalized, in the sequence of the texts. -/
def heard (g : Note → Option γ) (texts : List String) : List γ :=
  texts.filterMap fun text => g (.received ⟨.initial, text⟩)

/-- Where nothing is to be normalized nothing is heard. -/
@[simp] theorem heard_nil : heard g [] = [] := rfl

/-- The first text is heard first. -/
theorem heard_cons (text : String) (texts : List String) :
    heard g (text :: texts) = (g (.received ⟨.initial, text⟩)).toList ++ heard g texts := by
  cases h : g (.received ⟨.initial, text⟩) <;> simp [heard, h]

/-- What is read in two parts is heard in two parts. -/
theorem heard_append (texts texts' : List String) :
    heard g (texts ++ texts') = heard g texts ++ heard g texts' :=
  List.filterMap_append

/-- What is read on a condition is heard on the condition. -/
theorem heard_ite {p : Prop} [Decidable p] (texts : List String) :
    heard g (if p then texts else []) = if p then heard g texts else [] := by
  split <;> rfl

/-- What is read for each element is heard for each element. -/
theorem heard_flatMap (f : α → List String) (l : List α) :
    heard g (l.flatMap f) = l.flatMap fun a => heard g (f a) :=
  List.filterMap_flatMap

/-- A deaf listener hears nothing of a debug message. -/
theorem tell_debug (hg : IsDeaf g) (channel text : String) :
    (say channel .debug text : Traced ε Unit).tell g = [] := by
  rw [tell_say, hg]
  rfl

/-! ### Texts and warnings -/

/-- The text that was to be normalized, for a note about that. -/
def receivedText? : Note → Option String
  | .received call => some call.text
  | .message _ _ => none

/-- The warning in a note. -/
def warningText? : Note → Option String
  | .received _ => none
  | .message m _ => if m.level = .warning then some m.text else none

/-- The warning on a channel in a note. Messages of other channels and of other levels count as
    none. -/
def warningOn? (channel : String) : Note → Option String
  | .received _ => none
  | .message m _ => if m.channel = channel ∧ m.level = .warning then some m.text else none

/-- Who listens to the normalizer hears no messages. -/
theorem isDeaf_receivedText : IsDeaf receivedText? := fun _ _ _ => rfl

/-- Who listens to the normalizer hears each text as it is. -/
@[simp] theorem heard_receivedText (texts : List String) : heard receivedText? texts = texts :=
  List.filterMap_some

/-- A listener who hears the warnings of the library itself, no debug messages, and nothing of texts
    that are to be normalized. -/
structure HearsWarnings (g : Note → Option String) : Prop where
  deaf : IsDeaf g
  received : ∀ call, g (.received call) = none
  warning : ∀ text line, g (.message ⟨facadeChannel, .warning, text⟩ line) = some text

/-- Who listens to all warnings hears those of the library itself. -/
theorem hearsWarnings_warningText : HearsWarnings warningText? :=
  ⟨fun _ _ _ => rfl, fun _ => rfl, fun _ _ => rfl⟩

/-- So does who listens to the channel of the library. -/
theorem hearsWarnings_warningOn : HearsWarnings (warningOn? facadeChannel) :=
  ⟨fun _ _ _ => if_neg (by simp), fun _ => rfl, fun _ _ => rfl⟩

/-- Who listens to warnings hears nothing of texts that are to be normalized. -/
theorem HearsWarnings.heard_eq_nil {g : Note → Option String} (hg : HearsWarnings g)
    (texts : List String) : heard g texts = [] :=
  List.filterMap_eq_nil_iff.2 fun _ _ => hg.received _

/-- Who listens to the calls of the normalizer hears their texts. -/
theorem texts_calls (x : Trace ε α) :
    x.calls.map Call.text = x.notes.filterMap receivedText? := by
  rw [Trace.calls, List.map_filterMap]
  refine List.filterMap_congr fun n _ => ?_
  cases n <;> rfl

/-- Who listens to the warnings on a channel hears all of them. -/
theorem warningsOn_eq (channel : String) (x : Trace ε α) :
    x.warningsOn channel = x.notes.filterMap (warningOn? channel) := by
  rw [Trace.warningsOn, Trace.messages, ← List.filterMap_eq_filter, List.filterMap_filterMap,
    List.map_filterMap]
  refine List.filterMap_congr fun n _ => ?_
  cases n with
  | received call => rfl
  | message m line =>
    by_cases hchannel : m.channel = channel <;> by_cases hlevel : m.level = .warning <;>
      simp [warningOn?, hchannel, hlevel]

/-- The warnings that were given. -/
def warnings (x : Traced ε α) : List String := x.tell warningText?

end Traced

end VersionRange
