import ByteQueue.Event

/-!
Work under different loggers. Every call site asks its logger before it reports, so that two runs
of the same work may differ in what they report. Work is impartial if they differ in nothing else:
there is one result and one list of events, of which each logger is told those that it should log.
Parts that are impartial make up work that is, as long as no part looks at the logger but to log.
-/
namespace ByteQueue

open Logged

variable {α β γ δ σ τ : Type}

/-- Work is impartial if its result and the events on the way to it do not depend on the logger.
A result may hold the logger itself, and `under` is how it does. -/
def Impartial (under : Option Log.Config → α → β)
    (work : Option Log.Config → Logged Event β) : Prop :=
  ∃ (result : α) (events : List Event), ∀ logger,
    work logger = ⟨under logger result, events.filter (Event.loggedBy logger)⟩

/-- Whether there is work is not up to the logger either. -/
def ImpartialIfAny (under : Option Log.Config → α → β)
    (work? : Option Log.Config → Option (Logged Event β)) : Prop :=
  (∀ logger, work? logger = none) ∨
    ∃ work, Impartial under work ∧ ∀ logger, work? logger = some (work logger)

namespace Impartial

variable {under : Option Log.Config → α → β} {work : Option Log.Config → Logged Event β}

theorem pure {results : Option Log.Config → β} (result : α)
    (h : ∀ logger, results logger = under logger result) :
    Impartial under fun logger => Pure.pure (results logger) :=
  ⟨result, [], fun logger => congrArg Pure.pure (h logger)⟩

/-- A call site reports its event to those that should log it. The event is the same for all. -/
theorem emit {events : Option Log.Config → Event} (event : Event)
    (h : ∀ logger, events logger = event) :
    Impartial (fun _ => id) fun logger => (events logger).emit logger :=
  ⟨(), [event], fun logger => by ext1 <;> simp [h, Event.events_emit]⟩

theorem bind (h : Impartial under work) {under' : Option Log.Config → γ → δ}
    {next : Option Log.Config → β → Logged Event δ}
    (hNext : ∀ result, Impartial under' fun logger => next logger (under logger result)) :
    Impartial under' fun logger => work logger >>= next logger := by
  obtain ⟨result, events, hWork⟩ := h
  obtain ⟨result', events', hRest⟩ := hNext result
  refine ⟨result', events ++ events', fun logger => ?_⟩
  have hLogger := hRest logger
  dsimp only at hLogger ⊢
  rw [hWork]
  ext1
  · rw [value_bind, hLogger]
  · rw [events_bind, hLogger, List.filter_append]

theorem map (h : Impartial under work) {under' : Option Log.Config → γ → δ}
    {f : Option Log.Config → β → δ} (g : α → γ)
    (hf : ∀ logger result, f logger (under logger result) = under' logger (g result)) :
    Impartial under' fun logger => f logger <$> work logger := by
  obtain ⟨result, events, hWork⟩ := h
  refine ⟨g result, events, fun logger => ?_⟩
  dsimp only
  rw [hWork, ← hf]
  rfl

/-- Each step of a repetition is impartial, and so is the repetition. -/
theorem iterate {underState : Option Log.Config → σ → τ}
    {next : Option Log.Config → τ → Logged Event (τ ⊕ β)} {stop : τ → β} (stopped : σ → α)
    (hNext : ∀ state, Impartial (fun logger => Sum.map (underState logger) (under logger))
      fun logger => next logger (underState logger state))
    (hStop : ∀ logger state, stop (underState logger state) = under logger (stopped state))
    (count : Nat) (start : σ) :
    Impartial under fun logger =>
      Logged.iterate (next logger) stop count (underState logger start) := by
  induction count generalizing start with
  | zero =>
    exact pure (stopped start) fun logger => hStop logger start
  | succ count ih =>
    simp only [iterate_succ]
    refine (hNext start).bind fun ending => ?_
    cases ending with
    | inl state => exact ih state
    | inr result => exact pure result fun _ => rfl

/-- Each element of a list is worked on impartially, and so is the list. -/
theorem fold {ε : Type} {f : β → ε → Logged Event β}
    (hStep : ∀ result element, Impartial under fun logger => f (under logger result) element)
    (elements : List ε) (start : α) :
    Impartial under fun logger => Logged.fold f (under logger start) elements := by
  simp only [fold_eq]
  induction elements generalizing start with
  | nil => exact pure start fun _ => rfl
  | cons first rest ih =>
    simp only [List.foldlM_cons]
    exact (hStep start first).bind ih

theorem exists_value (h : Impartial under work) (logger : Option Log.Config) :
    ∃ result, (work logger).value = under logger result := by
  obtain ⟨result, events, hWork⟩ := h
  exact ⟨result, by rw [hWork]⟩

end Impartial

namespace ImpartialIfAny

variable {under : Option Log.Config → α → β}

theorem none : ImpartialIfAny under fun _ => .none := .inl fun _ => rfl

theorem some {work : Option Log.Config → Logged Event β} (h : Impartial under work) :
    ImpartialIfAny under fun logger => .some (work logger) :=
  .inr ⟨work, h, fun _ => rfl⟩

/-- Whether something is found is not up to the logger. -/
theorem lookup (looked : Option γ) {next : Option Log.Config → γ → Option (Logged Event β)}
    (h : ∀ found, ImpartialIfAny under fun logger => next logger found) :
    ImpartialIfAny under fun logger => looked >>= next logger := by
  cases looked with
  | none => exact none
  | some found => exact h found

end ImpartialIfAny

end ByteQueue
