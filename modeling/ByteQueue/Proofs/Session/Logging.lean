import ByteQueue.Proofs.Write.Logging
import ByteQueue.Session.Transcript

/-!
Logging interferes with nothing. Two sessions that make the same steps, with loggers that are
configured in any two ways or without one, go through the same states and answer the same; and what
the one logs is what the other, which logs everything, logs up to the verbosity that the one has
for queues.

Every queue of a session has the logger of the session. What a step does with queues is impartial,
and the session itself looks at the logger only to hand it to a new queue.
-/
namespace ByteQueue

/-- A message as it is logged. -/
structure Entry where
  severity : Severity
  component : Component
  text : String
  deriving DecidableEq

namespace Event

def entry (layout : Layout) (event : Event) : Entry :=
  ⟨event.severity, component, event.message layout⟩

theorem severity_mem (event : Event) :
    event.severity ∈ [Severity.warning, .info, .trace, .data] := by
  cases event <;> simp [severity]

/-- No event is silent, so its severity is compared as a number with the verbosity for queues. -/
theorem loggedBy_some (config : Log.Config) (event : Event) :
    event.loggedBy (some config) =
      decide (event.severity.level ≤ (config.verbosity (some component)).level) := by
  have loud : ∀ severity ∈ [Severity.warning, .info, .trace, .data], severity ≠ .silent := by
    decide
  have hLoud : (event.severity != .silent) = true := bne_iff_ne.mpr (loud _ event.severity_mem)
  rw [loggedBy, context, Log.Context.shouldLog, Option.any_some, Log.Config.shouldLog,
    Severity.passes, hLoud, Bool.true_and]

/-- No event is more verbose than data. -/
theorem loggedBy_data (event : Event) : event.loggedBy (some { general := .data }) = true := by
  have loud : ∀ severity ∈ [Severity.warning, .info, .trace, .data],
      severity.level ≤ Severity.data.level := by decide
  rw [loggedBy_some]
  exact decide_eq_true (loud _ event.severity_mem)

end Event

namespace Session

/-- The session with another logger, for itself and for its queues. -/
def loggingTo (logger : Option Log.Config) (session : Session) : Session :=
  { session with
    logger
    queues := session.queues.map (Prod.map id (Queue.loggingTo logger)) }

/-- A result in a session with another logger. -/
def resultLoggingTo (logger : Option Log.Config) : Result → Result := Prod.map (loggingTo logger) id

section

variable (logger : Option Log.Config) (session : Session)

theorem queue?_loggingTo (index : Nat) :
    (session.loggingTo logger).queue? index =
      (session.queue? index).map (Queue.loggingTo logger) :=
  Table.get?_map ..

theorem setQueue_loggingTo (index : Nat) (queue : Queue) :
    (session.loggingTo logger).setQueue index (queue.loggingTo logger) =
      (session.setQueue index queue).loggingTo logger := by
  unfold setQueue loggingTo
  rw [← Table.insert_map]

theorem eraseQueue_loggingTo (index : Nat) :
    { session.loggingTo logger with queues := (session.loggingTo logger).queues.erase index } =
      loggingTo logger { session with queues := session.queues.erase index } := by
  unfold loggingTo
  rw [← Table.erase_map]

theorem uses_loggingTo (handle : Handle) :
    (session.loggingTo logger).uses handle = session.uses handle := by
  unfold uses references loggingTo
  simp only [sumOf_map]
  rfl

theorem runBound_loggingTo : (session.loggingTo logger).runBound = session.runBound := by
  unfold runBound loggingTo
  simp only [sumOf_map]
  rfl

theorem storeAll_loggingTo (front : String) (handles : List Handle) :
    (session.loggingTo logger).storeAll front handles =
      (session.storeAll front handles).loggingTo logger := by
  unfold storeAll
  exact List.foldl_hom (loggingTo logger) fun _ _ => rfl

end

/-! What is done in a session. -/

variable {α β : Type} {under : Option Log.Config → α → β}

/-- Work on a queue is the same work on the queue with another logger. -/
theorem impartial_onQueue (session : Session) (index : Nat)
    {next : Option Log.Config → Queue → Option (Logged Event β)}
    (h : ∀ queue : Queue, ImpartialIfAny under fun logger => next logger (queue.loggingTo logger)) :
    ImpartialIfAny under fun logger =>
      (session.loggingTo logger).queue? index >>= next logger := by
  simp only [queue?_loggingTo]
  cases session.queue? index with
  | none => exact .none
  | some queue => exact h queue

theorem impartial_answer (session : Session) (answer : Answer) :
    Impartial resultLoggingTo fun logger => pure ((session.loggingTo logger).answer answer) :=
  .pure (session.answer answer) fun _ => rfl

theorem impartial_update (session : Session) (index : Nat)
    {work : Option Log.Config → Logged Event Queue} (h : Impartial Queue.loggingTo work) :
    Impartial resultLoggingTo fun logger =>
      (session.loggingTo logger).update index (work logger) := by
  unfold update
  refine h.bind fun queue => ?_
  simp only [setQueue_loggingTo]
  exact impartial_answer ..

theorem impartial_receive (session : Session) (index : Nat) (passed : List Block) :
    Impartial loggingTo fun logger => (session.loggingTo logger).receive index passed := by
  unfold receive
  simp only [queue?_loggingTo]
  cases session.queue? index with
  | none => exact .pure session fun _ => rfl
  | some queue =>
    exact (queue.impartial_appendAll passed).map (session.setQueue index) fun logger queue =>
      setQueue_loggingTo logger session index queue

theorem impartial_closePrinter (session : Session) :
    Impartial loggingTo fun logger => (session.loggingTo logger).closePrinter := by
  have hPrinter (logger : Option Log.Config) :
      (session.loggingTo logger).printer = session.printer := rfl
  unfold closePrinter
  simp only [hPrinter]
  cases session.printer with
  | none => exact .pure session fun _ => rfl
  | some opened =>
    exact impartial_receive { session with printer := none } opened.1 [opened.2.collected]

theorem impartial_put (session : Session) (items : List Item) :
    ImpartialIfAny resultLoggingTo fun logger => (session.loggingTo logger).put items := by
  have hPrinter (logger : Option Log.Config) :
      (session.loggingTo logger).printer = session.printer := rfl
  unfold put
  simp only [hPrinter]
  cases session.printer with
  | none => exact .none
  | some opened =>
    obtain ⟨index, printer⟩ := opened
    let printed := printer.print items
    exact .some ((impartial_receive { session with printer := some (index, printed.2) } index
      printed.1).bind fun after => impartial_answer after .nothing)

theorem enter_loggingTo (logger : Option Log.Config) (session : Session) (index : Nat)
    (created : Except Failure Queue) :
    (session.loggingTo logger).enter index (created.map (Queue.loggingTo logger)) =
      resultLoggingTo logger (session.enter index created) := by
  cases created with
  | ok queue =>
    exact congrArg (answer · .nothing)
      (setQueue_loggingTo logger { session with owners := session.owners + 1 } index queue)
  | error failure =>
    exact congrArg (fun after => (after, Mode.raise.settle Answer.nothing (.error failure)))
      (eraseQueue_loggingTo logger session index)

/-- A new queue has the logger of the session. -/
theorem impartial_create (session : Session) (index : Nat) (settings : Settings) :
    Impartial resultLoggingTo fun logger =>
      (session.loggingTo logger).create index settings := by
  have hCreated : Impartial resultLoggingTo fun logger =>
      (session.loggingTo logger).enter index <$>
        Queue.create logger session.owners settings :=
    (Queue.impartial_create session.owners settings).map (session.enter index)
      fun logger created => enter_loggingTo logger session index created
  unfold create
  simp only [queue?_loggingTo]
  cases session.queue? index with
  | none => exact hCreated
  | some queue => exact queue.impartial_destroy.bind fun _ => hCreated

theorem impartial_take (session : Session) (index : Nat) (queue : Queue) (count : UInt64)
    (mode : Mode) (store : Option String) :
    Impartial resultLoggingTo fun logger =>
      (session.loggingTo logger).take index (queue.loggingTo logger) count mode store := by
  unfold take
  refine (queue.impartial_take count).bind fun outcome => ?_
  cases outcome with
  | ok taken =>
    obtain ⟨after, handle⟩ := taken
    simp only [Except.map, Prod.map, setQueue_loggingTo]
    let ending : Ending Answer := .returned (.bytes handle.block) .success
    cases store with
    | none => exact .pure (session.setQueue index after, ending) fun _ => rfl
    | some name =>
      exact .pure ((session.setQueue index after).setHandle name handle, ending) fun _ => rfl
  | error failure =>
    dsimp only [Except.map, Mode.settle]
    cases mode.escalate (.returned Handle.empty failure.code) with
    | raised code => exact .pure (session, .raised code) fun _ => rfl
    | returned handle code =>
      let ending : Ending Answer := .returned (.bytes handle.block) code
      cases store with
      | none => exact .pure (session, ending) fun _ => rfl
      | some name => exact .pure (session.setHandle name handle, ending) fun _ => rfl

theorem setSlice_loggingTo (session : Session) (logger : Option Log.Config) (name : String)
    (source : Handle) (offset count : UInt64) (mode : Mode) :
    (session.loggingTo logger).setSlice name source offset count mode =
      resultLoggingTo logger (session.setSlice name source offset count mode) := by
  unfold setSlice
  cases mode.settle .empty (source.slice offset count) <;> rfl

theorem impartial_transferred (session : Session) (index : Nat) (mode : Mode)
    {work : Option Log.Config → Logged Event Transfer} (h : Impartial Transfer.loggingTo work) :
    Impartial resultLoggingTo fun logger =>
      (session.loggingTo logger).transferred index mode (work logger) := by
  unfold transferred
  refine h.bind fun transfer => ?_
  have hAfter (logger : Option Log.Config) :
      { session.loggingTo logger with sink := transfer.sink }.setQueue index
          (transfer.queue.loggingTo logger) =
        ({ session with sink := transfer.sink }.setQueue index transfer.queue).loggingTo logger :=
    setQueue_loggingTo logger { session with sink := transfer.sink } index transfer.queue
  simp only [Transfer.loggingTo, hAfter]
  cases mode.escalate transfer.ending with
  | returned count code => exact .pure (_, .returned (.number count) code) fun _ => rfl
  | raised code => exact .pure (_, .raised code) fun _ => rfl

theorem impartial_started (session : Session) (index : Nat)
    {work : Option Log.Config → Logged Event Started} (h : Impartial Started.loggingTo work) :
    Impartial resultLoggingTo fun logger =>
      (session.loggingTo logger).started index (work logger) := by
  unfold started
  refine h.bind fun started => ?_
  have hAfter (logger : Option Log.Config) :
      { session.loggingTo logger with sink := started.sink }.setQueue index
          (started.queue.loggingTo logger) =
        ({ session with sink := started.sink }.setQueue index started.queue).loggingTo logger :=
    setQueue_loggingTo logger { session with sink := started.sink } index started.queue
  simp only [Started.loggingTo, hAfter]
  let after := { session with sink := started.sink }.setQueue index started.queue
  exact impartial_answer
    { after with pending := after.pending ++ [(index, started.completion)] }
    (.number session.reports.length.toUInt64)

/-- A run is at a session and a number of completions that ran. -/
def stateLoggingTo (logger : Option Log.Config) : Session × Nat → Session × Nat :=
  Prod.map (loggingTo logger) id

theorem impartial_runFirst (session : Session) :
    ImpartialIfAny (fun logger => Prod.map (loggingTo logger) id)
      fun logger => (session.loggingTo logger).runFirst := by
  have hPending (logger : Option Log.Config) :
      (session.loggingTo logger).pending = session.pending := rfl
  unfold runFirst
  simp only [hPending, queue?_loggingTo]
  cases session.pending with
  | nil => exact .none
  | cons first pending =>
    obtain ⟨index, completion⟩ := first
    cases completion with
    | finished total =>
      exact .some (.pure
        ({ session with pending, reports := session.reports ++ [.finished total] }, none)
        fun _ => rfl)
    | write count code slices sequel =>
      dsimp only
      cases session.queue? index with
      | none => exact .none
      | some queue =>
        refine .some ((queue.impartial_complete session.sink (.write count code slices sequel)).bind
          fun completed => ?_)
        obtain ⟨sink, after, ending⟩ := completed
        have hAfter (logger : Option Log.Config) :
            { session.loggingTo logger with sink, pending }.setQueue index
                (after.loggingTo logger) =
              ({ session with sink, pending }.setQueue index after).loggingTo logger :=
          setQueue_loggingTo logger { session with sink, pending } index after
        simp only [Completed.loggingTo, hAfter]
        let left := { session with sink, pending }.setQueue index after
        match ending with
        | .raised code => exact .pure (left, some code) fun _ => rfl
        | .returned (.next completion) _ =>
          exact .pure ({ left with pending := left.pending ++ [(index, completion)] }, none)
            fun _ => rfl
        | .returned (.done report) _ =>
          exact .pure ({ left with reports := left.reports ++ [report] }, none) fun _ => rfl

theorem impartial_runNext (state : Session × Nat) :
    Impartial (fun logger => Sum.map (stateLoggingTo logger) (Prod.map (loggingTo logger) id))
      fun logger => runNext (stateLoggingTo logger state) := by
  obtain ⟨session, count⟩ := state
  simp only [runNext, stateLoggingTo, Prod.map, id_eq]
  rcases session.impartial_runFirst with hNone | ⟨work, hWork, hSome⟩
  · simp only [hNone]
    exact .pure (Sum.inr (session, count, none)) fun _ => rfl
  · simp only [hSome]
    refine hWork.bind fun ran => ?_
    obtain ⟨after, raised⟩ := ran
    cases raised with
    | none => exact .pure (Sum.inl (after, count + 1)) fun _ => rfl
    | some code => exact .pure (Sum.inr (after, count + 1, some code)) fun _ => rfl

theorem impartial_run (session : Session) (runs : Nat) :
    Impartial resultLoggingTo fun logger => (session.loggingTo logger).run runs := by
  have hRuns : Impartial (fun logger => Prod.map (loggingTo logger) id) fun logger =>
      (session.loggingTo logger).runUpTo runs := by
    unfold runUpTo
    exact .iterate (fun state => (state.1, state.2, none)) impartial_runNext
      (fun _ _ => rfl) runs (session, 0)
  unfold run
  refine hRuns.bind fun ran => ?_
  obtain ⟨after, count, raised⟩ := ran
  cases raised with
  | none => exact impartial_answer { after with reports := [] } (.ran count after.reports)
  | some code => exact .pure (after, .raised code) fun _ => rfl

/-- Whatever is done, it is done impartially. -/
theorem impartial_perform (session : Session) (index : Nat) (action : Action) :
    ImpartialIfAny resultLoggingTo fun logger =>
      (session.loggingTo logger).perform index action := by
  have hHandle (logger : Option Log.Config) (name : String) :
      (session.loggingTo logger).handle? name = session.handle? name := rfl
  cases action with
  | create settings => exact .some (session.impartial_create index settings)
  | destroy =>
    refine session.impartial_onQueue index fun queue => .some ?_
    refine queue.impartial_destroy.bind fun _ => ?_
    simp only [eraseQueue_loggingTo]
    exact impartial_answer ..
  | append data =>
    exact session.impartial_onQueue index fun queue =>
      .some (session.impartial_update index (queue.impartial_append data))
  | appendAll pieces =>
    exact session.impartial_onQueue index fun queue =>
      .some (session.impartial_update index (queue.impartial_appendAll pieces))
  | absorb name =>
    refine session.impartial_onQueue index fun queue => ?_
    simp only [hHandle]
    exact .lookup (session.handle? name) fun handle =>
      .some (session.impartial_update index (queue.impartial_absorb handle))
  | isEmpty =>
    exact session.impartial_onQueue index fun queue =>
      .some (session.impartial_answer (.truth queue.isEmpty))
  | front =>
    exact session.impartial_onQueue index fun queue =>
      .some (session.impartial_answer (.bytes queue.front))
  | settings =>
    exact session.impartial_onQueue index fun queue =>
      .some (session.impartial_answer (.settings queue.settings))
  | describe =>
    exact session.impartial_onQueue index fun queue =>
      .some (session.impartial_answer (.text queue.summary.describe))
  | project limit =>
    refine session.impartial_onQueue index fun queue => .some ?_
    refine (queue.impartial_project (limit.getD queue.settings.maxSlices)).bind fun shown => ?_
    obtain ⟨after, projection⟩ := shown
    simp only [Prod.map, setQueue_loggingTo]
    exact impartial_answer (session.setQueue index after)
      (.projection after.projected projection.slices)
  | confirm count mode =>
    refine session.impartial_onQueue index fun queue => .some ?_
    refine (queue.impartial_confirm count).bind fun outcome => ?_
    cases outcome with
    | ok after =>
      simp only [Except.map, setQueue_loggingTo]
      exact .pure (session.setQueue index after, mode.settle .nothing (.ok .nothing)) fun _ => rfl
    | error failure =>
      exact .pure (session, mode.settle .nothing (.error failure)) fun _ => rfl
  | sealTail =>
    exact session.impartial_onQueue index fun queue =>
      .some (session.impartial_update index queue.impartial_sealTail)
  | clear =>
    exact session.impartial_onQueue index fun queue =>
      .some (session.impartial_update index (.pure queue.clear fun _ => rfl))
  | drain before store =>
    refine session.impartial_onQueue index fun queue => ?_
    refine .lookup (before.mapM session.handle?) fun before => .some ?_
    refine queue.impartial_drain.bind fun emptied => ?_
    obtain ⟨after, drained⟩ := emptied
    simp only [Prod.map, setQueue_loggingTo]
    cases store with
    | none => exact impartial_answer (session.setQueue index after) _
    | some front =>
      simp only [storeAll_loggingTo]
      exact impartial_answer ((session.setQueue index after).storeAll front (before ++ drained)) _
  | take count mode store =>
    exact session.impartial_onQueue index fun queue =>
      .some (session.impartial_take index queue count mode store)
  | setEmpty name => exact .some (impartial_answer (session.setHandle name .empty) .nothing)
  | setCopy name data =>
    exact .some (impartial_answer
      (session.allocate.1.setHandle name (.ofBlock session.allocate.2 data)) .nothing)
  | setAdopted name data count =>
    exact .some (impartial_answer (session.allocate.1.setHandle name (.adopt
      (if data.isEmpty then none else some ⟨session.allocate.2, data⟩) count)) .nothing)
  | setShared name source =>
    exact .lookup (session.handle? source) fun handle =>
      .some (impartial_answer (session.setHandle name handle) .nothing)
  | setSlice name source offset count mode =>
    refine .lookup (session.handle? source) fun handle => .some ?_
    exact .pure (session.setSlice name handle offset count mode) fun logger =>
      session.setSlice_loggingTo logger name handle offset count mode
  | drop name =>
    exact .lookup (session.handle? name) fun _ =>
      .some (impartial_answer { session with handles := session.handles.erase name } .nothing)
  | sameBytes first second =>
    exact .lookup (session.handle? first) fun first => .lookup (session.handle? second)
      fun second => .some (session.impartial_answer (.truth (first.sameBytes second)))
  | differentBytes first second =>
    exact .lookup (session.handle? first) fun first => .lookup (session.handle? second)
      fun second => .some (session.impartial_answer (.truth (!first.sameBytes second)))
  | sharing first second =>
    exact .lookup (session.handle? first) fun first => .lookup (session.handle? second)
      fun second => .some (session.impartial_answer (.truth (first.sharing second)))
  | uses name =>
    refine .lookup (session.handle? name) fun handle => .some ?_
    simp only [uses_loggingTo]
    exact session.impartial_answer (.number (session.uses handle).toUInt64)
  | describeHandle name =>
    refine .lookup (session.handle? name) fun handle => .some ?_
    simp only [uses_loggingTo]
    exact session.impartial_answer (.text (handle.describe (session.uses handle)))
  | view name =>
    exact .lookup (session.handle? name) fun handle =>
      .some (session.impartial_answer (.view handle.size handle.isEmpty handle.block))
  | extendScript responses =>
    let sink := { session.sink with script := session.sink.script ++ responses }
    exact .some (impartial_answer { session with sink } .nothing)
  | inspectSink =>
    exact .some (impartial_answer { session with sink := session.sink.reset }
      (.sink session.sink.writes session.sink.block))
  | writeSome mode =>
    exact session.impartial_onQueue index fun queue =>
      .some (session.impartial_transferred index mode (queue.impartial_writeSome session.sink))
  | writeAll mode =>
    exact session.impartial_onQueue index fun queue =>
      .some (session.impartial_transferred index mode (queue.impartial_writeAll session.sink))
  | startSome =>
    exact session.impartial_onQueue index fun queue =>
      .some (session.impartial_started index (queue.impartial_startWrite session.sink .report))
  | startAll =>
    exact session.impartial_onQueue index fun queue =>
      .some (session.impartial_started index (queue.impartial_continueAll session.sink 0))
  | runOne => exact .some (session.impartial_run 1)
  | runAll =>
    simp only [perform, runBound_loggingTo]
    exact .some (session.impartial_run session.runBound)
  | openPrinter =>
    refine session.impartial_onQueue index fun queue => .some ?_
    exact session.impartial_closePrinter.bind fun after =>
      impartial_answer { after with printer := some (index, {}) } .nothing
  | put items => exact session.impartial_put items
  | flushPrinter => exact session.impartial_put [.change .flush]
  | closePrinter =>
    exact .some (session.impartial_closePrinter.bind fun after => impartial_answer after .nothing)

/-- The queues that are left go out of use in the same order. -/
theorem impartial_finish (session : Session) :
    Impartial (fun _ => id) fun logger => (session.loggingTo logger).finish := by
  have hDestroyed (queues : Table Nat Queue) : Impartial (fun _ => id) fun logger =>
      (queues.map (Prod.map id (Queue.loggingTo logger))).forM fun entry => entry.2.destroy := by
    induction queues with
    | nil => exact .pure () fun _ => rfl
    | cons first rest ih => exact first.2.impartial_destroy.bind fun _ => ih
  unfold finish
  refine session.impartial_closePrinter.bind fun after => ?_
  have hSorted (logger : Option Log.Config) :
      (after.loggingTo logger).queues.mergeSort (fun first second => first.1 ≤ second.1) =
        (after.queues.mergeSort fun first second => first.1 ≤ second.1).map
          (Prod.map id (Queue.loggingTo logger)) :=
    (List.map_mergeSort (l := after.queues) (f := Prod.map id (Queue.loggingTo logger))
      fun _ _ _ _ => rfl).symm
  simp only [hSorted]
  exact hDestroyed _

end Session

/-- A reply with a complete log, as it is with some logger. -/
def Session.Reply.loggedTo (logger : Option Log.Config) (reply : Session.Reply) : Session.Reply :=
  { reply with
    log := logger.map fun _ => (reply.log.getD []).filter (Event.loggedBy logger) }

/-- A transcript with complete logs, as it is with some logger. -/
def Session.Transcript.loggedTo (logger : Option Log.Config) (transcript : Session.Transcript) :
    Session.Transcript where
  replies := transcript.replies.map (Session.Reply.loggedTo logger)
  last := logger.map fun _ => (transcript.last.getD []).filter (Event.loggedBy logger)

namespace Session

/-- A step has a meaning with every logger or with none, and leads to the same session and reply
apart from what is logged. -/
theorem step_loggingTo (session : Session) (step : Step) :
    (∀ logger, (session.loggingTo logger).step step = none) ∨
      ∃ after reply, ∀ logger, (session.loggingTo logger).step step =
        some (loggingTo logger after, Reply.loggedTo logger reply) := by
  unfold Session.step
  rcases session.impartial_perform step.queue step.action with hNone | ⟨work, hWork, hSome⟩
  · exact .inl fun logger => congrArg (Option.map _) (hNone logger)
  · obtain ⟨⟨after, ending⟩, events, hEvents⟩ := hWork
    refine .inr ⟨after, ⟨ending, (after.queue? step.queue).map Queue.summary, some events⟩,
      fun logger => ?_⟩
    have hSummary : ((after.loggingTo logger).queue? step.queue).map Queue.summary =
        (after.queue? step.queue).map Queue.summary := by
      rw [queue?_loggingTo, Option.map_map]
      rfl
    dsimp only at hSome
    rw [hSome, hEvents, Reply.loggedTo, ← hSummary]
    rfl

/-- What one step keeps apart, any number of steps keep apart. -/
theorem steps_loggingTo (session : Session) (program : List Step) :
    (∀ logger, (session.loggingTo logger).steps program = none) ∨
      ∃ after, ∃ replies : List Reply, ∀ logger, (session.loggingTo logger).steps program =
        some (loggingTo logger after, replies.map (Reply.loggedTo logger)) := by
  induction program generalizing session with
  | nil => exact .inr ⟨session, [], fun _ => rfl⟩
  | cons first rest ih =>
    rcases session.step_loggingTo first with hNone | ⟨between, reply, hStep⟩
    · exact .inl fun logger => by rw [steps, hNone]; rfl
    · rcases ih between with hNone | ⟨after, replies, hSteps⟩
      · exact .inl fun logger => by rw [steps_cons_of_step (hStep logger), hNone]; rfl
      · exact .inr ⟨after, reply :: replies, fun logger => by
          rw [steps_cons_of_step (hStep logger), hSteps]; rfl⟩

theorem transcript_loggedTo (program : List Step) :
    (∀ logger, transcript logger program = none) ∨
      ∃ told, ∀ logger, transcript logger program = some (Transcript.loggedTo logger told) := by
  have hTranscript (logger : Option Log.Config) : transcript logger program =
      ((loggingTo logger {}).steps program).map fun told =>
        ⟨told.2, told.1.logger.map fun _ => told.1.finish.events⟩ := by
    unfold transcript
    rw [Option.map_eq_bind]
    rfl
  rcases steps_loggingTo {} program with hNone | ⟨after, replies, hSteps⟩
  · exact .inl fun logger => by rw [hTranscript, hNone]; rfl
  · obtain ⟨_, events, hEvents⟩ := after.impartial_finish
    refine .inr ⟨⟨replies, some events⟩, fun logger => ?_⟩
    rw [hTranscript, hSteps, Option.map_some]
    dsimp only at hEvents ⊢
    rw [hEvents]
    rfl

/-- What steps lead to and tell, apart from the logger and what it is told. -/
def unlogged (told : Session × List Reply) : Session × List Reply :=
  (told.1.loggingTo none, told.2.map fun reply => { reply with log := none })

/-- The messages of each step of a session, and those of its end. -/
def Transcript.messages (layout : Layout) (transcript : Transcript) : List (List Entry) :=
  (transcript.replies.map Reply.log ++ [transcript.last]).map fun log =>
    (log.getD []).map (Event.entry layout)

theorem loggingTo_loggingTo (first second : Option Log.Config) (session : Session) :
    (session.loggingTo second).loggingTo first = session.loggingTo first := by
  simp only [loggingTo, List.map_map]
  rfl

theorem unlogged_loggingTo (logger : Option Log.Config) (session : Session)
    (replies : List Reply) :
    unlogged (session.loggingTo logger, replies.map (Reply.loggedTo logger)) =
      unlogged (session, replies) := by
  simp [unlogged, loggingTo_loggingTo, Reply.loggedTo, Function.comp_def]

theorem messages_loggedTo_none (layout : Layout) (transcript : Transcript) :
    (transcript.loggedTo none).messages layout =
      (transcript.messages layout).map fun _ => [] := by
  simp [Transcript.messages, Transcript.loggedTo, Reply.loggedTo, Function.comp_def]

/-- Where a transcript is complete, a logger has been told of it what its configuration says. -/
theorem messages_loggedTo_some (layout : Layout) (config : Log.Config) (transcript : Transcript) :
    (transcript.loggedTo (some config)).messages layout =
      (transcript.messages layout).map (List.filter fun entry =>
        entry.severity.level ≤ (config.verbosity (some Event.component)).level) := by
  have hLogged : Event.loggedBy (some config) = fun event =>
      decide (event.severity.level ≤ (config.verbosity (some Event.component)).level) :=
    funext (Event.loggedBy_some config)
  simp only [Transcript.messages, Transcript.loggedTo, Reply.loggedTo, List.map_append,
    List.map_map, Function.comp_def, List.map_cons, List.map_nil, Option.map_some, Option.getD_some,
    hLogged, List.filter_map]
  rfl

/-- A logger of data is told everything. -/
theorem messages_loggedTo_data (layout : Layout) (transcript : Transcript) :
    (transcript.loggedTo (some { general := .data })).messages layout =
      transcript.messages layout := by
  have hLogged : Event.loggedBy (some { general := .data }) = fun _ => true :=
    funext Event.loggedBy_data
  have hFilter (events : List Event) : events.filter (fun _ => true) = events :=
    List.filter_eq_self.mpr fun _ _ => rfl
  simp [Transcript.messages, Transcript.loggedTo, Reply.loggedTo, hLogged, hFilter,
    Function.comp_def]

/-- Whatever the logger is, the steps of a program end in the same way and lead to the same state:
the same queues, handles, sink, writes under way and printer. As this holds for the beginning of
any program, the states on the way agree as well. What a logger is told, step by step and at the
end, is what a logger is told whose verbosity is `data`, as far as its severity is not above the
verbosity for queues as a number, which is the general one if they have none of their own; without
a logger nothing is logged. -/
theorem logging_never_interferes (layout : Layout) (program : List Step) :
    (∀ first second : Option Log.Config,
      (steps { logger := first } program).map unlogged =
        (steps { logger := second } program).map unlogged) ∧
    (∀ config : Log.Config,
      (transcript (some config) program).map (Transcript.messages layout) =
        (transcript (some { general := .data }) program).map fun told =>
          (told.messages layout).map (List.filter fun entry =>
            entry.severity.level ≤ (config.verbosity (some Event.component)).level)) ∧
    (transcript none program).map (Transcript.messages layout) =
      (transcript (some { general := .data }) program).map fun told =>
        (told.messages layout).map fun _ => [] := by
  constructor
  · intro first second
    change ((loggingTo first {}).steps program).map unlogged =
      ((loggingTo second {}).steps program).map unlogged
    rcases steps_loggingTo {} program with hNone | ⟨after, replies, hSteps⟩
    · rw [hNone, hNone]
    · rw [hSteps, hSteps, Option.map_some, Option.map_some, unlogged_loggingTo,
        unlogged_loggingTo]
  · rcases transcript_loggedTo program with hNone | ⟨told, hTold⟩
    · simp only [hNone]
      exact ⟨fun _ => rfl, rfl⟩
    · simp only [hTold, Option.map_some, messages_loggedTo_data]
      constructor
      · intro config
        rw [messages_loggedTo_some]
      · rw [messages_loggedTo_none]

end Session

end ByteQueue
