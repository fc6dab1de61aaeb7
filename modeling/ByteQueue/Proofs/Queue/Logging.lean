import ByteQueue.Proofs.Log.Impartial
import ByteQueue.Queue.Operation

/-!
Logging by queues. Every operation is impartial: queues that differ in their loggers alone differ
in their loggers alone afterwards, answer the same, and report to each logger, of the same events,
those that it should log. Events tell of the state of a queue and of arguments; none of them tells
of the logger, which is what the equations at the call sites say.
-/
namespace ByteQueue

theorem Settings.impartial_validate (settings : Settings) :
    Impartial (fun _ => id) fun logger => settings.validate logger := by
  unfold validate
  cases settings.failedCheck? with
  | none => exact .pure (.ok ()) fun _ => rfl
  | some check =>
    exact (Impartial.emit _ fun _ => rfl).bind fun _ => (Impartial.emit _ fun _ => rfl).bind
      fun _ => .pure (.error .badSettings) fun _ => rfl

theorem Settings.impartial_chooseSizing (settings : Settings) :
    Impartial (fun _ => id) fun logger => settings.chooseSizing logger :=
  (Impartial.emit _ fun _ => rfl).bind fun _ => .pure settings.sizing fun _ => rfl

namespace Queue

/-- The same queue with another logger. -/
def loggingTo (logger : Option Log.Config) (queue : Queue) : Queue := { queue with logger }

section

-- Conditions are rewritten together with the ways to decide them, which is not for `dsimp`.
variable (logger : Option Log.Config) (queue : Queue)

@[simp] theorem store_loggingTo : (queue.loggingTo logger).store = queue.store := (rfl)

@[simp] theorem headOffset_loggingTo :
    (queue.loggingTo logger).headOffset = queue.headOffset := (rfl)

@[simp] theorem size_loggingTo : (queue.loggingTo logger).size = queue.size := (rfl)

@[simp] theorem projected_loggingTo : (queue.loggingTo logger).projected = queue.projected := (rfl)

@[simp] theorem settings_loggingTo : (queue.loggingTo logger).settings = queue.settings := (rfl)

@[simp] theorem sizing_loggingTo : (queue.loggingTo logger).sizing = queue.sizing := (rfl)

@[simp] theorem isEmpty_loggingTo : (queue.loggingTo logger).isEmpty = queue.isEmpty := (rfl)

end

variable {α β : Type} {under : Option Log.Config → α → β}

/-- A call site in a queue, and the work after it. -/
theorem impartial_emit_bind {queues : Option Log.Config → Queue}
    {events : Option Log.Config → Event} {rest : Option Log.Config → Logged Event β}
    (hLogger : ∀ logger, (queues logger).logger = logger)
    (hEvent : ∀ logger, events logger = events none) (hRest : Impartial under rest) :
    Impartial under fun logger =>
      (queues logger).emit (events logger) >>= fun _ => rest logger := by
  have hSite (logger : Option Log.Config) :
      (queues logger).emit (events logger) = (events logger).emit logger := by
    rw [emit, hLogger]
  simp only [hSite]
  exact (Impartial.emit _ hEvent).bind fun _ => hRest

/-- The queue that impartial work leads to has the logger of that work. -/
theorem logger_value {work : Option Log.Config → Logged Event Queue} (h : Impartial loggingTo work)
    (logger : Option Log.Config) : (work logger).value.logger = logger := by
  obtain ⟨after, hAfter⟩ := h.exists_value logger
  rw [hAfter]
  rfl

theorem impartial_create (owner : Nat) (settings : Settings) :
    Impartial (fun logger => Except.map (loggingTo logger))
      fun logger => create logger owner settings := by
  unfold create
  refine settings.impartial_validate.bind fun outcome => ?_
  cases outcome with
  | error failure => exact .pure (.error failure) fun _ => rfl
  | ok _ =>
    refine settings.impartial_chooseSizing.bind fun _ => ?_
    exact impartial_emit_bind (fun _ => rfl) (fun _ => rfl)
      (.pure (.ok (fresh none owner settings)) fun _ => rfl)

theorem impartial_destroy (queue : Queue) :
    Impartial (fun _ => id) fun logger => (queue.loggingTo logger).destroy := by
  unfold destroy
  exact Impartial.emit (Event.destroyed queue.size queue.chunkCount) fun _ => rfl

/-! Operations at the tail. -/

theorem impartial_coalesce? (queue : Queue) (data : Block) :
    ImpartialIfAny loggingTo fun logger => (queue.loggingTo logger).coalesce? data := by
  unfold coalesce?
  simp only [store_loggingTo]
  cases queue.store.last? with
  | none => exact .none
  | some last =>
    cases last with
    | sealed _ => exact .none
    | filling tail =>
      dsimp only
      split
      · exact .none
      · refine .some (impartial_emit_bind (fun _ => rfl) (fun _ => rfl) (.pure ?_ ?_))
        · exact { queue with
            store := queue.store.setLast (.filling (tail.append data))
            size := queue.size + data.size }
        · exact fun _ => rfl

theorem impartial_pushCopy (queue : Queue) (piece : Block) :
    Impartial loggingTo fun logger => (queue.loggingTo logger).pushCopy piece := by
  unfold pushCopy
  exact impartial_emit_bind (fun _ => rfl) (fun _ => rfl)
    (.pure (queue.pushCopy piece).value fun _ => rfl)

theorem impartial_pushCopies (queue : Queue) (data : Block) :
    Impartial loggingTo fun logger => (queue.loggingTo logger).pushCopies data := by
  unfold pushCopies
  exact .fold impartial_pushCopy (data.pieces queue.sizing.greatest.toNat) queue

/-- Whether the tail chunk takes what is copied is not up to the logger. -/
theorem impartial_copyIn (queue : Queue) (data : Block) :
    Impartial loggingTo fun logger => (queue.loggingTo logger).copyIn data := by
  unfold copyIn
  rcases queue.impartial_coalesce? data with hNone | ⟨work, hWork, hSome⟩
  · simp only [hNone]
    exact queue.impartial_pushCopies data
  · simp only [hSome]
    exact hWork

theorem impartial_append (queue : Queue) (data : Block) :
    Impartial loggingTo fun logger => (queue.loggingTo logger).append data := by
  unfold append
  split
  · exact .pure queue fun _ => rfl
  · exact (queue.impartial_copyIn data).bind fun after =>
      impartial_emit_bind (fun _ => rfl) (fun _ => rfl) (.pure after fun _ => rfl)

theorem impartial_appendAll (queue : Queue) (pieces : List Block) :
    Impartial loggingTo fun logger => (queue.loggingTo logger).appendAll pieces := by
  unfold appendAll
  exact .fold impartial_append pieces queue

theorem foldl_pushHandle_loggingTo (logger : Option Log.Config) (parts : List Handle)
    (queue : Queue) :
    parts.foldl pushHandle (queue.loggingTo logger) =
      (parts.foldl pushHandle queue).loggingTo logger :=
  List.foldl_hom (loggingTo logger) fun _ _ => rfl

theorem impartial_pushReference (queue : Queue) (handle : Handle) :
    Impartial loggingTo fun logger => (queue.loggingTo logger).pushReference handle := by
  unfold pushReference
  simp only [sizing_loggingTo, foldl_pushHandle_loggingTo]
  split
  · exact impartial_emit_bind (fun _ => rfl) (fun _ => rfl)
      (.pure (queue.pushHandle handle) fun _ => rfl)
  · exact impartial_emit_bind (fun _ => rfl) (fun _ => rfl) (.pure _ fun _ => rfl)

theorem impartial_absorb (queue : Queue) (handle : Handle) :
    Impartial loggingTo fun logger => (queue.loggingTo logger).absorb handle := by
  unfold absorb
  simp only [settings_loggingTo]
  split
  · exact .pure queue fun _ => rfl
  · split
    · rcases queue.impartial_coalesce? handle.block with hNone | ⟨work, hWork, hSome⟩
      · simp only [hNone]
        exact queue.impartial_pushReference handle
      · simp only [hSome]
        exact hWork
    · exact queue.impartial_pushReference handle

theorem impartial_sealTail (queue : Queue) :
    Impartial loggingTo fun logger => (queue.loggingTo logger).sealTail := by
  unfold sealTail
  simp only [store_loggingTo]
  split
  · next tail _ =>
    refine impartial_emit_bind (fun _ => rfl) (fun _ => rfl) (.pure ?_ ?_)
    · exact { queue with store := queue.store.setLast (.sealed tail.release) }
    · exact fun _ => rfl
  · exact .pure queue fun _ => rfl

/-! Operations at the head. -/

theorem impartial_retireHead (state : ChunkStore × UInt64 × UInt64) :
    Impartial (fun _ => Sum.map id id) fun logger => retireHead logger state := by
  obtain ⟨store, offset, count⟩ := state
  dsimp only [retireHead]
  cases store.head? with
  | none => exact .pure (Sum.inr (store, offset)) fun _ => rfl
  | some head =>
    dsimp only
    split
    · exact .pure (Sum.inr (store, offset)) fun _ => rfl
    · split
      · exact .pure (Sum.inr (store, offset + count)) fun _ => rfl
      · exact (Impartial.emit _ fun _ => rfl).bind fun _ =>
          .pure (Sum.inl (store.tail, 0, count - (head.size - offset))) fun _ => rfl

theorem impartial_retireFrom (store : ChunkStore) (offset count : UInt64) :
    Impartial (fun _ => id) fun logger => retireFrom logger store offset count := by
  unfold retireFrom
  exact .iterate (fun state => (state.1, state.2.1)) impartial_retireHead (fun _ _ => rfl)
    store.length (store, offset, count)

theorem impartial_consume (queue : Queue) (count : UInt64) :
    Impartial loggingTo fun logger => (queue.loggingTo logger).consume count := by
  unfold consume
  exact (impartial_retireFrom queue.store queue.headOffset count).bind fun left =>
    .pure { queue with store := left.1, headOffset := left.2, size := queue.size - count }
      fun _ => rfl

theorem impartial_confirm (queue : Queue) (count : UInt64) :
    Impartial (fun logger => Except.map (loggingTo logger))
      fun logger => (queue.loggingTo logger).confirm count := by
  unfold confirm
  simp only [projected_loggingTo]
  split
  · exact impartial_emit_bind (fun _ => rfl) (fun _ => rfl) <|
      impartial_emit_bind (fun _ => rfl) (fun _ => rfl)
        (.pure (.error .overConfirmed) fun _ => rfl)
  · exact (queue.impartial_consume count).bind fun after =>
      impartial_emit_bind (fun _ => rfl) (fun _ => rfl)
        (.pure (.ok { after with projected := after.projected - count }) fun _ => rfl)

theorem impartial_copyFirst (queue : Queue) (count : UInt64) :
    Impartial (fun logger => Prod.map (loggingTo logger) id)
      fun logger => (queue.loggingTo logger).copyFirst count := by
  unfold copyFirst
  exact impartial_emit_bind (fun _ => rfl) (fun _ => rfl)
    (.pure (queue.copyFirst count).value fun _ => rfl)

theorem impartial_firstBytes (queue : Queue) (count : UInt64) :
    Impartial (fun logger => Except.map (Prod.map (loggingTo logger) id))
      fun logger => (queue.loggingTo logger).firstBytes count := by
  have hCopy : Impartial (fun logger => Except.map (ε := Failure) (Prod.map (loggingTo logger) id))
      fun logger => (queue.loggingTo logger).copyFirst count >>= fun copied =>
        pure (.ok copied) :=
    (queue.impartial_copyFirst count).bind fun copied => .pure (.ok copied) fun _ => rfl
  unfold firstBytes
  simp only [store_loggingTo, headOffset_loggingTo]
  split
  · next head _ =>
    split
    · cases head.slice queue.headOffset count with
      | ok slice =>
        exact impartial_emit_bind (fun _ => rfl) (fun _ => rfl)
          (.pure (.ok (queue, slice)) fun _ => rfl)
      | error failure => exact .pure (.error failure) fun _ => rfl
    · exact hCopy
  · exact hCopy

theorem impartial_take (queue : Queue) (count : UInt64) :
    Impartial (fun logger => Except.map (Prod.map (loggingTo logger) id))
      fun logger => (queue.loggingTo logger).take count := by
  unfold take
  simp only [size_loggingTo]
  split
  · exact impartial_emit_bind (fun _ => rfl) (fun _ => rfl) <|
      impartial_emit_bind (fun _ => rfl) (fun _ => rfl) (.pure (.error .overTaken) fun _ => rfl)
  · split
    · exact .pure (.ok (queue, .empty)) fun _ => rfl
    · refine (impartial_firstBytes { queue with projected := 0 } count).bind fun outcome => ?_
      cases outcome with
      | error failure => exact .pure (.error failure) fun _ => rfl
      | ok found =>
        exact (found.1.impartial_consume count).bind fun after =>
          .pure (.ok (after, found.2)) fun _ => rfl

theorem impartial_drain (queue : Queue) :
    Impartial (fun logger => Prod.map (loggingTo logger) id)
      fun logger => (queue.loggingTo logger).drain := by
  unfold drain
  exact impartial_emit_bind (fun _ => rfl) (fun _ => rfl) (.pure queue.drain.value fun _ => rfl)

theorem impartial_project (queue : Queue) (limit : UInt64) :
    Impartial (fun logger => Prod.map (loggingTo logger) id)
      fun logger => (queue.loggingTo logger).project limit := by
  unfold project
  exact impartial_emit_bind (fun _ => rfl) (fun _ => rfl)
    (.pure (queue.project limit).value fun _ => rfl)

theorem impartial_projectAll (queue : Queue) :
    Impartial (fun logger => Prod.map (loggingTo logger) id)
      fun logger => (queue.loggingTo logger).projectAll :=
  queue.impartial_project queue.settings.maxSlices

/-- A queue keeps the logger that it was created with. -/
theorem logger_apply (queue : Queue) (operation : Operation) :
    (queue.apply operation).logger = queue.logger := by
  cases operation with
  | append data => exact logger_value (queue.impartial_append data) queue.logger
  | appendAll pieces => exact logger_value (queue.impartial_appendAll pieces) queue.logger
  | absorb handle => exact logger_value (queue.impartial_absorb handle) queue.logger
  | sealTail => exact logger_value queue.impartial_sealTail queue.logger
  | project _ | projectAll | drain | clear => rfl
  | confirm count =>
    obtain ⟨outcome, hOutcome⟩ := (queue.impartial_confirm count).exists_value queue.logger
    rw [apply, show (queue.confirm count).value = _ from hOutcome]
    cases outcome <;> rfl
  | take count =>
    obtain ⟨outcome, hOutcome⟩ := (queue.impartial_take count).exists_value queue.logger
    rw [apply, show (queue.take count).value = _ from hOutcome]
    cases outcome <;> rfl

end Queue

end ByteQueue
