import ByteQueue.Proofs.Queue.Run
import ByteQueue.Session.Transcript

/-!
Printing onto a queue. A printer is opened, items are put, flushes are made and other bytes are
added to its queue in any order, and the printer is closed. The flushes cut all this into
stretches; each stretch ends with one run of characters, the last one with the closing. So a run
stands behind all that was added directly in its stretch, and the runs up to a flush are the text
of the items up to it.
-/
namespace ByteQueue

/-- What adds to a queue on which a printer is open. -/
inductive Contribution where
  | put (items : List Item)
  | flush
  | append (data : Block)
  | absorb (handle : String)

namespace Contribution

def action : Contribution → Action
  | .put items => .put items
  | .flush => .flushPrinter
  | .append data => .append data
  | .absorb handle => .absorb handle

/-- The items that are put. -/
def items : Contribution → List Item
  | .put items => items
  | _ => []

end Contribution

/-- A moment of printing. -/
inductive Moment where
  | print (item : Item)
  | flush
  /-- These bytes go to the queue past the printer. -/
  | direct (data : Bytes)

theorem Item.filter_cons {item : Item} (h : item ≠ .change .flush) (rest : List Item) :
    (item :: rest).filter (fun item => !item.isFlush) =
      item :: rest.filter fun item => !item.isFlush := by
  refine List.filter_cons_of_pos ?_
  unfold isFlush
  split
  · exact (h rfl).elim
  · rfl

namespace Moment

def ofItem : Item → Moment
  | .change .flush => .flush
  | item => .print item

theorem ofItem_of_ne {item : Item} (h : item ≠ .change .flush) : ofItem item = .print item := by
  unfold ofItem
  split
  · exact (h rfl).elim
  · rfl

def isFlush : Moment → Bool
  | .flush => true
  | _ => false

def item? : Moment → Option Item
  | .print item => some item
  | _ => none

def bytes : Moment → Bytes
  | .direct data => data
  | _ => []

theorem items_ofItem (items : List Item) :
    (items.map ofItem).filterMap item? = items.filter fun item => !item.isFlush := by
  induction items with
  | nil => rfl
  | cons item rest ih =>
    by_cases hf : item = .change .flush
    · subst hf
      exact ih
    · rw [List.map_cons, ofItem_of_ne hf, Item.filter_cons hf, ← ih]
      rfl

/-- Flushes are not items, so nothing is lost where they cut. -/
theorem items_splitOnP (moments : List Moment) :
    (moments.splitOnP isFlush).flatMap (List.filterMap item?) = moments.filterMap item? := by
  induction moments with
  | nil => rfl
  | cons moment rest ih =>
    obtain ⟨stretch, later, hs⟩ := List.exists_cons_of_ne_nil (List.splitOnP_ne_nil isFlush rest)
    rw [List.splitOnP_cons_eq_if_modifyHead]
    cases moment with
    | flush => exact ih
    | print item =>
      rw [hs] at ih ⊢
      exact congrArg (item :: ·) ih
    | direct data =>
      rw [hs] at ih ⊢
      exact ih

end Moment

/-- The moments of a contribution, if the handles have these names. -/
def Contribution.moments (named : NamedHandles) : Contribution → List Moment
  | .put items => items.map Moment.ofItem
  | .flush => [.flush]
  | .append data => [.direct data.bytes]
  | .absorb handle => [.direct ((named.get? handle).elim [] Handle.bytes)]

/-- A flush prints nothing, so items print the same without the flushes among them. -/
theorem Format.printAll_filter_flush (format : Format) (items : List Item) :
    format.printAll (items.filter fun item => !item.isFlush) = format.printAll items := by
  induction items generalizing format with
  | nil => rfl
  | cons item rest ih =>
    by_cases hf : item = .change .flush
    · subst hf
      exact ih format
    · rw [Item.filter_cons hf]
      simp only [printAll, ih]

/-- What is printed in the moments of contributions is what is put, apart from flushes. -/
theorem Contribution.items_moments (named : NamedHandles) (contributions : List Contribution) :
    (contributions.flatMap (moments named)).filterMap Moment.item? =
      (contributions.flatMap items).filter fun item => !item.isFlush := by
  induction contributions with
  | nil => rfl
  | cons contribution rest ih =>
    have hFirst : (contribution.moments named).filterMap Moment.item? =
        contribution.items.filter fun item => !item.isFlush := by
      cases contribution with
      | put items => exact Moment.items_ofItem items
      | _ => rfl
    rw [List.flatMap_cons, List.flatMap_cons, List.filterMap_append, List.filter_append, hFirst,
      ih]

namespace Printer

/-- What reaches the queue from some moments on, the printer being closed after them. -/
def follow (printer : Printer) : List Moment → Bytes
  | [] => Text.bytes printer.pending
  | .print item :: rest =>
    follow ⟨printer.pending ++ (printer.format.print item).1, (printer.format.print item).2⟩ rest
  | .flush :: rest => Text.bytes printer.pending ++ follow { printer with pending := [] } rest
  | .direct data :: rest => data ++ follow printer rest

/-- Items that are put pass on what their flushes pass on, and leave the printer as `print` does. -/
theorem follow_items (printer : Printer) (items : List Item) (rest : List Moment) :
    printer.follow (items.map Moment.ofItem ++ rest) =
      (printer.print items).1.flatMap Block.bytes ++ (printer.print items).2.follow rest := by
  fun_induction print printer items with
  | case1 => rfl
  | case2 printer items passed after h ih =>
    rw [h] at ih
    simp [Moment.ofItem, follow, ih, collected]
  | case3 printer item items hf text format h ih =>
    simp only [List.map_cons, List.cons_append, Moment.ofItem_of_ne hf, follow, h, ih]

/-- The runs with which a printer ends the stretches of some moments. Up to the end of any
stretch they are the text of the items so far, behind what was pending at first. -/
structure Ends (printer : Printer) (stretches : List (List Moment)) (runs : List Text) : Prop where
  length_eq : runs.length = stretches.length
  text_eq : ∀ count, (runs.take (count + 1)).flatten =
    printer.pending ++
      (printer.format.printAll
        ((stretches.take (count + 1)).flatMap (List.filterMap Moment.item?))).1

namespace Ends

variable {printer : Printer} {stretch : List Moment} {later : List (List Moment)}
  {runs : List Text}

/-- An item belongs to the first stretch, and its text to the run that ends it. -/
theorem print {item : Item}
    (h : Ends ⟨printer.pending ++ (printer.format.print item).1,
      (printer.format.print item).2⟩ (stretch :: later) runs) :
    printer.Ends ((.print item :: stretch) :: later) runs where
  length_eq := h.length_eq
  text_eq count := by
    rw [h.text_eq]
    simp [Moment.item?, Format.printAll]

theorem direct {data : Bytes} (h : printer.Ends (stretch :: later) runs) :
    printer.Ends ((.direct data :: stretch) :: later) runs where
  length_eq := h.length_eq
  text_eq count := h.text_eq count

theorem flush (h : Ends { printer with pending := [] } later runs) :
    printer.Ends ([] :: later) (printer.pending :: runs) where
  length_eq := congrArg (· + 1) h.length_eq
  text_eq count := by
    cases count with
    | zero => simp [Format.printAll]
    | succ count => simp [h.text_eq]

end Ends

/-- What stretches bring to the queue: each its direct bytes, and behind them its run. -/
def delivered (stretches : List (List Moment)) (runs : List Text) : Bytes :=
  (stretches.zip runs).flatMap fun (stretch, run) =>
    stretch.flatMap Moment.bytes ++ Text.bytes run

theorem delivered_cons (moment : Moment) (stretch : List Moment) (later : List (List Moment))
    {runs : List Text} (h : runs.length = (stretch :: later).length) :
    delivered ((moment :: stretch) :: later) runs =
      moment.bytes ++ delivered (stretch :: later) runs := by
  obtain ⟨run, runs, rfl⟩ := List.exists_cons_of_length_eq_add_one h
  simp [delivered]

theorem exists_ends (printer : Printer) (moments : List Moment) :
    ∃ runs, printer.Ends (moments.splitOnP Moment.isFlush) runs ∧
      printer.follow moments = delivered (moments.splitOnP Moment.isFlush) runs := by
  induction moments generalizing printer with
  | nil =>
    exact ⟨[printer.pending], ⟨rfl, fun count => by simp [Format.printAll]⟩,
      by simp [delivered, follow]⟩
  | cons moment rest ih =>
    obtain ⟨stretch, later, hs⟩ :=
      List.exists_cons_of_ne_nil (List.splitOnP_ne_nil Moment.isFlush rest)
    rw [List.splitOnP_cons_eq_if_modifyHead]
    cases moment with
    | print item =>
      obtain ⟨runs, hEnds, hFollow⟩ :=
        ih ⟨printer.pending ++ (printer.format.print item).1, (printer.format.print item).2⟩
      rw [if_neg (by simp [Moment.isFlush])]
      rw [hs] at hEnds hFollow ⊢
      refine ⟨runs, hEnds.print, ?_⟩
      rw [follow, hFollow, List.modifyHead_cons, delivered_cons _ _ _ hEnds.length_eq]
      rfl
    | direct data =>
      obtain ⟨runs, hEnds, hFollow⟩ := ih printer
      rw [if_neg (by simp [Moment.isFlush])]
      rw [hs] at hEnds hFollow ⊢
      refine ⟨runs, hEnds.direct, ?_⟩
      rw [follow, hFollow, List.modifyHead_cons, delivered_cons _ _ _ hEnds.length_eq]
      rfl
    | flush =>
      obtain ⟨runs, hEnds, hFollow⟩ := ih { printer with pending := [] }
      refine ⟨printer.pending :: runs, hEnds.flush, ?_⟩
      rw [follow, hFollow]
      rfl

end Printer

namespace Session

/-- The program that opens a printer on a queue, contributes, and closes the printer. -/
def printing (index : Nat) (contributions : List Contribution) : List Step :=
  ⟨index, .openPrinter⟩ :: contributions.map (fun contribution => ⟨index, contribution.action⟩)
    ++ [⟨index, .closePrinter⟩]

theorem value_receive (session : Session) {index : Nat} {queue : Queue}
    (h : session.queue? index = some queue) (passed : List Block) :
    (session.receive index passed).value =
      session.setQueue index (queue.appendAll passed).value := by
  rw [receive, h]
  rfl

theorem step_eq_some {session : Session} {index : Nat} {action : Action}
    {work : Logged Event Result} (h : session.perform index action = some work) :
    session.step ⟨index, action⟩ =
      some (work.value.1, ⟨work.value.2, (work.value.1.queue? index).map Queue.summary,
        session.logger.map fun _ => work.events⟩) := by
  rw [Session.step, h]
  rfl

/-- A printer is open on a queue, and the handles have these names. -/
structure Prints (session : Session) (index : Nat) (named : NamedHandles) (queue : Queue)
    (printer : Printer) : Prop where
  queue_eq : session.queue? index = some queue
  printer_eq : session.printer = some (index, printer)
  handles_eq : session.handles = named

namespace Prints

variable {session : Session} {index : Nat} {named : NamedHandles} {queue : Queue}
  {printer : Printer}

/-- Items that are put, a flush among them or not, add what the printer passes on. -/
theorem put (h : session.Prints index named queue printer) (items : List Item) :
    ∃ work, session.put items = some work ∧ work.value.2 = .returned .nothing .success ∧
      work.value.1.Prints index named (queue.appendAll (printer.print items).1).value
        (printer.print items).2 := by
  rw [Session.put, h.printer_eq]
  refine ⟨_, rfl, rfl, ?_⟩
  have received := value_receive { session with printer := some (index, (printer.print items).2) }
    h.queue_eq (printer.print items).1
  change (receive _ _ _).value.Prints _ _ _ _
  rw [received]
  exact ⟨queue?_setQueue .., rfl, h.handles_eq⟩

/-- What is added past the printer leaves it as it is. -/
theorem update (h : session.Prints index named queue printer) (work : Logged Event Queue) :
    (session.update index work).value.2 = .returned .nothing .success ∧
      (session.update index work).value.1.Prints index named work.value printer :=
  ⟨rfl, queue?_setQueue .., h.printer_eq, h.handles_eq⟩

/-- One contribution adds some bytes to the queue, and what follows afterwards is what would
have followed behind them. -/
theorem contribute (h : session.Prints index named queue printer) (contribution : Contribution)
    (known : ∀ name, contribution = .absorb name →
      ∃ handle, named.get? name = some handle ∧ handle.InBounds) :
    ∃ after reply data queue' printer',
      session.step ⟨index, contribution.action⟩ = some (after, reply) ∧
      reply.ending = .returned .nothing .success ∧ after.Prints index named queue' printer' ∧
      Queue.Grows queue data queue' ∧
      ∀ rest, printer.follow (contribution.moments named ++ rest) =
        data ++ printer'.follow rest := by
  cases contribution with
  | put items =>
    obtain ⟨work, hWork, hEnding, hPrints⟩ := h.put items
    exact ⟨_, _, _, _, _, step_eq_some hWork, hEnding, hPrints, Queue.grows_appendAll ..,
      fun rest => printer.follow_items items rest⟩
  | flush =>
    obtain ⟨work, hWork, hEnding, hPrints⟩ := h.put [.change .flush]
    exact ⟨_, _, _, _, _, step_eq_some hWork, hEnding, hPrints, Queue.grows_appendAll ..,
      fun rest => printer.follow_items [.change .flush] rest⟩
  | append data =>
    have hWork : session.perform index (.append data) =
        some (session.update index (queue.append data)) := by
      rw [perform, h.queue_eq]
      rfl
    obtain ⟨hEnding, hPrints⟩ := h.update (queue.append data)
    exact ⟨_, _, _, _, _, step_eq_some hWork, hEnding, hPrints, Queue.grows_append ..,
      fun rest => rfl⟩
  | absorb name =>
    obtain ⟨handle, hHandle, inBounds⟩ := known name rfl
    have hWork : session.perform index (.absorb name) =
        some (session.update index (queue.absorb handle)) := by
      rw [perform, h.queue_eq, handle?, h.handles_eq, hHandle]
      rfl
    obtain ⟨hEnding, hPrints⟩ := h.update (queue.absorb handle)
    refine ⟨_, _, _, _, _, step_eq_some hWork, hEnding, hPrints, Queue.grows_absorb queue inBounds,
      fun rest => ?_⟩
    simp [Contribution.moments, hHandle, Printer.follow]

/-- Closing a printer passes on what is pending. -/
theorem close (h : session.Prints index named queue printer) :
    ∃ after reply,
      session.step ⟨index, .closePrinter⟩ = some (after, reply) ∧
      reply.ending = .returned .nothing .success ∧ after.printer = none ∧
      after.queue? index = some (queue.appendAll [printer.collected]).value := by
  have closed : session.closePrinter.value =
      { session with printer := none }.setQueue index
        (queue.appendAll [printer.collected]).value := by
    rw [closePrinter, h.printer_eq]
    exact value_receive { session with printer := none } h.queue_eq _
  refine ⟨_, _, step_eq_some rfl, rfl, ?_⟩
  change session.closePrinter.value.printer = none ∧ session.closePrinter.value.queue? index = _
  rw [closed]
  exact ⟨rfl, queue?_setQueue ..⟩

/-- Contributions and the closing, one after the other. -/
theorem steps (h : session.Prints index named queue printer) (contributions : List Contribution)
    (known : ∀ name, .absorb name ∈ contributions →
      ∃ handle, named.get? name = some handle ∧ handle.InBounds) :
    ∃ after replies final,
      session.steps (contributions.map (fun contribution => ⟨index, contribution.action⟩) ++
        [⟨index, .closePrinter⟩]) = some (after, replies) ∧
      (∀ reply ∈ replies, reply.ending = .returned .nothing .success) ∧
      after.printer = none ∧ after.queue? index = some final ∧
      Queue.Grows queue (printer.follow (contributions.flatMap (Contribution.moments named)))
        final := by
  induction contributions generalizing session queue printer with
  | nil =>
    obtain ⟨after, reply, hStep, hEnding, hPrinter, hQueue⟩ := h.close
    refine ⟨after, [reply], _, ?_, by simpa using hEnding, hPrinter, hQueue, ?_⟩
    · rw [List.map_nil, List.nil_append, steps_cons_of_step hStep]
      rfl
    · have hGrows := Queue.grows_appendAll queue [printer.collected]
      simpa [Printer.follow, Printer.collected] using hGrows
  | cons contribution rest ih =>
    obtain ⟨between, reply, data, queue', printer', hStep, hEnding, hPrints, hGrows, hFollow⟩ :=
      h.contribute contribution fun name hName => known name (hName ▸ List.mem_cons_self)
    obtain ⟨after, replies, final, hSteps, hEndings, hPrinter, hQueue, hRest⟩ :=
      ih hPrints fun name hName => known name (List.mem_cons_of_mem _ hName)
    refine ⟨after, reply :: replies, final, ?_, ?_, hPrinter, hQueue, ?_⟩
    · rw [List.map_cons, List.cons_append, steps_cons_of_step hStep, hSteps]
      rfl
    · exact List.forall_mem_cons.mpr ⟨hEnding, hEndings⟩
    · rw [List.flatMap_cons, hFollow]
      exact hGrows.trans hRest

end Prints

/-- A printer that is opened where none was open starts with nothing pending and the standard
format. -/
theorem open_prints {session : Session} {index : Nat} {queue : Queue}
    (hQueue : session.queue? index = some queue) (idle : session.printer = none) :
    ∃ after reply,
      session.step ⟨index, .openPrinter⟩ = some (after, reply) ∧
      reply.ending = .returned .nothing .success ∧
      after.Prints index session.handles queue {} := by
  have hWork : ∃ work, session.perform index .openPrinter = some work ∧
      work.value = ({ session with printer := some (index, {}) }, .returned .nothing .success) := by
    rw [perform, hQueue, closePrinter, idle]
    exact ⟨_, rfl, rfl⟩
  obtain ⟨work, hWork, hValue⟩ := hWork
  refine ⟨_, _, step_eq_some hWork, congrArg Prod.snd hValue, ?_⟩
  rw [hValue]
  exact ⟨hQueue, rfl, rfl⟩

/-- Whatever is put, flushed and added directly between the opening and the closing of a printer
succeeds. What reaches the queue is, stretch by stretch between the flushes, the direct bytes of
the stretch and then one run of characters. The runs together are the text that the items have on
a fresh stream, whether or not the flushes among them are counted, and so are the runs up to any
flush for the items up to it. Printers have room for all characters that are pending at a time. -/
theorem printing_is_transparent (session : Session) (index : Nat) (queue : Queue)
    (hQueue : session.queue? index = some queue) (consistent : queue.Consistent)
    (idle : session.printer = none) (contributions : List Contribution)
    (known : ∀ name, .absorb name ∈ contributions →
      ∃ handle, session.handle? name = some handle ∧ handle.InBounds) :
    let items := contributions.flatMap Contribution.items
    let stretches :=
      (contributions.flatMap (Contribution.moments session.handles)).splitOnP Moment.isFlush
    ∃ after replies final,
      session.steps (printing index contributions) = some (after, replies) ∧
      (∀ reply ∈ replies, reply.ending = .returned .nothing .success) ∧
      after.printer = none ∧ after.queue? index = some final ∧
      ∃ runs : List Text, runs.length = stretches.length ∧
        runs.flatten = Text.ofItems items ∧
        runs.flatten = Text.ofItems (items.filter fun item => !item.isFlush) ∧
        (∀ count, (runs.take count).flatten =
          Text.ofItems ((stretches.take count).flatMap (List.filterMap Moment.item?))) ∧
        final.content = queue.content ++ Printer.delivered stretches runs := by
  intro items stretches
  obtain ⟨opened, reply, hStep, hEnding, hPrints⟩ := open_prints hQueue idle
  obtain ⟨after, replies, final, hSteps, hEndings, hPrinter, hFinal, hGrows⟩ :=
    hPrints.steps contributions known
  obtain ⟨runs, hEnds, hFollow⟩ :=
    Printer.exists_ends {} (contributions.flatMap (Contribution.moments session.handles))
  have hText : runs.flatten = Text.ofItems (items.filter fun item => !item.isFlush) := by
    have whole := hEnds.text_eq runs.length
    rw [List.take_of_length_le (Nat.le_succ _),
      List.take_of_length_le (hEnds.length_eq ▸ Nat.le_succ _), Moment.items_splitOnP,
      Contribution.items_moments] at whole
    exact whole
  refine ⟨after, reply :: replies, final, ?_, List.forall_mem_cons.mpr ⟨hEnding, hEndings⟩,
    hPrinter, hFinal, runs, hEnds.length_eq, ?_, hText, fun count => ?_, ?_⟩
  · rw [printing, List.cons_append, steps_cons_of_step hStep, hSteps]
    rfl
  · rw [hText, Text.ofItems, Format.printAll_filter_flush]
    rfl
  · cases count with
    | zero => rfl
    | succ count => exact hEnds.text_eq count
  · rw [hGrows.content_eq consistent, hFollow]

/-- Hexadecimal numbers with a byte between them, a flush among the items that are put, and a
handle behind what is pending at the end. -/
theorem printing_is_transparent_in_hexadecimal :
    let settings : Settings := { initialChunkSize := 4, maxSlices := 2 }
    let queue := ((Queue.fresh none 0 settings).append (.ofBytes [9])).value
    let handle := Handle.ofBlock ⟨1, 0⟩ (.ofBytes [7, 8])
    let session : Session :=
      { queues := [(0, queue)], handles := NamedHandles.empty.insert "h" handle }
    let contributions : List Contribution :=
      [.put [.change (.base .hexadecimal), .unsigned 255], .append (.ofBytes [1]), .flush,
        .put [.unsigned 16, .change .flush, .char 'x'], .absorb "h"]
    session.queue? 0 = some queue ∧ queue.Consistent ∧ session.printer = none ∧
      session.handle? "h" = some handle ∧ handle.InBounds ∧
      ∃ after replies final,
        session.steps (printing 0 contributions) = some (after, replies) ∧
        (∀ reply ∈ replies, reply.ending = .returned .nothing .success) ∧
        after.queue? 0 = some final ∧ final.content = [9, 1, 102, 102, 49, 48, 7, 8, 120] ∧
        ∃ runs : List Text, runs.length = 3 ∧ runs.flatten = "ff10x".toList := by
  intro settings queue handle session contributions
  have hValid : settings.Valid := by decide
  have hConsistent : queue.Consistent :=
    (Queue.grows_append _ _).consistent (Queue.wellFormed_fresh none 0 hValid).toConsistent
      (by decide +kernel)
  have hHandle : session.handle? "h" = some handle := by simp [session, handle?]
  have hBounds : handle.InBounds := by decide
  obtain ⟨after, replies, final, hSteps, hEndings, _, hFinal, runs, hLength, hText, _⟩ :=
    printing_is_transparent session 0 queue rfl hConsistent rfl contributions (by
      intro name hName
      obtain rfl : name = "h" := by simpa [contributions] using hName
      exact ⟨handle, hHandle, hBounds⟩)
  have hComputed : ((session.steps (printing 0 contributions)).bind fun told =>
      (told.1.queue? 0).map Queue.content) = some [9, 1, 102, 102, 49, 48, 7, 8, 120] := by
    decide +kernel
  rw [hSteps] at hComputed
  change (after.queue? 0).map Queue.content = _ at hComputed
  rw [hFinal] at hComputed
  exact ⟨rfl, hConsistent, rfl, hHandle, hBounds, after, replies, final, hSteps, hEndings, hFinal,
    Option.some.inj hComputed, runs, hLength.trans (by decide +kernel),
    hText.trans (by decide +kernel)⟩

end Session

end ByteQueue
