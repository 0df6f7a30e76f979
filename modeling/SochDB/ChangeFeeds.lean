import SochDB.Library.Runs
import SochDB.Library.KeyedMaps
import SochDB.RowKeys

/-!
The feed of changes: emitters take a sequence number for each event that they record and
put their events into the log when they are flushed, and a subscriber reads the log from
the last number that it has seen.
-/
namespace ChangeFeeds
open KeyedMaps Runs Utf8 WalRecords List

inductive CdcOperation where
  | insert (after : Bytes)
  | update (before : Option Bytes) (after : Bytes)
  | delete (before : Option Bytes)
  | schemaChange (ddl : Str)
  deriving DecidableEq

structure CdcEvent where
  sequence : Nat
  timestampUs : UInt64
  txnId : UInt64
  table : Str
  key : Bytes
  operation : CdcOperation
  deriving DecidableEq

inductive CdcError where
  | overrun (requested oldestAvailable : Nat)
  deriving DecidableEq, Repr

/-- The log is never shut down here. -/
structure CdcLog where
  buffer : List CdcEvent
  capacity : Nat
  nextSeq : Nat

namespace CdcLog
variable (log : CdcLog)

def new (capacity : Nat) : CdcLog := ⟨[], capacity, 1⟩

/-- The oldest event makes room where the buffer is full. -/
def pushBack (capacity : Nat) (buffer : List CdcEvent) (event : CdcEvent) : List CdcEvent :=
  (if capacity ≤ buffer.length then buffer.tail else buffer) ++ [event]

def emit (events : List CdcEvent) : CdcLog :=
  { log with buffer := events.foldl (pushBack log.capacity) log.buffer }

def nextSequence : CdcLog × Nat := ({ log with nextSeq := log.nextSeq + 1 }, log.nextSeq)

def readFrom (fromSeq maxEvents : Nat) : Except CdcError (List CdcEvent) :=
  match log.buffer.head?, log.buffer.getLast? with
  | some oldest, some newest =>
    if fromSeq < oldest.sequence then .error (.overrun fromSeq oldest.sequence)
    else if newest.sequence < fromSeq then .ok []
    else
      let startIdx := log.buffer.findIdx fun event => fromSeq ≤ event.sequence
      .ok ((log.buffer.drop startIdx).take maxEvents)
  | _, _ => .ok []

end CdcLog

structure CdcEmitter where
  txnId : UInt64
  pending : List CdcEvent

namespace CdcEmitter
variable (emitter : CdcEmitter) (log : CdcLog) (now : UInt64)

/-- What all recorded events have in common: a number is taken, and the event is kept back. -/
def record (table : Str) (key : Bytes) (operation : CdcOperation) : CdcEmitter × CdcLog :=
  let next := log.nextSequence
  let event : CdcEvent := ⟨next.2, now, emitter.txnId, table, key, operation⟩
  ({ emitter with pending := emitter.pending ++ [event] }, next.1)

def insert (table : Str) (key value : Bytes) : CdcEmitter × CdcLog :=
  emitter.record log now table key (.insert value)

def update (table : Str) (key newValue : Bytes) : CdcEmitter × CdcLog :=
  emitter.record log now table key (.update none newValue)

def delete (table : Str) (key : Bytes) : CdcEmitter × CdcLog :=
  emitter.record log now table key (.delete none)

def schemaChange (table ddl : Str) : CdcEmitter × CdcLog :=
  emitter.record log now table [] (.schemaChange ddl)

def flush : CdcLog := if emitter.pending.isEmpty then log else log.emit emitter.pending

end CdcEmitter

structure CdcSubscriber where
  lastSeq : Nat
  tableFilter : Option (List Str)

namespace CdcSubscriber
variable (subscriber : CdcSubscriber)

def wants (event : CdcEvent) : Bool := subscriber.tableFilter.all fun tables => tables.contains event.table

def poll (log : CdcLog) (maxEvents : Nat) : CdcSubscriber × Except CdcError (List CdcEvent) :=
  match log.readFrom (subscriber.lastSeq + 1) maxEvents with
  | .error e => (subscriber, .error e)
  | .ok events =>
    let filtered := events.filter subscriber.wants
    ({ subscriber with lastSeq := (filtered.getLast?.map CdcEvent.sequence).getD subscriber.lastSeq },
      .ok filtered)

end CdcSubscriber

inductive Change where
  | insert (table : Str) (key value : Bytes)
  | update (table : Str) (key newValue : Bytes)
  | delete (table : Str) (key : Bytes)
  | schemaChange (table ddl : Str)

def Change.record (emitter : CdcEmitter) (log : CdcLog) (now : UInt64) : Change → CdcEmitter × CdcLog
  | .insert table key value => emitter.insert log now table key value
  | .update table key newValue => emitter.update log now table key newValue
  | .delete table key => emitter.delete log now table key
  | .schemaChange table ddl => emitter.schemaChange log now table ddl

inductive Op where
  | newEmitter (emitter : Nat) (txnId : UInt64)
  | record (emitter : Nat) (now : UInt64) (change : Change)
  | flush (emitter : Nat)
  | discard (emitter : Nat)
  | nextSequence
  | emit (events : List CdcEvent)
  | poll (maxEvents : Nat)

/-- The log with its emitters and one subscriber. The last five fields watch: how many
    events were recorded, which ones entered the log and which of them before the last poll,
    which ones the subscriber was given, and whether a poll failed. -/
structure Feed where
  log : CdcLog
  emitters : Map Nat CdcEmitter
  subscriber : CdcSubscriber
  recorded : Nat
  flushed : List CdcEvent
  polled : List CdcEvent
  received : List CdcEvent
  failed : Bool

namespace Feed

def new (capacity : Nat) (tableFilter : Option (List Str)) : Feed :=
  ⟨.new capacity, ∅, ⟨0, tableFilter⟩, 0, [], [], [], false⟩

/-- Every call takes effect at once: it holds the lock of the buffer, or takes one number. -/
def step (feed : Feed) : Op → Feed
  | .newEmitter emitter txnId =>
    if get feed.emitters emitter = none then
      { feed with emitters := feed.emitters.insert emitter ⟨txnId, []⟩ }
    else feed
  | .record emitter now change =>
    match get feed.emitters emitter with
    | none => feed
    | some held =>
      { feed with
        emitters := feed.emitters.insert emitter (change.record held feed.log now).1
        log := (change.record held feed.log now).2
        recorded := feed.recorded + 1 }
  | .flush emitter =>
    match get feed.emitters emitter with
    | none => feed
    | some held =>
      { feed with
        emitters := feed.emitters.erase emitter
        log := held.flush feed.log
        flushed := feed.flushed ++ held.pending }
  | .discard emitter => { feed with emitters := feed.emitters.erase emitter }
  | .nextSequence => { feed with log := feed.log.nextSequence.1 }
  | .emit events =>
    { feed with
      log := feed.log.emit events
      recorded := feed.recorded + events.length
      flushed := feed.flushed ++ events }
  | .poll maxEvents =>
    match feed.subscriber.poll feed.log maxEvents with
    | (subscriber, .error _) => { feed with subscriber := subscriber, polled := feed.flushed, failed := true }
    | (subscriber, .ok events) =>
      { feed with
        subscriber := subscriber, polled := feed.flushed, received := feed.received ++ events }

/-- The events received are those that were flushed before the last poll and are wanted,
    each as often as it was flushed, and no poll has failed. -/
def Faithful (feed : Feed) : Prop :=
  feed.received.Perm (feed.polled.filter feed.subscriber.wants) ∧ feed.failed = false

/-- Fewer events than the log has room for are recorded in all. -/
def Roomy (feed : Feed) (op : Op) : Prop := (feed.step op).recorded < feed.log.capacity

def Ascending (events : List CdcEvent) : Prop :=
  (events.Pairwise fun a b => a.sequence < b.sequence) ∧ events.head?.all fun event => event.sequence = 1

/-- Events enter the log in the order of their numbers with none of the first missing, and a
    poll asks for as many events as the log has past the subscriber's position. -/
def Steady (feed : Feed) : Op → Prop
  | .flush emitter =>
    Ascending (feed.log.buffer ++ ((get feed.emitters emitter).map CdcEmitter.pending).getD [])
  | .emit events => Ascending (feed.log.buffer ++ events)
  | .poll maxEvents =>
    (feed.log.buffer.filter fun event => feed.subscriber.lastSeq < event.sequence).length ≤ maxEvents
  | _ => True

instance (feed : Feed) (op : Op) : Decidable (feed.Roomy op) := inferInstanceAs (Decidable (_ < _))

instance (events : List CdcEvent) : Decidable (Ascending events) := inferInstanceAs (Decidable (_ ∧ _))

instance (feed : Feed) : (op : Op) → Decidable (feed.Steady op)
  | .flush _ | .emit _ => inferInstanceAs (Decidable (Ascending _))
  | .poll _ => inferInstanceAs (Decidable (_ ≤ _))
  | .newEmitter .. | .record .. | .discard _ | .nextSequence => inferInstanceAs (Decidable True)

end Feed

section Reading
variable {log : CdcLog}

theorem emit_with_room (log : CdcLog) (events : List CdcEvent)
    (room : log.buffer.length + events.length ≤ log.capacity) :
    log.emit events = { log with buffer := log.buffer ++ events } := by
  have pushed : ∀ (events buffer : List CdcEvent), buffer.length + events.length ≤ log.capacity →
      events.foldl (CdcLog.pushBack log.capacity) buffer = buffer ++ events := by
    intro events
    induction events with
    | nil => intro buffer _; exact (append_nil buffer).symm
    | cons event events ih =>
      intro buffer room
      rw [length_cons] at room
      have fits : ¬log.capacity ≤ buffer.length := by omega
      rw [foldl_cons, CdcLog.pushBack, if_neg fits, ih]
      · rw [append_assoc, singleton_append]
      · rw [length_append, length_singleton]
        omega
  rw [CdcLog.emit, pushed events log.buffer room]

variable {events : List CdcEvent}

/-- A condition that once met stays met splits a list at the first element that meets it. -/
theorem filter_of_lasting {p : CdcEvent → Bool}
    (lasting : events.Pairwise fun a b => p a = true → p b = true) :
    events.drop (events.findIdx p) = events.filter p ∧
      events = events.filter (fun event => !p event) ++ events.filter p := by
  induction events with
  | nil => exact ⟨rfl, rfl⟩
  | cons event rest ih =>
    obtain ⟨first, later⟩ := pairwise_cons.mp lasting
    obtain ⟨dropped, split⟩ := ih later
    cases met : p event with
    | false =>
      rw [findIdx_cons, met, filter_cons_of_neg (by simp [met]),
        filter_cons_of_pos (by simp [met])]
      exact ⟨dropped, congrArg (event :: ·) split⟩
    | true =>
      have all : ∀ other ∈ rest, p other = true := fun other member => first other member met
      have kept : rest.filter p = rest := filter_eq_self.mpr all
      have none : rest.filter (fun other => !p other) = [] := by
        rw [filter_eq_nil_iff]
        intro other member
        simp [all other member]
      rw [findIdx_cons, met, filter_cons_of_pos met, filter_cons_of_neg (by simp [met]),
        kept, none]
      exact ⟨rfl, rfl⟩

theorem lasting_above (increasing : events.Pairwise fun a b => a.sequence < b.sequence) (bound : Nat) :
    events.Pairwise fun a b => decide (bound < a.sequence) = true → decide (bound < b.sequence) = true := by
  apply increasing.imp
  intro a b less above
  rw [decide_eq_true_eq] at above ⊢
  omega

theorem le_last (increasing : events.Pairwise fun a b => a.sequence < b.sequence) {newest : CdcEvent}
    (last : events.getLast? = some newest) :
    ∀ event ∈ events, event.sequence ≤ newest.sequence := by
  intro event member
  obtain ⟨before, rfl⟩ := List.getLast?_eq_some_iff.mp last
  rcases mem_append.mp member with earlier | here
  · exact ((pairwise_append.mp increasing).2.2 event earlier newest (mem_singleton_self _)).le
  · rw [mem_singleton.mp here]

theorem readFrom_past (ascending : Feed.Ascending log.buffer) {position maxEvents : Nat}
    (enough : (log.buffer.filter fun event => position < event.sequence).length ≤ maxEvents) :
    log.readFrom (position + 1) maxEvents =
      .ok (log.buffer.filter fun event => position < event.sequence) := by
  obtain ⟨increasing, starts⟩ := ascending
  unfold CdcLog.readFrom
  cases first : log.buffer.head? with
  | none =>
    have empty : log.buffer = [] := List.head?_eq_none_iff.mp first
    rw [empty]
    rfl
  | some oldest =>
    cases last : log.buffer.getLast? with
    | none =>
      have empty : log.buffer = [] := List.getLast?_eq_none_iff.mp last
      rw [empty] at first
      cases first
    | some newest =>
      rw [first] at starts
      have one : oldest.sequence = 1 := by simpa using starts
      have reaches : ¬position + 1 < oldest.sequence := by omega
      simp only [if_neg reaches]
      split
      · rename_i beyond
        rw [filter_eq_nil_iff.mpr]
        intro event member
        have bounded := le_last increasing last event member
        rw [decide_eq_true_eq]
        omega
      · have found := (filter_of_lasting (lasting_above increasing position)).1
        have same : (fun event : CdcEvent => decide (position + 1 ≤ event.sequence)) =
            fun event => decide (position < event.sequence) := rfl
        rw [same, found, take_of_length_le enough]

end Reading

section Delivery

variable {events : List CdcEvent}

theorem ascending_positive (ascending : Feed.Ascending events) :
    ∀ event ∈ events, 0 < event.sequence := by
  intro event member
  cases events with
  | nil => cases member
  | cons first rest =>
    have one : first.sequence = 1 := by simpa [Feed.Ascending] using ascending.2
    rcases mem_cons.mp member with rfl | later
    · omega
    · have above := (pairwise_cons.mp ascending.1).1 event later
      omega

def seen (subscriber : CdcSubscriber) (events : List CdcEvent) : List CdcEvent :=
  events.filter fun event => subscriber.wants event && decide (event.sequence ≤ subscriber.lastSeq)

structure Current (feed : Feed) : Prop where
  buffer : feed.log.buffer = feed.flushed
  counted : feed.flushed.length + total (fun emitter => emitter.pending.length) feed.emitters ≤ feed.recorded
  ascending : Feed.Ascending feed.flushed
  received : feed.received = seen feed.subscriber feed.flushed
  polled : feed.polled.filter feed.subscriber.wants = feed.received
  position : feed.subscriber.lastSeq = 0 ∨
    ∃ event ∈ feed.flushed, event.sequence = feed.subscriber.lastSeq
  clean : feed.failed = false

theorem Current.new (capacity : Nat) (tableFilter : Option (List Str)) :
    Current (.new capacity tableFilter) where
  buffer := rfl
  counted := le_rfl
  ascending := ⟨List.Pairwise.nil, rfl⟩
  received := rfl
  polled := rfl
  position := Or.inl rfl
  clean := rfl

theorem Current.faithful {feed : Feed} (current : Current feed) : feed.Faithful :=
  ⟨by rw [current.polled], current.clean⟩

variable {feed : Feed}

theorem Current.seen_append (current : Current feed) (ascending : Feed.Ascending (feed.flushed ++ events)) :
    seen feed.subscriber (feed.flushed ++ events) = seen feed.subscriber feed.flushed := by
  have none : seen feed.subscriber events = [] := ?_
  · unfold seen at none ⊢
    rw [filter_append, none, append_nil]
  rw [seen, filter_eq_nil_iff]
  intro event member
  have later : feed.subscriber.lastSeq < event.sequence := by
    rcases current.position with start | ⟨old, inside, here⟩
    · have positive := ascending_positive ascending event (mem_append_right _ member)
      omega
    · have less := (pairwise_append.mp ascending.1).2.2 old inside event member
      omega
  rw [Bool.and_eq_true, decide_eq_true_eq]
  omega

variable {log : CdcLog} {emitters : Map Nat CdcEmitter} {recorded : Nat}

theorem Current.append (current : Current feed) (ascending : Feed.Ascending (feed.log.buffer ++ events))
    (buffer : log.buffer = feed.log.buffer ++ events) (counted : (feed.flushed ++ events).length +
      total (fun emitter => emitter.pending.length) emitters ≤ recorded) :
    Current { feed with
      log := log, emitters := emitters, recorded := recorded, flushed := feed.flushed ++ events } where
  buffer := by rw [buffer, current.buffer]
  counted := counted
  ascending := current.buffer ▸ ascending
  received := current.received.trans (current.seen_append (current.buffer ▸ ascending)).symm
  polled := current.polled
  position := current.position.imp_right fun ⟨event, inside, here⟩ =>
    ⟨event, mem_append_left _ inside, here⟩
  clean := current.clean

theorem split_at_position (increasing : feed.flushed.Pairwise fun a b => a.sequence < b.sequence) :
    seen feed.subscriber feed.flushed ++ (feed.flushed.filter fun event =>
      decide (feed.subscriber.lastSeq < event.sequence)).filter feed.subscriber.wants =
    feed.flushed.filter feed.subscriber.wants := by
  have wanted := increasing.sublist (filter_sublist (p := feed.subscriber.wants))
  have split := (filter_of_lasting (lasting_above wanted feed.subscriber.lastSeq)).2
  rw [filter_filter, filter_filter] at split
  rw [split]
  rw [filter_filter]
  congr 1
  · apply filter_congr
    intro event _
    have flipped : (!decide (feed.subscriber.lastSeq < event.sequence)) =
        decide (event.sequence ≤ feed.subscriber.lastSeq) := by
      rw [← decide_not]
      exact decide_eq_decide.mpr Nat.not_lt
    rw [Bool.and_comm, flipped]
  · apply filter_congr
    intro event _
    rw [Bool.and_comm]

def advanced (subscriber : CdcSubscriber) (events : List CdcEvent) : CdcSubscriber :=
  { subscriber with lastSeq := (events.getLast?.map CdcEvent.sequence).getD subscriber.lastSeq }

theorem seen_advanced (increasing : feed.flushed.Pairwise fun a b => a.sequence < b.sequence)
    {fresh : List CdcEvent} (isFresh : fresh = (feed.flushed.filter fun event =>
      decide (feed.subscriber.lastSeq < event.sequence)).filter feed.subscriber.wants) :
    seen (advanced feed.subscriber fresh) feed.flushed = feed.flushed.filter feed.subscriber.wants := by
  apply filter_congr
  intro event member
  show (feed.subscriber.wants event && decide (event.sequence ≤ (advanced feed.subscriber fresh).lastSeq)) =
    feed.subscriber.wants event
  cases wanted : feed.subscriber.wants event with
  | false => rfl
  | true =>
    rw [Bool.true_and, decide_eq_true_eq]
    have inFresh : feed.subscriber.lastSeq < event.sequence → event ∈ fresh := by
      intro past
      rw [isFresh, mem_filter, mem_filter, decide_eq_true_eq]
      exact ⟨⟨member, past⟩, wanted⟩
    have fresh_past : ∀ other ∈ fresh, feed.subscriber.lastSeq < other.sequence := by
      intro other inside
      rw [isFresh, mem_filter, mem_filter, decide_eq_true_eq] at inside
      exact inside.1.2
    unfold advanced
    cases last : fresh.getLast? with
    | none =>
      rw [List.getLast?_eq_none_iff] at last
      by_contra past
      have inside := inFresh (by simpa using past)
      rw [last] at inside
      cases inside
    | some newest =>
      show event.sequence ≤ newest.sequence
      by_cases past : feed.subscriber.lastSeq < event.sequence
      · have sorted : fresh.Pairwise fun a b => a.sequence < b.sequence := by
          rw [isFresh]
          exact (increasing.sublist filter_sublist).sublist filter_sublist
        exact le_last sorted last event (inFresh past)
      · have bound := fresh_past newest (mem_of_getLast? last)
        omega

theorem Current.poll (current : Current feed) {maxEvents : Nat} (steady : feed.Steady (.poll maxEvents)) :
    Current (feed.step (.poll maxEvents)) := by
  have steady : (feed.log.buffer.filter fun event =>
      feed.subscriber.lastSeq < event.sequence).length ≤ maxEvents := steady
  have read := readFrom_past (current.buffer ▸ current.ascending) steady
  rw [current.buffer] at read
  let fresh := (feed.flushed.filter fun event =>
    decide (feed.subscriber.lastSeq < event.sequence)).filter feed.subscriber.wants
  have polled : feed.step (.poll maxEvents) = { feed with
      subscriber := advanced feed.subscriber fresh
      polled := feed.flushed
      received := feed.received ++ fresh } := by
    simp only [Feed.step, CdcSubscriber.poll, read]
    rfl
  rw [polled]
  have everything : feed.received ++ fresh = feed.flushed.filter feed.subscriber.wants := by
    rw [current.received]
    exact split_at_position current.ascending.1
  exact {
    buffer := current.buffer
    counted := current.counted
    ascending := current.ascending
    received := everything.trans (seen_advanced current.ascending.1 rfl).symm
    polled := everything.symm
    clean := current.clean
    position := by
      unfold advanced
      cases last : fresh.getLast? with
      | none => exact current.position
      | some newest =>
        have inside := mem_of_getLast? last
        exact Or.inr ⟨newest, (mem_filter.mp (mem_filter.mp inside).1).1, rfl⟩ }

theorem record_shape (change : Change) (emitter : CdcEmitter) (log : CdcLog) (now : UInt64) :
    (change.record emitter log now).1.pending.length = emitter.pending.length + 1 ∧
      (change.record emitter log now).2.buffer = log.buffer := by
  cases change <;> exact ⟨length_append, rfl⟩

theorem Current.unpolled (current : Current feed) (buffer : log.buffer = feed.log.buffer)
    (counted : feed.flushed.length + total (fun emitter => emitter.pending.length) emitters ≤ recorded) :
    Current { feed with log := log, emitters := emitters, recorded := recorded } where
  buffer := buffer.trans current.buffer
  counted := counted
  ascending := current.ascending
  received := current.received
  polled := current.polled
  position := current.position
  clean := current.clean

theorem Current.step (current : Current feed) {op : Op} (roomy : feed.Roomy op) (steady : feed.Steady op) :
    Current (feed.step op) := by
  have counted := current.counted
  cases op with
  | poll maxEvents => exact current.poll steady
  | nextSequence => exact current.unpolled rfl counted
  | discard emitter =>
    have erased := total_erase (fun emitter => emitter.pending.length) feed.emitters emitter
    apply current.unpolled rfl
    omega
  | newEmitter emitter txnId =>
    unfold Feed.step
    dsimp only
    split
    · rename_i absent
      have inserted := total_insert (fun emitter => emitter.pending.length) feed.emitters emitter ⟨txnId, []⟩
      simp only [length_nil] at inserted
      apply current.unpolled rfl
      omega
    · exact current
  | record emitter now change =>
    unfold Feed.step
    dsimp only
    split
    · exact current
    · rename_i held found
      obtain ⟨longer, sameBuffer⟩ := record_shape change held feed.log now
      have inserted := total_insert (fun emitter => emitter.pending.length) feed.emitters emitter
        (change.record held feed.log now).1
      rw [share, found, Option.map_some, Option.getD_some, longer] at inserted
      apply current.unpolled sameBuffer
      omega
  | emit events =>
    have roomy : feed.recorded + events.length < feed.log.capacity := roomy
    have ascending : Feed.Ascending (feed.log.buffer ++ events) := steady
    have emitted := emit_with_room feed.log events (by rw [current.buffer]; omega)
    apply current.append ascending
    · rw [emitted]
    · rw [length_append]
      omega
  | flush emitter =>
    unfold Feed.Roomy Feed.step at roomy
    unfold Feed.Steady at steady
    unfold Feed.step
    dsimp only at roomy steady ⊢
    cases found : get feed.emitters emitter with
    | none => exact current
    | some held =>
      rw [found] at roomy steady
      have ascending : Feed.Ascending (feed.log.buffer ++ held.pending) := steady
      have roomy : feed.recorded < feed.log.capacity := roomy
      have erased := total_erase (fun emitter => emitter.pending.length) feed.emitters emitter
      rw [share, found, Option.map_some, Option.getD_some] at erased
      have emitted := emit_with_room feed.log held.pending (by rw [current.buffer]; omega)
      apply current.append ascending
      · unfold CdcEmitter.flush
        split
        · rename_i none
          rw [isEmpty_iff.mp none, append_nil]
        · rw [emitted]
      · rw [length_append]
        omega

/-- In every interleaving in which numbers enter the log in order from one on and polls ask
    for enough, the subscriber has received every flushed event that it wants exactly once. -/
theorem subscriber_receives_each_event_once (capacity : Nat) (tableFilter : Option (List Str))
    (ops : List Op) (roomy : Guarded Feed.step Feed.Roomy (.new capacity tableFilter) ops)
    (steady : Guarded Feed.step Feed.Steady (.new capacity tableFilter) ops) :
    (run Feed.step (.new capacity tableFilter) ops).Faithful := by
  have current : Current (run Feed.step (.new capacity tableFilter) ops) := by
    apply Guarded.preserves _ (Current.new capacity tableFilter) (roomy.and steady)
    intro feed op current guarded
    exact current.step guarded.1 guarded.2
  exact current.faithful

end Delivery

section Runs

def users : Str := Str.ascii "users"

def recording (emitter : Nat) : List Op :=
  [.newEmitter emitter emitter.toUInt64, .record emitter 0 (.insert users [1] [2])]

theorem discarded_number_is_an_overrun :
    let feed := run Feed.step (.new 8 none) (recording 1 ++ recording 2 ++ [.discard 1, .flush 2, .poll 8])
    feed.recorded = 2 ∧ (feed.flushed.map CdcEvent.sequence) = [2] ∧ feed.received = [] ∧
      feed.failed = true ∧ ¬feed.Faithful := by
  refine ⟨by decide +kernel, by decide +kernel, by decide +kernel, by decide +kernel, fun faithful => ?_⟩
  exact absurd faithful.2 (by decide +kernel)

theorem flushed_in_order_is_received :
    let ops := recording 1 ++ recording 2 ++ [.flush 1, .poll 8, .flush 2, .poll 8]
    Guarded Feed.step Feed.Roomy (.new 8 none) ops ∧ Guarded Feed.step Feed.Steady (.new 8 none) ops ∧
    ((run Feed.step (.new 8 none) ops).received.map CdcEvent.sequence) = [1, 2] ∧
    (run Feed.step (.new 8 none) ops).Faithful :=
  ⟨by decide +kernel, by decide +kernel, by decide +kernel,
    subscriber_receives_each_event_once 8 none _ (by decide +kernel) (by decide +kernel)⟩

end Runs
end ChangeFeeds
