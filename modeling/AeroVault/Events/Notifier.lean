import AeroVault.Repository.VersionRows

/-! Who notifies of a delete: the event bus or the outbox.

A soft or hard delete commits a notify fact to the outbox and publishes an `EventDeleted`; a version
delete and a delete marker only publish. The `Notifier` leaves an event to the outbox if the object's
ID has a fact. A restore keeps the ID, so that a version delete of a row that was soft deleted before is
notified by neither: every event has its one channel exactly if no object is deleted both with a fact
and without one (`delete_notified_once_iff`). -/
namespace AeroVault.Events
open Lib Repository

/-- An `EventDeleted`, and whether a notify fact was committed with the deletion. -/
structure DeletedEvent where
  objectID : Nat
  committed : Bool
  deriving DecidableEq

/-- What a statement that takes effect leads to. -/
def deletedEvent (e : Executed) (t : Objects) : Option DeletedEvent :=
  match e.statement with
  | .softDeleteObject k => (getObject t k).map fun obj => ⟨obj.id, true⟩
  | .hardDeleteObject k =>
    match hardDeleteObject e.held k t with
    | .ok _ => (getObject t k).map fun obj => ⟨obj.id, true⟩
    | .error _ => none
  | .deleteObjectVersion k versionID =>
    match deleteObjectVersion e.held k versionID t with
    | .ok _ => (getObjectVersion t k versionID).map fun obj => ⟨obj.id, false⟩
    | .error _ => none
  | .insertDeleteMarker k versionID metadata =>
    some ⟨(insertDeleteMarker e.now k versionID metadata t).1.id, false⟩
  | _ => none

structure Channels where
  table : Objects
  /-- The origins of the notify facts in `event_outbox`. -/
  facts : List Nat
  published : List DeletedEvent

/-- `HasEventOutboxFact`, of the notify facts. -/
def hasEventOutboxFact (originID : Nat) (s : Channels) : Bool := s.facts.contains originID

/-- `deliver`, of a delete in a bucket with a rule that matches. -/
def dispatches (e : DeletedEvent) (s : Channels) : Bool := !hasEventOutboxFact e.objectID s

/-- A statement, and whether the call then gets to `emit`. -/
def Channels.next (s : Channels) (i : Executed × Bool) : Channels :=
  match deletedEvent i.1 s.table with
  | none => {s with table := i.1.apply s.table}
  | some e =>
    ⟨i.1.apply s.table, if e.committed then e.objectID :: s.facts else s.facts,
      if i.2 then e :: s.published else s.published⟩

/-- Whenever the notifier comes to an event, it dispatches it if and only if there is no fact of its own. -/
def OneChannel (s : Channels) : Prop := ∀ e ∈ s.published, dispatches e s = !e.committed

/-- A deletion with a fact is of an object that no event was published of without one, and a deletion
that is published without a fact is of an object that has none. -/
def Apart (s : Channels) (i : Executed × Bool) : Prop :=
  ∀ e, deletedEvent i.1 s.table = some e →
    if e.committed then ⟨e.objectID, false⟩ ∉ s.published else i.2 = true → e.objectID ∉ s.facts

theorem oneChannel_next_iff (s : Channels) (i : Executed × Bool) (h : OneChannel s) :
    OneChannel (s.next i) ↔ Apart s i := by
  obtain ⟨e, emitted⟩ := i
  unfold Apart Channels.next
  simp only [OneChannel, dispatches, hasEventOutboxFact, Bool.not_inj_iff] at h ⊢
  cases hev : deletedEvent e s.table with
  | none => simpa using h
  | some ev =>
    obtain ⟨id, committed⟩ := ev
    cases committed with
    | false => cases emitted <;> simp_all
    | true =>
      -- A new fact is of concern to the earlier events of the same object.
      have hcons (x : DeletedEvent) (hx : x ∈ s.published) :
          decide (x.objectID ∈ id :: s.facts) = x.committed ↔ x ≠ ⟨id, false⟩ := by
        have hold := h x hx
        obtain ⟨other, committed⟩ := x
        cases committed <;> simp_all
      cases emitted <;> simp_all [List.forall_mem_ne']

/-- **Every delete is notified through one channel** if and only if no object is deleted both with a
fact and without one. -/
theorem delete_notified_once_iff (t : Objects) (ins : List (Executed × Bool)) :
    Always Channels.next OneChannel ⟨t, [], []⟩ ins ↔ Each Channels.next Apart ⟨t, [], []⟩ ins :=
  always_iff_each (J := fun _ => True) (fun _ _ _ _ => .intro) (fun s i _ h _ => oneChannel_next_iff s i h) True.intro
    nofun (.trivial _ ins)

/-- A version is deleted, restored, and deleted for good: the outbox has a fact of the first deletion
only, and the notifier takes it for one of the second. -/
theorem restored_delete_unnotified :
    let s := run Channels.next ⟨.empty, [], []⟩
      [(upsertedAt 1 "v1", true), (executedAt 2 (.softDeleteObject notesKey), true),
        ({executedAt 3 (.restoreObject notesKey) with admits := fun _ => true}, true),
        (executedAt 4 (.deleteObjectVersion notesKey "v1"), true)]
    s.table.rows = [] ∧ s.facts = [1] ∧ s.published = [⟨1, false⟩, ⟨1, true⟩] ∧ dispatches ⟨1, false⟩ s = false := by
  decide +kernel

end AeroVault.Events
