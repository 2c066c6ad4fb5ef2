import AeroVault.Jobs.Workers

/-! The replication worker beside the writers of the vault.

A created event becomes a `replicate` job; the sweep enqueues the same job for objects
that have no status yet. Whoever claims the job loads the row, reads the bytes at its
storage key, writes them to the replica under the same key and then tags the row. `Step`
are the points at which others may come in between, and `System.next` takes one; those
that the workers have in common are `Jobs/Workers.lean`'s. -/
namespace AeroVault.Replication
open Lib Repository Service Jobs

def jobReplicate : String := "replicate"

def tagStatus : String := "repl_status"

/-- The row was written with a key of the customer's. -/
def objectUsesSSEC (metadata : GoMap) : Bool :=
  metadata.get "_aero_sse_c_algorithm" == "AES256" && metadata.get "_aero_sse_c_key_md5" != ""

/-- The tags that `recordStatus` writes: those of the row as it was loaded. -/
def statusTags (obj : Object) (status : String) : GoMap := obj.tags.set tagStatus status

/-- How far `ReplicateObjectByID` has come. -/
inductive Stage
  | claimed
  | loaded (obj : Object)
  /-- Not to be copied: the status is to be recorded. -/
  | skipping (obj : Object)
  /-- The bytes are read from the primary. -/
  | fetched (obj : Object) (data : Bytes)
  /-- The replica has them, the status is to be recorded. -/
  | copied (obj : Object)
  | handled
  deriving DecidableEq

/-- An error can come until the replica has the bytes, or the object is to be skipped. -/
def Stage.mayFail : Stage → Bool
  | .claimed => true
  | .loaded _ => true
  | .fetched _ _ => true
  | .skipping _ => false
  | .copied _ => false
  | .handled => false

def routine : Routine Stage := ⟨jobReplicate, .claimed, (· == .handled), Stage.mayFail⟩

structure System extends Bench Stage where
  /-- The blobs of the replica. -/
  replica : String → Option Bytes

inductive Step
  | store (ctx : Ctx) (req : PutRequest)
  | commit (i now : Nat)
  | enqueue (i now : Nat)
  /-- The sweep comes to an object. -/
  | resync (id now : Nat)
  | claim (now : Nat) (worker : String)
  /-- `admits` is `admitObject`: the row against the job's tenant and the boundary. -/
  | load (i : Nat) (admits : Object → Bool)
  | fetch (i : Nat)
  | copy (i : Nat)
  /-- `recordStatus`. Without a tagger, or if it fails, there is no tag. -/
  | record (i : Nat) (tagger : Bool) (ctx : Ctx)
  | complete (i now : Nat)
  | fail (i now : Nat) (err : String) (delay : Nat)

namespace System

def empty (buckets : String → String → BucketConfig := fun _ _ => ⟨false, 0, 0, 0, 0⟩)
    (maxBytes maxObjects : String → Int := fun _ => 0) : System where
  toBench := .empty buckets maxBytes maxObjects
  replica := fun _ => none

/-- An object with a final status is passed over. -/
def resync (s : System) (id now : Nat) : System :=
  match getObjectByID s.vault.objects id with
  | none => s
  | some obj =>
    if obj.tags.get tagStatus = "replicated" ∨ obj.tags.get tagStatus = "skipped" then s
    else {s with queue := (enqueueJob now (objectJob jobReplicate obj.path.tenantID obj.id) s.queue).2}

def load (s : System) (i : Nat) (admits : Object → Bool) : System :=
  match s.handlers[i]? with
  | some ⟨job, .claimed⟩ =>
    match getObjectByID s.vault.objects job.payload.objectID with
    | none => s
    | some obj =>
      if admits obj then
        {s with
          toBench := s.advance i ⟨job, .claimed⟩
            (if objectUsesSSEC obj.metadata then .skipping obj else .loaded obj)}
      else s
  | _ => s

def fetch (s : System) (i : Nat) : System :=
  match s.handlers[i]? with
  | some ⟨job, .loaded obj⟩ =>
    match s.vault.bytes obj.storageKey with
    | none => s
    | some data => {s with toBench := s.advance i ⟨job, .loaded obj⟩ (.fetched obj data)}
  | _ => s

def copy (s : System) (i : Nat) : System :=
  match s.handlers[i]? with
  | some ⟨job, .fetched obj data⟩ =>
    ⟨s.advance i ⟨job, .fetched obj data⟩ (.copied obj), Function.update s.replica obj.storageKey (some data)⟩
  | _ => s

/-- The vault after `recordStatus`, whose errors are only logged. -/
def tagged (s : System) (tagger : Bool) (ctx : Ctx) (id : Nat) (tags : GoMap) : Vault :=
  if tagger then
    match setObjectTagsByID ctx id tags s.vault with
    | .error _ => s.vault
    | .ok vault => vault
  else s.vault

/-- The row is given the status, and the handler is through. -/
def recorded (s : System) (i : Nat) (c : Handling Stage) (tagger : Bool) (ctx : Ctx) (obj : Object)
    (status : String) : System :=
  {s with
    toBench := {s.toBench with
      vault := s.tagged tagger ctx obj.id (statusTags obj status)}.advance i c .handled}

def record (s : System) (i : Nat) (tagger : Bool) (ctx : Ctx) : System :=
  match s.handlers[i]? with
  | some ⟨job, .skipping obj⟩ => s.recorded i ⟨job, .skipping obj⟩ tagger ctx obj "skipped"
  | some ⟨job, .copied obj⟩ => s.recorded i ⟨job, .copied obj⟩ tagger ctx obj "replicated"
  | _ => s

def next (s : System) : Step → System
  | .store ctx req => {s with toBench := s.store ctx req}
  | .commit i now => {s with toBench := s.commit i now}
  | .enqueue i now => {s with toBench := s.enqueue routine i now}
  | .resync id now => s.resync id now
  | .claim now worker => {s with toBench := s.claim routine now worker}
  | .load i admits => s.load i admits
  | .fetch i => s.fetch i
  | .copy i => s.copy i
  | .record i tagger ctx => s.record i tagger ctx
  | .complete i now => {s with toBench := s.complete routine i now}
  | .fail i now err delay => {s with toBench := s.fail routine i now err delay}

end System

/-! ### What is claimed -/

/-- Primary and replica have the key, with the same bytes. -/
def System.synced (s : System) (key : String) : Bool :=
  (s.vault.bytes key).isSome && s.replica key == s.vault.bytes key

/-- A live object that is tagged as replicated is, once all is quiet. -/
abbrev Converged (s : System) : Prop :=
  ∀ o ∈ s.vault.objects.rows, o.live = true → o.tags.get tagStatus = "replicated" → s.Quiet o.id →
    s.synced o.storageKey = true

/-- The overwrite's event is merged into the job whose handler has read the old bytes. -/
theorem deduplicated_overwrite_not_copied :
    ¬ Always System.next Converged
      .empty
      [.store (allowedUser 1 "v1" "u1") (plainPut "acme" "docs" "a" [1]), .commit 0 1, .enqueue 0 2,
        .claim 3 "w0", .load 0 (fun _ => true), .fetch 0,
        .store (allowedUser 4 "v2" "u2") (plainPut "acme" "docs" "a" [2]), .commit 0 5, .enqueue 0 6,
        .copy 0, .record 0 true (allowedUser 7 "v3" "u3"), .complete 0 8] := by
  intro h
  exact absurd h.last (by decide +kernel)

end AeroVault.Replication
