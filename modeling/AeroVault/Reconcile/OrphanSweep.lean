import AeroVault.Reconcile.Deletion
import AeroVault.Service.Staged

/-! The sweep for orphaned blobs, beside the `Put`s that write them.

A sweep of a tenant reads the storage keys that rows reference, lists the tenant's
blobs with their modification times, page by page, and then goes through those that
were not referenced: one that is older than the grace period is deleted. Nothing
that was read is read again, and a `Put` may come in between at any point:
`OrphanStep` are these points, `OrphanSystem.next` takes one. -/
namespace AeroVault.Reconcile
open Lib Repository Service

structure OrphanJob where
  tenant : String
  gracePeriod : Nat
  deleteOrphanBlobs : Bool
  deriving DecidableEq

/-! ### What a sweep reads -/

/-- `ListStorageKeys`: of all rows, also of soft-deleted ones. -/
def listStorageKeys (t : Objects) : List String :=
  ((t.rows.map Object.storageKey).filter fun key => key != "").dedup

/-- The objects of a page: the keys that the backend comes to, with what is there. -/
def pageObjects (s : Vault) (keys : List String) : List (String × Nat) :=
  keys.filterMap fun key => (s.blobs key).map fun blob => (key, blob.lastModified)

/-- `validateStoragePage`: the last key, if the objects are in scope and in order. -/
def validateStoragePage (scope previous : String) : List (String × Nat) → Option String
  | [] => some previous
  | e :: rest =>
    if !GoText.hasPrefix e.1 scope || decide (e.1 ≤ previous) || e.2 == 0 then none
    else validateStoragePage scope e.1 rest

def findStaleBlobs (all : List (String × Nat)) (referenced : List String) : List (String × Nat) :=
  all.filter fun e => !referenced.contains e.1

/-! ### The sweep, step by step -/

/-- A listing in progress. -/
structure Listing where
  /-- When the references were read. -/
  readAt : Nat
  referenced : List String
  found : List (String × Nat)
  previous : String
  markers : List String
  deriving DecidableEq

inductive Phase
  | idle
  | listing (l : Listing)
  /-- The stale blobs that are left to go through, with the times listed. -/
  | deleting (readAt : Nat) (stale : List (String × Nat))
  deriving DecidableEq

structure OrphanSystem where
  vault : Vault
  /-- The `Put`s between their two writes. -/
  staged : List StagedPut
  phase : Phase
  clock : Nat

inductive OrphanStep
  | store (ctx : Ctx) (req : PutRequest)
  | commit (i now : Nat)
  /-- A `Put` ends without writing its row. -/
  | abandon (i now : Nat)
  | readReferences (now : Nat) (covered : Bool)
  | listPage (now : Nat) (keys : List String) (nextMarker : Option String) (covered : Bool)
  | deleteNext (now : Nat)

def OrphanStep.time : OrphanStep → Nat
  | .store ctx _ => ctx.now
  | .commit _ now => now
  | .abandon _ now => now
  | .readReferences now _ => now
  | .listPage now _ _ _ => now
  | .deleteNext now => now

/-- `time.Since(keyAge) <= gracePeriod`, where there is a grace period. -/
def OrphanJob.spares (job : OrphanJob) (now age : Nat) : Bool :=
  decide (job.gracePeriod > 0) && decide (now - age ≤ job.gracePeriod)

namespace OrphanSystem

/-- No `Put` and no sweep in progress. -/
def start (vault : Vault) (clock : Nat) : OrphanSystem := ⟨vault, [], .idle, clock⟩

def store (s : OrphanSystem) (ctx : Ctx) (req : PutRequest) : OrphanSystem :=
  match storePut ctx req s.vault with
  | (.error _, vault) => {s with vault := vault}
  | (.ok p, vault) => {s with vault := vault, staged := s.staged ++ [p]}

def commit (s : OrphanSystem) (i now : Nat) : OrphanSystem :=
  match s.staged[i]? with
  | none => s
  | some p => {s with vault := (p.commit now s.vault).2, staged := s.staged.eraseIdx i}

/-- `sweepOrphanBlobs`, up to the references. -/
def readReferences (job : OrphanJob) (s : OrphanSystem) (now : Nat) (covered : Bool) : OrphanSystem :=
  match s.phase with
  | .idle =>
    if validateTenant job.tenant && covered then
      {s with phase := .listing ⟨now, listStorageKeys s.vault.objects, [], "", [""]⟩}
    else s
  | _ => s

/-- `listStorageObjects`, one page; after the last one the stale blobs are found. -/
def listPage (job : OrphanJob) (s : OrphanSystem) (keys : List String) (nextMarker : Option String)
    (covered : Bool) : OrphanSystem :=
  match s.phase with
  | .listing l =>
    let page := pageObjects s.vault keys
    match validateStoragePage (job.tenant ++ "/") l.previous page with
    | none => {s with phase := .idle}
    | some previous =>
      match nextMarker with
      | some marker =>
        -- A page with more to come makes progress.
        if page.isEmpty || marker == "" || l.markers.contains marker then {s with phase := .idle}
        else
          {s with phase := .listing {l with
            found := l.found ++ page, previous := previous, markers := marker :: l.markers}}
      | none =>
        if covered then
          {s with phase := .deleting l.readAt (findStaleBlobs (l.found ++ page) l.referenced)}
        else {s with phase := .idle}
  | _ => s

/-- The blob that the sweep deletes next, if it does. -/
def condemned (job : OrphanJob) (s : OrphanSystem) (now : Nat) : Option (String × Nat) :=
  match s.phase with
  | .deleting _ (e :: _) =>
    if job.spares now e.2 || !job.deleteOrphanBlobs then none else some e
  | _ => none

/-- `handleOrphanBlobs`, one stale blob. -/
def deleteNext (job : OrphanJob) (s : OrphanSystem) (now : Nat) : OrphanSystem :=
  match s.phase with
  | .deleting readAt (_ :: rest) =>
    let vault :=
      match s.condemned job now with
      | none => s.vault
      | some e => s.vault.deleteBlob e.1
    {s with vault := vault, phase := .deleting readAt rest}
  | .deleting _ [] => {s with phase := .idle}
  | _ => s

def act (job : OrphanJob) (s : OrphanSystem) : OrphanStep → OrphanSystem
  | .store ctx req => s.store ctx req
  | .commit i now => s.commit i now
  | .abandon i _ => {s with staged := s.staged.eraseIdx i}
  | .readReferences now covered => s.readReferences job now covered
  | .listPage _ keys nextMarker covered => s.listPage job keys nextMarker covered
  | .deleteNext now => s.deleteNext job now

def next (job : OrphanJob) (s : OrphanSystem) (e : OrphanStep) : OrphanSystem :=
  {s.act job e with clock := e.time}

end OrphanSystem
end AeroVault.Reconcile
