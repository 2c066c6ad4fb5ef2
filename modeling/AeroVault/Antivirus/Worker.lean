import AeroVault.Jobs.Workers

/-! The antivirus worker beside the writers of the vault.

`ScanObjectByID` handles a `virus_scan` job: it loads the row, reads and scans the blob,
writes the verdict to the row's tags and puts an infected object into quarantine. `Step`
are the points at which others may come in between, and `System.next` takes one; those
that the workers have in common are `Jobs/Workers.lean`'s. -/
namespace AeroVault.Antivirus
open Lib Repository Service Jobs

/-! ### The object controller -/

def softDeleteObjectByID (now id : Nat) (t : Objects) : Except RepoError Objects :=
  if t.rows.any fun o => o.id == id && o.live then
    .ok (t.update (fun o => o.id == id && o.live) fun o => {o with deletedAt := some now})
  else .error .notFound

/-- `QuarantineObjectByID`: a historical version is removed, a live object is
soft-deleted. -/
def quarantineObjectByID (ctx : Ctx) (id : Nat) (s : Vault) : Except ServiceError Unit × Vault :=
  match getObjectByID s.objects id with
  | none => (.error .notFound, s)
  | some o =>
    match authorizeObject ctx .delete o with
    | .error err => (.error err, s)
    | .ok () =>
      if o.versionTombstone then
        deleteVersion ctx o.path.tenantID o.path.bucket o.path.key o.versionID s
      else if !o.live then (.ok (), s)
      else
        match preflightQuota s o.path.tenantID 0 0 with
        | .error err => (.error err, s)
        | .ok () =>
          match softDeleteObjectByID ctx.now o.id s.objects with
          | .error err => (.error (.repo err), s)
          | .ok objects =>
            (.ok (), releaseUsage {s with objects := objects} o.path.tenantID (countedObjectUsage [o]))

/-! ### Verdicts -/

/-- A scanner's `Result`. -/
structure Result where
  clean : Bool
  /-- The name of the threat, when not clean. -/
  signature : String
  deriving DecidableEq

def tagStatus : String := "av_status"
def tagSignature : String := "av_signature"
def maxSignatureBytes : Nat := 4096

/-- The tags of the object with the verdict among them. -/
def verdictTags (res : Result) (tags : GoMap) : GoMap :=
  if res.clean then (tags.set tagStatus "clean").delete tagSignature
  else
    (tags.set tagStatus "infected").set tagSignature
      (GoText.takeBytes maxSignatureBytes res.signature)

structure Worker where
  scan : Bytes → Result
  quarantine : Bool

/-! ### Jobs and their handling -/

def jobScan : String := "virus_scan"

/-- How far `ScanObjectByID` has come. -/
inductive Stage
  | claimed
  | loaded (obj : Object)
  | scanned (obj : Object) (res : Result)
  /-- The tags are written, the quarantine is to follow. -/
  | infected
  | handled
  deriving DecidableEq

/-- A handler may fail at any stage, until it is through. -/
def routine : Routine Stage := ⟨jobScan, .claimed, (· == .handled), (· != .handled)⟩

abbrev System := Bench Stage

inductive Step
  | store (ctx : Ctx) (req : PutRequest)
  | commit (i now : Nat)
  | enqueue (i now : Nat)
  | claim (now : Nat) (worker : String)
  /-- `admits` is the check of the row against the job's tenant and the boundary. -/
  | load (i : Nat) (admits : Object → Bool)
  | scan (i : Nat)
  | tag (i : Nat) (ctx : Ctx)
  | quarantine (i : Nat) (ctx : Ctx)
  | complete (i now : Nat)
  | fail (i now : Nat) (err : String) (delay : Nat)

namespace System

def load (s : System) (i : Nat) (admits : Object → Bool) : System :=
  match s.handlers[i]? with
  | some ⟨job, .claimed⟩ =>
    match getObjectByID s.vault.objects job.payload.objectID with
    | none => s
    | some obj => if admits obj then s.advance i ⟨job, .claimed⟩ (.loaded obj) else s
  | _ => s

def scan (s : System) (w : Worker) (i : Nat) : System :=
  match s.handlers[i]? with
  | some ⟨job, .loaded obj⟩ =>
    match s.vault.bytes obj.storageKey with
    | none => s
    | some data => s.advance i ⟨job, .loaded obj⟩ (.scanned obj (w.scan data))
  | _ => s

def tag (s : System) (w : Worker) (i : Nat) (ctx : Ctx) : System :=
  match s.handlers[i]? with
  | some ⟨job, .scanned obj res⟩ =>
    match setObjectTagsByID ctx job.payload.objectID (verdictTags res obj.tags) s.vault with
    | .error _ => s
    | .ok vault =>
      {s with vault := vault}.advance i ⟨job, .scanned obj res⟩
        (if !res.clean && w.quarantine then .infected else .handled)
  | _ => s

def quarantine (s : System) (i : Nat) (ctx : Ctx) : System :=
  match s.handlers[i]? with
  | some ⟨job, .infected⟩ =>
    match quarantineObjectByID ctx job.payload.objectID s.vault with
    | (.error _, vault) => {s with vault := vault}
    | (.ok _, vault) => {s with vault := vault}.advance i ⟨job, .infected⟩ .handled
  | _ => s

def next (w : Worker) (s : System) : Step → System
  | .store ctx req => s.store ctx req
  | .commit i now => s.commit i now
  | .enqueue i now => s.enqueue routine i now
  | .claim now worker => s.claim routine now worker
  | .load i admits => s.load i admits
  | .scan i => s.scan w i
  | .tag i ctx => s.tag w i ctx
  | .quarantine i ctx => s.quarantine i ctx
  | .complete i now => s.complete routine i now
  | .fail i now err delay => s.fail routine i now err delay

end System
end AeroVault.Antivirus
