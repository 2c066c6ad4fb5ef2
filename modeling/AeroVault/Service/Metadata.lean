import AeroVault.Lib.Interleaving
import AeroVault.Service.FailedPut

/-! The scrubber's flag against calls that write all of an object's metadata.

`PutMetadata`, `DeleteMetadata` and `SetObjectRetention` read the row and then replace its metadata by
what they make of their copy. The scrubber merges its flag into the row by one statement, and a call
that has read the row before takes it away. The flag stays until the scrubber clears it or the object
is overwritten exactly if no copy without it replaces metadata that have it (`corrupt_flag_kept_iff`). -/
namespace AeroVault.Service
open Lib Repository

/-- The entries that belong to the service. -/
def systemMetadata (metadata : GoMap) : GoMap := metadata.filter fun e => reservedKey e.1

/-- The calls that write the metadata of a row; `overwrite` is a `Put` to the key. -/
inductive MetadataCall
  | putMetadata (given : GoMap) (valid : validateMetadata given = .ok ())
  | deleteMetadata
  | setObjectRetention (mode : String)
  | markScrubCorrupt
  | clearCorruptFlag
  | overwrite (metadata : GoMap)

/-- Where a call stands: `loaded` holds the copy it has read. -/
inductive MetadataPhase
  | start
  | loaded (metadata : GoMap)
  | done

/-- What a call makes of its copy. -/
def MetadataCall.replacement (metadata : GoMap) : MetadataCall → GoMap
  | .putMetadata given _ => given ++ systemMetadata metadata
  | .deleteMetadata => systemMetadata metadata
  | .setObjectRetention mode => metadata.set retentionModeMetadataKey mode
  | _ => metadata

/-- The next statement of a call, on the metadata of the live row. -/
def metadataAdvance (call : MetadataCall) (s : GoMap) : MetadataPhase → MetadataPhase × GoMap
  | .start =>
    match call with
    | .markScrubCorrupt => (.done, s.set "_aero_scrub_status" "corrupt")
    | .clearCorruptFlag => (.done, s.delete "_aero_scrub_status")
    | .overwrite metadata => (.done, metadata)
    | _ => (.loaded s, s)
  | .loaded metadata => (.done, call.replacement metadata)
  | .done => (.done, s)

/-- The metadata have the flag. -/
def Corrupt (metadata : GoMap) : Prop := metadata.get "_aero_scrub_status" = "corrupt"

/-- While the live row has the flag, every read of its key is refused. -/
theorem read_refused_of_corrupt {tenant bucket key : String} {k : Path} {o : Object} {s : Vault} (call : ReadCall)
    (hk : checkedObjectDefaults tenant bucket key = .ok k) (ho : getObject s.objects k = some o)
    (h : Corrupt o.metadata) : getWithOptions call tenant bucket key s = .error .objectCorrupt := by
  have hc : checkCorrupt o = .error .objectCorrupt := if_pos h
  simp only [getWithOptions, hk, Except.mapError, bind, Except.bind, ho, hc]

theorem get_systemMetadata {key : String} (h : reservedKey key = true) (metadata : GoMap) :
    (systemMetadata metadata).get key = metadata.get key :=
  GoMap.get_filter (fun _ he => he ▸ h) metadata

theorem corrupt_replacement (call : MetadataCall) (metadata : GoMap) :
    Corrupt (call.replacement metadata) ↔ Corrupt metadata := by
  have hr : reservedKey "_aero_scrub_status" = true := by decide
  have hsys := get_systemMetadata hr metadata
  cases call with
  | putMetadata given valid =>
    have hno := find?_of_validateMetadataFrom hr valid
    rw [Corrupt, Corrupt, ← hsys, MetadataCall.replacement, GoMap.get, List.find?_append, hno]
    rfl
  | deleteMetadata => rw [Corrupt, Corrupt, ← hsys, MetadataCall.replacement]
  | setObjectRetention mode => rw [Corrupt, MetadataCall.replacement, GoMap.get_set_ne mode (by decide), Corrupt]
  | _ => exact .rfl

variable {ι : Type*} [DecidableEq ι] (calls : ι → MetadataCall)

def metadataStep (w : World GoMap MetadataPhase ι) (c : ι) : World GoMap MetadataPhase ι :=
  World.step (fun c _ => metadataAdvance (calls c)) w (c, ())

/-- The call is not one that may end the flag. -/
def MetadataCall.Spares : MetadataCall → Prop
  | .clearCorruptFlag | .overwrite _ => False
  | _ => True

/-- **The flag stays** if and only if every call that replaces flagged metadata has read the flag. -/
theorem corrupt_flag_kept_iff (w : World GoMap MetadataPhase ι) (steps : List ι) :
    Each (metadataStep calls)
        (fun w c => Corrupt w.shared → (calls c).Spares → Corrupt (metadataStep calls w c).shared) w steps ↔
      Each (metadataStep calls)
        (fun w c => Corrupt w.shared → (calls c).Spares → ∀ m, w.phase c = .loaded m → Corrupt m) w steps := by
  refine each_congr fun w c => imp_congr_right fun hflag => imp_congr_right fun hspares => ?_
  rw [metadataStep, World.shared_step]
  cases hph : w.phase c with
  | loaded m => simp [metadataAdvance, corrupt_replacement]
  | done => simp [metadataAdvance, hflag]
  | start => cases hcall : calls c <;> simp_all [metadataAdvance, MetadataCall.Spares, Corrupt]

/-- `DeleteMetadata` reads the row, and the scrubber marks it. -/
theorem flag_lost_to_deleteMetadata :
    let step := metadataStep fun c => if c then .markScrubCorrupt else .deleteMetadata
    let w := run step ⟨[], fun _ => .start⟩ [false, true]
    w.shared.get "_aero_scrub_status" = "corrupt" ∧ (step w false).shared = [] := by
  decide

end AeroVault.Service
