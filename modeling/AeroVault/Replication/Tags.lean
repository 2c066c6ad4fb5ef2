import AeroVault.Lib.Interleaving
import AeroVault.Antivirus.Worker
import AeroVault.Replication.Worker

/-! The writers of the tags of one row.

`SetTags` and the three workers load the row and later replace all of its tags: the user's by the
given ones, a worker's by its copy with the worker's own keys. A copy that is out of date takes back
what others wrote since, and the tags are as they should be exactly if no such copy is written
(`tags_kept_iff`). -/
namespace AeroVault.Replication
open Lib

inductive TagCall
  | scanObjectByID (res : Antivirus.Result)
  | recordStatus (status : String)
  | applyPII (hits : String)
  | setTags (tags : GoMap)

/-- What a call makes of the tags it has loaded. -/
def TagCall.replacement (tags : GoMap) : TagCall → GoMap
  | .scanObjectByID res => Antivirus.verdictTags res tags
  | .recordStatus status => tags.set tagStatus status
  | .applyPII hits => tags.set "pii_scan" hits
  | .setTags given => given

/-- The keys that a call is there to write. -/
def TagCall.owned : TagCall → String → Bool
  | .scanObjectByID _, key => key == Antivirus.tagStatus || key == Antivirus.tagSignature
  | .recordStatus _, key => key == tagStatus
  | .applyPII _, key => key == "pii_scan"
  | .setTags _, _ => true

inductive TagPhase
  | start
  | loaded (tags : GoMap)
  | done

/-- The tags of the row; what each key was last given by a call that owns it is kept for the
statements. -/
structure TagRow where
  tags : GoMap
  due : String → String

/-- The next statement of a call; a write may fail. -/
def tagAdvance (call : TagCall) (ok : Bool) (s : TagRow) : TagPhase → TagPhase × TagRow
  | .start => (.loaded s.tags, s)
  | .loaded tags =>
    let new := call.replacement tags
    (.done, if ok then ⟨new, fun key => if call.owned key then new.get key else s.due key⟩ else s)
  | .done => (.done, s)

def TagRow.Kept (s : TagRow) : Prop := ∀ key, s.tags.get key = s.due key

theorem get_replacement {call : TagCall} {key : String} (h : call.owned key = false) (tags : GoMap) :
    (call.replacement tags).get key = tags.get key := by
  cases call with
  | scanObjectByID res =>
    simp only [TagCall.owned, Bool.or_eq_false_iff, beq_eq_false_iff_ne] at h
    simp only [TagCall.replacement, Antivirus.verdictTags]
    split_ifs
    · rw [GoMap.get_delete_ne h.2.symm, GoMap.get_set_ne _ h.1.symm]
    · rw [GoMap.get_set_ne _ h.2.symm, GoMap.get_set_ne _ h.1.symm]
  | recordStatus status => exact GoMap.get_set_ne _ (beq_eq_false_iff_ne.mp h).symm
  | applyPII hits => exact GoMap.get_set_ne _ (beq_eq_false_iff_ne.mp h).symm
  | setTags given => cases h

variable {ι : Type*} [DecidableEq ι] (calls : ι → TagCall)

def tagStep (w : World TagRow TagPhase ι) (i : ι × Bool) : World TagRow TagPhase ι :=
  World.step (fun c => tagAdvance (calls c)) w i

/-- **The tags are kept** at every moment of a run if and only if every call that writes has loaded
what the keys of the others hold by then. -/
theorem tags_kept_iff (tags : GoMap) (steps : List (ι × Bool)) :
    Always (tagStep calls) (fun w => w.shared.Kept) ⟨⟨tags, tags.get⟩, fun _ => .start⟩ steps ↔
      Each (tagStep calls) (fun w i => i.2 = true → ∀ copy, w.phase i.1 = .loaded copy →
          ∀ key, (calls i.1).owned key = false → copy.get key = w.shared.tags.get key)
        ⟨⟨tags, tags.get⟩, fun _ => .start⟩ steps := by
  refine always_iff_each (J := fun _ => True) (fun _ _ _ _ => trivial)
    (fun w i _ hk _ => ?_) trivial (fun _ => rfl) (.trivial _ steps)
  obtain ⟨c, ok⟩ := i
  rw [tagStep, World.shared_step]
  cases hph : w.phase c with
  | start => simp [tagAdvance, hk]
  | done => simp [tagAdvance, hk]
  | loaded copy =>
    cases ok with
    | false => simp [tagAdvance, hk]
    | true =>
      simp only [tagAdvance, if_true, TagRow.Kept, TagPhase.loaded.injEq, forall_eq', forall_const]
      refine forall_congr' fun key => ?_
      cases hown : (calls c).owned key with
      | true => simp
      | false => simp [get_replacement hown, hk key]

/-- The replication worker writes back the tags that it loaded before the scan, and the verdict is
gone. -/
theorem verdict_lost_to_status :
    let calls : Bool → TagCall := fun c => if c then .scanObjectByID ⟨false, "eicar"⟩ else .recordStatus "replicated"
    let w := run (tagStep calls) ⟨⟨[], GoMap.get []⟩, fun _ => .start⟩
      [(false, true), (true, true), (true, true), (false, true)]
    w.shared.due Antivirus.tagStatus = "infected" ∧ w.shared.tags = [(tagStatus, "replicated")] := by
  decide

end AeroVault.Replication
