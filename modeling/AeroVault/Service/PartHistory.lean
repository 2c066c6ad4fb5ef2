import AeroVault.Service.FailedPut
import AeroVault.Service.Usage

/-! The parts of a multipart upload: what is in their files, and what is recorded of them.

`UploadPartFor` overwrites the file of a part first and records its ETag and size last. Where a
call gives up is an input of it (`PartFailure`); without a failure it is `uploadPart`
(`uploadPartFailing_none`). After any list of calls, the file of a part holds what the last call
that came to open it has left there, and the table what the last call that came to record it has
uploaded (`tracks_uploadParts`).

A completion checks its manifest against the table and merges the files. The object that it
makes is the one of its manifest exactly if, for every part of it, those two calls have left and
recorded the same (`completed_content_matches_iff`). After a failed upload over a part that was
there already they have not: a short body is refused once it has replaced the file
(`short_body_replaces_part`). -/
namespace AeroVault.Service
open Lib Repository Access List Function

/-! ### Uploads that fail -/

/-- Where an `UploadPartFor` fails that its own checks admit. -/
inductive PartFailure
  | none
  /-- Before the backend has opened the part's file. -/
  | early
  /-- In the backend, after it has opened the file; what stands in it now. -/
  | storage (left : Bytes)
  /-- In `RecordPart`, which has or has not written its row. -/
  | record (written : Bool)
  deriving DecidableEq

structure PartCall where
  ctx : Ctx
  scope : MultipartScope
  uploadID : String
  partNumber : Int
  body : Bytes
  size : Option Nat
  failure : PartFailure

open PartCall

/-- The declared size; a body of unknown size is read to its end first. -/
def PartCall.expected (c : PartCall) : Nat := c.size.getD c.body.length

def uploadPartFailing (c : PartCall) (s : Vault) : Except PutError PartRecord × Vault :=
  match loadMultipartUpload c.ctx c.scope c.uploadID s with
  | .error err => (.error (.service err), s)
  | .ok u =>
    match preflightQuota s u.path.tenantID 0 0 with
    | .error err => (.error (.service err), s)
    | .ok () =>
      if c.partNumber < 1 ∨ c.partNumber > 10000 then (.error (.service (.invalidArgs .partNumber)), s)
      else
        let staged := stagePart s u.backendUID c.partNumber c.body
        let part : PartRecord := ⟨c.uploadID, c.partNumber, c.ctx.etag c.body, c.expected⟩
        match c.failure with
        | .early => (.error .failed, s)
        | .storage left => (.error .failed, stagePart s u.backendUID c.partNumber left)
        | .record written =>
          if c.body.length ≠ c.expected then
            (.error (.service (.sizeMismatch c.expected c.body.length)), staged)
          else (.error .failed, if written then recordPart staged part else staged)
        | .none =>
          if c.body.length ≠ c.expected then
            (.error (.service (.sizeMismatch c.expected c.body.length)), staged)
          else (.ok part, recordPart staged part)

theorem uploadPartFailing_none (ctx : Ctx) (scope : MultipartScope) (uploadID : String) (partNumber : Int)
    (body : Bytes) (size : Option Nat) (s : Vault) :
    uploadPartFailing ⟨ctx, scope, uploadID, partNumber, body, size, .none⟩ s =
      ((uploadPart ctx scope uploadID partNumber body size s).1.mapError .service,
        (uploadPart ctx scope uploadID partNumber body size s).2) := by
  unfold uploadPartFailing uploadPart
  cases loadMultipartUpload ctx scope uploadID s with
  | error err => rfl
  | ok u =>
    dsimp only
    cases preflightQuota s u.path.tenantID 0 0 with
    | error err => rfl
    | ok _ =>
      by_cases hnm : partNumber < 1 ∨ partNumber > 10000
      · simp only [if_pos hnm]
        rfl
      · by_cases hsz : body.length ≠ size.getD body.length
        · simp only [if_neg hnm, if_pos hsz]
          exact if_pos hsz
        · simp only [if_neg hnm, if_neg hsz]
          exact if_neg hsz

/-- The vault after the calls, one after another. -/
def uploadParts (calls : List PartCall) (s : Vault) : Vault :=
  run (fun s c => (uploadPartFailing c s).2) s calls

/-! ### What the calls leave -/

namespace PartCall

/-- The call comes to open the file of its part. -/
def opens (s : Vault) (c : PartCall) : Bool :=
  match loadMultipartUpload c.ctx c.scope c.uploadID s with
  | .error _ => false
  | .ok u =>
    match preflightQuota s u.path.tenantID 0 0 with
    | .error _ => false
    | .ok () => !(c.partNumber < 1 ∨ c.partNumber > 10000) && c.failure != .early

/-- What it leaves in the file. -/
def left (c : PartCall) : Bytes :=
  match c.failure with
  | .storage left => left
  | _ => c.body

/-- If it has opened the file, it comes to record the part. -/
def records (c : PartCall) : Bool :=
  match c.failure with
  | .none | .record true => c.body.length == c.expected
  | _ => false

/-- The row that it records. -/
def record (c : PartCall) : PartRecord := ⟨c.uploadID, c.partNumber, c.ctx.etag c.body, c.body.length⟩

end PartCall

/-- What the last call that came to open the file of the part has left there. -/
def lastLeft (s : Vault) (uploadID : String) (n : Int) (calls : List PartCall) : Option Bytes :=
  calls.reverse.findSome? fun c =>
    if c.uploadID = uploadID ∧ c.partNumber = n ∧ c.opens s = true then some c.left else none

/-- What the last call that came to record the part has uploaded. -/
def lastRecorded (s : Vault) (uploadID : String) (n : Int) (calls : List PartCall) : Option Bytes :=
  calls.reverse.findSome? fun c =>
    if c.uploadID = uploadID ∧ c.partNumber = n ∧ c.opens s = true ∧ c.records = true then some c.body
    else none

section History

variable {s s₀ : Vault} {c : PartCall} {uploadID : String} {n : Int} {calls : List PartCall}

theorem lastLeft_snoc :
    lastLeft s uploadID n (calls ++ [c]) =
      if c.uploadID = uploadID ∧ c.partNumber = n ∧ c.opens s = true then some c.left
      else lastLeft s uploadID n calls := by
  rw [lastLeft, reverse_append, reverse_singleton, singleton_append, findSome?_cons]
  split_ifs <;> rfl

theorem lastRecorded_snoc :
    lastRecorded s uploadID n (calls ++ [c]) =
      if c.uploadID = uploadID ∧ c.partNumber = n ∧ c.opens s = true ∧ c.records = true then some c.body
      else lastRecorded s uploadID n calls := by
  rw [lastRecorded, reverse_append, reverse_singleton, singleton_append, findSome?_cons]
  split_ifs <;> rfl

/-- What was recorded was left in the file before. -/
theorem lastLeft_of_lastRecorded {body : Bytes} (h : lastRecorded s uploadID n calls = some body) :
    ∃ left, lastLeft s uploadID n calls = some left := by
  obtain ⟨c, hc, hrc⟩ := exists_of_findSome?_eq_some h
  rw [Option.ite_none_right_eq_some] at hrc
  refine Option.isSome_iff_exists.mp (findSome?_isSome_iff.mpr ⟨c, hc, ?_⟩)
  rw [if_pos ⟨hrc.1.1, hrc.1.2.1, hrc.1.2.2.1⟩]
  rfl

theorem opens_congr (hup : s.uploads = s₀.uploads) (hqt : s.quotas = s₀.quotas) : c.opens s = c.opens s₀ := by
  simp only [opens, loadMultipartUpload, preflightQuota, hup, hqt]

/-- What a call does to the vault. -/
theorem uploadPartFailing_vault (hs : SessionsSound s) (c : PartCall) :
    (uploadPartFailing c s).2 =
      if c.opens s then
        if c.records then recordPart (stagePart s c.uploadID c.partNumber c.left) c.record
        else stagePart s c.uploadID c.partNumber c.left
      else s := by
  unfold uploadPartFailing
  cases hl : loadMultipartUpload c.ctx c.scope c.uploadID s with
  | error err =>
    have hop : c.opens s = false := by simp only [opens, hl]
    rw [hop]
    rfl
  | ok u =>
    obtain ⟨hm, hid⟩ := loadMultipartUpload_ok hl
    have hbc : u.backendUID = c.uploadID := (hs u hm).backend.trans hid
    dsimp only
    cases hqt : preflightQuota s u.path.tenantID 0 0 with
    | error err =>
      have hop : c.opens s = false := by simp only [opens, hl, hqt]
      rw [hop]
      rfl
    | ok _ =>
      have hop : c.opens s = (!(c.partNumber < 1 ∨ c.partNumber > 10000) && c.failure != .early) := by
        simp only [opens, hl, hqt]
      rw [hop]
      by_cases hnm : c.partNumber < 1 ∨ c.partNumber > 10000
      · simp [hnm]
      · simp only [hnm, decide_false, Bool.not_false, hbc]
        cases hf : c.failure with
        | early => rfl
        | storage left => simp [PartCall.records, PartCall.left, hf]
        | record written =>
          by_cases hsz : c.body.length = c.expected <;> cases written <;>
            simp [records, left, record, hf, hsz]
        | none =>
          by_cases hsz : c.body.length = c.expected <;>
            simp [records, left, record, hf, hsz]

/-- The vault holds of the upload what the calls have left and recorded. -/
structure Tracks (etag : Bytes → String) (s₀ : Vault) (uploadID : String) (calls : List PartCall) (s : Vault) :
    Prop where
  uploads : s.uploads = s₀.uploads
  quotas : s.quotas = s₀.quotas
  completions : s.completions = s₀.completions
  files : ∀ n, s.staged uploadID n = (lastLeft s₀ uploadID n calls).or (s₀.staged uploadID n)
  rows : ∀ p, p ∈ s.parts ∧ p.uploadID = uploadID ↔
    ∃ body, lastRecorded s₀ uploadID p.partNumber calls = some body ∧
      p = ⟨uploadID, p.partNumber, etag body, body.length⟩
  distinct : s.parts.Pairwise fun p q =>
    p.uploadID = uploadID → q.uploadID = uploadID → p.partNumber ≠ q.partNumber

/-- An upload that has just been opened. -/
structure FreshUpload (s : Vault) (uploadID : String) : Prop where
  sessions : SessionsSound s
  parts : ∀ p ∈ s.parts, p.uploadID ≠ uploadID
  completions : ∀ completion ∈ s.completions, completion.idemKey ≠ multipartCompleteKey uploadID

variable {etag : Bytes → String}

theorem FreshUpload.tracks (h : FreshUpload s₀ uploadID) : Tracks etag s₀ uploadID [] s₀ where
  uploads := rfl
  quotas := rfl
  completions := rfl
  files _ := rfl
  rows p := ⟨fun hp => absurd hp.2 (h.parts p hp.1), fun ⟨_, hbd, _⟩ => (nomatch hbd)⟩
  distinct := pairwise_of_forall_mem_list fun p hp _ _ hid => absurd hid (h.parts p hp)

/-- `InitMultipart` opens one, if its upload ID is new. -/
theorem freshUpload_initMultipart {ctx : Ctx} {req : PutRequest} {u : Upload} (hs : SessionsSound s₀)
    (hpr : ∀ p ∈ s₀.parts, p.uploadID ≠ ctx.newUploadID)
    (hcm : ∀ completion ∈ s₀.completions, completion.idemKey ≠ multipartCompleteKey ctx.newUploadID)
    (h : initMultipart ctx req s₀ = (.ok u, s)) : FreshUpload s ctx.newUploadID := by
  unfold initMultipart at h
  cases hplan : prepareUpload ctx req s₀ with
  | error err => rw [hplan] at h; cases h
  | ok v =>
    rw [hplan] at h
    cases h
    refine ⟨fun w hw => ?_, hpr, hcm⟩
    obtain hw | hw := mem_append.mp hw
    · exact hs w hw
    · rw [mem_singleton.mp hw]
      exact (prepareUpload_sound hplan).1

theorem staged_stagePart (s : Vault) (id uploadID : String) (m n : Int) (data : Bytes) :
    (stagePart s id m data).staged uploadID n =
      if id = uploadID ∧ m = n then some data else s.staged uploadID n := by
  show Function.update s.staged id _ uploadID n = _
  by_cases hid : uploadID = id
  · subst hid
    rw [update_self]
    by_cases hn : n = m
    · rw [hn, update_self, if_pos ⟨rfl, rfl⟩]
    · rw [update_of_ne hn, if_neg fun h => hn h.2.symm]
  · rw [update_of_ne hid, if_neg fun h => hid h.1.symm]

theorem mem_recordPart {part p : PartRecord} :
    p ∈ (recordPart s part).parts ↔
      p = part ∨ p ∈ s.parts ∧ ¬ (p.uploadID = part.uploadID ∧ p.partNumber = part.partNumber) := by
  simp [recordPart, -not_and, not_and_or]

theorem pairwise_recordPart {part : PartRecord} (h : s.parts.Pairwise fun p q =>
      p.uploadID = uploadID → q.uploadID = uploadID → p.partNumber ≠ q.partNumber) :
    (recordPart s part).parts.Pairwise fun p q =>
      p.uploadID = uploadID → q.uploadID = uploadID → p.partNumber ≠ q.partNumber := by
  refine pairwise_cons.mpr ⟨fun q hq hpr hid hnm => ?_, h.filter _⟩
  have hother := (mem_filter.mp hq).2
  simp [hpr, hid, hnm] at hother

/-- One more call. -/
theorem Tracks.step (h : Tracks etag s₀ uploadID calls s) (hs : SessionsSound s₀) (hetag : c.ctx.etag = etag) :
    Tracks etag s₀ uploadID (calls ++ [c]) (uploadPartFailing c s).2 := by
  have hsound : SessionsSound s := fun u hu => hs u (h.uploads ▸ hu)
  rw [uploadPartFailing_vault hsound, opens_congr h.uploads h.quotas]
  cases hop : c.opens s₀ with
  | false =>
    refine ⟨h.uploads, h.quotas, h.completions, fun n => ?_, fun p => ?_, h.distinct⟩
    · simp only [lastLeft_snoc, hop, Bool.false_eq_true, and_false]
      exact h.files n
    · simp only [lastRecorded_snoc, hop, Bool.false_eq_true, and_false, false_and]
      exact h.rows p
  | true =>
    have hf (n : Int) : (stagePart s c.uploadID c.partNumber c.left).staged uploadID n =
        (lastLeft s₀ uploadID n (calls ++ [c])).or (s₀.staged uploadID n) := by
      rw [staged_stagePart, lastLeft_snoc]
      by_cases hpart : c.uploadID = uploadID ∧ c.partNumber = n
      · rw [if_pos hpart, if_pos ⟨hpart.1, hpart.2, hop⟩, Option.some_or]
      · rw [if_neg hpart, if_neg fun hc => hpart ⟨hc.1, hc.2.1⟩]
        exact h.files n
    cases hrc : c.records with
    | false =>
      refine ⟨h.uploads, h.quotas, h.completions, hf, fun p => ?_, h.distinct⟩
      simp only [lastRecorded_snoc, hrc, Bool.false_eq_true, and_false]
      exact h.rows p
    | true =>
      refine ⟨h.uploads, h.quotas, h.completions, hf, fun p => ?_, pairwise_recordPart h.distinct⟩
      rw [if_pos rfl, if_pos rfl, mem_recordPart, lastRecorded_snoc]
      by_cases hpart : c.uploadID = uploadID ∧ c.partNumber = p.partNumber
      · obtain ⟨hid, hnm⟩ := hpart
        rw [if_pos ⟨hid, hnm, hop, hrc⟩]
        have hrec : c.record = ⟨uploadID, p.partNumber, etag c.body, c.body.length⟩ := by
          rw [record, hid, hnm, hetag]
        constructor
        · intro hp
          obtain ⟨hp | hp, hpid⟩ := hp
          · exact ⟨c.body, rfl, hp.trans hrec⟩
          · exact absurd ⟨hpid.trans hid.symm, hnm.symm⟩ hp.2
        · intro hp
          obtain ⟨body, hbd, hp⟩ := hp
          cases hbd
          exact ⟨.inl (hp.trans hrec.symm), by rw [hp]⟩
      · rw [if_neg fun hc => hpart ⟨hc.1, hc.2.1⟩, ← h.rows p]
        constructor
        · intro hp
          obtain ⟨hp | hp, hpid⟩ := hp
          · rw [hp] at hpid hpart
            exact absurd ⟨hpid, rfl⟩ hpart
          · exact ⟨hp.1, hpid⟩
        · intro hp
          refine ⟨.inr ⟨hp.1, fun hc => hpart ⟨?_, hc.2.symm⟩⟩, hp.2⟩
          exact hc.1.symm.trans hp.2

/-- After any calls, the files hold what was left in them last and the table what was recorded last. -/
theorem tracks_uploadParts (h : FreshUpload s₀ uploadID) (het : ∀ c ∈ calls, c.ctx.etag = etag) :
    Tracks etag s₀ uploadID calls (uploadParts calls s₀) := by
  induction calls using reverseRecOn with
  | nil => exact h.tracks
  | append_singleton calls c ih =>
    have hcl := ih fun c' hc' => het c' (mem_append_left _ hc')
    rw [uploadParts, run_append]
    exact hcl.step h.sessions (het c (mem_append_right _ (mem_singleton_self c)))

end History

/-! ### The parts that a completion selects -/

/-- The numbers of the parts that a completion selects: those of the manifest, or all that were recorded. -/
def selectedNumbers (s : Vault) (uploadID : String) (calls : List PartCall) :
    Option (List PartRecord) → List Int
  | some client => client.map PartRecord.partNumber
  | none => ((calls.filter fun c => c.uploadID == uploadID && c.opens s && c.records).map
      partNumber).dedup

section Selection

variable {s s₀ : Vault} {uploadID : String} {calls : List PartCall} {etag : Bytes → String}
  {manifest : Option (List PartRecord)} {parts : List PartRecord}

theorem mem_selectedNumbers_none {n : Int} :
    n ∈ selectedNumbers s uploadID calls none ↔ ∃ body, lastRecorded s uploadID n calls = some body := by
  rw [← Option.isSome_iff_exists, lastRecorded, findSome?_isSome_iff]
  simp only [selectedNumbers, mem_dedup, mem_map, mem_filter, mem_reverse, Bool.and_eq_true,
    beq_iff_eq]
  constructor
  · intro h
    obtain ⟨c, ⟨hc, ⟨hid, ho⟩, hrc⟩, hnm⟩ := h
    exact ⟨c, hc, by rw [if_pos ⟨hid, hnm, ho, hrc⟩]; rfl⟩
  · intro h
    obtain ⟨c, hc, hsome⟩ := h
    by_cases hpr : c.uploadID = uploadID ∧ c.partNumber = n ∧ c.opens s = true ∧ c.records = true
    · exact ⟨c, ⟨hc, ⟨hpr.1, hpr.2.2.1⟩, hpr.2.2.2⟩, hpr.2.1⟩
    · rw [if_neg hpr] at hsome
      cases hsome

/-- The parts of a manifest are selected in its order, which ascends. -/
theorem selectFrom_numbers {stored client selected : List PartRecord} {previous : Int}
    (h : selectFrom stored previous client = .ok selected) :
    selected.map PartRecord.partNumber = client.map PartRecord.partNumber ∧
      (∀ p ∈ selected, previous < p.partNumber) ∧ selected.Pairwise fun p q => p.partNumber < q.partNumber := by
  induction client generalizing previous selected with
  | nil =>
    cases h
    exact ⟨rfl, nofun, .nil⟩
  | cons requested rest ih =>
    obtain ⟨hprev, part, later, hpr, hl, rfl⟩ := selectFrom_cons h
    obtain ⟨hnumb, habove, hasc⟩ := ih hl
    have hnm : part.partNumber = requested.partNumber := by
      simpa using find?_some hpr
    rw [← hnm] at hprev habove
    refine ⟨by rw [map_cons, map_cons, hnumb, hnm], forall_mem_cons.mpr ⟨hprev, fun p hp => ?_⟩,
      pairwise_cons.mpr ⟨habove, hasc⟩⟩
    exact hprev.trans (habove p hp)

theorem Tracks.listParts_ascending (h : Tracks etag s₀ uploadID calls s) :
    (listParts s uploadID).Pairwise fun p q => p.partNumber < q.partNumber := by
  have hd : (listParts s uploadID).Pairwise fun p q => p.partNumber ≠ q.partNumber := by
    refine (List.Perm.pairwise_iff (fun hne => hne.symm) (perm_insertionSort _ _)).mpr ?_
    refine (h.distinct.filter _).imp_of_mem fun hp hq hpq => ?_
    have hp := (mem_filter.mp hp).2
    have hq := (mem_filter.mp hq).2
    exact hpq (by simpa using hp) (by simpa using hq)
  have hsorted : (listParts s uploadID).Pairwise fun p q => p.partNumber ≤ q.partNumber :=
    pairwise_insertionSort (r := fun p q : PartRecord => p.partNumber ≤ q.partNumber) _
  exact hsorted.imp₂ (fun _ _ hle hne => lt_of_le_of_ne hle hne) hd

/-- A completion selects its parts in ascending order, by the numbers that its inputs give. -/
theorem Tracks.selected (h : Tracks etag s₀ uploadID calls s)
    (hpr : multipartCompletionParts s uploadID manifest = .ok parts) :
    (parts.map PartRecord.partNumber).Perm (selectedNumbers s₀ uploadID calls manifest) ∧
      parts.Pairwise fun p q => p.partNumber < q.partNumber := by
  unfold multipartCompletionParts at hpr
  cases manifest with
  | some client =>
    dsimp only [selectMultipartParts] at hpr
    split at hpr
    · cases hpr
    · obtain ⟨hnm, -, hasc⟩ := selectFrom_numbers hpr
      exact ⟨.of_eq hnm, hasc⟩
  | none =>
    dsimp only at hpr
    split at hpr
    · cases hpr
    · cases hpr
      have hasc := h.listParts_ascending
      refine ⟨(perm_ext_iff_of_nodup ?_ (nodup_dedup _)).mpr fun n => ?_, hasc⟩
      · exact pairwise_map.mpr (hasc.imp ne_of_lt)
      · show _ ↔ n ∈ selectedNumbers s₀ uploadID calls none
        rw [mem_selectedNumbers_none, mem_map]
        constructor
        · intro hn
          obtain ⟨p, hp, rfl⟩ := hn
          obtain ⟨body, hbd, -⟩ := (h.rows p).mp (mem_listParts.mp hp)
          exact ⟨body, hbd⟩
        · intro hn
          obtain ⟨body, hbd⟩ := hn
          exact ⟨⟨uploadID, n, etag body, body.length⟩, mem_listParts.mpr ((h.rows _).mpr ⟨body, hbd, rfl⟩), rfl⟩

end Selection

/-! ### The object that a completion makes -/

/-- The object is made of the files of the selected parts. -/
structure Assembled (s s' : Vault) (uploadID : String) (manifest : Option (List PartRecord)) (obj : Object)
    (parts : List PartRecord) (contents : List Bytes) : Prop where
  selected : multipartCompletionParts s uploadID manifest = .ok parts
  files : parts.mapM (fun p => s.staged uploadID p.partNumber) = some contents
  content : s'.bytes obj.storageKey = some contents.flatten
  size : obj.size =
    if contents.flatten.length = 0 then (parts.map PartRecord.size).sum else contents.flatten.length

section Completion

variable {s s₀ s' : Vault} {ctx : Ctx} {scope : MultipartScope} {uploadID : String} {obj : Object}
  {manifest : Option (List PartRecord)}

theorem eq_map_of_mapM {α β : Type} {f : α → Option β} {g : α → β} {l : List α} {l' : List β}
    (h : l.mapM f = some l') (hg : ∀ a ∈ l, f a = some (g a)) : l' = l.map g := by
  induction l generalizing l' with
  | nil =>
    obtain rfl : [] = l' := by simpa using h
    rfl
  | cons a rest ih =>
    simp only [mapM_cons, bind, hg a mem_cons_self, Option.bind_some, Option.bind_eq_some_iff, pure,
      Option.some.injEq] at h
    obtain ⟨rest', hrs, rfl⟩ := h
    rw [map_cons, ih hrs fun a' ha' => hg a' (mem_cons_of_mem _ ha')]

theorem prepareCompletion_parts {plan : CompletionPlan}
    (h : prepareCompletion ctx scope uploadID manifest s = .ok plan) :
    multipartCompletionParts s uploadID manifest = .ok plan.parts := by
  obtain ⟨u, -, h⟩ := passed h
  obtain ⟨parts, hpr, h⟩ := passed h
  obtain ⟨-, h⟩ := checked h
  obtain ⟨-, h⟩ := checked h
  obtain ⟨-, h⟩ := checked h
  cases h
  exact hpr

theorem completeMultipart_assembled (hs : SessionsSound s) (hnew : cachedCompletion s scope uploadID = none)
    (hd : completeMultipart ctx scope uploadID manifest s = (.ok obj, s')) :
    ∃ parts contents, Assembled s s' uploadID manifest obj parts contents := by
  unfold completeMultipart at hd
  rw [hnew] at hd
  cases hplan : prepareCompletion ctx scope uploadID manifest s with
  | error err => rw [hplan] at hd; cases hd
  | ok plan =>
    rw [hplan] at hd
    dsimp only [finishMultipartCompletion] at hd
    cases hm : mergeParts s plan.upload plan.parts with
    | none => rw [hm] at hd; cases hd
    | some data =>
      rw [hm] at hd
      cases hd
      obtain ⟨contents, hcn, rfl⟩ := Option.map_eq_some_iff.mp hm
      have hpl := completionPlanned hplan
      have hsound := hs _ hpl.upload.1
      rw [hsound.backend, hpl.upload.2] at hcn
      obtain ⟨cleaned, acl, hold, hsv, -, -, -, hkey, hsz⟩ := storeCompletion_eq ctx hsound contents.flatten s
      refine ⟨plan.parts, contents, prepareCompletion_parts hplan, hcn, ?_, ?_⟩
      · have hst : (storeCompletion ctx plan contents.flatten s).1.storageKey = uploadStorageKey plan.upload := by
          rw [hsv, saveObject_storageKey, hkey]
          exact (if_neg hsound.storageKey).symm
        have hbl : (storeCompletion ctx plan contents.flatten s).2.blobs =
            ((accountCompletion plan s).putBlob (uploadStorageKey plan.upload) contents.flatten ctx.now).blobs := by
          rw [hsv, saveObject_blobs]
        show ((storeCompletion ctx plan contents.flatten s).2.blobs _).map Blob.data = _
        rw [hst, hbl]
        exact bytes_putBlob_self ..
      · rw [hsv, saveObject_size, hsz]
        rfl

/-- The object is the concatenation, by ascending number, of the selected parts, each with the recorded ETag,
and has their recorded sizes together. -/
def ContentMatches (etag : Bytes → String) (s s' : Vault) (uploadID : String)
    (manifest : Option (List PartRecord)) (obj : Object) : Prop :=
  ∃ parts contents, multipartCompletionParts s uploadID manifest = .ok parts ∧
    parts.Pairwise (fun p q => p.partNumber < q.partNumber) ∧
    List.Forall₂ (fun p data => s.staged uploadID p.partNumber = some data ∧ etag data = p.etag) parts contents ∧
    s'.bytes obj.storageKey = some contents.flatten ∧ obj.size = (parts.map PartRecord.size).sum

/-- For the selected parts, what the last calls have left in the files has the digests of what the last calls
have recorded, and all of it its size, or none. -/
structure LeftAsRecorded (etag : Bytes → String) (s : Vault) (uploadID : String) (calls : List PartCall)
    (numbers : List Int) : Prop where
  digests : ∀ n ∈ numbers,
    (lastLeft s uploadID n calls).map etag = (lastRecorded s uploadID n calls).map etag
  sizes : (numbers.map fun n => ((lastLeft s uploadID n calls).getD []).length).sum = 0 ∨
    (numbers.map fun n => ((lastLeft s uploadID n calls).getD []).length).sum =
      (numbers.map fun n => ((lastRecorded s uploadID n calls).getD []).length).sum

variable {etag : Bytes → String} {calls : List PartCall} {parts : List PartRecord} {contents : List Bytes}

section
variable (h : Tracks etag s₀ uploadID calls s)
include h

section
variable (hpr : multipartCompletionParts s uploadID manifest = .ok parts)
include hpr

/-- What a selected part is, by the calls. -/
theorem Tracks.part {p : PartRecord} (hp : p ∈ parts) :
    ∃ left body, lastLeft s₀ uploadID p.partNumber calls = some left ∧
      s.staged uploadID p.partNumber = some left ∧
      lastRecorded s₀ uploadID p.partNumber calls = some body ∧ p.etag = etag body ∧ p.size = body.length := by
  obtain ⟨body, hbd, hrow⟩ := (h.rows p).mp (multipartCompletionParts_mem hpr p hp)
  obtain ⟨left, hl⟩ := lastLeft_of_lastRecorded hbd
  refine ⟨left, body, hl, by rw [h.files, hl, Option.some_or], hbd, ?_, ?_⟩
  · rw [hrow]
  · rw [hrow]

/-- Sums over the selected parts are sums over their numbers. -/
theorem Tracks.sum_selected (f : Int → Nat) :
    (parts.map fun p => f p.partNumber).sum = ((selectedNumbers s₀ uploadID calls manifest).map f).sum := by
  rw [← ((h.selected hpr).1.map f).sum_eq, map_map]
  rfl

theorem Tracks.total : (parts.map PartRecord.size).sum = ((selectedNumbers s₀ uploadID calls manifest).map fun n =>
      ((lastRecorded s₀ uploadID n calls).getD []).length).sum := by
  rw [← h.sum_selected hpr]
  refine congrArg sum (map_congr_left fun p hp => ?_)
  obtain ⟨left, body, -, -, hbd, -, hsz⟩ := h.part hpr hp
  rw [hsz, hbd]
  rfl

end

/-- The contents are what the calls have left in the files. -/
theorem Tracks.contents_eq (hm : Assembled s s' uploadID manifest obj parts contents) :
    contents = parts.map fun p => (lastLeft s₀ uploadID p.partNumber calls).getD [] := by
  refine eq_map_of_mapM hm.files fun p hp => ?_
  obtain ⟨left, body, hl, hst, -⟩ := h.part hm.selected hp
  rw [hst, hl]
  rfl

theorem Tracks.length_contents (hm : Assembled s s' uploadID manifest obj parts contents) :
    contents.flatten.length = ((selectedNumbers s₀ uploadID calls manifest).map fun n =>
      ((lastLeft s₀ uploadID n calls).getD []).length).sum := by
  rw [← h.sum_selected hm.selected, length_flatten, h.contents_eq hm, map_map]
  rfl

end

theorem cachedCompletion_fresh (h : FreshUpload s₀ uploadID) (hs : s.completions = s₀.completions) :
    cachedCompletion s scope uploadID = none := by
  rw [cachedCompletion, hs, find?_eq_none]
  intro completion hcm hm
  have hkey := h.completions completion hcm
  simp [hkey] at hm

/-- **After any list of part uploads, failed ones included, an object that a completion returns is the
concatenation of its selected parts, with the recorded ETags and sizes, if and only if the last call to open
the file of each part has left what the last call to record the part has uploaded.** -/
theorem completed_content_matches_iff (etag : Bytes → String) (s₀ : Vault) (uploadID : String)
    (hfresh : FreshUpload s₀ uploadID) (calls : List PartCall) (hetag : ∀ c ∈ calls, c.ctx.etag = etag)
    (ctx : Ctx) (scope : MultipartScope) (manifest : Option (List PartRecord)) (obj : Object) (s' : Vault)
    (hdone : completeMultipart ctx scope uploadID manifest (uploadParts calls s₀) = (.ok obj, s')) :
    ContentMatches etag (uploadParts calls s₀) s' uploadID manifest obj ↔
      LeftAsRecorded etag s₀ uploadID calls (selectedNumbers s₀ uploadID calls manifest) := by
  have htracks := tracks_uploadParts hfresh hetag
  have hsound : SessionsSound (uploadParts calls s₀) := fun u hu => hfresh.sessions u (htracks.uploads ▸ hu)
  obtain ⟨parts, contents, hmade⟩ := completeMultipart_assembled hsound
    (cachedCompletion_fresh hfresh htracks.completions) hdone
  obtain ⟨hperm, hasc⟩ := htracks.selected hmade.selected
  have hleng := htracks.length_contents hmade
  have htot := htracks.total hmade.selected
  have hsize : obj.size = (parts.map PartRecord.size).sum ↔ contents.flatten.length = 0 ∨
      contents.flatten.length = (parts.map PartRecord.size).sum := by
    rw [hmade.size]
    generalize contents.flatten.length = length
    split_ifs with hem
    · exact ⟨fun _ => .inl hem, fun _ => rfl⟩
    · exact ⟨.inr, fun h => h.resolve_left hem⟩
  constructor
  · intro h
    obtain ⟨parts', contents', hsl, -, hf, -, ht⟩ := h
    cases hsl.symm.trans hmade.selected
    refine ⟨fun n hn => ?_, by rw [← hleng, ← htot]; exact hsize.mp ht⟩
    obtain ⟨p, hp, rfl⟩ := mem_map.mp (hperm.mem_iff.mpr hn)
    obtain ⟨left, body, hl, hst, hbd, hpt, -⟩ := htracks.part hmade.selected hp
    obtain ⟨i, hi, rfl⟩ := getElem_of_mem hp
    obtain ⟨hdt, hd⟩ := hf.get hi (hf.length_eq ▸ hi)
    rw [hl, hbd, Option.map_some, Option.map_some, ← hpt, Option.some.inj (hst.symm.trans hdt)]
    exact congrArg some hd
  · intro h
    refine ⟨parts, contents, hmade.selected, hasc, ?_, hmade.content, ?_⟩
    · rw [htracks.contents_eq hmade, forall₂_map_right_iff, forall₂_same]
      intro p hp
      obtain ⟨left, body, hl, hst, hbd, hpt, -⟩ := htracks.part hmade.selected hp
      have hd := h.digests p.partNumber (hperm.mem_iff.mp (mem_map_of_mem hp))
      rw [hl, hbd] at hd
      rw [hl, hpt]
      exact ⟨hst, Option.some.inj hd⟩
    · rw [hsize, hleng, htot]
      exact h.sizes

end Completion

/-- A backend whose digest keeps the bytes. -/
def partUser : Ctx :=
  {allowedUser 2 "v2" "u2" with etag := fun b => String.ofList (b.map fun x => Char.ofNat x.toNat)}

def acmeScope : MultipartScope := ⟨"acme", "", ""⟩

/-- The upload `u1`, opened in an empty vault. -/
def openedUpload : Vault :=
  (initMultipart (allowedUser 1 "v1" "u1") (plainPut "acme" "docs" "a" [])
    .empty).2

/-- An upload of part 1, with a declared size. -/
def partOne (body : Bytes) (size : Nat) : PartCall := ⟨partUser, acmeScope, "u1", 1, body, some size, .none⟩

theorem exists_of_isOk {ε α : Type} {x : Except ε α} (h : x.isOk = true) : ∃ a, x = .ok a := by
  cases x with
  | error err => cases h
  | ok a => exact ⟨a, rfl⟩

theorem freshUpload_openedUpload : FreshUpload openedUpload "u1" := by
  obtain ⟨u, hu⟩ := exists_of_isOk (x := (initMultipart (allowedUser 1 "v1" "u1")
    (plainPut "acme" "docs" "a" []) .empty).1)
    (by decide +kernel)
  exact freshUpload_initMultipart (sessionsSound_empty _ _ _) nofun nofun
    (Prod.ext hu rfl)

/-- A part that is uploaded again, successfully, takes the place of the first. -/
theorem replaced_part_matches :
    ∃ obj s', completeMultipart partUser acmeScope "u1" none
        (uploadParts [partOne [1, 2] 2, partOne [3, 4, 5] 3] openedUpload) = (.ok obj, s') ∧
      ContentMatches partUser.etag (uploadParts [partOne [1, 2] 2, partOne [3, 4, 5] 3] openedUpload) s' "u1" none
        obj := by
  obtain ⟨obj, ho⟩ := exists_of_isOk (x := (completeMultipart partUser acmeScope "u1" none
    (uploadParts [partOne [1, 2] 2, partOne [3, 4, 5] 3] openedUpload)).1) (by decide +kernel)
  refine ⟨obj, _, Prod.ext ho rfl, (completed_content_matches_iff partUser.etag openedUpload "u1"
    freshUpload_openedUpload _ ?_ partUser acmeScope none obj _ (Prod.ext ho rfl)).mpr ⟨?_, ?_⟩⟩
  · intro c hc
    obtain rfl | hc := mem_cons.mp hc
    · rfl
    · rw [mem_singleton.mp hc]
      rfl
  · decide +kernel
  · decide +kernel

/-- A body that is shorter than declared is refused, and the part has it nevertheless. -/
theorem short_body_replaces_part :
    let calls := [partOne [1, 2] 2, partOne [3] 2]
    let done := completeMultipart partUser acmeScope "u1" none (uploadParts calls openedUpload)
    ∃ obj, done.1 = .ok obj ∧
      ¬ ∃ parts contents, multipartCompletionParts (uploadParts calls openedUpload) "u1" none = .ok parts ∧
        List.Forall₂ (fun p data => partUser.etag data = p.etag) parts contents ∧
        done.2.bytes obj.storageKey = some contents.flatten := by
  intro calls done
  obtain ⟨obj, ho⟩ := exists_of_isOk (x := done.1) (by decide +kernel)
  have hpr : multipartCompletionParts (uploadParts calls openedUpload) "u1" none =
      .ok [(partOne [1, 2] 2).record] := by decide +kernel
  have hby : done.1.map (fun o => done.2.bytes o.storageKey) = .ok (some [3]) := by decide +kernel
  rw [ho] at hby
  refine ⟨obj, ho, fun hm => ?_⟩
  obtain ⟨parts, contents, hsl, hdg, hcn⟩ := hm
  cases hpr.symm.trans hsl
  cases hdg with
  | cons hd hrs =>
    cases hrs
    have hcn := (Except.ok.inj hby).symm.trans hcn
    rw [flatten_cons, flatten_nil, append_nil] at hcn
    rw [← Option.some.inj hcn] at hd
    revert hd
    decide +kernel

end AeroVault.Service
