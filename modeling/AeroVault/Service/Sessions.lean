import AeroVault.Service.Effects

/-! Upload sessions and version IDs over runs of calls.

An upload session is opened by `InitMultipart` and closed by the completion that
stores its version; nothing else changes the sessions (`next_sessions`). So the
sessions stay sound, and as long as every version ID that is drawn is a new one,
no two versions share theirs (`versionsDistinct_next`). -/
namespace AeroVault.Service
open Lib Repository Access

/-! ### What a call does to the sessions -/

/-- How a call with effect `e` changes the sessions, and where the version ID of a
row that it adds is from. -/
inductive SessionChange (ctx : Ctx) (e : Effect) (before after : List Upload) : Prop
  | kept (h : after = before) (hadds : ∀ r, e.adds = some r → r.versionID = ctx.newVersionID)
  | opened (u : Upload) (hsound : UploadSound u) (hversion : u.versionID = ctx.newVersionID)
      (h : after = before ++ [u]) (hadds : e.adds = none)
  | completed (u : Upload) (hu : u ∈ before) (h : after = before.filter fun v => !(v.id == u.id))
      (hadds : ∀ r, e.adds = some r → r.versionID = u.versionID)

theorem SessionChange.quiet {ctx : Ctx} {before after : List Upload} (h : after = before) :
    SessionChange ctx .quiet before after :=
  .kept h nofun

theorem initMultipart_sessions {ctx : Ctx} {req : PutRequest} {s : Vault} :
    SessionChange ctx .quiet s.uploads (initMultipart ctx req s).2.uploads := by
  unfold initMultipart
  cases h : prepareUpload ctx req s with
  | error err => exact .quiet rfl
  | ok u =>
    obtain ⟨hsound, hversion⟩ := prepareUpload_sound h
    exact .opened u hsound hversion rfl rfl

theorem storeCompletion_frame (ctx : Ctx) (plan : CompletionPlan) (data : Bytes) (s : Vault) :
    (storeCompletion ctx plan data s).2.sessions = (accountCompletion plan s).sessions :=
  saveObject_sessions ..

theorem complete_sessions {ctx : Ctx} {scope : MultipartScope} {uploadID : String}
    {manifest : Option (List PartRecord)} {s : Vault} :
    SessionChange ctx (completeEffect ctx scope uploadID manifest s) s.uploads
      (completeMultipart ctx scope uploadID manifest s).2.uploads := by
  unfold completeEffect completeMultipart
  cases cachedCompletion s scope uploadID with
  | some completion => exact .quiet rfl
  | none =>
    cases hplan : prepareCompletion ctx scope uploadID manifest s with
    | error err => exact .quiet rfl
    | ok plan =>
      dsimp only [finishMultipartCompletion]
      cases mergeParts s plan.upload plan.parts with
      | none => exact .quiet rfl
      | some data =>
        refine .completed plan.upload (completionPlanned hplan).upload.1 ?_ fun r hr => ?_
        · exact congrArg (fun x => x.1.filter fun v => !(v.id == plan.upload.id))
            (storeCompletion_frame ctx plan data s)
        · cases hr
          rfl

theorem next_sessions (c : Call) (s : Vault) :
    SessionChange c.ctx (c.effect s) s.uploads (s.next c).uploads := by
  cases hm : c.request.multipart with
  | false =>
    have hrc := call_recorded c s hm
    exact .kept (congrArg Prod.fst hrc.sessions) hrc.drawn
  | true =>
    obtain ⟨ctx, request⟩ := c
    cases request with
    | initMultipart req => exact initMultipart_sessions
    | uploadPart scope uploadID partNumber body size =>
      exact .quiet uploadPart_stored.2
    | completeMultipart scope uploadID manifest =>
      exact complete_sessions
    | _ => cases hm

/-! ### Invariants -/

def SessionsSound (s : Vault) : Prop := ∀ u ∈ s.uploads, UploadSound u

theorem sessionsSound_empty (buckets : String → String → BucketConfig)
    (maxBytes maxObjects : String → Int) : SessionsSound (.empty buckets maxBytes maxObjects) :=
  nofun

theorem sessionsSound_next (c : Call) {s : Vault} (hs : SessionsSound s) : SessionsSound (s.next c) := by
  intro v hv
  cases next_sessions c s with
  | kept h _ => exact hs v (h ▸ hv)
  | opened u hsound _ h _ =>
    rw [h] at hv
    obtain hv | hv := List.mem_append.mp hv
    · exact hs v hv
    · rw [List.mem_singleton.mp hv]
      exact hsound
  | completed u _ h _ => exact hs v (List.mem_filter.mp (h ▸ hv)).1

/-- The version ID that a call draws is not in use. -/
abbrev Call.DrawsFresh (c : Call) (s : Vault) : Prop :=
  (∀ o ∈ s.objects.rows, o.versionID ≠ c.ctx.newVersionID) ∧
    ∀ u ∈ s.uploads, u.versionID ≠ c.ctx.newVersionID

structure VersionsDistinct (s : Vault) : Prop where
  rows : ∀ a ∈ s.objects.rows, ∀ b ∈ s.objects.rows, a.versionID = b.versionID → a = b
  uploads : s.uploads.Pairwise fun u v => u.versionID ≠ v.versionID
  apart : ∀ o ∈ s.objects.rows, ∀ u ∈ s.uploads, o.versionID ≠ u.versionID

theorem versionsDistinct_empty (buckets : String → String → BucketConfig)
    (maxBytes maxObjects : String → Int) :
    VersionsDistinct (Vault.empty buckets maxBytes maxObjects) where
  rows := nofun
  uploads := List.Pairwise.nil
  apart := nofun

/-- Rows that were carried over or added, with a version ID that no row had. -/
theorem rows_distinct {e : Effect} {s s' : Vault} (h : Outcome e s s')
    (hs : ∀ a ∈ s.objects.rows, ∀ b ∈ s.objects.rows, a.versionID = b.versionID → a = b)
    (hnew : ∀ r, e.adds = some r → ∀ o ∈ s.objects.rows, o.versionID ≠ r.versionID) :
    ∀ a ∈ s'.objects.rows, ∀ b ∈ s'.objects.rows, a.versionID = b.versionID → a = b := by
  intro a ha b hb hab
  refine eq_of_id ha hb ?_
  obtain ⟨a₀, ha₀, -, hsa⟩ | ⟨r, hr, hda⟩ := h.rows.arises a ha <;>
    obtain ⟨b₀, hb₀, -, hsb⟩ | ⟨r', hr', hdb⟩ := h.rows.arises b hb
  · have hversion : a₀.versionID = b₀.versionID := by rw [← hsa.versionID, hab, hsb.versionID]
    rw [hsa.id, hsb.id, hs a₀ ha₀ b₀ hb₀ hversion]
  · have hversion : a₀.versionID = r'.versionID := by rw [← hsa.versionID, hab, hdb.2.1]
    exact absurd hversion (hnew r' hr' a₀ ha₀)
  · have hversion : b₀.versionID = r.versionID := by rw [← hsb.versionID, ← hab, hda.2.1]
    exact absurd hversion (hnew r hr b₀ hb₀)
  · cases hr.symm.trans hr'
    rw [hda.1, hdb.1]

/-- A version ID that no row had before is no row's after, unless it was added. -/
theorem rows_apart {e : Effect} {s s' : Vault} (h : Outcome e s s') {versionID : String}
    (hs : ∀ o ∈ s.objects.rows, o.versionID ≠ versionID)
    (hadds : ∀ r, e.adds = some r → r.versionID ≠ versionID) :
    ∀ o ∈ s'.objects.rows, o.versionID ≠ versionID := by
  intro o ho
  obtain ⟨o₀, ho₀, -, hsame⟩ | ⟨r, hr, hd⟩ := h.rows.arises o ho
  · rw [hsame.versionID]
    exact hs o₀ ho₀
  · rw [hd.2.1]
    exact hadds r hr

/-- **While every version ID drawn is a new one, no two versions share theirs.** -/
theorem versionsDistinct_next {c : Call} {s : Vault} (hsound : SessionsSound s)
    (hs : VersionsDistinct s) (hfresh : c.DrawsFresh s) : VersionsDistinct (s.next c) := by
  have hout := call_outcome c hsound
  cases next_sessions c s with
  | kept h hadds =>
    refine ⟨rows_distinct hout hs.rows fun r hr => ?_, h ▸ hs.uploads, fun o ho u hu => ?_⟩
    · rw [hadds r hr]
      exact hfresh.1
    · rw [h] at hu
      refine rows_apart hout (fun o' ho' => hs.apart o' ho' u hu) (fun r hr => ?_) o ho
      rw [hadds r hr]
      exact (hfresh.2 u hu).symm
  | opened v hv hversion h hadds =>
    have hnone (r : NewRow) (hr : (c.effect s).adds = some r) : False := by
      rw [hadds] at hr
      cases hr
    refine ⟨rows_distinct hout hs.rows fun r hr => (hnone r hr).elim, ?_, fun o ho u hu => ?_⟩
    · rw [h]
      refine List.pairwise_append.mpr ⟨hs.uploads, List.pairwise_singleton _ _, fun u hu w hw => ?_⟩
      rw [List.mem_singleton.mp hw, hversion]
      exact hfresh.2 u hu
    · refine rows_apart hout (fun o' ho' => ?_) (fun r hr => (hnone r hr).elim) o ho
      rw [h] at hu
      obtain hu | hu := List.mem_append.mp hu
      · exact hs.apart o' ho' u hu
      · rw [List.mem_singleton.mp hu, hversion]
        exact hfresh.1 o' ho'
  | completed v hv h hadds =>
    refine ⟨rows_distinct hout hs.rows fun r hr => ?_, ?_, fun o ho u hu => ?_⟩
    · rw [hadds r hr]
      exact fun o ho => hs.apart o ho v hv
    · rw [h]
      exact hs.uploads.filter _
    · rw [h] at hu
      obtain ⟨hu, hid⟩ := List.mem_filter.mp hu
      refine rows_apart hout (fun o' ho' => hs.apart o' ho' u hu) (fun r hr => ?_) o ho
      rw [hadds r hr]
      have hne : v ≠ u := fun heq => by simp [heq] at hid
      obtain hvu | hvu := pairwise_or hs.uploads hv hu hne
      · exact hvu
      · exact hvu.symm

end AeroVault.Service
