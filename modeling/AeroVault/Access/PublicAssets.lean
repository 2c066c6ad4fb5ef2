import AeroVault.Access.Authorizer
import AeroVault.Lib.Runs
import AeroVault.Lib.Tables

/-! Published assets: `PublishAsset`, the `public_assets` table, `ResolvePublicAsset`.

A publish checks the publish action on the asset's own resource, takes over the
ID of a row already published under the slug, and upserts by ID. The upsert does
not write `tenant_id` and `bucket`, so a publish that overwrites a row keeps that
row's place. The results say when this is harmless: a run of publishes exposes
only what was authorized, and reads back what it just published, exactly when
every row overwritten was already in the asset's tenant and bucket
(`exposes_authorized_iff_in_place`). -/
namespace AeroVault.Access
open Lib List GoText

structure PublicAsset where
  id : String
  tenantID : String
  bucket : String
  key : String
  slug : String
  cacheControl : String
  publishedBy : String
  publishedAt : Nat
  ownerID : String
  deriving DecidableEq

namespace PublicAsset

def resource (asset : PublicAsset) : Resource :=
  ⟨asset.tenantID, asset.bucket, asset.key, .object, asset.ownerID⟩

/-- What an asset exposes. -/
def place (asset : PublicAsset) : String × String × String :=
  (asset.tenantID, asset.bucket, asset.key)

end PublicAsset

inductive AccessError
  /-- A boundary or store error, returned as it is. -/
  | fault (f : Fault)
  /-- `ErrDenied` joined with the error that caused it. -/
  | deniedBy (f : Fault)
  /-- `ErrDenied` with the decision's reason. -/
  | denied (reason : String)
  | invalidArgument (message : String)
  | notFound
  | uniqueViolation
  deriving DecidableEq

/-! ### The table -/

/-- The `public_assets` table: `id` is its primary key and `slug` is unique. -/
structure AssetTable where
  rows : List PublicAsset
  unique : rows.Pairwise fun a b => a.id ≠ b.id ∧ a.slug ≠ b.slug

namespace AssetTable

def empty : AssetTable := ⟨[], List.Pairwise.nil⟩

def getPublicAsset (t : AssetTable) (slug : String) : Option PublicAsset :=
  t.rows.find? fun row => row.slug == slug

/-- The columns that `ON CONFLICT (id) DO UPDATE` writes. -/
def overwrite (asset row : PublicAsset) : PublicAsset :=
  {row with
    key := asset.key, slug := asset.slug, cacheControl := asset.cacheControl,
    publishedBy := asset.publishedBy, ownerID := asset.ownerID, publishedAt := asset.publishedAt}

section
variable {asset : PublicAsset} {t : AssetTable} (hslug : ¬ ∃ row ∈ t.rows, row.slug = asset.slug ∧ row.id ≠ asset.id)
include hslug

theorem unique_overwrite :
    (updateWhere (fun row => row.id == asset.id) (overwrite asset) t.rows).Pairwise
      fun a b => a.id ≠ b.id ∧ a.slug ≠ b.slug := by
  have hother : ∀ row ∈ t.rows, row.id ≠ asset.id → row.slug ≠ asset.slug := by
    intro row hrow hid hs
    exact hslug ⟨row, hrow, hs, hid⟩
  unfold updateWhere
  rw [pairwise_map]
  refine t.unique.imp_of_mem fun {a b} ha hb hab => ?_
  by_cases hida : a.id = asset.id
  · have hidb : b.id ≠ asset.id := fun h => hab.1 (hida.trans h.symm)
    simp [hida, hidb, overwrite, (hother b hb hidb).symm, hidb.symm]
  · by_cases hidb : b.id = asset.id
    · simp [hida, hidb, overwrite, hother a ha hida]
    · simpa [hida, hidb] using hab

theorem unique_append (hid : ¬ ∃ row ∈ t.rows, row.id = asset.id) :
    (t.rows ++ [asset]).Pairwise fun a b => a.id ≠ b.id ∧ a.slug ≠ b.slug := by
  rw [pairwise_append]
  refine ⟨t.unique, pairwise_singleton _ _, ?_⟩
  intro a ha b hb
  obtain rfl := mem_singleton.mp hb
  have hne : a.id ≠ b.id := fun h => hid ⟨a, ha, h⟩
  exact ⟨hne, fun h => hslug ⟨a, ha, h, hne⟩⟩

end

/-- `PutPublicAsset`. A row of another ID under the same slug breaks the unique
index; otherwise the row of the same ID is overwritten, or a row is added. -/
def putPublicAsset (t : AssetTable) (asset : PublicAsset) : Except AccessError AssetTable :=
  if hslug : ∃ row ∈ t.rows, row.slug = asset.slug ∧ row.id ≠ asset.id then .error .uniqueViolation
  else if hid : ∃ row ∈ t.rows, row.id = asset.id then
    .ok ⟨updateWhere (fun row => row.id == asset.id) (overwrite asset) t.rows, unique_overwrite hslug⟩
  else .ok ⟨t.rows ++ [asset], unique_append hslug hid⟩

end AssetTable

/-! ### Publishing and resolving -/

namespace Manager

variable (m : Manager)

def require (p : Principal) (action : Action) (resource : Resource) : Option AccessError :=
  match m.authorize p action resource with
  | (_, some .boundaryFault) => some (.fault .boundaryFault)
  | (_, some fault) => some (.deniedBy fault)
  | (decision, none) => if !decision.allowed then some (.denied decision.reason) else none

def checkCapabilityTarget (tenant bucket : String) (consume : Bool) : Option Fault :=
  match m.checkBucket tenant bucket with
  | some .tenantUnavailable => if !consume then none else some .tenantUnavailable
  | fault => fault

def reusePublicAssetID (p : Principal) (t : AssetTable) (asset : PublicAsset) :
    Except AccessError PublicAsset :=
  match t.getPublicAsset asset.slug with
  | none => .ok asset
  | some existing =>
    if existing.tenantID != asset.tenantID then
      .error (.invalidArgument "asset slug is already in use")
    else
      match m.checkBucket existing.tenantID existing.bucket with
      | some fault => .error (.fault fault)
      | none =>
        if existing.publishedBy != p.subjectID then
          match m.require p .publish existing.resource with
          | some err => .error err
          | none => .ok {asset with id := existing.id}
        else .ok {asset with id := existing.id}

def normalizeSlug (slug : String) : String := trim '/' (trimSpace slug)

def withDefaults (newID : String) (asset : PublicAsset) : PublicAsset :=
  {asset with
    id := if asset.id == "" then newID else asset.id
    cacheControl := if asset.cacheControl == "" then "public, max-age=3600" else asset.cacheControl}

/-- `PublishAsset` by `p`, with `newID` the UUID drawn when the asset has no ID. -/
def publishAsset (p : Principal) (newID : String) (now : Nat) (t : AssetTable)
    (asset : PublicAsset) : Except AccessError (PublicAsset × AssetTable) :=
  match m.require p .publish asset.resource with
  | some err => .error err
  | none =>
    let slug := normalizeSlug asset.slug
    if slug == "" || contains slug ".." || containsAny slug "?#" then
      .error (.invalidArgument "invalid asset slug")
    else
      match m.reusePublicAssetID p t {asset with slug := slug} with
      | .error err => .error err
      | .ok reused =>
        let filled := withDefaults newID reused
        if filled.cacheControl.utf8ByteSize > 512 || containsAny filled.cacheControl "\r\n" then
          .error (.invalidArgument "invalid cache_control")
        else
          let published := {filled with publishedBy := p.subjectID, publishedAt := now}
          match t.putPublicAsset published with
          | .error err => .error err
          | .ok t' => .ok (published, t')

def capabilityPrincipal (capability : Capability) : Principal :=
  ⟨"public_asset:" ++ capability.id, capability.tenantID, .publicAsset, [], [], [], some capability⟩

def resolvePublicAsset (t : AssetTable) (slug : String) :
    Except AccessError (PublicAsset × Principal) :=
  match t.getPublicAsset (trim '/' slug) with
  | none => .error .notFound
  | some asset =>
    match m.checkCapabilityTarget asset.tenantID asset.bucket false with
    | some fault => .error (.fault fault)
    | none =>
      .ok (asset, capabilityPrincipal
        ⟨asset.id, asset.tenantID, asset.bucket, asset.key, [.read, .preview, .download]⟩)

end Manager

/-! ### What a put does -/

namespace AssetTable

variable {t t' : AssetTable} {asset row : PublicAsset} (h : t.putPublicAsset asset = .ok t')
include h

/-- The rows after a put: the rows of other IDs, and the one of the asset's ID. -/
theorem mem_putPublicAsset :
    row ∈ t'.rows ↔
      (row ∈ t.rows ∧ row.id ≠ asset.id) ∨
      (∃ old ∈ t.rows, old.id = asset.id ∧ overwrite asset old = row) ∨
      (row = asset ∧ ∀ old ∈ t.rows, old.id ≠ asset.id) := by
  unfold putPublicAsset at h
  split_ifs at h with hslug hid
  · cases h
    rw [mem_updateWhere]
    obtain ⟨found, hfound, hf⟩ := hid
    have hno : ¬ ∀ old ∈ t.rows, old.id ≠ asset.id := fun hall => hall found hfound hf
    simp only [beq_iff_eq, beq_eq_false_iff_ne, hno, and_false, or_false]
    exact or_comm
  · cases h
    have hne : ∀ old ∈ t.rows, old.id ≠ asset.id := fun old hold hold' => hid ⟨old, hold, hold'⟩
    simp only [mem_append, mem_singleton]
    constructor
    · intro hrow
      cases hrow with
      | inl hrow => exact .inl ⟨hrow, hne row hrow⟩
      | inr hrow => exact .inr (.inr ⟨hrow, hne⟩)
    · intro hrow
      obtain hrow | ⟨old, hold, hold', -⟩ | hrow := hrow
      · exact .inl hrow.1
      · exact absurd hold' (hne old hold)
      · exact .inr hrow.1

theorem slug_free_of_put (hrow : row ∈ t.rows) (hid : row.id ≠ asset.id) : row.slug ≠ asset.slug := by
  intro hs
  unfold putPublicAsset at h
  rw [dif_pos ⟨row, hrow, hs, hid⟩] at h
  cases h

/-- The row found under the asset's slug after a put is the one of its ID. -/
theorem getPublicAsset_put :
    ∃ row, t'.getPublicAsset asset.slug = some row ∧
      ((∃ old ∈ t.rows, old.id = asset.id ∧ overwrite asset old = row) ∨
        (row = asset ∧ ∀ old ∈ t.rows, old.id ≠ asset.id)) := by
  have hst : ∃ row ∈ t'.rows, row.slug = asset.slug := by
    by_cases hid : ∃ old ∈ t.rows, old.id = asset.id
    · obtain ⟨old, hold, hold'⟩ := hid
      exact ⟨overwrite asset old, (mem_putPublicAsset h).mpr (.inr (.inl ⟨old, hold, hold', rfl⟩)), rfl⟩
    · have hne : ∀ old ∈ t.rows, old.id ≠ asset.id := fun old hold hold' => hid ⟨old, hold, hold'⟩
      exact ⟨asset, (mem_putPublicAsset h).mpr (.inr (.inr ⟨rfl, hne⟩)), rfl⟩
  obtain ⟨found, hfound⟩ : ∃ row, t'.getPublicAsset asset.slug = some row := by
    obtain ⟨row, hrow, hs⟩ := hst
    exact Option.isSome_iff_exists.mp (find?_isSome.mpr ⟨row, hrow, by simpa using hs⟩)
  refine ⟨found, hfound, ?_⟩
  have hslug : found.slug = asset.slug := by simpa using find?_some hfound
  obtain hkp | hnew := (mem_putPublicAsset h).mp (mem_of_find?_eq_some hfound)
  · exact absurd hslug (slug_free_of_put h hkp.1 hkp.2)
  · exact hnew

end AssetTable

/-! ### Runs of publishes -/

/-- One `PublishAsset` call: who calls, what the manager observes then, the asset. -/
structure PublishCall where
  manager : Manager
  principal : Principal
  newID : String
  now : Nat
  asset : PublicAsset

namespace PublishCall

def apply (c : PublishCall) (t : AssetTable) : Except AccessError (PublicAsset × AssetTable) :=
  c.manager.publishAsset c.principal c.newID c.now t c.asset

def slug (c : PublishCall) : String := Manager.normalizeSlug c.asset.slug

/-- The ID the call writes: that of the row published under the slug, else the
asset's own, else the drawn one. -/
def targetID (c : PublishCall) (t : AssetTable) : String :=
  let id := match t.getPublicAsset c.slug with
    | some existing => existing.id
    | none => c.asset.id
  if id == "" then c.newID else id

/-- The call was made on `slug` for `place`, and passed the publish check for it. -/
def Authorizes (c : PublishCall) (slug : String) (place : String × String × String) : Prop :=
  c.slug = slug ∧ c.asset.place = place ∧
    c.manager.require c.principal .publish c.asset.resource = none

end PublishCall

/-- The table, and the calls that succeeded so far. -/
structure Registry where
  table : AssetTable
  published : List PublishCall

namespace Registry

def empty : Registry := ⟨.empty, []⟩

def publish (s : Registry) (c : PublishCall) : Registry :=
  match c.apply s.table with
  | .ok (_, t') => ⟨t', s.published ++ [c]⟩
  | .error _ => s

/-- Whatever resolves was authorized under the slug it resolves from. -/
def ExposesAuthorized (s : Registry) : Prop :=
  ∀ (m : Manager) (slug : String) (asset : PublicAsset) (viewer : Principal),
    m.resolvePublicAsset s.table slug = .ok (asset, viewer) →
    ∃ c ∈ s.published, c.Authorizes (trim '/' slug) asset.place

/-- If the call succeeds, the published slug then resolves to the asset's place
(for a manager whose boundary admits that place). -/
def ReadsBack (s : Registry) (c : PublishCall) : Prop :=
  ∀ a t', c.apply s.table = .ok (a, t') →
    ∀ m : Manager, (∀ tenant bucket, m.checkBucket tenant bucket = none) →
      ∃ row viewer, m.resolvePublicAsset t' a.slug = .ok (row, viewer) ∧ row.place = c.asset.place

/-- A row that a successful call overwrites is already in the asset's tenant and bucket. -/
def InPlace (s : Registry) (c : PublishCall) : Prop :=
  (∃ result, c.apply s.table = .ok result) →
    ∀ row ∈ s.table.rows, row.id = c.targetID s.table →
      row.tenantID = c.asset.tenantID ∧ row.bucket = c.asset.bucket

end Registry

variable {m : Manager} {t : AssetTable} {asset : PublicAsset}

theorem Manager.reusePublicAssetID_ok {p : Principal}
    {reused : PublicAsset} (h : m.reusePublicAssetID p t asset = .ok reused) :
    reused = {asset with id := match t.getPublicAsset asset.slug with
      | some existing => existing.id
      | none => asset.id} := by
  unfold reusePublicAssetID at h
  split at h
  next hg =>
    rw [← Except.ok.inj h, hg]
  next existing hg =>
    rw [hg]
    split at h
    · cases h
    split at h
    · cases h
    split at h
    · split at h
      · cases h
      · exact (Except.ok.inj h).symm
    · exact (Except.ok.inj h).symm

variable {a : PublicAsset}

/-- What a successful publish has checked and written. -/
theorem PublishCall.apply_ok {c : PublishCall} {t' : AssetTable} (h : c.apply t = .ok (a, t')) :
    c.Authorizes a.slug a.place ∧ a.slug = c.slug ∧ a.place = c.asset.place ∧
      a.id = c.targetID t ∧ t.putPublicAsset a = .ok t' := by
  unfold apply Manager.publishAsset at h
  cases hreq : c.manager.require c.principal .publish c.asset.resource with
  | some err => simp [hreq] at h
  | none =>
    simp only [hreq] at h
    split at h
    · cases h
    split at h
    · cases h
    next reused hrs =>
      split at h
      · cases h
      split at h
      · cases h
      next stored hput =>
        cases h
        obtain rfl := Manager.reusePublicAssetID_ok hrs
        exact ⟨⟨rfl, rfl, hreq⟩, rfl, rfl, rfl, hput⟩

theorem AssetTable.eq_of_id {b : PublicAsset} (ha : a ∈ t.rows) (hb : b ∈ t.rows)
    (h : a.id = b.id) : a = b := by
  have hnd : (t.rows.map PublicAsset.id).Nodup := pairwise_map.mpr (t.unique.imp And.left)
  exact inj_on_of_nodup_map hnd ha hb h

theorem Manager.resolvePublicAsset_ok {slug : String} {viewer : Principal}
    (h : m.resolvePublicAsset t slug = .ok (asset, viewer)) :
    t.getPublicAsset (trim '/' slug) = some asset := by
  unfold resolvePublicAsset at h
  split at h
  · cases h
  next found hg =>
    split at h
    · cases h
    · rw [hg, (Prod.mk.inj (Except.ok.inj h)).1]

theorem Manager.resolvePublicAsset_admitted {slug : String}
    (hm : ∀ tenant bucket, m.checkBucket tenant bucket = none)
    (hg : t.getPublicAsset (trim '/' slug) = some asset) :
    ∃ viewer, m.resolvePublicAsset t slug = .ok (asset, viewer) := by
  simp [resolvePublicAsset, hg, checkCapabilityTarget, hm]

namespace Registry

variable {s : Registry} {c : PublishCall}

/-- What is found under the published slug, right after a successful publish. -/
theorem get_published {t' : AssetTable} (h : c.apply s.table = .ok (a, t')) :
    ∃ row, t'.getPublicAsset (trim '/' a.slug) = some row ∧ row.key = c.asset.key ∧
      ((∃ old ∈ s.table.rows, old.id = c.targetID s.table ∧ row.tenantID = old.tenantID ∧
          row.bucket = old.bucket) ∨
        (row.place = c.asset.place ∧ ∀ old ∈ s.table.rows, old.id ≠ c.targetID s.table)) := by
  obtain ⟨-, hslug, hpl, hid, hput⟩ := PublishCall.apply_ok h
  have ht : trim '/' a.slug = a.slug := by rw [hslug]; exact trim_trim _ _
  have hkey : a.key = c.asset.key := congrArg (·.2.2) hpl
  obtain ⟨row, hg, hrow⟩ := AssetTable.getPublicAsset_put hput
  rw [ht, ← hid]
  refine ⟨row, hg, ?_⟩
  obtain ⟨old, hold, hold', rfl⟩ | ⟨rfl, hnone⟩ := hrow
  · exact ⟨hkey, .inl ⟨old, hold, hold', rfl, rfl⟩⟩
  · exact ⟨hkey, .inr ⟨hpl, hnone⟩⟩

theorem readsBack_iff_inPlace (s : Registry) (c : PublishCall) : s.ReadsBack c ↔ s.InPlace c := by
  constructor
  · intro h hok row hrow hid
    obtain ⟨⟨a, t'⟩, hok⟩ := hok
    obtain ⟨found, viewer, hres, hpl⟩ := h a t' hok
      ⟨⟨false, .deny, false⟩, fun _ _ => none, fun _ _ _ => .ok [], fun _ _ => .ok []⟩ fun _ _ => rfl
    obtain ⟨row', hg, -, hwh⟩ := get_published hok
    cases hg.symm.trans (Manager.resolvePublicAsset_ok hres)
    obtain ⟨old, hold, hold', ht, hbc⟩ | ⟨-, hnone⟩ := hwh
    · rw [AssetTable.eq_of_id hrow hold (hid.trans hold'.symm), ← ht, ← hbc]
      exact ⟨congrArg (·.1) hpl, congrArg (·.2.1) hpl⟩
    · exact absurd hid (hnone row hrow)
  · intro h a t' hok m hm
    obtain ⟨row, hg, hkey, hwh⟩ := get_published hok
    obtain ⟨viewer, hres⟩ := Manager.resolvePublicAsset_admitted hm hg
    refine ⟨row, viewer, hres, ?_⟩
    obtain ⟨old, hold, hold', ht, hbc⟩ | ⟨hpl, -⟩ := hwh
    · have hin := h ⟨_, hok⟩ old hold hold'
      simp only [PublicAsset.place, ht, hbc, hin, hkey]
    · exact hpl

/-- Every row of the table was authorized under its slug. -/
def RowsAuthorized (s : Registry) : Prop :=
  ∀ row ∈ s.table.rows, ∃ c ∈ s.published, c.Authorizes row.slug row.place

theorem rowsAuthorized_publish (s : Registry) (c : PublishCall) (h : s.RowsAuthorized)
    (hc : s.InPlace c) : (s.publish c).RowsAuthorized := by
  unfold publish
  split
  next a t' hok =>
    obtain ⟨hat, -, hpl, hid, hput⟩ := PublishCall.apply_ok hok
    intro row hrow
    obtain ⟨hold, -⟩ | ⟨old, hold, hold', rfl⟩ | ⟨rfl, -⟩ := (AssetTable.mem_putPublicAsset hput).mp hrow
    · obtain ⟨c', hc', hat'⟩ := h row hold
      exact ⟨c', mem_append_left _ hc', hat'⟩
    · obtain ⟨ht, hbc⟩ := hc ⟨_, hok⟩ old hold (hold'.trans hid)
      have hsame : (AssetTable.overwrite a old).place = a.place := by
        rw [hpl]
        simp only [PublicAsset.place, AssetTable.overwrite, ht, hbc,
          show a.key = c.asset.key from congrArg (·.2.2) hpl]
      exact ⟨c, by simp, hsame ▸ hat⟩
    · exact ⟨c, by simp, hat⟩
  · exact h

theorem RowsAuthorized.exposes (h : s.RowsAuthorized) : s.ExposesAuthorized := by
  intro m slug asset viewer hres
  have hg := Manager.resolvePublicAsset_ok hres
  have hslug : asset.slug = trim '/' slug := by simpa using find?_some hg
  rw [← hslug]
  exact h asset (mem_of_find?_eq_some hg)

/-- **A run of publishes exposes only authorized places, and each publish reads
back, exactly when every publish overwrites in place.** -/
theorem exposes_authorized_iff_in_place (calls : List PublishCall) :
    (Always publish ExposesAuthorized .empty calls ∧ Each publish ReadsBack .empty calls) ↔
      Each publish InPlace .empty calls := by
  have hrd : Each publish ReadsBack .empty calls ↔ Each publish InPlace .empty calls :=
    each_congr readsBack_iff_inPlace
  constructor
  · intro h
    exact hrd.mp h.2
  · intro h
    have hrw : Always publish RowsAuthorized .empty calls :=
      always_of_each rowsAuthorized_publish (fun row hrow => by cases hrow) h
    exact ⟨hrw.mono fun s hs => hs.exposes, hrd.mpr h⟩

/-- A publisher first publishes the logo of bucket `site` under the slug `logo`, then
republishes the slug for a report of bucket `board`. The slug then resolves to the
report's key in bucket `site`, which no call was authorized for. -/
theorem republish_elsewhere_exposes_unauthorized :
    let m : Manager := ⟨⟨true, .tenant, false⟩, fun _ _ => none, fun _ _ _ => .ok [], fun _ _ => .ok []⟩
    let publisher : Principal := ⟨"u1", "acme", .user, [], [], ["publish"], none⟩
    let logo : PublishCall :=
      ⟨m, publisher, "id-1", 1, ⟨"", "acme", "site", "logo.png", "logo", "", "", 0, "u1"⟩⟩
    let report : PublishCall :=
      ⟨m, publisher, "id-2", 2, ⟨"", "acme", "board", "report.pdf", "logo", "", "", 0, "u1"⟩⟩
    (∃ row viewer,
      m.resolvePublicAsset (run publish .empty [logo, report]).table "logo" = .ok (row, viewer) ∧
        row.place = ("acme", "site", "report.pdf")) ∧
      ¬ Always publish ExposesAuthorized .empty [logo, report] ∧
      ¬ Each publish ReadsBack .empty [logo, report] := by
  intro m publisher logo report
  have hg : (run publish .empty [logo, report]).table.getPublicAsset (trim '/' "logo") =
      some ⟨"id-1", "acme", "site", "report.pdf", "logo", "public, max-age=3600", "u1", 2, "u1"⟩ := by
    decide +kernel
  have hl : (run publish .empty [logo, report]).published.map PublishCall.asset =
      [logo.asset, report.asset] := by
    decide +kernel
  obtain ⟨viewer, hres⟩ := Manager.resolvePublicAsset_admitted (m := m) (fun _ _ => rfl) hg
  refine ⟨⟨_, viewer, hres, rfl⟩, ?_, ?_⟩
  · intro h
    obtain ⟨c, hc, -, hat, -⟩ := h.last m "logo" _ viewer hres
    have hm : c.asset ∈ [logo.asset, report.asset] := hl ▸ mem_map_of_mem hc
    have hpl : ∀ a ∈ [logo.asset, report.asset], a.place ≠ ("acme", "site", "report.pdf") := by
      decide
    exact hpl c.asset hm hat
  · intro h
    have hplac := (readsBack_iff_inPlace _ _).mp h.2.1
    have hok : (report.apply (publish .empty logo).table).isOk = true := by decide +kernel
    have hrow : ∃ row ∈ (publish .empty logo).table.rows,
        row.id = report.targetID (publish .empty logo).table ∧ row.bucket ≠ report.asset.bucket := by
      decide +kernel
    obtain ⟨row, hm, hid, hbc⟩ := hrow
    cases hap : report.apply (publish .empty logo).table with
    | ok result => exact hbc (hplac ⟨result, hap⟩ row hm hid).2
    | error err => rw [hap] at hok; cases hok

end Registry
end AeroVault.Access
