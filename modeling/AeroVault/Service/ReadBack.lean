import AeroVault.Lib.Pins
import AeroVault.Service.Sessions

/-! Whether every retained row reads back the bytes it was stored with.

A row pins the blob at its storage key. Unversioned rows of one key share one
storage key, and so does the row of an upload that was opened before versioning
was switched, so a call may write or delete a blob that other rows still pin.
`reads_back_iff` says exactly when: every row reads back, in every state of a run,
if and only if each call of the run spares the rows that it does not remove. -/
namespace AeroVault.Service
open Lib Repository Access

/-! ### Rows and blobs as pins -/

/-- The row `i`, not a delete marker, has the storage key `key`. -/
def Vault.pins (s : Vault) (i : Nat) (key : String) : Prop :=
  ∃ o ∈ s.objects.rows, o.isDeleteMarker = false ∧ o.id = i ∧ o.storageKey = key

def NewRow.pinned (r : NewRow) : Option (Nat × String × Bytes) :=
  r.content.map fun data => (r.id, r.storageKey, data)

def Effect.pinned (e : Effect) : Pins.Effect Nat String Bytes :=
  ⟨e.touches, e.removes, e.adds.bind NewRow.pinned⟩

variable {e : Effect} {s s' : Vault}

theorem pinned_stores {i : Nat} {key : String} {data : Bytes} :
    e.pinned.stores = some (i, key, data) ↔
      ∃ r, e.adds = some r ∧ r.content = some data ∧ r.id = i ∧ r.storageKey = key := by
  simp only [Effect.pinned, NewRow.pinned, Option.bind_eq_some_iff, Option.map_eq_some_iff, Prod.mk.injEq]
  constructor
  · intro h
    obtain ⟨r, hr, content, hcn, hid, hkey, rfl⟩ := h
    exact ⟨r, hr, hcn, hid, hkey⟩
  · intro h
    obtain ⟨r, hr, hcn, hid, hkey⟩ := h
    exact ⟨r, hr, data, hcn, hid, hkey, rfl⟩

theorem Outcome.pins_iff (h : Outcome e s s') (i : Nat) (key : String) :
    s'.pins i key ↔ (s.pins i key ∧ i ∉ e.removes) ∨ ∃ data, e.pinned.stores = some (i, key, data) := by
  constructor
  · intro hpin
    obtain ⟨o', ho', hm, rfl, rfl⟩ := hpin
    obtain ⟨o, ho, hst, hsame⟩ | ⟨r, hr, hd⟩ := h.rows.arises o' ho'
    · refine .inl ⟨⟨o, ho, ?_, hsame.id.symm, hsame.storageKey.symm⟩, ?_⟩
      · rw [← hsame.marker, hm]
      · rw [hsame.id]
        exact hst
    · obtain ⟨hid, -, hkey, hmr⟩ := hd
      obtain ⟨data, hdt⟩ : ∃ data, r.content = some data := by
        rw [hm] at hmr
        exact Option.ne_none_iff_exists'.mp fun hnone => by simp [hnone] at hmr
      exact .inr ⟨data, pinned_stores.mpr ⟨r, hr, hdt, hid.symm, hkey.symm⟩⟩
  · intro hpin
    obtain ⟨⟨o, ho, hm, rfl, rfl⟩, hst⟩ | ⟨data, hstor⟩ := hpin
    · obtain ⟨o', ho', hsame⟩ := h.rows.kept o ho hst
      exact ⟨o', ho', hsame.marker.trans hm, hsame.id, hsame.storageKey⟩
    · obtain ⟨r, hr, hdt, rfl, rfl⟩ := pinned_stores.mp hstor
      obtain ⟨o', ho', hid, -, hkey, hmr⟩ := h.rows.added r hr
      exact ⟨o', ho', by rw [hmr, hdt]; rfl, hid, hkey⟩

/-- The pins' view of a call. -/
theorem Outcome.realized (h : Outcome e s s') :
    e.pinned.Realized s.pins s'.pins s.bytes s'.bytes where
  touched := h.touched
  untouched := h.untouched
  pins_iff := h.pins_iff
  fresh i key data hst key' hpin := by
    obtain ⟨r, hr, -, rfl, -⟩ := pinned_stores.mp hst
    obtain ⟨o, ho, -, hid, -⟩ := hpin
    exact h.rows.fresh r hr o ho hid
  stored i key data hst := by
    obtain ⟨r, hr, hd, -, rfl⟩ := pinned_stores.mp hst
    exact h.written r data hr hd

/-! ### Runs -/

/-- A vault, with the bytes that the write of each row stored. -/
structure Traced where
  vault : Vault
  origin : Nat → Bytes

def Traced.next (t : Traced) (c : Call) : Traced :=
  ⟨t.vault.next c, (c.effect t.vault).pinned.originAfter t.origin⟩

/-- Every row that is not a delete marker reads back what its write stored. -/
abbrev Traced.ReadsBack (t : Traced) : Prop :=
  ∀ o ∈ t.vault.objects.rows, o.isDeleteMarker = false →
    t.vault.bytes o.storageKey = some (t.origin o.id)

/-- No blob that the call writes or deletes is pinned by a row that it neither
removes nor overwrites, unless the bytes there stay what they were. -/
def Call.Spares (c : Call) (s : Vault) : Prop :=
  ∀ x ∈ (c.effect s).touches, ∀ o ∈ s.objects.rows, o.isDeleteMarker = false →
    o.storageKey = x.1 → o.id ∉ (c.effect s).removes → s.bytes x.1 = x.2

theorem readsBack_iff_pins {t : Traced} :
    t.ReadsBack ↔ Pins.ReadsBack t.vault.pins t.vault.bytes t.origin := by
  constructor
  · intro h i key hpin
    obtain ⟨o, ho, hm, rfl, rfl⟩ := hpin
    exact h o ho hm
  · intro h o ho hm
    exact h o.id o.storageKey ⟨o, ho, hm, rfl, rfl⟩

theorem spares_iff_pins (c : Call) (s : Vault) : c.Spares s ↔ (c.effect s).pinned.Spares s.pins s.bytes := by
  constructor
  · intro h x hx i hpin hst
    obtain ⟨o, ho, hm, rfl, hkey⟩ := hpin
    exact h x hx o ho hm hkey hst
  · intro h x hx o ho hm hkey hst
    exact h x hx o.id ⟨o, ho, hm, rfl, hkey⟩ hst

/-- One call: if every row reads back before it, then every row does after it
exactly when the call spares the rows it does not remove. -/
theorem readsBack_next_iff {t : Traced} (hs : SessionsSound t.vault) (hr : t.ReadsBack) {c : Call} :
    (t.next c).ReadsBack ↔ c.Spares t.vault := by
  rw [readsBack_iff_pins, spares_iff_pins]
  exact Pins.readsBack_iff_spares (call_outcome c hs).realized (readsBack_iff_pins.mp hr)

/-- **Every retained row reads back, in every state of a run of calls from the empty
vault, exactly when each call of the run spares the rows that it does not remove.** -/
theorem reads_back_iff (buckets : String → String → BucketConfig) (maxBytes maxObjects : String → Int)
    (origin : Nat → Bytes) (calls : List Call) :
    Always Traced.next Traced.ReadsBack ⟨.empty buckets maxBytes maxObjects, origin⟩ calls ↔
      Each Traced.next (fun t c => c.Spares t.vault) ⟨.empty buckets maxBytes maxObjects, origin⟩
        calls := by
  refine always_iff_each
    (fun t c hs _ => sessionsSound_next c hs) (fun t c hs hr _ => readsBack_next_iff hs hr)
    (sessionsSound_empty buckets maxBytes maxObjects) ?_ (.trivial _ _)
  exact nofun

/-- Without versioning: a put, a soft delete and a put of other bytes, all of one
key. The deleted row is still there, to be restored, and reads the other bytes. -/
theorem put_after_soft_delete_overwrites :
    ¬ Always Traced.next Traced.ReadsBack
      ⟨.empty, fun _ => []⟩
      [⟨allowedUser 1 "v1" "u1", .put (plainPut "acme" "docs" "a" [1])⟩,
        ⟨allowedUser 2 "v2" "u2", .delete "acme" "docs" "a" false⟩,
        ⟨allowedUser 3 "v3" "u3", .put (plainPut "acme" "docs" "a" [2])⟩] := by
  intro h
  exact absurd h.last (by decide +kernel)

end AeroVault.Service
