import Mathlib

/-! Rows that pin blobs.

A row `i` pins the blob at a key `k`; several rows may pin one key. An operation
touches some keys, removes some rows and may store one row with a new blob. If
every row reads back the blob it was stored with, then it still does after the
operation exactly when the operation spares the rows that stay: where it touches
the key of one of them, it leaves there what was there (`readsBack_iff_spares`). -/
namespace AeroVault.Lib.Pins

variable {ι κ β : Type*}

structure Effect (ι κ β : Type*) where
  /-- The keys written or, with `none`, deleted. -/
  touches : List (κ × Option β)
  removes : List ι
  /-- The row stored, its key and its blob. -/
  stores : Option (ι × κ × β)

namespace Effect

def quiet : Effect ι κ β := ⟨[], [], none⟩

variable (e : Effect ι κ β) (pins pins' : ι → κ → Prop) (blobs blobs' : κ → Option β)

/-- The operation has had the effect `e`. -/
structure Realized : Prop where
  touched : ∀ t ∈ e.touches, blobs' t.1 = t.2
  untouched : ∀ k, (∀ t ∈ e.touches, t.1 ≠ k) → blobs' k = blobs k
  pins_iff : ∀ i k, pins' i k ↔ (pins i k ∧ i ∉ e.removes) ∨ ∃ b, e.stores = some (i, k, b)
  /-- The row stored is a new one, or takes the place of one removed. -/
  fresh : ∀ i k b, e.stores = some (i, k, b) → ∀ k', pins i k' → i ∈ e.removes
  stored : ∀ i k b, e.stores = some (i, k, b) → (k, some b) ∈ e.touches

/-- Where a touched key is the key of a row that stays, its blob stays as it was. -/
def Spares : Prop := ∀ t ∈ e.touches, ∀ i, pins i t.1 → i ∉ e.removes → blobs t.1 = t.2

variable [DecidableEq ι]

def originAfter (origin : ι → β) : ι → β :=
  match e.stores with
  | some (i, _, b) => Function.update origin i b
  | none => origin

end Effect

/-- Every row reads back the blob it was stored with. -/
def ReadsBack (pins : ι → κ → Prop) (blobs : κ → Option β) (origin : ι → β) : Prop :=
  ∀ i k, pins i k → blobs k = some (origin i)

variable {e : Effect ι κ β} {pins pins' : ι → κ → Prop} {blobs blobs' : κ → Option β}
  {origin : ι → β}

/-- A row that stays finds its key unchanged exactly when the operation spares it. -/
theorem Effect.Realized.unchanged_iff (h : e.Realized pins pins' blobs blobs') :
    (∀ i k, pins i k → i ∉ e.removes → blobs' k = blobs k) ↔ e.Spares pins blobs := by
  constructor
  · intro hsame t ht i hi hst
    rw [← hsame i t.1 hi hst]
    exact h.touched t ht
  · intro hsp i k hi hst
    by_cases hk : ∃ t ∈ e.touches, t.1 = k
    · obtain ⟨t, ht, rfl⟩ := hk
      rw [h.touched t ht]
      exact (hsp t ht i hi hst).symm
    · exact h.untouched k fun t ht htk => hk ⟨t, ht, htk⟩

variable [DecidableEq ι]

theorem Effect.originAfter_stays (h : e.Realized pins pins' blobs blobs') {i : ι}
    {k : κ} (hi : pins i k) (hst : i ∉ e.removes) : e.originAfter origin i = origin i := by
  unfold originAfter
  cases hs : e.stores with
  | none => rfl
  | some stored =>
    obtain ⟨j, k', b⟩ := stored
    have hne : i ≠ j := fun hij => hst (hij ▸ h.fresh j k' b hs k (hij ▸ hi))
    exact Function.update_of_ne hne b origin

/-- **Reading back is kept exactly by the operations that spare the rows that stay.** -/
theorem readsBack_iff_spares (h : e.Realized pins pins' blobs blobs') (hr : ReadsBack pins blobs origin) :
    ReadsBack pins' blobs' (e.originAfter origin) ↔ e.Spares pins blobs := by
  rw [← h.unchanged_iff]
  constructor
  · intro hr' i k hi hst
    have haf := hr' i k ((h.pins_iff i k).mpr (.inl ⟨hi, hst⟩))
    rw [haf, hr i k hi, Effect.originAfter_stays h hi hst]
  · intro hsame i k hi
    obtain ⟨hi, hst⟩ | ⟨b, hs⟩ := (h.pins_iff i k).mp hi
    · rw [hsame i k hi hst, hr i k hi, Effect.originAfter_stays h hi hst]
    · have ht := h.touched _ (h.stored i k b hs)
      rw [ht]
      simp [Effect.originAfter, hs]

end AeroVault.Lib.Pins
