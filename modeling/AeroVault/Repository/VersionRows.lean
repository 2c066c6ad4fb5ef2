import AeroVault.Repository.Statements

/-! The version rows of a key.

The statements that write `objects` set two flags and a timestamp on different
rows, and two of them choose a row to revive. What holds in every reachable state,
for every key: one live row at most, never a delete marker nor a historical
version, and the newest of its key; and a newest row is never a historical
version (`version_rows`). The argument separates what every deletion of rows keeps
(`Sound`) from the last part, which `promoteLatestObjectVersion` has to repair. -/
namespace AeroVault.Repository
open Lib Nat

/-- What the claimed shape of a key's rows is. -/
structure VersionRows (t : Objects) (k : Path) : Prop where
  one_live : ∀ a ∈ versionsAt t k, ∀ b ∈ versionsAt t k, a.live = true → b.live = true → a = b
  live_plain : ∀ a ∈ versionsAt t k, a.live = true →
    a.isDeleteMarker = false ∧ a.versionTombstone = false
  live_newest : ∀ a ∈ versionsAt t k, a.live = true → latest newer (versionsAt t k) = some a
  newest_current : (∀ a ∈ versionsAt t k, a.live = false) →
    ∀ a, latest newer (versionsAt t k) = some a → a.versionTombstone = false

/-! ### The invariant -/

/-- The clock moves on, written objects are not delete markers (their metadata
cannot use the reserved namespace), and `Stat` of an empty storage key fails. -/
structure Regular (s : Clocked) (e : Executed) : Prop where
  later : s.clock < e.now
  unmarked : ∀ obj, e.statement = .upsertObject obj ∨ e.statement = .insertObjectVersion obj →
    obj.isDeleteMarker = false
  stat : ∀ row, e.admits row = true → row.storageKey ≠ ""
  untagged : ∀ id tags, e.statement ≠ .updateObjectTagsByID id tags

/-- The part that any deletion of rows keeps. -/
structure Sound (t : Objects) (clock : Nat) : Prop where
  past : ∀ a ∈ t.rows, a.updatedAt ≤ clock
  distinct : ∀ a ∈ t.rows, ∀ b ∈ t.rows, a.path = b.path → a.updatedAt = b.updatedAt → a = b
  live_plain : ∀ a ∈ t.rows, a.live = true → a.isDeleteMarker = false ∧ a.versionTombstone = false
  live_newest : ∀ a ∈ t.rows, ∀ b ∈ t.rows, a.path = b.path → a.live = true →
    b.updatedAt ≤ a.updatedAt
  marker_plain : ∀ a ∈ t.rows, a.isDeleteMarker = true →
    a.storageKey = "" ∧ a.versionTombstone = false

/-- A historical version of `k` is older than some row of `k`. -/
def TombstonesOlder (t : Objects) (k : Path) : Prop :=
  ∀ a ∈ t.rows, a.path = k → a.versionTombstone = true →
    ∃ b ∈ t.rows, b.path = k ∧ a.updatedAt < b.updatedAt

structure Inv (s : Clocked) : Prop where
  sound : Sound s.table s.clock
  older : ∀ k, TombstonesOlder s.table k

variable {t t' : Objects} {clock now : Nat} {k : Path} {row x : Object} {s : Clocked}

theorem Sound.live_unique (h : Sound t clock) {a b : Object} (ha : a ∈ t.rows) (hb : b ∈ t.rows)
    (hp : a.path = b.path) (hla : a.live = true) (hlb : b.live = true) : a = b :=
  h.distinct a ha b hb hp
    (le_antisymm (h.live_newest b hb a ha hp.symm hlb) (h.live_newest a ha b hb hp hla))

theorem Sound.subset (h : Sound t clock) (hcl : clock ≤ now) (hsub : ∀ a ∈ t'.rows, a ∈ t.rows) :
    Sound t' now where
  past a ha := le_trans (h.past a (hsub a ha)) hcl
  distinct a ha b hb := h.distinct a (hsub a ha) b (hsub b hb)
  live_plain a ha := h.live_plain a (hsub a ha)
  live_newest a ha b hb := h.live_newest a (hsub a ha) b (hsub b hb)
  marker_plain a ha := h.marker_plain a (hsub a ha)

/-- What is true of a live row of `t`. -/
def Current (t : Objects) (o : Object) : Prop :=
  (o.isDeleteMarker = false ∧ o.versionTombstone = false) ∧
    ∀ c ∈ t.rows, c.path = o.path → c.updatedAt ≤ o.updatedAt

theorem Sound.current (h : Sound t clock) {a : Object} (ha : a ∈ t.rows) (hl : a.live = true) : Current t a :=
  ⟨h.live_plain a ha hl, fun c hc hp => h.live_newest a ha c hc hp.symm hl⟩

/-- Rows that keep their keys and stamps may be deleted or revived. -/
theorem Sound.restamped (h : Sound t clock) (hcl : clock ≤ now)
    (hback : ∀ o ∈ t'.rows, ∃ a ∈ t.rows, o.id = a.id ∧ o.path = a.path ∧ o.updatedAt = a.updatedAt ∧
      (o.isDeleteMarker = true → o.storageKey = "" ∧ o.versionTombstone = false) ∧
      (o.live = true → Current t o)) : Sound t' now where
  past o ho := by
    obtain ⟨a, ha, -, -, ht, -⟩ := hback o ho
    rw [ht]
    exact le_trans (h.past a ha) hcl
  distinct o ho b hb hp ht := by
    obtain ⟨a, ha, hid, hpa, hta, -⟩ := hback o ho
    obtain ⟨c, hc, hidc, hpc, htc, -⟩ := hback b hb
    have hac := h.distinct a ha c hc (by rw [← hpa, ← hpc, hp]) (by omega)
    exact eq_of_id ho hb (by rw [hid, hidc, hac])
  live_plain o ho hl := by
    obtain ⟨a, -, -, -, -, -, hcr⟩ := hback o ho
    exact (hcr hl).1
  live_newest o ho b hb hp hl := by
    obtain ⟨a, -, -, -, -, -, hcr⟩ := hback o ho
    obtain ⟨c, hc, -, hpc, htc, -⟩ := hback b hb
    rw [htc]
    exact (hcr hl).2 c hc (by rw [← hpc, hp])
  marker_plain o ho hm := by
    obtain ⟨a, -, -, -, -, hmr, -⟩ := hback o ho
    exact hmr hm

/-- A row that is newest and not historical keeps the historical ones older. -/
theorem Sound.older_of_newest (h : Sound t clock) (hrow : row ∈ t.rows) (hk : row.path = k)
    (hnew : ∀ b ∈ t.rows, b.path = k → b.updatedAt ≤ row.updatedAt)
    (hpl : row.versionTombstone = false) : TombstonesOlder t k := by
  intro a ha hak hat
  refine ⟨row, hrow, hk, lt_of_le_of_ne (hnew a ha hak) fun heq => ?_⟩
  have hsame := h.distinct a ha row hrow (hak.trans hk.symm) heq
  rw [hsame, hpl] at hat
  cases hat

theorem Sound.older_of_live (h : Sound t clock) (hrow : row ∈ t.rows) (hk : row.path = k)
    (hl : row.live = true) : TombstonesOlder t k :=
  h.older_of_newest hrow hk (fun b hb hbk => h.live_newest row hrow b hb (hk.trans hbk.symm) hl)
    (h.live_plain row hrow hl).2

/-! ### Writing a newest row

`UpsertObject`, `InsertObjectVersion` and `InsertDeleteMarker` all end in a row `x`
stamped `now`, with no other live row of its key left. -/

/-- `o` is what a write of `k` makes of another row `a`. -/
def Demoted (now : Nat) (k : Path) (a o : Object) : Prop :=
  (o = a ∧ (a.path = k → a.live = false)) ∨ (o = retired now a ∧ a.path = k ∧ a.live = true)

theorem Demoted.same {a o : Object} (h : Demoted now k a o) :
    o.id = a.id ∧ o.path = a.path ∧ o.updatedAt = a.updatedAt ∧ o.metadata = a.metadata ∧
      o.storageKey = a.storageKey := by
  obtain ⟨rfl, -⟩ | ⟨rfl, -, -⟩ := h
  · exact ⟨rfl, rfl, rfl, rfl, rfl⟩
  · exact ⟨rfl, rfl, rfl, rfl, rfl⟩

theorem Demoted.of_live {a o : Object} (h : Demoted now k a o) (hl : o.live = true) : o = a ∧ o.path ≠ k := by
  obtain ⟨rfl, hd⟩ | ⟨rfl, -, -⟩ := h
  · refine ⟨rfl, fun hk => ?_⟩
    rw [hd hk] at hl
    cases hl
  · cases hl

theorem Demoted.eq_elsewhere {a o : Object} (h : Demoted now k a o) (hk : o.path ≠ k) : o = a := by
  obtain ⟨rfl, -⟩ | ⟨rfl, hak, -⟩ := h
  · rfl
  · exact absurd hak hk

/-- What a write of `x` leaves. -/
structure Wrote (t : Objects) (now : Nat) (x : Object) (t' : Objects) : Prop where
  stored : x ∈ t'.rows
  stamped : x.updatedAt = now
  current : x.versionTombstone = false
  marker : x.isDeleteMarker = true → x.storageKey = "" ∧ x.live = false
  rest : ∀ o ∈ t'.rows, o = x ∨ ∃ a ∈ t.rows, Demoted now x.path a o
  elsewhere : ∀ a ∈ t.rows, a.path ≠ x.path → a ∈ t'.rows

theorem Wrote.sound (hw : Wrote t now x t') (h : Sound t clock) (hnow : clock < now) :
    Sound t' now where
  past o ho := by
    obtain rfl | ⟨a, ha, hd⟩ := hw.rest o ho
    · exact le_of_eq hw.stamped
    · rw [hd.same.2.2.1]
      exact le_of_lt (lt_of_le_of_lt (h.past a ha) hnow)
  distinct o ho b hb hp ht := by
    -- the new stamp is later than every old one, and old rows keep theirs
    have hx := hw.stamped
    obtain rfl | ⟨a, ha, hd⟩ := hw.rest o ho <;> obtain rfl | ⟨c, hc, he⟩ := hw.rest b hb
    · rfl
    · have := h.past c hc
      have := he.same.2.2.1
      omega
    · have := h.past a ha
      have := hd.same.2.2.1
      omega
    · obtain ⟨hdid, hdp, hdt, -⟩ := hd.same
      obtain ⟨heid, hep, het, -⟩ := he.same
      have hac : a = c := h.distinct a ha c hc (by rw [← hdp, ← hep, hp]) (by omega)
      exact eq_of_id ho hb (by rw [hdid, heid, hac])
  live_plain o ho hl := by
    obtain rfl | ⟨a, ha, hd⟩ := hw.rest o ho
    · refine ⟨?_, hw.current⟩
      cases hm : o.isDeleteMarker with
      | false => rfl
      | true => rw [(hw.marker hm).2] at hl; cases hl
    · obtain ⟨rfl, -⟩ := hd.of_live hl
      exact h.live_plain o ha hl
  live_newest o ho b hb hp hl := by
    obtain rfl | ⟨c, hc, he⟩ := hw.rest b hb
    · obtain rfl | ⟨a, ha, hd⟩ := hw.rest o ho
      · exact le_refl _
      · exact absurd hp (hd.of_live hl).2
    · obtain rfl | ⟨a, ha, hd⟩ := hw.rest o ho
      · have := h.past c hc
        have := he.same.2.2.1
        have := hw.stamped
        omega
      · obtain ⟨rfl, hne⟩ := hd.of_live hl
        rw [he.same.2.2.1]
        exact h.live_newest o ha c hc (hp.trans he.same.2.1) hl
  marker_plain o ho hm := by
    obtain rfl | ⟨a, ha, hd⟩ := hw.rest o ho
    · exact ⟨(hw.marker hm).1, hw.current⟩
    · have hma : a.isDeleteMarker = true := (isDeleteMarker_congr hd.same.2.2.2.1).symm.trans hm
      obtain ⟨rfl, -⟩ | ⟨rfl, -, hl⟩ := hd
      · exact h.marker_plain o ha hma
      · rw [(h.live_plain a ha hl).1] at hma
        cases hma

theorem Wrote.inv (hw : Wrote s.table now x t') (h : Inv s) (hnow : s.clock < now) :
    Inv ⟨t', now⟩ where
  sound := hw.sound h.sound hnow
  older := by
    intro j
    have hsound := hw.sound h.sound hnow
    by_cases hj : j = x.path
    · exact hsound.older_of_newest hw.stored hj.symm
        (fun b hb _ => by rw [hw.stamped]; exact hsound.past b hb) hw.current
    · intro o ho hoj hot
      obtain rfl | ⟨a, ha, hd⟩ := hw.rest o ho
      · exact absurd hoj.symm hj
      · obtain rfl := hd.eq_elsewhere (hoj ▸ hj)
        obtain ⟨b, hb, hbj, hlt⟩ := h.older j o ha hoj hot
        exact ⟨b, hw.elsewhere b hb (hbj ▸ hj), hbj, hlt⟩

theorem wrote_upsertObject (h : Sound t clock) {obj : Object}
    (hm : obj.isDeleteMarker = false) : ∃ x, Wrote t now x (upsertObject now obj t).2 := by
  have hno : ∀ o : Object, o.metadata = obj.metadata → o.isDeleteMarker = true → False := by
    intro o ho hmark
    cases hmark.symm.trans ((isDeleteMarker_congr ho).trans hm)
  cases hget : getObject t obj.path with
  | some row =>
    obtain ⟨hrow, hk, hlv⟩ := getObject_some hget
    have hpl : row.versionTombstone = false := (h.live_plain row hrow hlv).2
    have hmem := fun o => mem_upsertObject_some (o := o) now hget
    refine ⟨overwriteColumns now obj row, (hmem _).mpr (.inl rfl), rfl, hpl,
      fun hmark => (hno _ rfl hmark).elim, ?_, ?_⟩
    · intro o ho
      obtain ho | ⟨ho, hid⟩ := (hmem o).mp ho
      · exact .inl ho
      · refine .inr ⟨o, ho, .inl ⟨rfl, fun hpath => ?_⟩⟩
        by_contra hl
        exact hid (congrArg Object.id
          (h.live_unique ho hrow hpath (by simpa using hl) hlv))
    · intro a ha hne
      refine (hmem a).mpr (.inr ⟨ha, fun hid => hne ?_⟩)
      rw [eq_of_id ha hrow hid]
      rfl
  | none =>
    have hmem := fun o => mem_upsertObject_none (o := o) now hget
    refine ⟨_, (hmem _).mpr (.inr rfl), rfl, rfl, fun hmark => (hno _ rfl hmark).elim, ?_, ?_⟩
    · intro o ho
      obtain ho | ho := (hmem o).mp ho
      · exact .inr ⟨o, ho, .inl ⟨rfl, getObject_none hget ho⟩⟩
      · exact .inl ho
    · intro a ha _
      exact (hmem a).mpr (.inl ha)

/-- The rows beside a row inserted after the live one has been retired. -/
theorem demoted_of_retireLive {o : Object} (h : o ∈ (retireLive now k t).rows) :
    ∃ a ∈ t.rows, Demoted now k a o := by
  obtain ⟨a, ha, hak, hl, rfl⟩ | ⟨ho, hno⟩ := mem_retireLive.mp h
  · exact ⟨a, ha, .inr ⟨rfl, hak, hl⟩⟩
  · exact ⟨o, ho, .inl ⟨rfl, fun hk => by simpa using fun hl => hno ⟨hk, hl⟩⟩⟩

theorem wrote_insertObjectVersion {obj : Object}
    (hm : obj.isDeleteMarker = false) : ∃ x, Wrote t now x (insertObjectVersion now obj t).2 := by
  refine ⟨_, mem_insertObjectVersion.mpr (.inr rfl), rfl, rfl, ?_, ?_, ?_⟩
  · intro hmr
    cases hmr.symm.trans ((isDeleteMarker_congr rfl).trans hm)
  · intro o ho
    obtain ho | ho := mem_insertObjectVersion.mp ho
    · exact .inr (demoted_of_retireLive ho)
    · exact .inl ho
  · intro a ha hne
    exact mem_insertObjectVersion.mpr (.inl (mem_retireLive.mpr (.inr ⟨ha, fun h => hne h.1⟩)))

theorem wrote_insertDeleteMarker {versionID : String}
    {metadata : GoMap} : ∃ x, Wrote t now x (insertDeleteMarker now k versionID metadata t).2 := by
  refine ⟨_, mem_insertDeleteMarker.mpr (.inr rfl), rfl, rfl, fun _ => ⟨rfl, rfl⟩, ?_, ?_⟩
  · intro o ho
    obtain ho | ho := mem_insertDeleteMarker.mp ho
    · exact .inr (demoted_of_retireLive ho)
    · exact .inl ho
  · intro a ha hne
    exact mem_insertDeleteMarker.mpr (.inl (mem_retireLive.mpr (.inr ⟨ha, fun h => hne h.1⟩)))

/-! ### Deleting and reviving -/

theorem inv_softDeleteObject (h : Inv s) (hnow : s.clock < now)
    (hok : softDeleteObject now k s.table = .ok t') : Inv ⟨t', now⟩ := by
  have hm := fun o => mem_softDeleteObject (o := o) hok
  refine ⟨h.sound.restamped (le_of_lt hnow) fun o ho => ?_, fun j o ho hoj hot => ?_⟩
  · obtain ⟨a, ha, -, -, rfl⟩ | ⟨ho, -⟩ := (hm o).mp ho
    · exact ⟨a, ha, rfl, rfl, rfl, h.sound.marker_plain a ha, fun hl => by cases hl⟩
    · exact ⟨o, ho, rfl, rfl, rfl, h.sound.marker_plain o ho, h.sound.current ho⟩
  · have hbc : ∃ a ∈ s.table.rows, a.path = j ∧ a.versionTombstone = true ∧ a.updatedAt = o.updatedAt := by
      obtain ⟨a, ha, -, -, rfl⟩ | ⟨ho, -⟩ := (hm o).mp ho
      · exact ⟨a, ha, hoj, hot, rfl⟩
      · exact ⟨o, ho, hoj, hot, rfl⟩
    obtain ⟨a, ha, haj, hat, hst⟩ := hbc
    obtain ⟨b, hb, hbj, hlt⟩ := h.older j a ha haj hat
    -- the newer row is still there, deleted or not
    rw [hst] at hlt
    by_cases hl : b.path = k ∧ b.live = true
    · exact ⟨_, (hm _).mpr (.inl ⟨b, hb, hl.1, hl.2, rfl⟩), hbj, hlt⟩
    · exact ⟨b, (hm b).mpr (.inr ⟨hb, hl⟩), hbj, hlt⟩

theorem inv_hardDelete (h : Inv s) (hnow : s.clock < now) : Inv ⟨s.table.delete (atPath k), now⟩ := by
  refine ⟨h.sound.subset (le_of_lt hnow) fun a ha => (mem_hardDelete.mp ha).1, ?_⟩
  intro j a ha haj hat
  obtain ⟨ha, hne⟩ := mem_hardDelete.mp ha
  obtain ⟨b, hb, hbj, hlt⟩ := h.older j a ha haj hat
  exact ⟨b, mem_hardDelete.mpr ⟨hb, by rw [hbj, ← haj]; exact hne⟩, hbj, hlt⟩

/-- Reviving the newest row of a key that has no live row. -/
theorem sound_revive (h : Sound t clock) (hrow : row ∈ t.rows)
    (hnew : ∀ b ∈ t.rows, b.path = row.path → b.updatedAt ≤ row.updatedAt)
    (hm : row.isDeleteMarker = false) (hmem : ∀ o, o ∈ t'.rows ↔ o = revived row ∨ (o ∈ t.rows ∧ o.id ≠ row.id)) :
    Sound t' clock := by
  -- `revived row` stands where `row` stood: same key, same stamp, now live
  refine h.restamped le_rfl fun o ho => ?_
  obtain rfl | ⟨ho, -⟩ := (hmem o).mp ho
  · have hun : (revived row).isDeleteMarker = false := (isDeleteMarker_congr rfl).trans hm
    exact ⟨row, hrow, rfl, rfl, rfl, fun hmr => absurd hmr (by simp [hun]), fun _ => ⟨⟨hun, rfl⟩, hnew⟩⟩
  · exact ⟨o, ho, rfl, rfl, rfl, h.marker_plain o ho, h.current ho⟩

theorem older_revive (hrow : row ∈ t.rows) (hsound : Sound t' clock)
    (hnew : ∀ b ∈ t.rows, b.path = row.path → b.updatedAt ≤ row.updatedAt)
    (hm : ∀ o, o ∈ t'.rows ↔ o = revived row ∨ (o ∈ t.rows ∧ o.id ≠ row.id))
    (hel : ∀ j, j ≠ row.path → TombstonesOlder t j) (j : Path) : TombstonesOlder t' j := by
  by_cases hj : j = row.path
  · have hrv : revived row ∈ t'.rows := (hm _).mpr (.inl rfl)
    refine hsound.older_of_newest hrv hj.symm ?_ rfl
    intro b hb hbj
    obtain rfl | ⟨hb, -⟩ := (hm b).mp hb
    · exact le_refl _
    · exact hnew b hb (hbj.trans hj)
  · intro o ho hoj hot
    obtain rfl | ⟨ho, -⟩ := (hm o).mp ho
    · exact absurd hoj.symm hj
    · obtain ⟨b, hb, hbj, hlt⟩ := hel j hj o ho hoj hot
      refine ⟨b, (hm b).mpr (.inr ⟨hb, fun hid => hj ?_⟩), hbj, hlt⟩
      rw [← hbj, eq_of_id hb hrow hid]

/-- A promotion repairs the key whose rows were deleted from. -/
theorem inv_promote (h : Sound t clock) (helse : ∀ j, j ≠ k → TombstonesOlder t j) :
    Inv ⟨promoteLatestObjectVersion k t, clock⟩ := by
  have hall : TombstonesOlder t k → Inv ⟨t, clock⟩ := by
    intro hk
    refine ⟨h, fun j => ?_⟩
    by_cases hj : j = k
    · exact hj ▸ hk
    · exact helse j hj
  obtain ⟨hlv, heq⟩ | ⟨-, hnil, heq⟩ | ⟨row, -, hlat, hm, heq⟩ | ⟨row, hlv, hlat, hm, heq⟩ :=
    promoteLatestObjectVersion_cases k t
  · obtain ⟨live, hmem, hl⟩ := List.any_eq_true.mp hlv
    simp only [liveAt, atPath, Bool.and_eq_true, beq_iff_eq] at hl
    rw [heq]
    exact hall (h.older_of_live hmem hl.1 hl.2)
  · rw [heq]
    refine hall fun a ha hak => ?_
    have hmem : a ∈ versionsAt t k := mem_versionsAt.mpr ⟨ha, hak⟩
    rw [hnil] at hmem
    cases hmem
  · obtain ⟨hrow, hk, hnew⟩ := latest_newest hlat
    rw [heq]
    exact hall (h.older_of_newest hrow hk hnew (h.marker_plain row hrow hm).2)
  · obtain ⟨hrow, rfl, hnew⟩ := latest_newest hlat
    have hmem := fun o => mem_update_row (o := o) (f := revived) (fun _ => rfl) hrow
    have hsound := sound_revive h hrow hnew hm hmem
    rw [heq]
    exact ⟨hsound, older_revive hrow hsound hnew hmem helse⟩

theorem inv_deleteObjectVersion (h : Inv s) (hnow : s.clock < now) {held : Nat → Bool}
    {versionID : String} (hok : deleteObjectVersion held k versionID s.table = .ok t') :
    Inv ⟨t', now⟩ := by
  obtain ⟨row, hrow, -, rfl⟩ := deleteObjectVersion_ok hok
  obtain ⟨hm, hk, -⟩ := getObjectVersion_some hrow
  refine inv_promote (h.sound.subset (le_of_lt hnow) fun a ha => (mem_delete_row.mp ha).1) ?_
  intro j hj a ha haj hat
  obtain ⟨b, hb, hbj, hlt⟩ := h.older j a (mem_delete_row.mp ha).1 haj hat
  refine ⟨b, mem_delete_row.mpr ⟨hb, fun hid => hj ?_⟩, hbj, hlt⟩
  rw [← hbj, eq_of_id hb hm hid, hk]

/-- With no live row, the newest row of a key is one that a user deleted. -/
theorem newest_restorable (h : Inv s) (hl : latest newer (versionsAt s.table k) = some row)
    (hd : ∀ b ∈ s.table.rows, b.path = k → b.live = false) : restorable row = true := by
  obtain ⟨hrow, hk, hnew⟩ := latest_newest hl
  have hcr : row.versionTombstone = false := by
    by_contra ht
    obtain ⟨b, hb, hbk, hlt⟩ := h.older k row hrow hk (by simpa using ht)
    exact absurd (hnew b hb hbk) (not_le.mpr hlt)
  simp [restorable, hd row hrow hk, hcr]

/-- With no live row, the row that the statement restores is the newest one. -/
theorem restored_newest (h : Inv s) (hl : latest (orderDesc Object.updatedAt fun _ => 0)
      ((versionsAt s.table k).filter restorable) = some row)
    (hd : ∀ b ∈ s.table.rows, b.path = k → b.live = false) :
    latest newer (versionsAt s.table k) = some row := by
  have hrs := List.mem_filter.mp (latest_mem hl)
  obtain ⟨hrow, hk⟩ := mem_versionsAt.mp hrs.1
  cases hnw : latest newer (versionsAt s.table k) with
  | none =>
    rw [latest_eq_none.mp hnw] at hrs
    cases hrs.1
  | some newest =>
    obtain ⟨hm, hpath, hmax⟩ := latest_newest hnw
    have hrest := newest_restorable h hnw hd
    have hf : newest.updatedAt ≤ row.updatedAt := by
      by_cases hne : newest = row
      · rw [hne]
      · have hbf := latest_first hl newest
          (List.mem_filter.mpr ⟨mem_versionsAt.mpr ⟨hm, hpath⟩, hrest⟩) hne
        unfold orderDesc at hbf
        omega
    rw [h.sound.distinct newest hm row hrow (hpath.trans hk.symm)
      (le_antisymm hf (hmax row hrow hk))]

/-- The row that the service looks at before it restores is the newest one as well. -/
theorem picked_newest (hnw : latest newer (versionsAt s.table k) = some row) (hrs : restorable row = true) :
    (listObjectVersions s.table k).find? restorable = some row := by
  have hh : (listObjectVersions s.table k).head? = some row := hnw
  cases hl : listObjectVersions s.table k with
  | nil => rw [hl] at hh; cases hh
  | cons first rest =>
    rw [hl] at hh
    cases hh
    simp [hrs]

theorem inv_restoreAdmitted (h : Inv s) (hnow : s.clock < now) {admits : Object → Bool}
    (hst : ∀ row, admits row = true → row.storageKey ≠ "")
    (hok : restoreAdmitted admits k s.table = .ok t') : Inv ⟨t', now⟩ := by
  obtain ⟨picked, hpc, hadm, hok⟩ := restoreAdmitted_ok hok
  obtain ⟨row, hl, hlv, rfl⟩ := restoreObject_ok hok
  have hd : ∀ b ∈ s.table.rows, b.path = k → b.live = false := fun b hb => not_any_liveAt hlv hb
  have hnw := restored_newest h hl hd
  have hrs := newest_restorable h hnw hd
  obtain ⟨hrow, hk, hmax⟩ := latest_newest hnw
  obtain rfl : row = picked := Option.some.inj ((picked_newest hnw hrs).symm.trans hpc)
  have hm : row.isDeleteMarker = false := by
    by_contra hmr
    exact hst row hadm (h.sound.marker_plain row hrow (by simpa using hmr)).1
  have hpl : row.versionTombstone = false := by
    simp only [restorable, Bool.and_eq_true, Bool.not_eq_true'] at hrs
    exact hrs.2
  have hmem' := fun o => mem_update_row (o := o) (f := fun o => {o with deletedAt := none})
    (fun _ => rfl) hrow
  rw [show ({row with deletedAt := none} : Object) = revived row by simp [revived, hpl]] at hmem'
  have hnew : ∀ b ∈ s.table.rows, b.path = row.path → b.updatedAt ≤ row.updatedAt :=
    fun b hb hp => hmax b hb (hp.trans hk)
  have hsound := sound_revive h.sound hrow hnew hm hmem'
  exact ⟨hsound.subset (le_of_lt hnow) fun _ ha => ha,
    older_revive hrow hsound hnew hmem' fun j _ => h.older j⟩

/-! ### Runs -/

theorem Inv.wait (h : Inv s) (hnow : s.clock < now) : Inv ⟨s.table, now⟩ :=
  ⟨h.sound.subset (le_of_lt hnow) fun _ ha => ha, h.older⟩

theorem inv_next (s : Clocked) (e : Executed) (h : Inv s) (hr : Regular s e) : Inv (s.next e) := by
  obtain ⟨statement, now, held, admits⟩ := e
  obtain ⟨hnow, hm, hstat, htags⟩ := hr
  cases statement with
  | upsertObject obj =>
    obtain ⟨x, hw⟩ := wrote_upsertObject h.sound (hm obj (.inl rfl))
    exact hw.inv h hnow
  | insertObjectVersion obj =>
    obtain ⟨x, hw⟩ := wrote_insertObjectVersion (hm obj (.inr rfl))
    exact hw.inv h hnow
  | insertDeleteMarker k versionID metadata =>
    obtain ⟨x, hw⟩ := wrote_insertDeleteMarker
    exact hw.inv h hnow
  | softDeleteObject k =>
    exact committed_cases (h.wait hnow)
      fun _ hok => inv_softDeleteObject h hnow hok
  | hardDeleteObject k =>
    refine committed_cases (P := fun t => Inv ⟨t, now⟩) (h.wait hnow) fun t' hok => ?_
    rw [hardDeleteObject_ok hok]
    exact inv_hardDelete h hnow
  | deleteObjectVersion k versionID =>
    exact committed_cases (h.wait hnow)
      fun _ hok => inv_deleteObjectVersion h hnow hok
  | restoreObject k =>
    exact committed_cases (h.wait hnow)
      fun _ hok => inv_restoreAdmitted h hnow hstat hok
  | updateObjectTagsByID id tags => exact absurd rfl (htags id tags)

theorem inv_empty : Inv .empty := by
  refine ⟨⟨?_, ?_, ?_, ?_, ?_⟩, fun k a ha => by cases ha⟩ <;> intros <;> contradiction

theorem Inv.versionRows (h : Inv s) (k : Path) : VersionRows s.table k where
  one_live a ha b hb hla hlb := by
    obtain ⟨ha, hak⟩ := mem_versionsAt.mp ha
    obtain ⟨hb, hbk⟩ := mem_versionsAt.mp hb
    exact h.sound.live_unique ha hb (hak.trans hbk.symm) hla hlb
  live_plain a ha hl := h.sound.live_plain a (mem_versionsAt.mp ha).1 hl
  live_newest a ha hl := by
    obtain ⟨hm, hak⟩ := mem_versionsAt.mp ha
    refine latest_eq_of_first ha fun b hb hne hbf => ?_
    obtain ⟨hb, hbk⟩ := mem_versionsAt.mp hb
    have hle := h.sound.live_newest a hm b hb (hak.trans hbk.symm) hl
    unfold newer orderDesc at hbf
    exact hne (h.sound.distinct b hb a hm (hbk.trans hak.symm) (by omega))
  newest_current hd a hlt := by
    have hrs := newest_restorable h hlt fun b hb hbk => hd b (mem_versionsAt.mpr ⟨hb, hbk⟩)
    simp only [restorable, Bool.and_eq_true, Bool.not_eq_true'] at hrs
    exact hrs.2

/-- **The version rows of every key keep their shape.** In every state reached from
an empty table by statements at increasing times. -/
theorem version_rows (run : List Executed) (hr : Each Clocked.next Regular .empty run) :
    Always Clocked.next (fun s => ∀ k, VersionRows s.table k) .empty run :=
  (always_of_each inv_next inv_empty hr).mono fun _ h => h.versionRows

/-- Two versions, a delete marker, and the marker deleted again: the second version
is live, and the shape holds throughout. -/
theorem version_rows_marker_removed :
    let k : Path := ⟨"default", "docs", "a"⟩
    let write (now : Nat) (v : String) : Executed :=
      ⟨.insertObjectVersion ⟨0, k, v, "local", "default/docs/a@v" ++ v, 1, "", "", [], [], "", "", 0, 0,
        none, none, false⟩, now, fun _ => false, fun _ => false⟩
    let mark : Executed :=
      ⟨.insertDeleteMarker k "m" [("_aero_delete_marker", "true")], 3, fun _ => false, fun _ => false⟩
    let unmark : Executed := ⟨.deleteObjectVersion k "m", 4, fun _ => false, fun _ => false⟩
    let calls := [write 1 "v1", write 2 "v2", mark, unmark]
    Always Clocked.next (fun s => ∀ k, VersionRows s.table k) .empty calls ∧
      (getObject (run Clocked.next .empty calls).table k).map Object.versionID = some "v2" := by
  intro k write mark unmark calls
  have hwr : ∀ s now v, s.clock < now → Regular s (write now v) := by
    intro s now v hnow
    refine ⟨hnow, ?_, fun row h => (by cases h), fun id tags h => (by cases h)⟩
    intro obj h
    cases h with
    | inl h => cases h
    | inr h => cases h; rfl
  have hother : ∀ s e, s.clock < e.now → e = mark ∨ e = unmark → Regular s e := by
    intro s e hnow he
    refine ⟨hnow, fun obj h => ?_, fun row h => ?_, fun id tags h => ?_⟩
    · cases he <;> subst e <;> cases h <;> contradiction
    · cases he <;> subst e <;> cases h
    · cases he <;> subst e <;> cases h
  refine ⟨version_rows calls ⟨hwr _ _ _ (by decide), hwr _ _ _ (by decide),
    hother _ _ (by decide) (.inl rfl), hother _ _ (by decide) (.inr rfl), .intro⟩, ?_⟩
  decide +kernel

/-! ### Deleting an old version -/

theorem getObject_delete_dead (hrow : row ∈ t.rows) (hd : row.live = false) (k : Path) :
    getObject (t.delete fun o => o.id == row.id) k = getObject t k := by
  show (t.rows.filter fun o => !(o.id == row.id)).find? (liveAt k) = t.rows.find? (liveAt k)
  rw [List.find?_filter]
  refine List.find?_congr fun o ho => ?_
  by_cases hid : o.id = row.id
  · simp [liveAt, eq_of_id ho hrow hid, hd]
  · simp [hid]

/-- The newest row stays the newest when another one is deleted. -/
theorem latest_delete (h : latest newer (versionsAt t k) = some x) (hne : x.id ≠ row.id) :
    latest newer (versionsAt (t.delete fun o => o.id == row.id) k) = some x := by
  obtain ⟨hx, hk⟩ := mem_versionsAt.mp (latest_mem h)
  refine latest_eq_of_first (mem_versionsAt.mpr ⟨mem_delete_row.mpr ⟨hx, hne⟩, hk⟩) fun b hb hbx hnew => ?_
  obtain ⟨hb, hbk⟩ := mem_versionsAt.mp hb
  have hb := (mem_delete_row.mp hb).1
  have hf : newer x b := latest_first h b (mem_versionsAt.mpr ⟨hb, hbk⟩) hbx
  unfold newer orderDesc at hf hnew
  exact hbx (eq_of_id hb hx (by omega))

/-- **Deleting an old version keeps the current object** if and only if the key has one, or its
newest row is a delete marker; otherwise the promotion that follows revives the newest row. -/
theorem old_version_delete_keeps_iff {held : Nat → Bool} {versionID : String}
    (hok : deleteObjectVersion held k versionID t = .ok t') (hrow : getObjectVersion t k versionID = some row)
    (hd : row.live = false) (hold : latest newer (versionsAt t k) ≠ some row) :
    getObject t' k = getObject t k ↔
      (getObject t k).isSome ∨ ∃ a, latest newer (versionsAt t k) = some a ∧ a.isDeleteMarker = true := by
  obtain ⟨row', hrow', -, rfl⟩ := deleteObjectVersion_ok hok
  obtain rfl : row' = row := Option.some.inj (hrow'.symm.trans hrow)
  obtain ⟨hm, hk, -⟩ := getObjectVersion_some hrow
  have hg := getObject_delete_dead hm hd k
  cases hl : latest newer (versionsAt t k) with
  | none => cases (latest_eq_none.mp hl ▸ mem_versionsAt.mpr ⟨hm, hk⟩ : row' ∈ [])
  | some a =>
    have ha := (mem_versionsAt.mp (latest_mem hl)).1
    have hlat := latest_delete hl fun hid => hold (eq_of_id ha hm hid ▸ hl)
    obtain ⟨hlv, heq⟩ | ⟨-, hnil, -⟩ | ⟨b, -, hb, hmr, heq⟩ | ⟨b, hlv, hb, hmr, heq⟩ :=
      promoteLatestObjectVersion_cases k (t.delete fun o => o.id == row'.id)
    · have hs : (getObject t k).isSome := by rwa [← hg, getObject, List.find?_isSome, ← List.any_eq_true]
      rw [heq]
      exact iff_of_true hg (.inl hs)
    · rw [hnil] at hlat
      cases hlat
    · obtain rfl := Option.some.inj (hb.symm.trans hlat)
      rw [heq]
      exact iff_of_true hg (.inr ⟨b, rfl, hmr⟩)
    · obtain rfl := Option.some.inj (hb.symm.trans hlat)
      obtain ⟨hbm, hbk⟩ := mem_versionsAt.mp (latest_mem hb)
      have hnone : getObject t k = none := by
        rw [← hg]
        exact List.find?_eq_none.mpr (by simpa using hlv)
      have hlive : revived b ∈ (promoteLatestObjectVersion k (t.delete fun o => o.id == row'.id)).rows := by
        rw [heq]
        exact (mem_update_row (f := revived) (fun _ => rfl) hbm).mpr (.inl rfl)
      refine iff_of_false (fun hsame => ?_) ?_
      · cases getObject_none (hsame.trans hnone) hlive hbk
      · simp [hnone, hmr]

def notesKey : Path := ⟨"default", "docs", "notes"⟩

def executedAt (now : Nat) (statement : Statement) : Executed := ⟨statement, now, fun _ => false, fun _ => false⟩

/-- A write to a bucket without versions. -/
def upsertedAt (now : Nat) (v : String) : Executed :=
  executedAt now (.upsertObject ⟨0, notesKey, v, "local", "default/docs/notes", 1, "", "", [], [], "", "", 0, 0, none,
    none, false⟩)

/-- An object is written and deleted, twice. -/
def deletedAgain : Objects :=
  (run Clocked.next .empty [upsertedAt 1 "v1", executedAt 2 (.softDeleteObject notesKey), upsertedAt 3 "v2",
    executedAt 4 (.softDeleteObject notesKey)]).table

def writtenAgain : Objects := (upsertedAt 5 "v3").apply deletedAgain

theorem old_version_delete_beside_live :
    ∃ t', deleteObjectVersion (fun _ => false) notesKey "v1" writtenAgain = .ok t' ∧
      getObject t' notesKey = getObject writtenAgain notesKey := by
  have hok : deleteObjectVersion (fun _ => false) notesKey "v1" writtenAgain = .ok _ := rfl
  have hrow : getObjectVersion writtenAgain notesKey "v1" = some _ := rfl
  exact ⟨_, hok, (old_version_delete_keeps_iff hok hrow rfl (by decide +kernel)).mpr (.inl rfl)⟩

/-- Deleting the first version brings back the second, which was deleted as well. -/
theorem old_version_delete_revives :
    ∃ t', deleteObjectVersion (fun _ => false) notesKey "v1" deletedAgain = .ok t' ∧
      (latest newer (versionsAt deletedAgain notesKey)).map (·.versionID) = some "v2" ∧
      getObject deletedAgain notesKey = none ∧ (getObject t' notesKey).map (·.versionID) = some "v2" := by
  refine ⟨_, rfl, ?_⟩
  decide +kernel

end AeroVault.Repository
