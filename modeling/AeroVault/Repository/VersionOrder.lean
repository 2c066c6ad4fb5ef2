import AeroVault.Repository.Statements

/-! Version order and write order.

`ListObjectVersions` and the promotion after a version delete order the rows of a
key by `updated_at`. Versioned writes, soft deletes, restores, markers and version
deletes stamp only the row they add, so that this is the order of creation; a tag
update by ID stamps the row it is given, whichever version that is. In runs of
these statements, listings are in reverse order of creation, and a revived version
is the most recently created one left, exactly when every tag update is of the
most recently created row of its key (`version_order_iff`). -/
namespace AeroVault.Repository.VersionOrder
open Lib

/-- Versions are listed in reverse order of their creation. -/
def Listed (s : Clocked) : Prop :=
  ∀ k, (listObjectVersions s.table k).Pairwise fun a b => b.createdAt < a.createdAt

/-- A row that a version delete makes live is the most recently created of its key. -/
def RevivesNewest (s : Clocked) (e : Executed) : Prop :=
  ∀ k versionID, e.statement = .deleteObjectVersion k versionID →
    ∀ o ∈ (s.next e).table.rows, o.live = true →
      (∃ a ∈ s.table.rows, a.id = o.id ∧ a.live = false) →
        ∀ b ∈ (s.next e).table.rows, b.path = o.path → b.createdAt ≤ o.createdAt

/-- A tag update by ID is of the most recently created row of its key. -/
def TagsNewest (s : Clocked) (e : Executed) : Prop :=
  ∀ id tags, e.statement = .updateObjectTagsByID id tags →
    ∀ row ∈ s.table.rows, row.id = id →
      ∀ b ∈ s.table.rows, b.path = row.path → b.createdAt ≤ row.createdAt

/-- The clock moves on, and every write is a versioned one. -/
structure Versioned (s : Clocked) (e : Executed) : Prop where
  later : s.clock < e.now
  versioned : ∀ obj, e.statement ≠ .upsertObject obj

/-! ### The invariant -/

/-- What holds whatever the tag updates are of. -/
structure Inv (s : Clocked) : Prop where
  past : ∀ a ∈ s.table.rows, a.createdAt ≤ s.clock ∧ a.updatedAt ≤ s.clock
  created : ∀ a ∈ s.table.rows, ∀ b ∈ s.table.rows, a.path = b.path → a.createdAt = b.createdAt →
    a = b
  stamped : ∀ a ∈ s.table.rows, ∀ b ∈ s.table.rows, a.path = b.path → a.updatedAt = b.updatedAt →
    a = b

/-- `updated_at` follows `created_at` in every key. -/
def Ordered (t : Objects) : Prop :=
  ∀ a ∈ t.rows, ∀ b ∈ t.rows, a.path = b.path → a.createdAt < b.createdAt →
    a.updatedAt < b.updatedAt

variable {s : Clocked} {t t' t'' : Objects} {now : Nat} {k : Path} {row : Object}

theorem sorted_listObjectVersions :
    (listObjectVersions t k).Pairwise newer := List.pairwise_insertionSort _ _

theorem nodup_listObjectVersions (t : Objects) (k : Path) : (listObjectVersions t k).Pairwise (· ≠ ·) := by
  have hpr := List.perm_insertionSort newer (versionsAt t k)
  exact hpr.nodup_iff.mpr (t.nodup.filter _)

theorem listed_iff_ordered (h : Inv s) : Listed s ↔ Ordered s.table := by
  constructor
  · intro hl a ha b hb hp hlt
    have hne : a ≠ b := fun heq => Nat.lt_irrefl _ (heq ▸ hlt)
    have hm : a ∈ listObjectVersions s.table a.path := mem_listObjectVersions.mpr ⟨ha, rfl⟩
    have hm' : b ∈ listObjectVersions s.table a.path := mem_listObjectVersions.mpr ⟨hb, hp.symm⟩
    -- `b` is listed before `a`, so it carries the later stamp
    have hbt := (hl a.path).and sorted_listObjectVersions
    obtain ⟨hlt', -⟩ | ⟨-, hnew⟩ := pairwise_or hbt hm hm' hne
    · omega
    · have hd : a.updatedAt ≠ b.updatedAt := fun heq => hne (h.stamped a ha b hb hp heq)
      unfold newer orderDesc at hnew
      omega
  · intro ho k
    refine (sorted_listObjectVersions.and
      (nodup_listObjectVersions s.table k)).imp_of_mem fun {a b} ha hb hab => ?_
    obtain ⟨ha, hak⟩ := mem_listObjectVersions.mp ha
    obtain ⟨hb, hbk⟩ := mem_listObjectVersions.mp hb
    obtain ⟨hnew, hne⟩ := hab
    have hp : a.path = b.path := hak.trans hbk.symm
    have hcr : a.createdAt ≠ b.createdAt := fun heq => hne (h.created a ha b hb hp heq)
    by_contra hnot
    have hlt := ho a ha b hb hp (by omega)
    unfold newer orderDesc at hnew
    omega

/-! ### Statements that stamp only what they add -/

/-- `o` is the row `a`, perhaps with other flags. -/
def Kept (a o : Object) : Prop :=
  o.id = a.id ∧ o.path = a.path ∧ o.createdAt = a.createdAt ∧ o.updatedAt = a.updatedAt

def AllKept (t t' : Objects) : Prop := ∀ o ∈ t'.rows, ∃ a ∈ t.rows, Kept a o

theorem AllKept.refl (t : Objects) : AllKept t t := fun o ho => ⟨o, ho, rfl, rfl, rfl, rfl⟩

theorem AllKept.trans (h : AllKept t t') (h' : AllKept t' t'') : AllKept t t'' := by
  intro o ho
  obtain ⟨b, hb, hid, hp, hc, hu⟩ := h' o ho
  obtain ⟨a, ha, hid', hp', hc', hu'⟩ := h b hb
  exact ⟨a, ha, hid.trans hid', hp.trans hp', hc.trans hc', hu.trans hu'⟩

theorem allKept_update {p : Object → Bool} {f : Object → Object} (hf : ∀ a, Kept a (f a)) :
    AllKept t (t.update p f) := by
  intro o ho
  obtain ⟨a, ha, -, rfl⟩ | ⟨ho, -⟩ := (Table.mem_update fun a => (hf a).1).mp ho
  · exact ⟨a, ha, hf a⟩
  · exact AllKept.refl t o ho

theorem allKept_delete {p : Object → Bool} : AllKept t (t.delete p) :=
  fun o ho => AllKept.refl t o (Table.mem_delete.mp ho).1

theorem allKept_promote : AllKept t (promoteLatestObjectVersion k t) := by
  obtain heq | ⟨row, -, heq⟩ := promoteLatestObjectVersion_eq_or k t
  · rw [heq]
    exact .refl t
  · rw [heq]
    exact allKept_update fun _ => ⟨rfl, rfl, rfl, rfl⟩

/-- Every row is an old one, or the one added at `now`. -/
def Stamps (t : Objects) (now : Nat) (t' : Objects) : Prop :=
  ∀ o ∈ t'.rows, (∃ a ∈ t.rows, Kept a o) ∨
    (o.id = t.nextID ∧ o.createdAt = now ∧ o.updatedAt = now)

theorem AllKept.stamps (h : AllKept t t') (now : Nat) : Stamps t now t' := fun o ho => .inl (h o ho)

theorem stamps_insert (h : AllKept t t') (hnx : t'.nextID = t.nextID) {x : Object}
    (hc : x.createdAt = now) (hu : x.updatedAt = now) : Stamps t now (t'.insert x) := by
  intro o ho
  obtain ho | rfl := Table.mem_insert.mp ho
  · exact .inl (h o ho)
  · exact .inr ⟨hnx, hc, hu⟩

theorem allKept_retireLive : AllKept t (retireLive now k t) :=
  allKept_update fun _ => ⟨rfl, rfl, rfl, rfl⟩

theorem allKept_softDeleteObject (h : softDeleteObject now k t = .ok t') : AllKept t t' := by
  rw [softDeleteObject_ok h]
  exact allKept_update fun _ => ⟨rfl, rfl, rfl, rfl⟩

/-- Every versioned statement but the tag update only adds a row, stamped `now`. -/
theorem stamps_apply {e : Executed} (hv : ∀ obj, e.statement ≠ .upsertObject obj)
    (ht : ∀ id tags, e.statement ≠ .updateObjectTagsByID id tags) (t : Objects) :
    Stamps t e.now (e.apply t) := by
  obtain ⟨statement, now, held, admits⟩ := e
  cases statement with
  | upsertObject obj => exact absurd rfl (hv obj)
  | insertObjectVersion obj => exact stamps_insert allKept_retireLive rfl rfl rfl
  | insertDeleteMarker k versionID metadata =>
    exact stamps_insert allKept_retireLive rfl rfl rfl
  | softDeleteObject k =>
    exact committed_cases ((AllKept.refl t).stamps now)
      fun _ hok => (allKept_softDeleteObject hok).stamps now
  | hardDeleteObject k =>
    refine committed_cases ((AllKept.refl t).stamps now) fun t' hok => ?_
    rw [hardDeleteObject_ok hok]
    exact allKept_delete.stamps now
  | deleteObjectVersion k versionID =>
    refine committed_cases ((AllKept.refl t).stamps now) fun t' hok => ?_
    obtain ⟨row, -, -, rfl⟩ := deleteObjectVersion_ok hok
    exact (allKept_delete.trans allKept_promote).stamps now
  | restoreObject k =>
    refine committed_cases ((AllKept.refl t).stamps now) fun t' hok => ?_
    obtain ⟨-, -, -, hok⟩ := restoreAdmitted_ok hok
    obtain ⟨row, -, -, rfl⟩ := restoreObject_ok hok
    have hkp : AllKept t (t.update (fun o => o.id == row.id) fun o => {o with deletedAt := none}) :=
      allKept_update fun _ => ⟨rfl, rfl, rfl, rfl⟩
    exact hkp.stamps now
  | updateObjectTagsByID id tags => exact absurd rfl (ht id tags)

theorem Inv.stamps (h : Inv s) (hnow : s.clock < now) (hs : Stamps s.table now t') : Inv ⟨t', now⟩ := by
  -- two rows of one key with one stamp come from one old row, or are both the added one
  have heq : ∀ o ∈ t'.rows, ∀ b ∈ t'.rows, o.path = b.path →
      (o.createdAt = b.createdAt ∨ o.updatedAt = b.updatedAt) → o = b := by
    intro o ho b hb hp ht
    refine eq_of_id ho hb ?_
    obtain ⟨a, ha, hid, hpa, hca, hua⟩ | ⟨hid, hc, hu⟩ := hs o ho <;>
      obtain ⟨a', ha', hid', hpa', hca', hua'⟩ | ⟨hid', hc', hu'⟩ := hs b hb
    · have hpath : a.path = a'.path := by rw [← hpa, ← hpa', hp]
      have hsame : a = a' := by
        cases ht with
        | inl ht => exact h.created a ha a' ha' hpath (by omega)
        | inr ht => exact h.stamped a ha a' ha' hpath (by omega)
      rw [hid, hid', hsame]
    · have := h.past a ha
      omega
    · have := h.past a' ha'
      omega
    · exact hid.trans hid'.symm
  refine ⟨?_, fun o ho b hb hp ht => heq o ho b hb hp (.inl ht),
    fun o ho b hb hp ht => heq o ho b hb hp (.inr ht)⟩
  intro o ho
  show o.createdAt ≤ now ∧ o.updatedAt ≤ now
  obtain ⟨a, ha, -, -, hc, hu⟩ | ⟨-, hc, hu⟩ := hs o ho
  · have := h.past a ha
    omega
  · omega

theorem Ordered.stamps (ho : Ordered s.table) (h : Inv s) (hnow : s.clock < now)
    (hs : Stamps s.table now t') : Ordered t' := by
  intro o ho' b hb hp hlt
  obtain ⟨a, ha, -, hpa, hca, hua⟩ | ⟨-, hc, hu⟩ := hs o ho' <;>
    obtain ⟨a', ha', -, hpa', hca', hua'⟩ | ⟨-, hc', hu'⟩ := hs b hb
  · have := ho a ha a' ha' (by rw [← hpa, ← hpa', hp]) (by omega)
    omega
  · have := h.past a ha
    omega
  · have := h.past a' ha'
    omega
  · omega

/-! ### Tag updates -/

/-- What a tag update is, as a statement. -/
theorem apply_tagged {e : Executed} {id : Nat} {tags : GoMap} (h : e.statement = .updateObjectTagsByID id tags)
    (t : Objects) : e.apply t = committed t (updateObjectTagsByID e.now id tags t) := by
  unfold Executed.apply
  rw [h]

theorem mem_tagged {id : Nat} (now : Nat) (tags : GoMap) (hrow : getObjectByID t id = some row) (o : Object) :
    o ∈ (t.update (fun a => a.id == id) fun a => {a with tags := tags, updatedAt := now}).rows ↔
      o = {row with tags := tags, updatedAt := now} ∨ (o ∈ t.rows ∧ o.id ≠ row.id) := by
  obtain ⟨hm, rfl⟩ := getObjectByID_some hrow
  exact mem_update_row (fun _ => rfl) hm

theorem Inv.tagged (h : Inv s) (hnow : s.clock < now) {id : Nat} {tags : GoMap}
    (hok : updateObjectTagsByID now id tags s.table = .ok t') : Inv ⟨t', now⟩ := by
  obtain ⟨row, hrow, rfl⟩ := updateObjectTagsByID_ok hok
  have hm := mem_tagged now tags hrow
  have hin := (getObjectByID_some hrow).1
  refine ⟨?_, ?_, ?_⟩
  · intro o ho
    obtain rfl | ⟨ho, -⟩ := (hm o).mp ho
    · exact ⟨Nat.le_of_lt (Nat.lt_of_le_of_lt (h.past row hin).1 hnow), Nat.le_refl _⟩
    · have := h.past o ho
      show o.createdAt ≤ now ∧ o.updatedAt ≤ now
      omega
  · intro o ho b hb hp ht
    obtain rfl | ⟨ho, hne⟩ := (hm o).mp ho <;> obtain rfl | ⟨hb, hne'⟩ := (hm b).mp hb
    · rfl
    · exact absurd (congrArg Object.id (h.created row hin b hb hp ht)).symm hne'
    · exact absurd (congrArg Object.id (h.created o ho row hin hp ht)) hne
    · exact h.created o ho b hb hp ht
  · intro o ho b hb hp ht
    obtain rfl | ⟨ho, hne⟩ := (hm o).mp ho <;> obtain rfl | ⟨hb, hne'⟩ := (hm b).mp hb
    · rfl
    · have := (h.past b hb).2
      have : now = b.updatedAt := ht
      omega
    · have := (h.past o ho).2
      have : o.updatedAt = now := ht
      omega
    · exact h.stamped o ho b hb hp ht

/-- A tag update keeps the order exactly when it is of the most recently created row. -/
theorem ordered_tagged_iff (h : Inv s) (ho : Ordered s.table) (hnow : s.clock < now) {id : Nat}
    {tags : GoMap} (hok : updateObjectTagsByID now id tags s.table = .ok t') :
    Ordered t' ↔ ∀ row ∈ s.table.rows, row.id = id →
      ∀ b ∈ s.table.rows, b.path = row.path → b.createdAt ≤ row.createdAt := by
  obtain ⟨row, hrow, rfl⟩ := updateObjectTagsByID_ok hok
  have hm := mem_tagged now tags hrow
  obtain ⟨hin, hid⟩ := getObjectByID_some hrow
  constructor
  · intro hord a ha haid b hb hp
    obtain rfl := eq_of_id ha hin (haid.trans hid.symm)
    by_contra hlt
    have hne : b.id ≠ a.id := fun hbid => hlt (by rw [eq_of_id hb ha hbid])
    have hl := hord _ ((hm _).mpr (.inl rfl)) b ((hm b).mpr (.inr ⟨hb, hne⟩)) hp.symm
      (Nat.not_le.mp hlt)
    have := (h.past b hb).2
    have : now < b.updatedAt := hl
    omega
  · intro hnw o ho' b hb hp hlt
    obtain rfl | ⟨ho', -⟩ := (hm o).mp ho' <;> obtain rfl | ⟨hb, -⟩ := (hm b).mp hb
    · exact absurd hlt (Nat.lt_irrefl _)
    · exact absurd (hnw row hin hid b hb hp.symm) (Nat.not_le.mpr hlt)
    · exact Nat.lt_of_le_of_lt (h.past o ho').2 hnow
    · exact ho o ho' b hb hp hlt

/-! ### Runs -/

/-- Either the statement is a tag update, or it stamps only what it adds. -/
theorem stamps_or_tagged {e : Executed} (hv : Versioned s e) :
    Stamps s.table e.now (e.apply s.table) ∨
      ∃ id tags t', e.statement = .updateObjectTagsByID id tags ∧
        updateObjectTagsByID e.now id tags s.table = .ok t' ∧ e.apply s.table = t' := by
  by_cases ht : ∃ id tags, e.statement = .updateObjectTagsByID id tags
  · obtain ⟨id, tags, ht⟩ := ht
    have hap := apply_tagged ht s.table
    cases hok : updateObjectTagsByID e.now id tags s.table with
    | ok t' => exact .inr ⟨id, tags, t', ht, hok, by rw [hap, hok]; rfl⟩
    | error err =>
      rw [hap, hok]
      exact .inl ((AllKept.refl s.table).stamps e.now)
  · exact .inl (stamps_apply hv.versioned (fun id tags h => ht ⟨id, tags, h⟩) s.table)

theorem inv_next (s : Clocked) (e : Executed) (h : Inv s) (hv : Versioned s e) : Inv (s.next e) := by
  unfold Clocked.next
  obtain hs | ⟨id, tags, t', -, hok, heq⟩ := stamps_or_tagged hv
  · exact h.stamps hv.later hs
  · rw [heq]
    exact h.tagged hv.later hok

theorem listed_next_iff (s : Clocked) (e : Executed) (h : Inv s) (hl : Listed s)
    (hv : Versioned s e) : Listed (s.next e) ↔ TagsNewest s e := by
  have ho := (listed_iff_ordered h).mp hl
  rw [listed_iff_ordered (inv_next s e h hv)]
  show Ordered (e.apply s.table) ↔ _
  by_cases ht : ∃ id tags, e.statement = .updateObjectTagsByID id tags
  · obtain ⟨id, tags, ht⟩ := ht
    have hcn : TagsNewest s e ↔ ∀ row ∈ s.table.rows, row.id = id →
        ∀ b ∈ s.table.rows, b.path = row.path → b.createdAt ≤ row.createdAt := by
      constructor
      · exact fun hc => hc id tags ht
      · intro hc id' tags' ht'
        obtain ⟨rfl, rfl⟩ := Statement.updateObjectTagsByID.inj (ht.symm.trans ht')
        exact hc
    rw [hcn, apply_tagged ht]
    cases hg : getObjectByID s.table id with
    | none =>
      have herr : updateObjectTagsByID e.now id tags s.table = .error .notFound := by
        simp [updateObjectTagsByID, hg]
      rw [herr]
      refine ⟨fun _ row hrow hid => ?_, fun _ => ho⟩
      have hno := List.find?_eq_none.mp hg row hrow
      exact absurd (by simpa using hid) hno
    | some row =>
      have hok : updateObjectTagsByID e.now id tags s.table =
          .ok (s.table.update (fun o => o.id == id) fun o => {o with tags := tags, updatedAt := e.now}) := by
        simp [updateObjectTagsByID, hg]
      rw [hok]
      exact ordered_tagged_iff h ho hv.later hok
  · have hs := stamps_apply hv.versioned (fun id tags h => ht ⟨id, tags, h⟩) s.table
    exact ⟨fun _ id tags h => absurd ⟨id, tags, h⟩ ht, fun _ => ho.stamps h hv.later hs⟩

/-- In order, the newest row by stamp is the newest by creation. -/
theorem revivesNewest {e : Executed} (h : Inv s ∧ Listed s) : RevivesNewest s e := by
  obtain ⟨h, hl⟩ := h
  have ho := (listed_iff_ordered h).mp hl
  intro k versionID hst o hmem hlv hwas b hb hp
  have hap : (s.next e).table = committed s.table (deleteObjectVersion e.held k versionID s.table) := by
    unfold Clocked.next Executed.apply
    rw [hst]
  rw [hap] at hmem hb
  obtain ⟨a, ha, haid, hd⟩ := hwas
  cases hok : deleteObjectVersion e.held k versionID s.table with
  | error err =>
    rw [hok] at hmem
    rw [eq_of_id ha hmem haid, hlv] at hd
    cases hd
  | ok t' =>
    rw [hok] at hmem hb
    obtain ⟨row, -, -, rfl⟩ := deleteObjectVersion_ok hok
    -- only a promotion makes a row live that was not
    have hsame : o ∉ s.table.rows := fun hin => by
      rw [eq_of_id ha hin haid, hlv] at hd
      cases hd
    have hlf : ∀ c ∈ (s.table.delete fun c => c.id == row.id).rows, c ∈ s.table.rows :=
      fun c hc => (mem_delete_row.mp hc).1
    obtain heq | ⟨x, hlat, heq⟩ := promoteLatestObjectVersion_eq_or k (s.table.delete fun c => c.id == row.id)
    · rw [heq] at hmem
      exact absurd (hlf o hmem) hsame
    · obtain ⟨hx, rfl, hnew⟩ := latest_newest hlat
      rw [heq] at hmem hb
      obtain rfl | ⟨hmem, -⟩ := (mem_update_row (f := revived) (fun _ => rfl) hx).mp hmem
      · obtain rfl | ⟨hb, -⟩ := (mem_update_row (f := revived) (fun _ => rfl) hx).mp hb
        · exact Nat.le_refl _
        · by_contra hlt
          have hlater := ho x (hlf x hx) b (hlf b hb) hp.symm (Nat.not_le.mp hlt)
          have := hnew b hb hp
          omega
      · exact absurd (hlf o hmem) hsame

theorem inv_empty : Inv .empty := by
  refine ⟨?_, ?_, ?_⟩ <;> intro a ha <;> cases ha

/-- **Version order is write order exactly when tag updates are of newest rows.** -/
theorem version_order_iff (calls : List Executed) (hv : Each Clocked.next Versioned .empty calls) :
    (Always Clocked.next Listed .empty calls ∧ Each Clocked.next RevivesNewest .empty calls) ↔
      Each Clocked.next TagsNewest .empty calls := by
  have hl : Listed .empty := (listed_iff_ordered inv_empty).mpr fun a ha => by cases ha
  have hiff := always_iff_each inv_next listed_next_iff inv_empty hl hv
  refine ⟨fun h => hiff.mp h.1, fun h => ⟨hiff.mpr h, ?_⟩⟩
  have hinv := always_of_each inv_next inv_empty hv
  exact .of_always (fun s e hs _ => revivesNewest hs) (hinv.and (hiff.mpr h)) hv

/-- The condition is met by a run that tags the current version, before and after
a newer one replaces it: its listings stay in order. -/
theorem version_order_tagging_current :
    let k : Path := ⟨"default", "docs", "a"⟩
    let write (now : Nat) (v : String) : Executed :=
      ⟨.insertObjectVersion ⟨0, k, v, "local", "default/docs/a@v" ++ v, 1, "", "", [], [], "", "", 0, 0,
        none, none, false⟩, now, fun _ => false, fun _ => false⟩
    let tag (now id : Nat) : Executed :=
      ⟨.updateObjectTagsByID id [("av_status", "clean")], now, fun _ => false, fun _ => false⟩
    let calls := [write 1 "v1", tag 2 1, write 3 "v2", tag 4 2]
    Always Clocked.next Listed .empty calls ∧ Each Clocked.next RevivesNewest .empty calls := by
  intro k write tag calls
  have hwr : ∀ s now v, s.clock < now → Versioned s (write now v) ∧ TagsNewest s (write now v) :=
    fun s now v hnow => ⟨⟨hnow, fun obj h => by cases h⟩, fun id tags h => by cases h⟩
  have ht : ∀ s now id, s.clock < now → Versioned s (tag now id) :=
    fun s now id hnow => ⟨hnow, fun obj h => by cases h⟩
  have hv : Each Clocked.next Versioned .empty calls :=
    ⟨(hwr _ _ _ (by decide)).1, ht _ _ _ (by decide), (hwr _ _ _ (by decide)).1,
      ht _ _ _ (by decide), .intro⟩
  refine (version_order_iff calls hv).mpr ⟨(hwr _ _ _ (by decide)).2, ?_,
    (hwr _ _ _ (by decide)).2, ?_, .intro⟩
  · intro id tags h
    obtain ⟨rfl, -⟩ := Statement.updateObjectTagsByID.inj h
    decide +kernel
  · intro id tags h
    obtain ⟨rfl, -⟩ := Statement.updateObjectTagsByID.inj h
    decide +kernel

/-- Three versions, then a worker tags the first one: it is listed as the newest, and
deleting the third revives it instead of the second. -/
theorem tagging_historical_version_reorders :
    let k : Path := ⟨"default", "docs", "a"⟩
    let write (now : Nat) (v : String) : Executed :=
      ⟨.insertObjectVersion ⟨0, k, v, "local", "default/docs/a@v" ++ v, 1, "", "", [], [], "", "", 0, 0,
        none, none, false⟩, now, fun _ => false, fun _ => false⟩
    let tag : Executed :=
      ⟨.updateObjectTagsByID 1 [("av_status", "clean")], 4, fun _ => false, fun _ => false⟩
    let remove : Executed := ⟨.deleteObjectVersion k "v3", 5, fun _ => false, fun _ => false⟩
    let s := run Clocked.next .empty [write 1 "v1", write 2 "v2", write 3 "v3", tag]
    (listObjectVersions s.table k).map Object.versionID = ["v1", "v3", "v2"] ∧
      (getObject (s.next remove).table k).map Object.versionID = some "v1" ∧ ¬ Listed s ∧
      ¬ RevivesNewest s remove := by
  intro k write tag remove s
  refine ⟨by decide +kernel, by decide +kernel, fun h => ?_, fun h => ?_⟩
  · have hno : ¬ (listObjectVersions s.table k).Pairwise fun a b => b.createdAt < a.createdAt := by
      decide +kernel
    exact hno (h k)
  · have hno : ∃ o ∈ (s.next remove).table.rows, o.live = true ∧
        (∃ a ∈ s.table.rows, a.id = o.id ∧ a.live = false) ∧
          ∃ b ∈ (s.next remove).table.rows, b.path = o.path ∧ ¬ b.createdAt ≤ o.createdAt := by
      decide +kernel
    obtain ⟨o, ho, hl, hwas, b, hb, hp, hlt⟩ := hno
    exact hlt (h k "v3" rfl o ho hl hwas b hb hp)

end AeroVault.Repository.VersionOrder
