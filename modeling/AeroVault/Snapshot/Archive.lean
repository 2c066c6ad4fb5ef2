import AeroVault.Service.Vault
import AeroVault.Storage.Local

/-! Snapshots: the database and the objects in one archive, and back.

`Create` writes the image of the database and every file below the objects root; `Restore` checks the
names of all entries and then writes them into a target that may have files already. An archive is the
list of its entries: tar and gzip give back what was put in. The name of an entry is given by its elements
between the slashes. A directory is a tree of its own, so that the database and the objects are in
different places.

The two sides do not agree. A name with a backslash is archived and then refused, a file cannot
take the place of a directory of the target, nor a directory that of a file, and the `-wal` and `-shm`
files of an old database stay beside the new one. But for these, a snapshot is restored as it was
(`round_trip_iff`). -/
namespace AeroVault.Snapshot
open Lib Lib.FileTree Lib.FileTree.Tree List

abbrev Files := FileTree.Tree (List UInt8)

structure Entry where
  name : Location
  /-- The type is `TypeReg` or `TypeRegA`. -/
  regular : Bool
  data : List UInt8
  deriving DecidableEq

inductive SnapshotError
  | unsupportedType (name : Location)
  | unsafeName (name : Location)
  | unsafeObject (name : Location)
  | unexpectedEntry (name : Location)
  | duplicateEntry (name : Location)
  | duplicateDatabase (name : Location)
  | databaseMissing
  | unsafeOutput (name : Location)
  | fs (err : FsError)
  deriving DecidableEq

/-! ### Create -/

/-- The file at a location. -/
def fileAt (t : Files) (p : Location) : Option (List UInt8) :=
  match t.find p with
  | some (.file data) => some data
  | _ => none

/-- The files that `filepath.Walk` comes to, in its order. -/
def walk (t : Files) : List (Location × List UInt8) :=
  ((t.nodes.map Prod.fst).dedup.filterMap fun p => (fileAt t p).map fun data => (p, data)).insertionSort
    fun a b => a.1 ≤ b.1

def objectEntry (f : Location × List UInt8) : Entry := ⟨"objects" :: f.1, true, f.2⟩

def createArchive (dbName : String) (image : List UInt8) (objects : Files) : List Entry :=
  ⟨["db", dbName], true, image⟩ :: (walk objects).map objectEntry

/-! ### Restore -/

inductive EntryKind
  | dbMain | dbWAL | dbSHM | object
  deriving DecidableEq

/-- `strings.HasSuffix`. -/
def endsWith (s suffix : String) : Bool := suffix.toList.isSuffixOf s.toList

/-- The elements of `path.Clean`. -/
def cleaned (name : Location) : Location :=
  ((name.map String.toList).foldl (GoText.cleanElement (name.head? == some "")) []).reverse.map String.ofList

/-- An empty name, one with a backslash, an absolute one or one that `path.Clean` changes. -/
def isUnsafe (name : Location) : Bool :=
  name == [""] || name.any (·.toList.contains '\\') || name.head? == some "" || cleaned name != name

/-- What is left of `strings.CutPrefix` with the first element and its slash. -/
def classifySnapshotEntry (e : Entry) : Except SnapshotError (EntryKind × Location) :=
  if e.regular = false then .error (.unsupportedType e.name)
  else if isUnsafe e.name then .error (.unsafeName e.name)
  else
    match e.name with
    | "objects" :: first :: rest =>
      if first :: rest = [""] ∨ first :: rest = ["."] ∨ (first = ".." ∧ rest ≠ []) then
        .error (.unsafeObject e.name)
      else .ok (.object, first :: rest)
    | ["db", relative] =>
      if relative = "" then .error (.unexpectedEntry e.name)
      else if endsWith relative "-wal" then .ok (.dbWAL, [relative])
      else if endsWith relative "-shm" then .ok (.dbSHM, [relative])
      else .ok (.dbMain, [relative])
    | _ => .error (.unexpectedEntry e.name)

/-- The loop of `validateSnapshot`, with the names and the parts of the database seen so far. -/
def validateEntries (seen : List Location) (kinds : List EntryKind) : List Entry → Except SnapshotError Unit
  | [] => refuseIf (.dbMain ∉ kinds) .databaseMissing
  | e :: rest => do
    let (kind, _) ← classifySnapshotEntry e
    refuseIf (e.name ∈ seen) (.duplicateEntry e.name)
    refuseIf (kind ≠ .object ∧ kind ∈ kinds) (.duplicateDatabase e.name)
    validateEntries (e.name :: seen) (if kind = .object then kinds else kind :: kinds) rest

def validateSnapshot (entries : List Entry) : Except SnapshotError Unit := validateEntries [] [] entries

/-- Directories on the way, and the file with `O_CREATE` and `O_TRUNC`. -/
def writeFile (t : Files) (p : Location) (data : List UInt8) : Except FsError Files := do
  let t ← t.mkdirAll p.dropLast
  match t.find p with
  | none => t.create p data
  | some _ => t.write p data

/-- The name is clean by now, so that it is a location. -/
def writeRootFile (t : Files) (name : Location) (data : List UInt8) : Except SnapshotError Files :=
  if name = [""] ∨ name.head? = some "" then .error (.unsafeOutput name)
  else (writeFile t name data).mapError .fs

/-- The directory of the database, and the objects root. -/
structure Roots where
  db : Files
  objects : Files

def unpackEntry (dbName : String) (s : Roots) (e : Entry) : Except SnapshotError Roots := do
  let (kind, relative) ← classifySnapshotEntry e
  match kind with
  | .dbMain => return {s with db := ← writeRootFile s.db [dbName] e.data}
  | .dbWAL => return {s with db := ← writeRootFile s.db [dbName ++ "-wal"] e.data}
  | .dbSHM => return {s with db := ← writeRootFile s.db [dbName ++ "-shm"] e.data}
  | .object => return {s with objects := ← writeRootFile s.objects relative e.data}

/-- What is in the places of the two directories: none is a file, that `MkdirAll` fails on. -/
structure Target where
  db : Option Files
  objects : Option Files

def unpackSnapshot (dbName : String) (target : Target) (entries : List Entry) : Except SnapshotError Roots :=
  match target.db, target.objects with
  | some db, some objects => entries.foldlM (unpackEntry dbName) ⟨db, objects⟩
  | _, _ => .error (.fs .notDirectory)

def restore (dbName : String) (entries : List Entry) (target : Target) : Except SnapshotError Roots := do
  validateSnapshot entries
  unpackSnapshot dbName target entries

/-! ### Names -/

/-- What a file can be called. -/
@[mk_iff]
structure FileName (name : String) : Prop where
  nonempty : name ≠ ""
  dot : name ≠ "."
  dotdot : name ≠ ".."

instance : DecidablePred FileName := fun name => decidable_of_iff' _ (fileName_iff name)

/-- Without a backslash. -/
abbrev Plain (p : Location) : Prop := ∀ name ∈ p, '\\' ∉ name.toList

/-- For names of files the first check is one for the backslash. -/
theorem isUnsafe_iff {p : Location} (hnames : ∀ name ∈ p, FileName name) : isUnsafe p = true ↔ ¬ Plain p := by
  have hkp : ∀ e ∈ p.map String.toList, e ≠ ['.', '.'] ∧ e ≠ [] ∧ e ≠ ['.'] := by
    intro e he
    obtain ⟨name, hnm, rfl⟩ := mem_map.mp he
    obtain ⟨hem, hdot, hd⟩ := hnames name hnm
    have hne {s : String} (h : name ≠ s) : name.toList ≠ s.toList := fun heq => h (String.toList_inj.mp heq)
    exact ⟨hne hd, hne hem, hne hdot⟩
  have hcl : cleaned p = p := by
    rw [cleaned, GoText.foldl_cleanElement fun hup => (hkp _ hup).1 rfl, append_nil, reverse_reverse,
      filter_eq_self.mpr fun e he => by simpa using (hkp e he).2, map_map]
    simp
  have hh : p.head? ≠ some "" := fun h => (hnames "" (mem_of_mem_head? h)).nonempty rfl
  have hem : p ≠ [""] := fun h => hh (by rw [h]; rfl)
  simp [isUnsafe, hcl, hh, hem, Plain]

/-! ### The entries of an archive -/

/-- The name of a database that is taken for the main file. -/
@[mk_iff]
structure MainName (name : String) : Prop where
  backslash : '\\' ∉ name.toList
  wal : endsWith name "-wal" = false
  shm : endsWith name "-shm" = false

section Entries
variable {p : Location} (hnames : ∀ name ∈ p, FileName name) (hp : p ≠ [])

theorem isUnsafe_below (dir : String) (hdir : FileName dir) (hpl : '\\' ∉ dir.toList)
    (hnames : ∀ name ∈ p, FileName name) : isUnsafe (dir :: p) = true ↔ ¬ Plain p := by
  rw [isUnsafe_iff (forall_mem_cons.mpr ⟨hdir, hnames⟩), Plain, forall_mem_cons]
  simp [hpl, Plain]

include hnames

theorem classify_backslash (data : List UInt8) (hpl : ¬ Plain p) :
    classifySnapshotEntry (objectEntry (p, data)) = .error (.unsafeName (objectEntry (p, data)).name) := by
  have hun := (isUnsafe_below "objects" (by decide) (by decide) hnames).mpr hpl
  simp [classifySnapshotEntry, objectEntry, hun]

include hp

theorem classify_object (data : List UInt8) (hpl : Plain p) :
    classifySnapshotEntry (objectEntry (p, data)) = .ok (.object, p) := by
  have hsf := (isUnsafe_below "objects" (by decide) (by decide) hnames).not.mpr (not_not.mpr hpl)
  obtain ⟨first, rest, rfl⟩ := exists_cons_of_ne_nil hp
  obtain ⟨hem, hdot, hd⟩ := hnames first mem_cons_self
  simp [classifySnapshotEntry, objectEntry, hsf, hem, hdot, hd]

end Entries

theorem isUnsafe_database {name : String} (hnm : FileName name) :
    isUnsafe ["db", name] = true ↔ '\\' ∈ name.toList := by
  refine (isUnsafe_below "db" (by decide) (by decide) (by simpa using hnm)).trans ?_
  simp [Plain]

theorem classify_database {name : String} {image : List UInt8} (hnm : FileName name)
    (hpl : '\\' ∉ name.toList) :
    classifySnapshotEntry ⟨["db", name], true, image⟩ = .ok (if endsWith name "-wal" then .dbWAL
      else if endsWith name "-shm" then .dbSHM else .dbMain, [name]) := by
  have hsf := (isUnsafe_database hnm).not.mpr hpl
  simp only [classifySnapshotEntry, hnm.nonempty]
  split_ifs
  all_goals simp_all

/-! ### Validation -/

/-- Files with names, none below another. -/
structure Archivable (files : List (Location × List UInt8)) : Prop where
  names : ∀ f ∈ files, f.1 ≠ [] ∧ ∀ name ∈ f.1, FileName name
  apart : files.Pairwise fun a b => ¬ a.1 <+: b.1 ∧ ¬ b.1 <+: a.1

theorem Archivable.tail {f : Location × List UInt8} {rest : List (Location × List UInt8)}
    (h : Archivable (f :: rest)) : Archivable rest :=
  ⟨fun g hg => h.names g (mem_cons_of_mem f hg), (pairwise_cons.mp h.apart).2⟩

theorem Archivable.name_ne {f g : Location × List UInt8} {rest : List (Location × List UInt8)}
    (h : Archivable (f :: rest)) (hg : g ∈ rest) : (objectEntry g).name ≠ (objectEntry f).name := by
  intro heq
  have hsame : g.1 = f.1 := (cons.inj heq).2
  exact ((pairwise_cons.mp h.apart).1 g hg).1 (hsame ▸ prefix_rfl)

theorem validateEntries_cons {e : Entry} {kind : EntryKind} {relative : Location} {seen : List Location}
    {kinds : List EntryKind} {rest : List Entry} (hcl : classifySnapshotEntry e = .ok (kind, relative))
    (hnew : e.name ∉ seen) (hkn : kind = .object ∨ kind ∉ kinds) :
    validateEntries seen kinds (e :: rest) =
      validateEntries (e.name :: seen) (if kind = .object then kinds else kind :: kinds) rest := by
  have hnt : ¬ (kind ≠ .object ∧ kind ∈ kinds) := fun h => hkn.elim h.1 (absurd h.2)
  simp [validateEntries, hcl, refuseIf, if_neg hnew, if_neg hnt, bind, Except.bind]

theorem validate_objects {files : List (Location × List UInt8)} {kinds : List EntryKind} (h : Archivable files)
    (seen : List Location) (hun : ∀ f ∈ files, (objectEntry f).name ∉ seen) :
    validateEntries seen kinds (files.map objectEntry) = .ok () ↔
      (∀ f ∈ files, Plain f.1) ∧ .dbMain ∈ kinds := by
  induction files generalizing seen with
  | nil => simp [validateEntries]
  | cons f rest ih =>
    obtain ⟨hf, hnames⟩ := h.names f mem_cons_self
    have hnx : ∀ g ∈ rest, (objectEntry g).name ∉ (objectEntry f).name :: seen := fun g hg =>
      not_mem_cons_of_ne_of_not_mem (h.name_ne hg) (hun g (mem_cons_of_mem f hg))
    rw [map_cons, forall_mem_cons]
    by_cases hpl : Plain f.1
    · have hnew := hun f mem_cons_self
      rw [validateEntries_cons (classify_object hnames hf f.2 hpl) hnew (.inl rfl), if_pos rfl,
        ih h.tail _ hnx, and_iff_right hpl]
    · rw [validateEntries, classify_backslash hnames f.2 hpl]
      simp [hpl]

theorem validate_archive {source : String} {image : List UInt8} {objects : Files} (hsource : FileName source)
    (h : Archivable (walk objects)) :
    validateSnapshot (createArchive source image objects) = .ok () ↔
      MainName source ∧ ∀ f ∈ walk objects, Plain f.1 := by
  rw [validateSnapshot, createArchive]
  by_cases hpl : '\\' ∈ source.toList
  · have hun := (isUnsafe_database hsource).mpr hpl
    simp only [validateEntries, classifySnapshotEntry, hun]
    exact ⟨nofun, fun h => absurd hpl h.1.backslash⟩
  have hnew : ∀ f ∈ walk objects, (objectEntry f).name ∉ [["db", source]] := by
    intro f _ hm
    exact absurd (cons.inj (mem_singleton.mp hm)).1 (by decide)
  rw [validateEntries_cons (classify_database hsource hpl) not_mem_nil (.inr not_mem_nil),
    validate_objects h _ hnew, and_comm]
  split_ifs with hwal hshm
  all_goals simp_all [mainName_iff]

/-! ### Unpacking -/

/-- The file at the location can be made: no directory is there, and no file on the way. -/
def Writable (t : Files) (p : Location) : Prop :=
  t.find p ≠ some .dir ∧ ∀ q, q <+: p → q ≠ p → t.isFile q = false

section Write
variable {t t' : Files} {p q : Location} {data : List UInt8}

theorem prefix_dropLast_iff (hp : p ≠ []) : q <+: p.dropLast ↔ q <+: p ∧ q ≠ p := by
  constructor
  · intro h
    refine ⟨h.trans (List.dropLast_prefix p), fun hqp => dropLast_ne_self hp ?_⟩
    exact (List.dropLast_prefix p).eq_of_length_le (hqp ▸ h).length_le
  · rintro ⟨h, hne⟩
    exact prefix_dropLast h hne

theorem writeFile_ok (h : writeFile t p data = .ok t') :
    Writable t p ∧
      ∀ q, t'.find q = if q = p then some (.file data) else if q <+: p then some .dir else t.find q := by
  obtain ⟨t₁, hd, h⟩ := bind_eq_ok.mp h
  obtain ⟨hfl, hf⟩ := mkdirAll_ok hd
  have hl : t₁.find p ≠ some .dir ∧ ∀ q, t'.find q = if q = p then some (.file data) else t₁.find q := by
    split at h
    · rename_i hnone
      exact ⟨by simp [hnone], (create_ok h).2.2⟩
    · obtain ⟨hfile, hfn⟩ := write_ok h
      obtain ⟨old, hold⟩ := isFile_iff.mp hfile
      exact ⟨by simp [hold], hfn⟩
  have hp : p ≠ [] := ne_root_of_find hl.1
  have hsame : t₁.find p = t.find p := by
    rw [hf, if_neg fun hself => ((prefix_dropLast_iff hp).mp hself).2 rfl]
  refine ⟨⟨hsame ▸ hl.1, fun q hq hne => hfl q ((prefix_dropLast_iff hp).mpr ⟨hq, hne⟩)⟩, fun q => ?_⟩
  rw [hl.2, hf]
  by_cases hqp : q = p
  · rw [if_pos hqp, if_pos hqp]
  · simp [hqp, prefix_dropLast_iff hp]

theorem exists_writeFile (h : Writable t p) : ∃ t', writeFile t p data = .ok t' := by
  have hp : p ≠ [] := ne_root_of_find h.1
  obtain ⟨t₁, hd⟩ := exists_mkdirAll fun q hq =>
    h.2 q ((prefix_dropLast_iff hp).mp hq).1 ((prefix_dropLast_iff hp).mp hq).2
  have hf := (mkdirAll_ok hd).2
  have hsame : t₁.find p = t.find p := by
    rw [hf, if_neg fun hself => ((prefix_dropLast_iff hp).mp hself).2 rfl]
  suffices hl : ∃ t', (match t₁.find p with
      | none => t₁.create p data
      | some _ => t₁.write p data) = .ok t' by
    obtain ⟨t', hok⟩ := hl
    exact ⟨t', bind_eq_ok.mpr ⟨t₁, hd, hok⟩⟩
  cases hnd : t₁.find p with
  | none => exact exists_create hnd (by rw [hf, if_pos prefix_rfl]) data
  | some node =>
    cases node with
    | dir => exact absurd (hsame ▸ hnd) h.1
    | file old => exact exists_write (isFile_iff.mpr ⟨old, hnd⟩) data

/-- What is not on the way to a file, nor below it, can be written as before. -/
theorem writable_after (h : writeFile t p data = .ok t') (hqp : ¬ q <+: p) (hpq : ¬ p <+: q) :
    Writable t' q ↔ Writable t q := by
  obtain ⟨hp, hf⟩ := writeFile_ok h
  have hsame : t'.find q = t.find q := by
    have hne : q ≠ p := fun heq => hqp (heq ▸ prefix_rfl)
    rw [hf, if_neg hne, if_neg hqp]
  have hway (r : Location) (hr : r <+: q) : t'.isFile r = t.isFile r := by
    have hrp : r ≠ p := fun heq => hpq (heq ▸ hr)
    rw [isFile, hf, if_neg hrp]
    split_ifs with habove
    · exact (hp.2 r habove hrp).symm
    · rfl
  rw [Writable, Writable, hsame]
  exact and_congr_right fun _ => forall_congr' fun r => forall_congr' fun hr => by rw [hway r hr]

end Write

def writeAll (t : Files) (files : List (Location × List UInt8)) : Except FsError Files :=
  files.foldlM (fun t f => writeFile t f.1 f.2) t

section Unpack
variable {t t' : Files} {f : Location × List UInt8} {files : List (Location × List UInt8)}
variable {dbName : String} {s s' : Roots}

theorem writeAll_cons :
    writeAll t (f :: files) = .ok t' ↔ ∃ t₁, writeFile t f.1 f.2 = .ok t₁ ∧ writeAll t₁ files = .ok t' := by
  rw [writeAll, foldlM_cons, bind_eq_ok]
  rfl

theorem exists_writeAll (h : Archivable files) :
    (∃ t', writeAll t files = .ok t') ↔ ∀ f ∈ files, Writable t f.1 := by
  induction files generalizing t with
  | nil => exact ⟨nofun, fun _ => ⟨t, rfl⟩⟩
  | cons f rest ih =>
    have hrs {t₁ : Files} (hf : writeFile t f.1 f.2 = .ok t₁) :
        (∀ g ∈ rest, Writable t₁ g.1) ↔ ∀ g ∈ rest, Writable t g.1 := by
      refine forall_congr' fun g => forall_congr' fun hg => ?_
      obtain ⟨hfg, hgf⟩ := (pairwise_cons.mp h.apart).1 g hg
      exact writable_after hf hgf hfg
    rw [forall_mem_cons]
    constructor
    · rintro ⟨t', hall⟩
      obtain ⟨t₁, hf, hall⟩ := writeAll_cons.mp hall
      exact ⟨(writeFile_ok hf).1, (hrs hf).mp ((ih h.tail).mp ⟨t', hall⟩)⟩
    · rintro ⟨hf, hwr⟩
      obtain ⟨t₁, hf⟩ := exists_writeFile hf
      obtain ⟨t', hall⟩ := (ih h.tail).mpr ((hrs hf).mpr hwr)
      exact ⟨t', writeAll_cons.mpr ⟨t₁, hf, hall⟩⟩

/-- The files that are written are there, and what is not on the way to one is as before. -/
theorem writeAll_ok (h : Archivable files) (hok : writeAll t files = .ok t') :
    (∀ f ∈ files, t'.find f.1 = some (.file f.2)) ∧
      ∀ q, (∀ f ∈ files, ¬ q <+: f.1) → t'.find q = t.find q := by
  induction files generalizing t with
  | nil =>
    cases hok
    exact ⟨nofun, fun _ _ => rfl⟩
  | cons f rest ih =>
    obtain ⟨t₁, hf, hrs⟩ := writeAll_cons.mp hok
    have hfn := (writeFile_ok hf).2
    obtain ⟨hfl, ho⟩ := ih h.tail hrs
    refine ⟨forall_mem_cons.mpr ⟨?_, hfl⟩, fun q hq => ?_⟩
    · rw [ho f.1 fun g hg => ((pairwise_cons.mp h.apart).1 g hg).1, hfn, if_pos rfl]
    · obtain ⟨hqf, hq⟩ := forall_mem_cons.mp hq
      have hne : q ≠ f.1 := fun heq => hqf (heq ▸ prefix_rfl)
      rw [ho q hq, hfn, if_neg hne, if_neg hqf]

theorem return_ok {ε α : Type} {a b : α} : (pure a : Except ε α) = .ok b ↔ b = a :=
  ⟨fun h => (Except.ok.inj h).symm, fun h => h ▸ rfl⟩

theorem writeRootFile_ok {p : Location} {data : List UInt8} (hnames : ∀ name ∈ p, FileName name) :
    writeRootFile t p data = .ok t' ↔ writeFile t p data = .ok t' := by
  have hh : p.head? ≠ some "" := fun h => (hnames "" (mem_of_mem_head? h)).nonempty rfl
  have hsf : ¬ (p = [""] ∨ p.head? = some "") := fun h => hh (h.elim (fun h => by rw [h]; rfl) id)
  rw [writeRootFile, if_neg hsf, wrapped_ok_iff]

theorem unpack_object (hf : f.1 ≠ []) (hnames : ∀ name ∈ f.1, FileName name) (hpl : Plain f.1) :
    unpackEntry dbName s (objectEntry f) = .ok s' ↔
      ∃ t, writeFile s.objects f.1 f.2 = .ok t ∧ s' = {s with objects := t} := by
  rw [unpackEntry, classify_object hnames hf f.2 hpl]
  show (do return ({s with objects := ← writeRootFile s.objects f.1 f.2} : Roots)) = .ok s' ↔ _
  rw [bind_eq_ok]
  exact exists_congr fun t => and_congr (writeRootFile_ok hnames) return_ok

theorem unpack_objects (h : Archivable files) (hpl : ∀ f ∈ files, Plain f.1) :
    (files.map objectEntry).foldlM (unpackEntry dbName) s = .ok s' ↔
      ∃ t, writeAll s.objects files = .ok t ∧ s' = {s with objects := t} := by
  induction files generalizing s with
  | nil => exact return_ok.trans ⟨fun heq => ⟨s.objects, rfl, heq⟩, fun ⟨t, ht, heq⟩ => by
      rw [heq, return_ok.mp ht]⟩
  | cons f rest ih =>
    obtain ⟨hf, hnames⟩ := h.names f mem_cons_self
    obtain ⟨hfp, hpl⟩ := forall_mem_cons.mp hpl
    rw [map_cons, foldlM_cons, bind_eq_ok]
    constructor
    · rintro ⟨s₁, hobject, hrs⟩
      obtain ⟨t₁, hwr, rfl⟩ := (unpack_object hf hnames hfp).mp hobject
      obtain ⟨t, hall, rfl⟩ := (ih h.tail hpl).mp hrs
      exact ⟨t, writeAll_cons.mpr ⟨t₁, hwr, hall⟩, rfl⟩
    · rintro ⟨t, hall, rfl⟩
      obtain ⟨t₁, hwr, hall⟩ := writeAll_cons.mp hall
      exact ⟨_, (unpack_object hf hnames hfp).mpr ⟨t₁, hwr, rfl⟩, (ih h.tail hpl).mpr ⟨t, hall, rfl⟩⟩

theorem unpack_database {source : String} {image : List UInt8} (hsource : FileName source) (hm : MainName source)
    (hdb : FileName dbName) : unpackEntry dbName s ⟨["db", source], true, image⟩ = .ok s' ↔
      ∃ t, writeFile s.db [dbName] image = .ok t ∧ s' = {s with db := t} := by
  rw [unpackEntry, classify_database hsource hm.backslash, hm.wal, hm.shm]
  show (do return ({s with db := ← writeRootFile s.db [dbName] image} : Roots)) = .ok s' ↔ _
  rw [bind_eq_ok]
  exact exists_congr fun t => and_congr (writeRootFile_ok (by simpa using hdb)) return_ok

end Unpack

/-! ### The round trip -/

theorem fileAt_eq_some {t : Files} {p : Location} {data : List UInt8} :
    fileAt t p = some data ↔ t.find p = some (.file data) := by
  unfold fileAt
  split
  · rename_i content hf
    simp [hf]
  · rename_i hno
    exact ⟨nofun, fun h => absurd h (hno data)⟩

theorem mem_walk {t : Files} {p : Location} {data : List UInt8} :
    (p, data) ∈ walk t ↔ fileAt t p = some data := by
  rw [walk, mem_insertionSort, mem_filterMap]
  constructor
  · rintro ⟨q, _, hq⟩
    obtain ⟨content, hfile, heq⟩ := Option.map_eq_some_iff.mp hq
    cases heq
    exact hfile
  · intro hfile
    have hnd : p ∈ t.nodes.map Prod.fst := by
      by_contra hno
      have hnone : t.find p = none := lookup_eq_none_iff.mpr fun e he heq =>
        hno (mem_map.mpr ⟨e, he, heq⟩)
      rw [fileAt_eq_some.mp hfile] at hnone
      cases hnone
    exact ⟨p, mem_dedup.mpr hnd, by rw [hfile]; rfl⟩

/-- Every name in a tree is one that a file can have. -/
def Named (t : Files) : Prop := ∀ p, t.find p ≠ none → ∀ name ∈ p, FileName name

theorem archivable_walk {t : Files} (hnamed : Named t) : Archivable (walk t) := by
  have hfile {f : Location × List UInt8} (hf : f ∈ walk t) : t.find f.1 = some (.file f.2) :=
    fileAt_eq_some.mp (mem_walk.mp hf)
  have hnod : (walk t).Nodup := by
    refine (perm_insertionSort _ _).nodup_iff.mpr ((nodup_dedup _).filterMap fun p q f hp hq => ?_)
    obtain ⟨_, _, rfl⟩ := Option.map_eq_some_iff.mp hp
    obtain ⟨_, _, heq⟩ := Option.map_eq_some_iff.mp hq
    exact (Prod.mk.inj heq).1.symm
  have hap {f g : Location × List UInt8} (hf : f ∈ walk t) (hg : g ∈ walk t) (hne : f ≠ g) :
      ¬ f.1 <+: g.1 := by
    intro hbl
    by_cases heq : f.1 = g.1
    · have hd := hfile hf
      rw [heq, hfile hg] at hd
      exact hne (Prod.ext heq (by simpa [eq_comm] using hd))
    · have habove := find_above (by rw [hfile hg]; exact Option.some_ne_none _) hbl heq
      rw [hfile hf] at habove
      cases habove
  refine ⟨fun f hf => ⟨?_, hnamed f.1 (by rw [hfile hf]; exact Option.some_ne_none _)⟩, ?_⟩
  · exact ne_root_of_find (by rw [hfile hf]; simp)
  · exact hnod.pairwise_of_forall_ne fun f hf g hg hne => ⟨hap hf hg hne, hap hg hf hne.symm⟩

theorem restore_ok {source dbName : String} {image : List UInt8} {objects : Files} {target : Target}
    {roots : Roots} (hsource : FileName source) (hdb : FileName dbName) (hnamed : Named objects) :
    restore dbName (createArchive source image objects) target = .ok roots ↔
      MainName source ∧ (∀ f ∈ walk objects, Plain f.1) ∧ ∃ db files, target = ⟨some db, some files⟩ ∧
        writeFile db [dbName] image = .ok roots.db ∧ writeAll files (walk objects) = .ok roots.objects := by
  have harc := archivable_walk hnamed
  have hcons (db files : Files) :
      unpackSnapshot dbName ⟨some db, some files⟩ (createArchive source image objects) =
      .ok roots ↔ ∃ s, unpackEntry dbName ⟨db, files⟩ ⟨["db", source], true, image⟩ = .ok s ∧
        ((walk objects).map objectEntry).foldlM (unpackEntry dbName) s = .ok roots := by
    show foldlM (unpackEntry dbName) ⟨db, files⟩ (_ :: _) = _ ↔ _
    rw [foldlM_cons, bind_eq_ok]
  rw [restore, bind_eq_ok]
  constructor
  · rintro ⟨_, hv, hun⟩
    obtain ⟨hm, hpl⟩ := (validate_archive hsource harc).mp hv
    refine ⟨hm, hpl, ?_⟩
    rcases target with ⟨_ | db, _ | files⟩
    · cases hun
    · cases hun
    · cases hun
    obtain ⟨s, hf, hrs⟩ := (hcons db files).mp hun
    obtain ⟨t, hd, rfl⟩ := (unpack_database hsource hm hdb).mp hf
    obtain ⟨t', ho, rfl⟩ := (unpack_objects harc hpl).mp hrs
    exact ⟨db, files, rfl, hd, ho⟩
  · rintro ⟨hm, hpl, db, files, rfl, hd, ho⟩
    refine ⟨(), (validate_archive hsource harc).mpr ⟨hm, hpl⟩, ?_⟩
    exact (hcons db files).mpr ⟨_, (unpack_database hsource hm hdb).mpr ⟨_, hd, rfl⟩,
      (unpack_objects harc hpl).mpr ⟨_, ho, rfl⟩⟩

section RoundTrip
variable {α : Type} (opened : List UInt8 → Option (List UInt8) → Option (List UInt8) → α)
variable (source dbName : String) (image : List UInt8) (objects : Files) (target : Target)

/-- What opening a database gives, from its main file and the `-wal` and `-shm` files beside it. -/
def readDatabase (db : Files) (name : String) : Option α :=
  (fileAt db [name]).map fun main => opened main (fileAt db [name ++ "-wal"]) (fileAt db [name ++ "-shm"])

/-- The archive is restored, the database reads as the image alone and every file has its bytes. -/
def RoundTrips : Prop :=
  ∃ roots, restore dbName (createArchive source image objects) target = .ok roots ∧
    readDatabase opened roots.db dbName = some (opened image none none) ∧
      ∀ p data, fileAt objects p = some data → fileAt roots.objects p = some data

/-- No backslash in a name, and a target that has nothing in the way and no `-wal` or `-shm` file that takes
effect. -/
structure Restorable : Prop where
  main : MainName source
  plain : ∀ p, objects.isFile p = true → Plain p
  target : ∃ db files, target = ⟨some db, some files⟩ ∧ db.find [dbName] ≠ some .dir ∧
    opened image (fileAt db [dbName ++ "-wal"]) (fileAt db [dbName ++ "-shm"]) = opened image none none ∧
      ∀ p, objects.isFile p = true → Writable files p

variable {opened source dbName image objects target}

theorem forall_walk {P : Location → Prop} :
    (∀ f ∈ walk objects, P f.1) ↔ ∀ p, objects.isFile p = true → P p := by
  constructor
  · intro h p hp
    obtain ⟨data, hfn⟩ := isFile_iff.mp hp
    exact h (p, data) (mem_walk.mpr (fileAt_eq_some.mpr hfn))
  · intro h f hf
    exact h f.1 (isFile_iff.mpr ⟨f.2, fileAt_eq_some.mp (mem_walk.mp hf)⟩)

theorem writable_top {db : Files} {name : String} : Writable db [name] ↔ db.find [name] ≠ some .dir := by
  refine and_iff_left fun q hq hne => ?_
  have hroot : q = [] := by
    have hle := hq.length_le
    rcases q with _ | ⟨a, _ | ⟨b, rest⟩⟩
    · rfl
    · exact absurd (hq.eq_of_length rfl) hne
    · simp at hle
  rw [hroot, isFile, find_root]

/-- The files beside the database are those of the target. -/
theorem readDatabase_restored {db db' : Files} (h : writeFile db [dbName] image = .ok db') :
    readDatabase opened db' dbName =
      some (opened image (fileAt db [dbName ++ "-wal"]) (fileAt db [dbName ++ "-shm"])) := by
  have hf := (writeFile_ok h).2
  have hbs {suffix : String} (hsf : suffix ≠ "") :
      fileAt db' [dbName ++ suffix] = fileAt db [dbName ++ suffix] := by
    have hne : dbName ++ suffix ≠ dbName := by
      simpa using hsf
    rw [fileAt, fileAt, hf, if_neg (by simpa using hne), if_neg (by simpa using hne)]
  rw [readDatabase, hbs (by decide), hbs (by decide), fileAt_eq_some.mpr ((hf _).trans (if_pos rfl))]
  rfl

section
variable (hsource : FileName source) (hdb : FileName dbName) (hnamed : Named objects)
include hsource hdb hnamed

theorem restorable_of_roundTrips (h : RoundTrips opened source dbName image objects target) :
    Restorable opened source dbName image objects target := by
  obtain ⟨roots, hrs, hrd, -⟩ := h
  obtain ⟨hm, hpl, db, files, ht, hd, ho⟩ := (restore_ok hsource hdb hnamed).mp hrs
  refine ⟨hm, forall_walk.mp hpl, db, files, ht, writable_top.mp (writeFile_ok hd).1, ?_, ?_⟩
  · rw [readDatabase_restored hd] at hrd
    exact Option.some.inj hrd
  · exact forall_walk.mp ((exists_writeAll (archivable_walk hnamed)).mp ⟨_, ho⟩)

theorem roundTrips_of_restorable (h : Restorable opened source dbName image objects target) :
    RoundTrips opened source dbName image objects target := by
  obtain ⟨db, files, ht, hpl, hrd, hway⟩ := h.target
  have har := archivable_walk hnamed
  obtain ⟨db', hd⟩ := exists_writeFile (writable_top.mpr hpl)
  obtain ⟨files', ho⟩ := (exists_writeAll har).mpr (forall_walk.mpr hway)
  refine ⟨⟨db', files'⟩, (restore_ok hsource hdb hnamed).mpr
    ⟨h.main, forall_walk.mpr h.plain, db, files, ht, hd, ho⟩, ?_, fun p data hfile => ?_⟩
  · rw [readDatabase_restored hd, hrd]
  · exact fileAt_eq_some.mpr ((writeAll_ok har ho).1 (p, data) (mem_walk.mpr hfile))

end

/-- **A snapshot is restored as it was exactly when the reader takes every name the writer put into it and the
target has nothing in its way**. -/
theorem round_trip_iff (hsource : FileName source) (hdb : FileName dbName) (hnamed : Named objects) :
    RoundTrips opened source dbName image objects target ↔
      Restorable opened source dbName image objects target :=
  ⟨restorable_of_roundTrips hsource hdb hnamed, roundTrips_of_restorable hsource hdb hnamed⟩

end RoundTrip

/-! ### An object with its sidecar -/

theorem writable_bare {p : Location} (hp : p ≠ []) : Writable bare p := by
  refine ⟨by rw [find_bare, if_neg hp]; exact (Option.some_ne_none _).symm, fun q _ _ => ?_⟩
  rw [isFile, find_bare]
  split_ifs
  · rfl
  · rfl

theorem exists_object {p q : Location} (h : Archivable [(p, [1]), (q, [2])]) :
    ∃ t : Files, Named t ∧ fileAt t p = some [1] ∧ ∀ r, t.isFile r = true → r = p ∨ r = q := by
  obtain ⟨t, hok⟩ := (exists_writeAll h).mpr fun f hf => writable_bare (h.names f hf).1
  obtain ⟨t₁, hp, hrs⟩ := writeAll_cons.mp hok
  obtain ⟨t₂, hq, hrs⟩ := writeAll_cons.mp hrs
  obtain rfl := return_ok.mp hrs
  have hfn (r : Location) := ((writeFile_ok hq).2 r).trans (by rw [(writeFile_ok hp).2 r, find_bare])
  refine ⟨t, fun r hr name hnm => ?_, fileAt_eq_some.mpr ((writeAll_ok h hok).1 _ mem_cons_self),
    fun r hr => ?_⟩
  · have hnames := h.names _ mem_cons_self
    have hnames' := h.names _ (mem_cons_of_mem _ mem_cons_self)
    rw [hfn] at hr
    split_ifs at hr with hrq hrq hrp hrp hroot
    · exact hnames'.2 name (hrq ▸ hnm)
    · exact hnames'.2 name (hrq.subset hnm)
    · exact hnames.2 name (hrp ▸ hnm)
    · exact hnames.2 name (hrp.subset hnm)
    · rw [hroot] at hnm
      cases hnm
    · exact absurd rfl hr
  · rw [isFile, hfn] at hr
    split_ifs at hr with hrq hrq hrp hrp hroot
    · exact .inr hrq
    · exact .inl hrp

/-- A database whose reading appends what its write-ahead log has. -/
def logged (main : List UInt8) (wal _shm : Option (List UInt8)) : List UInt8 := main ++ wal.getD []

def objectAt (key : String) : Location := Storage.cleanElements (Service.storageKey ⟨"default", "b", key⟩)

theorem plain_key_restored : ∃ objects : Files, fileAt objects (objectAt "a/x") = some [1] ∧
    RoundTrips logged "aero.db" "aero.db" [7] objects ⟨some bare, some bare⟩ := by
  obtain ⟨t, hnamed, hfile, ho⟩ :=
    exists_object (p := objectAt "a/x") (q := Storage.metaPath (objectAt "a/x"))
    ⟨by decide +kernel, by decide +kernel⟩
  refine ⟨t, hfile, (round_trip_iff (by decide) (by decide) hnamed).mpr ⟨⟨by decide, by decide, by decide⟩,
    fun r hr => ?_, bare, bare, rfl, by decide +kernel, by decide +kernel, fun r hr => writable_bare ?_⟩⟩
  · rcases ho r hr with rfl | rfl
    · decide +kernel
    · decide +kernel
  · rcases ho r hr with rfl | rfl
    · decide +kernel
    · decide +kernel

/-- The archive of an object with a backslash in its key cannot be restored at all; and a write-ahead log that
the target had is read with the restored database. -/
theorem backslash_and_stale_log :
    (Service.validateKey "a\\b" = .ok () ∧ ∃ objects : Files, Named objects ∧
      fileAt objects (objectAt "a\\b") = some [1] ∧
        ¬ RoundTrips logged "aero.db" "aero.db" [7] objects ⟨some bare, some bare⟩) ∧
    ∃ db : Files, fileAt db ["aero.db-wal"] = some [9] ∧
      ¬ RoundTrips logged "aero.db" "aero.db" [7] bare ⟨some db, some bare⟩ := by
  refine ⟨⟨by decide +kernel, ?_⟩, ?_⟩
  · obtain ⟨t, hnamed, hfile, -⟩ := exists_object (p := objectAt "a\\b")
      (q := Storage.metaPath (objectAt "a\\b")) ⟨by decide +kernel, by decide +kernel⟩
    refine ⟨t, hnamed, hfile, fun h => ?_⟩
    have hpl := (restorable_of_roundTrips (by decide) (by decide) hnamed h).plain _
      (isFile_iff.mpr ⟨_, fileAt_eq_some.mp hfile⟩)
    exact absurd hpl (by decide +kernel)
  · obtain ⟨db, hdb⟩ := exists_writeFile (writable_bare (cons_ne_nil _ _))
    have hwal : fileAt db ["aero.db-wal"] = some [9] :=
      fileAt_eq_some.mpr (((writeFile_ok hdb).2 _).trans (if_pos rfl))
    refine ⟨db, hwal, fun h => ?_⟩
    have hnamed : Named bare := by
      intro p hp name hnm
      rw [find_bare] at hp
      split_ifs at hp with hroot
      · rw [hroot] at hnm
        cases hnm
      · exact absurd rfl hp
    obtain ⟨_, _, ht, -, hrd, -⟩ := (restorable_of_roundTrips (by decide) (by decide) hnamed h).target
    obtain ⟨rfl, rfl⟩ : _ ∧ _ := by simpa using ht
    rw [show "aero.db" ++ "-wal" = "aero.db-wal" by decide, hwal] at hrd
    simp [logged] at hrd

end AeroVault.Snapshot
