import AeroVault.Lib.FileTree
import AeroVault.Lib.GoMap
import AeroVault.Lib.GoText

/-! The local storage backend: objects as files, with their metadata in a sidecar file beside them.

An object is a file at the path of its key, and its sidecar has the same name with `.meta.json` behind
it. Both live in one tree under names that come from keys. A `Put` or `Delete` is confined to the two
locations of its key (`put_confined`, `delete_confined`), and what `Stat` and `Get` see of a key
depends on its own two locations and on what is on the way to them. So two keys leave each other alone
if and only if their locations are apart (`put_and_delete_spare_iff`); the sidecar of a key can be
the object of another. -/
namespace AeroVault.Storage
open Lib Lib.FileTree Lib.FileTree.Tree List Attempt

/-! ### Types -/

inductive StorageError
  | notFound
  | invalidKey
  | unsupported
  | sseCustomerKeyRequired
  | invalidSSECustomerKey
  /-- An error of the file system. -/
  | fs (err : FsError)
  /-- A sidecar that is not JSON. -/
  | json
  /-- An envelope that cannot be opened. -/
  | sse
  /-- A call that failed for a reason the tree does not show. -/
  | io
  deriving DecidableEq

structure LocalMeta where
  key : String
  size : Nat
  etag : String
  contentType : String
  metadata : GoMap
  envelope : String
  deriving DecidableEq

structure ObjectInfo where
  key : String
  size : Nat
  etag : String
  contentType : String
  metadata : GoMap
  deriving DecidableEq

structure PutOptions where
  contentType : String
  metadata : GoMap
  sseAlgorithm : String
  sseKMSKeyID : String
  sseCustomerKey : List UInt8

structure GetOptions where
  sseCustomerKey : List UInt8

/-- What the server's encrypter wraps its data keys with. -/
inductive Encrypter
  | provider
  | wrapper
  deriving DecidableEq

/-- The backend with the packages it calls. -/
structure LocalStorage where
  root : Location
  /-- The root is a directory with a name, not the root of the file system. -/
  root_ne : root ≠ []
  enc : Option Encrypter
  sseKMSKeyID : String
  md5Hex : List UInt8 → String
  marshal : LocalMeta → List UInt8
  unmarshal : List UInt8 → Option LocalMeta
  /-- The decryption that belongs to an envelope. -/
  readEncrypter : String → GetOptions → Except StorageError (List UInt8 → Except StorageError (List UInt8))
  /-- What the file system gives for the size of a directory. -/
  dirSize : Nat

open LocalStorage

abbrev Disk := FileTree.Tree (List UInt8)

abbrev OnDisk (α : Type) := Attempt Disk StorageError α

/-! ### Paths -/

def localMetaSuffix : String := ".meta.json"

def generationMetadataKey : String := "_aero_storage_generation"

def validateObjectKey (key : String) : Bool :=
  !(key == "" || GoText.hasPrefix key "/" || GoText.contains key "..")

/-- The elements of `filepath.Clean`. -/
def cleanElements (key : String) : Location :=
  ((key.toList.splitOn '/').foldl (GoText.cleanElement false) []).reverse.map String.ofList

/-- `objectPath`. The path cannot lead out of the root: a key with `..` has been refused. -/
def LocalStorage.objectPath (s : LocalStorage) (key : String) : Except StorageError Location :=
  if validateObjectKey key then .ok (s.root ++ cleanElements key) else .error .invalidKey

def metaPath (p : Location) : Location := p.dropLast ++ [p.getLast?.getD "" ++ localMetaSuffix]

/-! ### Reading -/

section Read
variable (s : LocalStorage)

def LocalMeta.toInfo (m : LocalMeta) : ObjectInfo := ⟨m.key, m.size, m.etag, m.contentType, m.metadata⟩

def LocalStorage.readMeta (p : Location) (t : Disk) : Except StorageError LocalMeta :=
  match t.readFile p with
  | .error err => .error (.fs err)
  | .ok content =>
    match s.unmarshal content with
    | none => .error .json
    | some m => .ok m

/-- The size that `os.Stat` reports. -/
def LocalStorage.sizeOf : Node (List UInt8) → Nat
  | .dir => s.dirSize
  | .file content => content.length

def LocalStorage.statObject (key : String) (opts : Option GetOptions) (t : Disk) : Except StorageError ObjectInfo := do
  let path ← s.objectPath key
  match s.readMeta (metaPath path) t with
  | .error (.fs .notExist) =>
    -- An object without a sidecar gets made-up metadata; so does a directory.
    match t.resolve path with
    | .ok node => .ok ⟨key, s.sizeOf node, "", "", []⟩
    | .error _ => .error .notFound
  | .error err => .error err
  | .ok m =>
    match opts with
    | none => .ok m.toInfo
    | some opts =>
      if m.envelope ≠ "" then (s.readEncrypter m.envelope opts).map fun _ => m.toInfo else .ok m.toInfo

/-- An object that has been opened, and what reading it gives. -/
structure OpenObject where
  info : ObjectInfo
  body : Except StorageError (List UInt8)
  deriving DecidableEq

/-- Reading an open file to its end. -/
def readAll : Node (List UInt8) → Except StorageError (List UInt8)
  | .dir => .error (.fs .isDirectory)
  | .file content => .ok content

def LocalStorage.getWithOptions (key : String) (opts : GetOptions) (t : Disk) : Except StorageError OpenObject := do
  let info ← s.statObject key (some opts) t
  let path ← s.objectPath key
  match t.resolve path with
  | .error .notExist => .error .notFound
  | .error err => .error (.fs err)
  | .ok node =>
    match s.readMeta (metaPath path) t with
    | .ok m =>
      if m.envelope ≠ "" then do
        let decrypt ← s.readEncrypter m.envelope opts
        let content ← readAll node
        let plain ← decrypt content
        return ⟨info, .ok plain⟩
      else .ok ⟨info, readAll node⟩
    | .error _ => .ok ⟨info, readAll node⟩

end Read

/-! ### Writing -/

/-- The calls of `Put` and `Delete` that can fail for reasons of their own. -/
inductive Step
  | mkdirAll
  | createTemp
  | copy
  | rename
  | generation
  | removeTemp
  | createMetaTemp
  | writeMetaTemp
  | removeMetaTemp
  | renameMeta
  | removeMeta
  | removeObject
  deriving DecidableEq

/-- What the outside decides in one call: which steps fail, the random names and the encryption, and
what a failed copy has written. -/
structure Outside where
  fails : Step → Bool
  uploadName : String
  metaName : String
  generation : String
  encrypt : List UInt8 → Except StorageError (List UInt8 × String)
  written : List UInt8

/-- A call to the file system. -/
def syscall (fails : Bool) (f : Disk → Except FsError Disk) : OnDisk Unit :=
  call fun t =>
    if fails then (.error .io, t)
    else
      match f t with
      | .ok t' => (.ok (), t')
      | .error err => (.error (.fs err), t)

/-- `_ = os.Remove(name)`. -/
def removed (fails : Bool) (p : Location) (t : Disk) : Disk :=
  if fails then t
  else
    match t.remove p with
    | .ok t' => t'
    | .error _ => t

/-- `defer`: the cleanup runs however the program ends. -/
def deferred {α : Type} (cleanup : Disk → Disk) (x : OnDisk α) : OnDisk α :=
  call fun t => ((runFrom x t).1, cleanup (runFrom x t).2)

section Write
variable (s : LocalStorage) (out : Outside)

def LocalStorage.supportsServerSideEncryption (algorithm keyID : String) : Bool :=
  match s.enc with
  | none => false
  | some enc =>
    if algorithm = "AES256" then keyID == "" && enc == .provider
    else if algorithm = "aws:kms" then
      enc == .wrapper && (keyID == "" || s.sseKMSKeyID == "" || keyID == s.sseKMSKeyID)
    else false

def LocalStorage.validateServerSideEncryption (opts : PutOptions) : Except StorageError Unit :=
  if opts.sseAlgorithm = "" then refuseIf (opts.sseKMSKeyID ≠ "") .unsupported
  else refuseIf (opts.sseCustomerKey ≠ [] ∨
    !s.supportsServerSideEncryption opts.sseAlgorithm opts.sseKMSKeyID) .unsupported

def plaintextSize (written : Nat) (encrypted : Bool) : Nat := if encrypted then written - 16 else written

/-- The copy of the body into the temporary file, with `Sync` and `Close`. -/
def copyBody (tmp : Location) (content : List UInt8) : OnDisk Unit :=
  if out.fails .copy then do
    syscall false (·.write tmp out.written)
    throw .io
  else syscall false (·.write tmp content)

/-- The part of `writeObject` during which the temporary file is there. -/
def LocalStorage.fillObject (tmp path : Location) (key : String) (body : List UInt8) (opts : PutOptions) :
    OnDisk LocalMeta := do
  let encrypted := opts.sseCustomerKey.length == 32 || s.enc.isSome
  let (content, envelope) ← Attempt.ofExcept (if encrypted then out.encrypt body else .ok (body, ""))
  copyBody out tmp content
  syscall (out.fails .rename) (·.rename tmp path)
  Attempt.ofExcept (refuseIf (out.fails .generation = true) .io)
  return {
    key := key
    size := plaintextSize content.length encrypted
    etag := s.md5Hex body
    contentType := opts.contentType
    metadata := opts.metadata.set generationMetadataKey out.generation
    envelope := envelope }

def LocalStorage.writeObject (path : Location) (key : String) (body : List UInt8) (opts : PutOptions) :
    OnDisk LocalMeta := do
  let tmp := path.dropLast ++ [".upload-" ++ out.uploadName]
  syscall (out.fails .createTemp) (·.create tmp [])
  deferred (removed (out.fails .removeTemp) tmp) (s.fillObject out tmp path key body opts)

/-- The temporary file of a sidecar, which is removed only if it could not be written. -/
def LocalStorage.writeMetaTemp (tmp : Location) (m : LocalMeta) : OnDisk Unit :=
  call fun t =>
    if out.fails .writeMetaTemp then (.error .io, removed (out.fails .removeMetaTemp) tmp t)
    else
      match t.write tmp (s.marshal m) with
      | .ok t' => (.ok (), t')
      | .error err => (.error (.fs err), removed (out.fails .removeMetaTemp) tmp t)

def LocalStorage.writeMeta (path : Location) (m : LocalMeta) : OnDisk Unit := do
  let tmp := path.dropLast ++ [".meta-" ++ out.metaName]
  syscall (out.fails .createMetaTemp) (·.create tmp [])
  s.writeMetaTemp out tmp m
  syscall (out.fails .renameMeta) (·.rename tmp path)

def LocalStorage.put (key : String) (body : List UInt8) (opts : PutOptions) : OnDisk ObjectInfo := do
  Attempt.ofExcept (s.validateServerSideEncryption opts)
  let path ← Attempt.ofExcept (s.objectPath key)
  syscall (out.fails .mkdirAll) (·.mkdirAll path.dropLast)
  let m ← s.writeObject out path key body opts
  match ← observe (s.writeMeta out (metaPath path) m) with
  | .ok () => return m.toInfo
  | .error err => do
    call fun t => (.ok (), removed (out.fails .removeObject) path t)
    throw err

/-- The removal of an object, which need not exist. -/
def removeObject (fails : Bool) (path : Location) (t : Disk) : Except StorageError Unit × Disk :=
  if fails then (.error .io, t)
  else
    match t.remove path with
    | .ok t' => (.ok (), t')
    | .error .notExist => (.ok (), t)
    | .error err => (.error (.fs err), t)

def LocalStorage.delete (key : String) : OnDisk Unit := do
  let path ← Attempt.ofExcept (s.objectPath key)
  call fun t => (.ok (), removed (out.fails .removeMeta) (metaPath path) t)
  call (removeObject (out.fails .removeObject) path)

end Write

/-! ### Runs that succeed -/

section Runs
variable {s : LocalStorage} {out : Outside} {t t' : Disk} {key : String} {path : Location}

variable {u : Unit}

@[simp] theorem returns_syscall {fails : Bool} {f : Disk → Except FsError Disk} :
    Returns (syscall fails f) t u t' ↔ fails = false ∧ f t = .ok t' := by
  rw [syscall, returns_call]
  cases fails with
  | true => simp
  | false =>
    cases f t with
    | error | ok => simp

@[simp] theorem returns_deferred {α : Type} {cleanup : Disk → Disk} {x : OnDisk α} {a : α} :
    Returns (deferred cleanup x) t a t' ↔ ∃ t₁, Returns x t a t₁ ∧ cleanup t₁ = t' := by
  rw [deferred, returns_call]
  unfold Returns
  cases runFrom x t with
  | mk result t₁ => simp

@[simp] theorem returns_copyBody {tmp : Location} {content : List UInt8} :
    Returns (copyBody out tmp content) t u t' ↔ out.fails .copy = false ∧ t.write tmp content = .ok t' := by
  unfold copyBody
  cases out.fails .copy with
  | true | false => simp

variable {m : LocalMeta}

@[simp] theorem returns_writeMetaTemp {tmp : Location} :
    Returns (s.writeMetaTemp out tmp m) t u t' ↔
      out.fails .writeMetaTemp = false ∧ t.write tmp (s.marshal m) = .ok t' := by
  rw [writeMetaTemp, returns_call]
  cases out.fails .writeMetaTemp with
  | true => simp
  | false =>
    cases t.write tmp (s.marshal m) with
    | error | ok => simp

theorem removed_of_find {fails : Bool} (h : t.find path = none) : removed fails path t = t := by
  unfold removed
  split_ifs
  · rfl
  · rw [remove, h]

theorem confined_removed {fails : Bool} : Confined [path] t (removed fails path t) := by
  unfold removed
  split_ifs
  · exact .refl _ _
  · split
    · rename_i t' hrm
      exact confined_remove hrm
    · exact .refl _ _

theorem confined_writeObject {body : List UInt8} {opts : PutOptions}
    (h : Returns (s.writeObject out path key body opts) t m t') : Confined [path] t t' := by
  simp only [writeObject, fillObject, returns_bind, returns_syscall, returns_deferred,
    returns_ofExcept, returns_copyBody] at h
  obtain ⟨-, t₁, ⟨-, hcreate⟩, t₃, ⟨sealed, v, ⟨-, rfl⟩, -, t₂, ⟨-, hwr⟩, -, v', ⟨-, hrn⟩, -, v'', ⟨-, rfl⟩,
    -, rfl⟩, rfl⟩ := h
  have hcn := confined_replace hcreate hwr hrn dropLast_concat
  by_cases hsame : path.dropLast ++ [".upload-" ++ out.uploadName] = path
  · -- The random name is that of the object, which the cleanup then removes.
    rw [hsame]
    exact hcn.trans confined_removed
  · rw [removed_of_find (by rw [find_replace hcreate hwr hrn, if_neg hsame, if_pos rfl])]
    exact hcn

theorem dropLast_metaPath {p : Location} : (metaPath p).dropLast = p.dropLast := dropLast_concat

theorem append_ne_left {name suffix : String} (h : suffix ≠ "") : name ++ suffix ≠ name := by
  simpa using h

theorem concat_last (h : path ≠ []) : path.dropLast ++ [path.getLast?.getD ""] = path := by
  rw [getLast?_eq_some_getLast h, Option.getD_some]
  exact dropLast_concat_getLast h

theorem metaPath_ne_self (h : path ≠ []) : metaPath path ≠ path := by
  intro hsame
  rw [metaPath] at hsame
  nth_rewrite 3 [← concat_last h] at hsame
  have hnames := append_cancel_left hsame
  exact append_ne_left (by decide) (cons.inj hnames).1

/-- The sidecar is written last. -/
theorem writeMeta_ok (h : Returns (s.writeMeta out path m) t u t') :
    Confined [path] t t' ∧ t'.find path = some (.file (s.marshal m)) := by
  simp only [writeMeta, returns_bind, returns_syscall, returns_writeMetaTemp] at h
  obtain ⟨-, t₁, ⟨-, hcreate⟩, -, t₂, ⟨-, hwr⟩, -, hrn⟩ := h
  refine ⟨confined_replace hcreate hwr hrn dropLast_concat, ?_⟩
  rw [find_replace hcreate hwr hrn, if_pos rfl]

/-- **A `Put` changes nothing but the two locations of its key**, and the directories that it makes on
the way to them. -/
theorem put_confined {body : List UInt8} {opts : PutOptions} {info : ObjectInfo}
    (hpath : s.objectPath key = .ok path) (h : Returns (s.put out key body opts) t info t') :
    Confined [path, metaPath path] t t' ∧ t'.isFile (metaPath path) = true := by
  simp only [put, returns_bind, returns_syscall, returns_ofExcept, returns_observe, hpath] at h
  obtain ⟨_, v, ⟨-, rfl⟩, path', v', ⟨hsame, rfl⟩, _, t₁, ⟨-, hm⟩, m, t₂, hobject, result, t₃, hmt, hl⟩ := h
  cases hsame
  cases result with
  | error err => simp at hl
  | ok u =>
    obtain ⟨-, rfl⟩ := returns_pure.mp hl
    obtain ⟨hcn, hfile⟩ := writeMeta_ok hmt
    have hbf : Confined [path, metaPath path] _ t₂ :=
      ((confined_mkdirAll hm).trans (confined_writeObject hobject)).mono (by simp)
    exact ⟨hbf.trans (hcn.mono (by simp)), isFile_iff.mpr ⟨_, hfile⟩⟩

theorem removeObject_ok {fails : Bool} : removeObject fails path t = (.ok u, t') ↔
    fails = false ∧ (t.remove path = .ok t' ∨ t.remove path = .error .notExist ∧ t' = t) := by
  unfold removeObject
  cases fails with
  | true => simp
  | false =>
    cases t.remove path with
    | ok t₁ => simp
    | error err => cases err <;> simp [eq_comm]

theorem returns_delete (hpath : s.objectPath key = .ok path) :
    Returns (s.delete out key) t u t' ↔ out.fails .removeObject = false ∧
      ((removed (out.fails .removeMeta) (metaPath path) t).remove path = .ok t' ∨
        (removed (out.fails .removeMeta) (metaPath path) t).remove path = .error .notExist ∧
          t' = removed (out.fails .removeMeta) (metaPath path) t) := by
  simp only [delete, returns_bind, returns_ofExcept, returns_call, removeObject_ok, hpath]
  constructor
  · rintro ⟨path', v, ⟨hsame, hv⟩, _, t₁, hsd, hrm⟩
    cases hsame
    cases hsd
    rw [hv] at hrm
    exact hrm
  · intro hrm
    exact ⟨path, t, ⟨rfl, rfl⟩, (), _, rfl, hrm⟩

theorem delete_confined (hpath : s.objectPath key = .ok path) (h : Returns (s.delete out key) t u t') :
    Confined [path, metaPath path] t t' := by
  have hbf : Confined [path, metaPath path] t (removed (out.fails .removeMeta) (metaPath path) t) :=
    confined_removed.mono (by simp)
  obtain ⟨-, hrm | ⟨-, rfl⟩⟩ := (returns_delete hpath).mp h
  · exact hbf.trans ((confined_remove hrm).mono (by simp))
  · exact hbf

end Runs

/-! ### What is seen of a key -/

section Seen
variable {s : LocalStorage} {t t' : Disk} {key : String} {path : Location}

/-- `Stat`, `Get` and the sidecar with its envelope are as before. -/
structure SameObject (s : LocalStorage) (key : String) (t t' : Disk) : Prop where
  stat : ∀ opts, s.statObject key opts t' = s.statObject key opts t
  get : ∀ opts, s.getWithOptions key opts t' = s.getWithOptions key opts t
  sidecar : ∀ path, s.objectPath key = .ok path → s.readMeta (metaPath path) t' = s.readMeta (metaPath path) t

theorem sameObject_of_resolve (hpath : s.objectPath key = .ok path) (hobject : t'.resolve path = t.resolve path)
    (hsd : t'.resolve (metaPath path) = t.resolve (metaPath path)) : SameObject s key t t' := by
  have hm : s.readMeta (metaPath path) t' = s.readMeta (metaPath path) t := by
    rw [readMeta, readMeta, readFile, readFile, hsd]
  have hst : ∀ opts, s.statObject key opts t' = s.statObject key opts t := by
    intro opts
    simp only [statObject, hpath, bind, Except.bind, hm, hobject]
  refine ⟨hst, fun opts => ?_, fun path' hpath' => ?_⟩
  · simp only [getWithOptions, hst, hpath, bind, Except.bind, hm, hobject]
  · cases hpath.symm.trans hpath'
    exact hm

/-- There is neither a sidecar nor an object. -/
theorem statObject_eq_notFound_iff (hpath : s.objectPath key = .ok path) :
    s.statObject key none t = .error .notFound ↔
      t.resolve (metaPath path) = .error .notExist ∧ ∀ node, t.resolve path ≠ .ok node := by
  simp only [statObject, hpath, bind, Except.bind, readMeta, readFile]
  cases hm : t.resolve (metaPath path) with
  | error err =>
    cases err
    case notExist => cases t.resolve path <;> simp
    all_goals simp
  | ok node =>
    cases node with
    | dir => simp
    | file content => cases hj : s.unmarshal content <;> simp [hj]

end Seen

/-! ### Keys that leave each other alone -/

section Apart
variable {s : LocalStorage} {t t' : Disk} {key₁ key₂ : String} {path₁ path₂ : Location}

/-- The locations of a key. -/
def locations (path : Location) : List Location := [path, metaPath path]

theorem metaPath_mem_locations {path : Location} : metaPath path ∈ locations path :=
  mem_cons_of_mem _ mem_cons_self

/-- No location of one path is at or above one of the other. -/
abbrev Apart (path₁ path₂ : Location) : Prop :=
  ∀ a ∈ locations path₁, ∀ b ∈ locations path₂, ¬ a <+: b ∧ ¬ b <+: a

/-- Whatever the state, a `Put` or `Delete` of one key that succeeds leaves another as it was. -/
structure Spares (s : LocalStorage) (key₁ key₂ : String) : Prop where
  put : ∀ out body opts info t t', Returns (s.put out key₁ body opts) t info t' → SameObject s key₂ t t'
  delete : ∀ out t t', Returns (s.delete out key₁) t () t' → SameObject s key₂ t t'

theorem sameObject_of_confined (hpath₂ : s.objectPath key₂ = .ok path₂) (hap : Apart path₁ path₂)
    (h : Confined [path₁, metaPath path₁] t t') : SameObject s key₂ t t' := by
  refine sameObject_of_resolve hpath₂ (h.resolve_eq fun a ha => ?_) (h.resolve_eq fun a ha => ?_)
  · exact hap a ha path₂ mem_cons_self
  · exact hap a ha (metaPath path₂) metaPath_mem_locations

theorem spares_of_apart (hpath₁ : s.objectPath key₁ = .ok path₁) (hpath₂ : s.objectPath key₂ = .ok path₂)
    (hap : Apart path₁ path₂) : Spares s key₁ key₂ :=
  ⟨fun _ _ _ _ _ _ h => sameObject_of_confined hpath₂ hap (put_confined hpath₁ h).1,
    fun _ _ _ h => sameObject_of_confined hpath₂ hap (delete_confined hpath₁ h)⟩

/-! ### Keys that do not -/

variable {path : Location}

theorem LocalStorage.objectPath_ne_nil {key : String} (h : s.objectPath key = .ok path) : path ≠ [] := by
  unfold objectPath at h
  split_ifs at h
  rw [← Except.ok.inj h]
  exact append_ne_nil_of_left_ne_nil s.root_ne _

theorem append_ne_right {front name : String} (h : front ≠ "") : front ++ name ≠ name := by
  simpa using h

variable {a : Location}

theorem length_of_mem_locations (h : path ≠ []) (ha : a ∈ locations path) :
    a.length = path.length ∧ a.dropLast = path.dropLast := by
  obtain rfl | ha := mem_cons.mp ha
  · exact ⟨rfl, rfl⟩
  · obtain rfl := mem_singleton.mp ha
    have hpos := length_pos_of_ne_nil h
    refine ⟨?_, dropLast_metaPath⟩
    rw [metaPath, length_append, length_dropLast, length_singleton]
    omega

/-- Nothing fails, and the random names are not those of the key. -/
def quiet (path : Location) : Outside where
  fails := fun _ => false
  uploadName := path.getLast?.getD ""
  metaName := path.getLast?.getD ""
  generation := ""
  encrypt := fun body => .ok (body, "")
  written := []

variable {b : Location}

/-- A location that is as deep as a key's is not among the directories above it. -/
theorem not_prefix_dropLast (ha : a ≠ []) (hl : a.length ≤ b.length) : ¬ b <+: a.dropLast := by
  intro hun
  have hle := hun.length_le
  have hpos := length_pos_of_ne_nil ha
  rw [length_dropLast] at hle
  omega

/-- A lone file at one of the locations of a key is deleted with the key. -/
theorem exists_delete_file (hpath : s.objectPath key₁ = .ok path₁) (ha : a ∈ locations path₁)
    (ht : ∀ q, t.find q = if q = a then some (.file []) else if q <+: a.dropLast then some .dir else none) :
    ∃ t', Returns (s.delete (quiet path₁) key₁) t () t' ∧
      ∀ q, t'.find q = if q <+: a.dropLast then some .dir else none := by
  have hne := s.objectPath_ne_nil hpath
  obtain ⟨hleng, hdir⟩ := length_of_mem_locations hne ha
  have hane : a ≠ [] := ne_nil_of_length_pos (by rw [hleng]; exact length_pos_of_ne_nil hne)
  have hself : ∀ {t₁ : Disk}, (∀ q, t₁.find q = if q = a then none else t.find q) →
      ∀ q, t₁.find q = if q <+: a.dropLast then some .dir else none := by
    intro t₁ ht₁ q
    rw [ht₁, ht]
    by_cases hq : q = a
    · rw [if_pos hq, hq, if_neg (not_prefix_dropLast hane le_rfl)]
    · rw [if_neg hq, if_neg hq]
  have hfile : t.isFile a = true := isFile_iff.mpr ⟨[], by rw [ht, if_pos rfl]⟩
  obtain ⟨t₁, hrm⟩ := exists_remove hfile
  have hf := (remove_ok hrm).2.2.2
  refine ⟨t₁, (returns_delete hpath).mpr ⟨rfl, ?_⟩, hself hf⟩
  obtain rfl | ha := mem_cons.mp ha
  · have hm : t.find (metaPath a) = none := by
      rw [ht, if_neg (metaPath_ne_self hne), if_neg (not_prefix_dropLast hne ?_)]
      rw [(length_of_mem_locations hne metaPath_mem_locations).1]
    rw [removed_of_find hm]
    exact .inl hrm
  · obtain rfl := mem_singleton.mp ha
    have hrem : removed ((quiet path₁).fails .removeMeta) (metaPath path₁) t = t₁ := by
      unfold removed
      rw [hrm]
      rfl
    have hnone : t₁.find path₁ = none := by
      rw [hself hf, if_neg (not_prefix_dropLast hane hleng.le)]
    rw [hrem, remove, hnone, missing_eq_notExist fun q _ => isFile_of_dirs (hself hf) q]
    exact .inr ⟨rfl, rfl⟩

/-- Where there are only directories above its locations a key is not found. -/
theorem statObject_of_dirs {d : Location} (hpath₂ : s.objectPath key₂ = .ok path₂)
    (ht : ∀ q, t.find q = if q <+: d then some .dir else none) (hd : d.length < path₂.length) :
    s.statObject key₂ none t = .error .notFound := by
  have hne := s.objectPath_ne_nil hpath₂
  have hnone : ∀ b ∈ locations path₂, t.find b = none := by
    intro b hb
    have hl := (length_of_mem_locations hne hb).1
    rw [ht, if_neg fun hun => absurd hun.length_le (by omega)]
  have hrs : ∀ b ∈ locations path₂, t.resolve b = .error .notExist := by
    intro b hb
    rw [resolve, hnone b hb, missing_eq_notExist fun q _ => isFile_of_dirs ht q]
  refine (statObject_eq_notFound_iff hpath₂).mpr ⟨hrs _ metaPath_mem_locations, ?_⟩
  rw [hrs _ mem_cons_self]
  simp

/-- A file at or above a location of another key stands in its way until it is deleted. -/
theorem not_spares_of_under (hpath₁ : s.objectPath key₁ = .ok path₁)
    (hpath₂ : s.objectPath key₂ = .ok path₂) (ha : a ∈ locations path₁) (hb : b ∈ locations path₂)
    (hund : a <+: b) : ¬ Spares s key₁ key₂ := by
  have hne₁ := s.objectPath_ne_nil hpath₁
  have hne₂ := s.objectPath_ne_nil hpath₂
  have hl₁ := (length_of_mem_locations hne₁ ha).1
  obtain ⟨hl₂, hdir₂⟩ := length_of_mem_locations hne₂ hb
  have hpos := length_pos_of_ne_nil hne₁
  have hane : a ≠ [] := ne_nil_of_length_pos (by omega)
  obtain ⟨t, ht⟩ := exists_file hane ([] : List UInt8)
  obtain ⟨t', hd, ht'⟩ := exists_delete_file hpath₁ ha ht
  intro hsp
  have haf : s.statObject key₂ none t' = .error .notFound := by
    refine statObject_of_dirs hpath₂ ht' ?_
    have hle := hund.length_le
    rw [length_dropLast]
    omega
  rw [(hsp.delete _ _ _ hd).stat none] at haf
  obtain ⟨hsid, hobject⟩ := (statObject_eq_notFound_iff hpath₂).mp haf
  have hfile : t.find a = some (.file []) := by rw [ht, if_pos rfl]
  by_cases hsame : a = b
  · subst hsame
    obtain rfl | hb := mem_cons.mp hb
    · exact hobject (.file []) (by rw [resolve, hfile])
    · obtain rfl := mem_singleton.mp hb
      rw [resolve, hfile] at hsid
      cases hsid
  · -- The file is above both locations of the other key.
    have habove : a <+: metaPath path₂ := by
      have hdir := prefix_dropLast hund hsame
      rw [hdir₂, ← dropLast_metaPath] at hdir
      exact hdir.trans (List.dropLast_prefix _)
    have hln := (prefix_dropLast hund hsame).length_le
    have hm := (length_of_mem_locations hne₂ metaPath_mem_locations).1
    rw [length_dropLast] at hln
    have hnone : t.find (metaPath path₂) = none := by
      have hother : metaPath path₂ ≠ a := fun h => by
        have hequal := congrArg length h
        omega
      rw [ht, if_neg hother, if_neg (not_prefix_dropLast hane (by omega))]
    rw [resolve_eq_notDirectory hnone habove (isFile_iff.mpr ⟨_, hfile⟩)] at hsid
    cases hsid

theorem concat_ne (h : path ≠ []) {front : String} (hf : front ≠ "") :
    path.dropLast ++ [front ++ path.getLast?.getD ""] ≠ path := by
  intro hsame
  nth_rewrite 3 [← concat_last h] at hsame
  exact append_ne_right hf (cons.inj (append_cancel_left hsame)).1

theorem exists_writeObject (hne : path ≠ []) (key : String)
    (hnone : t.find (path.dropLast ++ [".upload-" ++ path.getLast?.getD ""]) = none)
    (hparent : t.find path.dropLast = some .dir) (hfree : t.find path ≠ some .dir) :
    ∃ m t', Returns (s.writeObject (quiet path) path key [] ⟨"", [], "", "", []⟩) t m t' ∧
      ∀ q, q ≠ path → t'.find q = t.find q := by
  obtain ⟨t₁, t₂, t₃, hcreate, hwr, hrn⟩ := exists_replace hnone hparent hfree dropLast_concat [] []
  have hf := find_replace hcreate hwr hrn
  have hg : removed false (path.dropLast ++ [".upload-" ++ path.getLast?.getD ""]) t₃ = t₃ := by
    refine removed_of_find ?_
    rw [hf, if_neg (concat_ne hne (by decide)), if_pos rfl]
  have hsl : (if (([] : List UInt8).length == 32 || s.enc.isSome) = true then (quiet path).encrypt []
      else .ok ([], "")) = .ok ([], "") := by
    split_ifs <;> rfl
  simp only [writeObject, fillObject, returns_bind, returns_syscall,
    returns_deferred, returns_ofExcept, returns_copyBody, returns_pure]
  refine ⟨_, t₃, ⟨(), t₁, ⟨rfl, hcreate⟩, t₃, ⟨_, t₁, ⟨hsl, rfl⟩, (), t₂, ⟨rfl, hwr⟩, (), t₃, ⟨rfl, hrn⟩,
    (), t₃, ⟨rfl, rfl⟩, rfl, rfl⟩, hg⟩, fun q hq => ?_⟩
  rw [hf, if_neg hq]
  split_ifs with ht
  · rw [ht, hnone]
  · rfl

theorem exists_writeMeta {sidecar : Location} {m : LocalMeta}
    (hnone : t.find (sidecar.dropLast ++ [".meta-" ++ path.getLast?.getD ""]) = none)
    (hparent : t.find sidecar.dropLast = some .dir) (hfree : t.find sidecar ≠ some .dir) :
    ∃ t', Returns (s.writeMeta (quiet path) sidecar m) t () t' := by
  obtain ⟨t₁, t₂, t₃, hcreate, hwr, hrn⟩ :=
    exists_replace hnone hparent hfree dropLast_concat [] (s.marshal m)
  simp only [writeMeta, returns_bind, returns_syscall, returns_writeMetaTemp]
  exact ⟨t₃, (), t₁, ⟨rfl, hcreate⟩, (), t₂, ⟨rfl, hwr⟩, rfl, hrn⟩

/-- Where there are only directories a key can be put. -/
theorem exists_put {d : Location} (hpath : s.objectPath key₁ = .ok path₁)
    (ht : ∀ q, t.find q = if q <+: d then some .dir else none) (hd : d.length < path₁.length) :
    ∃ info t', Returns (s.put (quiet path₁) key₁ [] ⟨"", [], "", "", []⟩) t info t' := by
  have hne := s.objectPath_ne_nil hpath
  obtain ⟨t₁, hmkdir⟩ := exists_mkdirAll fun q _ => isFile_of_dirs ht q
  have hf := (mkdirAll_ok hmkdir).2
  have hemp : ∀ name : String, t₁.find (path₁.dropLast ++ [name]) = none := by
    intro name
    have hl : (path₁.dropLast ++ [name]).length = path₁.length := by
      rw [length_append, length_dropLast, length_singleton]
      omega
    rw [hf, if_neg (not_prefix_dropLast hne hl.ge), ht, if_neg fun hun => absurd hun.length_le (by omega)]
  have hself : t₁.find path₁ = none := by
    rw [← concat_last hne]
    exact hemp _
  have hparent : t₁.find path₁.dropLast = some .dir := by rw [hf, if_pos prefix_rfl]
  obtain ⟨m, t₂, hobject, hrs⟩ := exists_writeObject hne key₁ (hemp _) hparent
    (by rw [hself]; exact nofun)
  obtain ⟨t₃, hsd⟩ : ∃ t₃, Returns (s.writeMeta (quiet path₁) (metaPath path₁) m) t₂ () t₃ := by
    refine exists_writeMeta ?_ ?_ ?_
    · rw [dropLast_metaPath, hrs _ (concat_ne hne (by decide)), hemp]
    · rw [dropLast_metaPath, hrs _ (dropLast_ne_self hne), hparent]
    · rw [hrs _ (metaPath_ne_self hne), metaPath, hemp]
      exact nofun
  refine ⟨m.toInfo, t₃, ?_⟩
  simp only [put, returns_bind, returns_syscall, returns_ofExcept,
    returns_observe, hpath]
  exact ⟨(), t, ⟨rfl, rfl⟩, path₁, t, ⟨rfl, rfl⟩, (), t₁, ⟨rfl, hmkdir⟩, m, t₂, hobject, .ok (), t₃, hsd,
    returns_pure.mpr ⟨rfl, rfl⟩⟩

/-- The directories above a key can be another key or its sidecar. -/
theorem not_spares_of_above (hpath₁ : s.objectPath key₁ = .ok path₁)
    (hpath₂ : s.objectPath key₂ = .ok path₂) (hb : b ∈ locations path₂) (habove : b <+: path₁.dropLast) :
    ¬ Spares s key₁ key₂ := by
  have hne₁ := s.objectPath_ne_nil hpath₁
  have hne₂ := s.objectPath_ne_nil hpath₂
  have hl₂ := (length_of_mem_locations hne₂ hb).1
  have hle := habove.length_le
  have hpos₂ := length_pos_of_ne_nil hne₂
  rw [length_dropLast] at hle
  obtain ⟨t, ht⟩ := exists_dirs b.dropLast
  have hsh : b.dropLast.length < path₂.length := by
    rw [length_dropLast]
    omega
  obtain ⟨info, t', hput⟩ := exists_put hpath₁ ht (by omega)
  have hbef := statObject_of_dirs hpath₂ ht hsh
  have hdir : t'.find b = some .dir := by
    obtain ⟨content, hfile⟩ := isFile_iff.mp (put_confined hpath₁ hput).2
    have hm := (length_of_mem_locations hne₁ metaPath_mem_locations).1
    refine find_above (by rw [hfile]; exact nofun) ?_ fun hsame => ?_
    · rw [← dropLast_metaPath] at habove
      exact habove.trans (List.dropLast_prefix _)
    · have hequal := congrArg length hsame
      omega
  intro hsp
  rw [← (hsp.put _ _ _ _ _ _ hput).stat none, statObject_eq_notFound_iff hpath₂] at hbef
  obtain rfl | hb := mem_cons.mp hb
  · exact hbef.2 .dir (by rw [resolve, hdir])
  · obtain rfl := mem_singleton.mp hb
    rw [resolve, hdir] at hbef
    cases hbef.1

/-- **Two keys leave each other alone if and only if their locations are apart**: no state and no
`Put` or `Delete` of the first that succeeds changes what `Stat` and `Get` see of the second. -/
theorem put_and_delete_spare_iff (s : LocalStorage) (h₁ : validateObjectKey key₁ = true)
    (h₂ : validateObjectKey key₂ = true) :
    Spares s key₁ key₂ ↔ Apart (s.root ++ cleanElements key₁) (s.root ++ cleanElements key₂) := by
  have hpath₁ : s.objectPath key₁ = .ok (s.root ++ cleanElements key₁) := if_pos h₁
  have hpath₂ : s.objectPath key₂ = .ok (s.root ++ cleanElements key₂) := if_pos h₂
  refine ⟨fun hsp a ha b hb => ?_, spares_of_apart hpath₁ hpath₂⟩
  have hnot : ¬ a <+: b := fun hun => not_spares_of_under hpath₁ hpath₂ ha hb hun hsp
  refine ⟨hnot, fun hun => ?_⟩
  by_cases hsame : b = a
  · exact hnot (hsame ▸ prefix_rfl)
  · have hdir := (length_of_mem_locations (s.objectPath_ne_nil hpath₁) ha).2
    exact not_spares_of_above hpath₁ hpath₂ hb (hdir ▸ prefix_dropLast hun hsame) hsp

def sampleStorage : LocalStorage where
  root := ["data"]
  root_ne := cons_ne_nil _ _
  enc := none
  sseKMSKeyID := ""
  md5Hex := fun _ => ""
  marshal := fun _ => []
  unmarshal := fun _ => none
  readEncrypter := fun _ _ => .error .sse
  dirSize := 4096

/-- The object `a.meta.json` and no other. -/
def loneObject : Disk where
  nodes := [(["data", "a.meta.json"], .file [1]), (["data"], .dir), ([], .dir)]
  rooted := rfl
  parents := by
    intro p hp hsome
    simp only [lookup_cons, if_neg hp] at hsome
    split_ifs at hsome with hobject hroot
    · rw [hobject]
      rfl
    · rw [hroot]
      rfl
    · cases hsome

/-- **A key can be the sidecar of another**: to delete `a` removes the object `a.meta.json`. -/
theorem sidecar_is_another_object :
    sampleStorage.getWithOptions "a.meta.json" ⟨[]⟩ loneObject = .ok ⟨⟨"a.meta.json", 1, "", "", []⟩, .ok [1]⟩ ∧
      (runFrom (sampleStorage.delete (quiet ["data", "a"]) "a") loneObject).1 = .ok () ∧
      sampleStorage.getWithOptions "a.meta.json" ⟨[]⟩
        (runFrom (sampleStorage.delete (quiet ["data", "a"]) "a") loneObject).2 = .error .notFound :=
  ⟨rfl, rfl, rfl⟩

/-- Two keys side by side. -/
theorem sibling_keys_spared : Spares sampleStorage "docs/a" "docs/b" :=
  (put_and_delete_spare_iff sampleStorage (by decide) (by decide)).mpr (by decide)

end Apart

/-! ### A `Put` that fails -/

section Fails
variable {s : LocalStorage} {out : Outside} {t t₁ t₂ : Disk} {key : String} {path q : Location}

/-- The sidecar is as it was, and the object is as it was, gone, or a file. -/
structure Torn (path : Location) (t t₁ : Disk) : Prop where
  sidecar : t₁.find (metaPath path) = t.find (metaPath path)
  object : t₁.find path = t.find path ∨ t₁.find path = none ∨ t₁.isFile path = true

/-- The random names are not those of the key. -/
structure Outside.NewNames (out : Outside) (path : Location) : Prop where
  upload : path.dropLast ++ [".upload-" ++ out.uploadName] ∉ locations path
  sidecar : path.dropLast ++ [".meta-" ++ out.metaName] ∉ locations path

theorem Torn.of_find (h : Torn path t t₁) (hf : ∀ a ∈ locations path, t₂.find a = t₁.find a) :
    Torn path t t₂ := by
  have hobject := hf path mem_cons_self
  refine ⟨(hf _ metaPath_mem_locations).trans h.sidecar, ?_⟩
  rw [hobject, isFile, hobject]
  exact h.object

/-- A change at another location. -/
theorem Torn.beside {node : Option (Node (List UInt8))} (h : Torn path t t₁) (hq : q ∉ locations path)
    (hf : ∀ a, t₂.find a = if a = q then node else t₁.find a) : Torn path t t₂ :=
  h.of_find fun a ha => by rw [hf, if_neg (ne_of_mem_of_not_mem ha hq)]

theorem Torn.removed (h : Torn path t t₁) (fails : Bool) (hq : q ≠ metaPath path) :
    Torn path t (removed fails q t₁) := by
  unfold Storage.removed
  split_ifs
  · exact h
  · split
    · rename_i t₂ hrm
      have hf := (remove_ok hrm).2.2.2
      refine ⟨by rw [hf, if_neg hq.symm]; exact h.sidecar, ?_⟩
      by_cases hsame : path = q
      · exact .inr (.inl (by rw [hf, if_pos hsame]))
      · rw [isFile, hf, if_neg hsame]
        exact h.object
    · exact h

theorem keeps_syscall {P : Disk → Prop} {fails : Bool} {f : Disk → Except FsError Disk}
    (h : ∀ w w', P w → f w = .ok w' → P w') : Keeps P (syscall fails f) := by
  refine keeps_call fun w hw => ?_
  cases fails with
  | true => exact hw
  | false =>
    cases hf : f w with
    | error err => simpa using hw
    | ok w' => simpa using h w w' hw hf

variable {tmp : Location}

theorem keeps_copyBody (ht : tmp ∉ locations path) {content : List UInt8} :
    Keeps (Torn path t) (copyBody out tmp content) := by
  have hwr (data : List UInt8) : Keeps (Torn path t) (syscall false (·.write tmp data)) :=
    keeps_syscall fun _ _ h hok => h.beside ht (write_ok hok).2
  unfold copyBody
  split_ifs
  · exact (hwr _).bind fun _ => keeps_throw _
  · exact hwr content

theorem keeps_fillObject (hne : path ≠ []) (ht : tmp ∉ locations path)
    {body : List UInt8} {opts : PutOptions} : Keeps (Torn path t) (s.fillObject out tmp path key body opts) := by
  have hrn : Keeps (Torn path t) (syscall (out.fails .rename) (·.rename tmp path)) := by
    refine keeps_syscall fun w w' h hok => ?_
    obtain ⟨content, -, -, hf⟩ := rename_ok hok
    refine ⟨?_, .inr (.inr (isFile_iff.mpr ⟨content, by rw [hf, if_pos rfl]⟩))⟩
    rw [hf, if_neg (metaPath_ne_self hne), if_neg (ne_of_mem_of_not_mem metaPath_mem_locations ht)]
    exact h.sidecar
  refine (keeps_ofExcept _).bind fun sealed => (keeps_copyBody ht).bind fun _ => hrn.bind fun _ => ?_
  exact (keeps_ofExcept _).bind fun _ => keeps_pure _

theorem keeps_writeObject (hne : path ≠ []) (hnames : out.NewNames path) {body : List UInt8} {opts : PutOptions} :
    Keeps (Torn path t) (s.writeObject out path key body opts) := by
  refine (keeps_syscall fun w w' h hok => h.beside hnames.upload (create_ok hok).2.2).bind fun _ => ?_
  refine keeps_call fun w hw => ?_
  exact (keeps_fillObject hne hnames.upload w hw).removed _
    (ne_of_mem_of_not_mem metaPath_mem_locations hnames.upload).symm

/-- What is at `q` does not matter to `P`. -/
def Ignores (P : Disk → Prop) (q : Location) : Prop :=
  ∀ w w' node, P w → (∀ a, w'.find a = if a = q then node else w.find a) → P w'

variable {P : Disk → Prop}

theorem keeps_writeMetaTemp (h : Ignores P tmp) {m : LocalMeta} : Keeps P (s.writeMetaTemp out tmp m) := by
  refine keeps_call fun w hw => ?_
  have hrm : P (removed (out.fails .removeMetaTemp) tmp w) := by
    unfold removed
    split_ifs
    · exact hw
    · cases hrm : w.remove tmp with
      | error err => exact hw
      | ok w' => exact h w w' none hw (remove_ok hrm).2.2.2
  split_ifs
  · exact hrm
  · cases hwr : w.write tmp (s.marshal m) with
    | error err => exact hrm
    | ok w' => exact h w w' _ hw (write_ok hwr).2

theorem syscall_stopsIn {fails : Bool} {f : Disk → Except FsError Disk} : StopsIn P (syscall fails f) := by
  intro w hw err w' h
  have hrun : runFrom (syscall fails f) w =
      if fails then (.error .io, w)
      else
        match f w with
        | .ok w₁ => (.ok (), w₁)
        | .error err => (.error (.fs err), w) := rfl
  rw [hrun] at h
  have hsame : w = w' := by
    split_ifs at h
    · exact (Prod.mk.inj h).2
    · split at h
      · cases h
      · exact (Prod.mk.inj h).2
  exact hsame ▸ hw

/-- A sidecar is renamed to its place last: until then only its temporary file is touched, which is new. -/
theorem writeMeta_stopsIn (m : LocalMeta) (h : ∀ w, P w → w.find (path.dropLast ++ [".meta-" ++ out.metaName]) = none →
    Ignores P (path.dropLast ++ [".meta-" ++ out.metaName])) : StopsIn P (s.writeMeta out path m) := by
  have hcreate : Keeps P (syscall (out.fails .createMetaTemp)
      (·.create (path.dropLast ++ [".meta-" ++ out.metaName]) [])) :=
    keeps_syscall fun w _ hw hok => h w hw (create_ok hok).1 _ _ _ hw (create_ok hok).2.2
  refine hcreate.stopsIn_bind fun _ w _ hw hok => ?_
  have hig := h w hw (create_ok (returns_syscall.mp hok).2).1
  exact (keeps_writeMetaTemp hig).stopsIn_bind fun _ _ _ _ _ => syscall_stopsIn

/-- **A `Put` that fails leaves the sidecar as it was**, and the object as it was, gone, or a file. -/
theorem put_stopsIn (hpath : s.objectPath key = .ok path) (hnames : out.NewNames path) (body : List UInt8)
    (opts : PutOptions) : StopsIn (Torn path t) (s.put out key body opts) := by
  have hne := s.objectPath_ne_nil hpath
  have hmk : Keeps (Torn path t) (syscall (out.fails .mkdirAll) (·.mkdirAll path.dropLast)) := by
    refine keeps_syscall fun w w' hw hok => hw.of_find fun a ha => ?_
    have hd := not_prefix_dropLast hne (length_of_mem_locations hne ha).1.ge
    rw [(mkdirAll_ok hok).2, if_neg hd]
  have hnew : Ignores (Torn path t) ((metaPath path).dropLast ++ [".meta-" ++ out.metaName]) := by
    rw [dropLast_metaPath]
    exact fun _ _ _ hw hf => hw.beside hnames.sidecar hf
  unfold put
  rw [hpath]
  refine (keeps_ofExcept _).stopsIn_bind fun _ _ _ _ _ => ?_
  refine hmk.stopsIn_bind fun _ _ _ _ _ => ?_
  refine (keeps_writeObject hne hnames).stopsIn_bind fun m _ _ _ _ => ?_
  intro w hw err w' h
  rw [runFrom_bind] at h
  cases hm : runFrom (s.writeMeta out (metaPath path) m) w with
  | mk result v =>
    have ho : runFrom (observe (s.writeMeta out (metaPath path) m)) w = (.ok result, v) :=
      returns_observe.mpr hm
    rw [ho] at h
    cases result with
    | ok u => cases h
    | error err' =>
      have hv := (writeMeta_stopsIn m (fun _ _ _ => hnew) w hw err' v hm).removed (out.fails .removeObject)
        (metaPath_ne_self hne).symm
      cases h
      exact hv

/-- The object is in place when the sidecar fails. -/
theorem failing_put_stopsIn :
    let put :=
      sampleStorage.put {quiet ["data", "a"] with fails := (· == .createMetaTemp)} "a" [] ⟨"", [], "", "", []⟩
    (runFrom put loneObject).1 = .error .io ∧ StopsIn (Torn ["data", "a"] loneObject) put :=
  ⟨rfl, put_stopsIn rfl ⟨by decide, by decide⟩ _ _⟩

end Fails

end AeroVault.Storage
