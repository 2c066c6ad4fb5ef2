import AeroVault.Lib.Attempt

/-! A file system: a tree of directories and files.

A location is the list of the names that lead to it. A tree has a root directory, and what it holds
is in a directory of its own, so that no operation can leave a file in a place that cannot be
reached. The operations are those of POSIX, without times, permissions and links; each has one lemma
that says what it leaves at every location.

Looking up a location fails in two ways: something on the way is missing, or is a file. So what is
found there depends on the locations on the way too. A change is `Confined` to some locations if it
leaves all others alone, but for directories on the way to them; then a location that is neither on
the way to one of them nor beyond one is looked up as before (`Confined.resolve_eq`). -/
namespace AeroVault.Lib.FileTree
open List

/-- The names from the root on. -/
abbrev Location := List String

inductive Node (χ : Type)
  | dir
  | file (content : χ)
  deriving DecidableEq

/-- Whether there is a directory can be told, whatever files hold. -/
instance {χ : Type} (found : Option (Node χ)) : Decidable (found = some .dir) :=
  match found with
  | none => .isFalse (nofun)
  | some .dir => .isTrue rfl
  | some (.file _) => .isFalse (nofun)

inductive FsError
  | notExist
  | notDirectory
  | isDirectory
  | alreadyExists
  | notEmpty
  | busy
  deriving DecidableEq

/-! ### Trees -/

structure Tree (χ : Type) where
  nodes : List (Location × Node χ)
  rooted : nodes.lookup [] = some .dir
  parents : ∀ p, p ≠ [] → (nodes.lookup p).isSome = true → nodes.lookup p.dropLast = some .dir

namespace Tree
variable {χ : Type} {t t' : Tree χ} {p q : Location}

def find (t : Tree χ) (p : Location) : Option (Node χ) := t.nodes.lookup p

def isFile (t : Tree χ) (p : Location) : Bool :=
  match t.find p with
  | some (.file _) => true
  | _ => false

/-- There is nothing in a directory. -/
abbrev Leaf (t : Tree χ) (p : Location) : Prop := ∀ e ∈ t.nodes, e.1 ≠ [] → e.1.dropLast ≠ p

theorem find_root : t.find [] = some .dir := t.rooted

theorem ne_root_of_find (h : t.find p ≠ some .dir) : p ≠ [] := by
  intro hroot
  rw [hroot, find_root] at h
  exact h rfl

theorem find_dropLast (hp : p ≠ []) (h : t.find p ≠ none) : t.find p.dropLast = some .dir :=
  t.parents p hp (Option.isSome_iff_ne_none.mpr h)

theorem isFile_iff : t.isFile p = true ↔ ∃ content, t.find p = some (.file content) := by
  unfold isFile
  split <;> simp_all

theorem lookup_eq_none_iff {nodes : List (Location × Node χ)} :
    nodes.lookup p = none ↔ ∀ e ∈ nodes, e.1 ≠ p := by
  rw [List.lookup_eq_none_iff]
  refine forall₂_congr fun e _ => ?_
  rw [bne_iff_ne, ne_comm]

theorem Leaf.find_eq_none (h : t.Leaf p) (hq : q ≠ []) (hparent : q.dropLast = p) : t.find q = none := by
  refine lookup_eq_none_iff.mpr fun e he hsame => ?_
  subst hsame
  exact h e he hq hparent

theorem leaf_of_find (h : ∀ q, q ≠ [] → q.dropLast = p → t.find q = none) : t.Leaf p :=
  fun e he hne hparent => lookup_eq_none_iff.mp (h e.1 hne hparent) e he rfl

/-- There is nothing below a file. -/
theorem leaf_of_not_dir (h : t.find p ≠ some .dir) : t.Leaf p := by
  refine leaf_of_find fun q hq hparent => ?_
  by_contra hfound
  have hdir := find_dropLast hq hfound
  rw [hparent] at hdir
  exact h hdir

/-- What is on the way to something is a directory. -/
theorem find_above (h : t.find p ≠ none) (hq : q <+: p) (hne : q ≠ p) : t.find q = some .dir := by
  induction p using reverseRecOn with
  | nil => exact absurd (prefix_nil.mp hq) hne
  | append_singleton front name ih =>
    have hf : t.find front = some .dir := by
      have hdir := find_dropLast (append_ne_nil_of_right_ne_nil _ (cons_ne_nil _ _)) h
      rwa [dropLast_concat] at hdir
    obtain hsame | hbf := prefix_concat_iff.mp hq
    · exact absurd hsame hne
    · by_cases hl : q = front
      · rw [hl, hf]
      · exact ih (by rw [hf]; simp) hbf hl

/-! ### Changes of a tree -/

theorem lookup_cons {nodes : List (Location × Node χ)} {node : Node χ} :
    ((p, node) :: nodes).lookup q = if q = p then some node else nodes.lookup q := by
  rw [List.lookup_cons]
  by_cases h : q = p
  · rw [if_pos h, beq_iff_eq.mpr h]
  · rw [if_neg h, beq_false_of_ne h]

theorem lookup_erased {nodes : List (Location × Node χ)} :
    (nodes.filter fun e => e.1 != p).lookup q = if q = p then none else nodes.lookup q := by
  induction nodes with
  | nil => simp
  | cons e nodes ih =>
    obtain ⟨p', node⟩ := e
    rw [lookup_cons]
    by_cases hp : p' = p
    · rw [filter_cons_of_neg (by simp [hp]), ih, hp]
      split_ifs <;> rfl
    · rw [filter_cons_of_pos (by simp [hp]), lookup_cons, ih]
      by_cases hq : q = p'
      · rw [if_pos hq, if_pos hq, hq, if_neg hp]
      · rw [if_neg hq, if_neg hq]

theorem prefix_dropLast (h : q <+: p) (hne : q ≠ p) : q <+: p.dropLast := by
  cases p using reverseRecOn with
  | nil => exact absurd (prefix_nil.mp h) hne
  | append_singleton front name =>
    rw [dropLast_concat]
    exact (prefix_concat_iff.mp h).resolve_left hne

theorem dropLast_ne_self (h : p ≠ []) : p.dropLast ≠ p := by
  intro hsame
  have hl := congrArg length hsame
  have hpos := length_pos_of_ne_nil h
  rw [length_dropLast] at hl
  omega

/-- A node in a directory, where there is none yet or a file. -/
def insert (t : Tree χ) (p : Location) (node : Node χ) (hparent : t.find p.dropLast = some .dir)
    (hfree : t.find p ≠ some .dir) : Tree χ where
  nodes := (p, node) :: t.nodes
  rooted := by
    rw [lookup_cons, if_neg (ne_root_of_find hfree).symm]
    exact t.rooted
  parents := by
    intro q hq hfound
    rw [lookup_cons] at hfound ⊢
    have hold : t.find q.dropLast = some .dir := by
      split_ifs at hfound with hqp
      · rw [hqp]
        exact hparent
      · exact t.parents q hq hfound
    have hself : q.dropLast ≠ p := fun hself => hfree (hself ▸ hold)
    rw [if_neg hself]
    exact hold

theorem find_insert {node : Node χ} {hparent : t.find p.dropLast = some .dir} {hfree : t.find p ≠ some .dir} :
    (t.insert p node hparent hfree).find q = if q = p then some node else t.find q :=
  lookup_cons

def erase (t : Tree χ) (p : Location) (hne : p ≠ []) (hleaf : t.Leaf p) : Tree χ where
  nodes := t.nodes.filter fun e => e.1 != p
  rooted := by
    rw [lookup_erased, if_neg hne.symm]
    exact t.rooted
  parents := by
    intro q hq hfound
    rw [lookup_erased] at hfound ⊢
    split_ifs at hfound with hqp
    · cases hfound
    · have hself : q.dropLast ≠ p := fun hparent =>
        (Option.isSome_iff_ne_none.mp hfound) (hleaf.find_eq_none hq hparent)
      rw [if_neg hself]
      exact t.parents q hq hfound

theorem find_erase {hne : p ≠ []} {hleaf : t.Leaf p} :
    (t.erase p hne hleaf).find q = if q = p then none else t.find q :=
  lookup_erased

/-! ### Lookups -/

section
variable (t p)

/-- Why there is nothing at a location. -/
def missing : FsError := if p.inits.any t.isFile then .notDirectory else .notExist

def resolve : Except FsError (Node χ) :=
  match t.find p with
  | some node => .ok node
  | none => .error (t.missing p)

def readFile : Except FsError χ :=
  match t.resolve p with
  | .ok (.file content) => .ok content
  | .ok .dir => .error .isDirectory
  | .error err => .error err

end

/-- What is missing though nothing on the way is a file does not exist. -/
theorem missing_eq_notExist (hway : ∀ q, q <+: p → t.isFile q = false) : t.missing p = .notExist := by
  refine if_neg fun hany => ?_
  obtain ⟨q, hq, hfile⟩ := any_eq_true.mp hany
  rw [hway q ((mem_inits _ _).mp hq)] at hfile
  cases hfile

theorem resolve_eq_notDirectory (h : t.find p = none) (hq : q <+: p) (hfile : t.isFile q = true) :
    t.resolve p = .error .notDirectory := by
  have hsome : p.inits.any t.isFile = true := any_eq_true.mpr ⟨q, (mem_inits _ _).mpr hq, hfile⟩
  rw [resolve, h, missing, hsome]
  rfl

/-! ### Operations -/

section
variable (t p)

/-- `mkdir`. -/
def mkdir : Except FsError (Tree χ) :=
  if hnone : t.find p = none then
    if hparent : t.find p.dropLast = some .dir then
      .ok (t.insert p .dir hparent (by rw [hnone]; exact (Option.some_ne_none _).symm))
    else .error (t.missing p)
  else .error .alreadyExists

/-- One directory on the way to another. -/
def ensureDir : Except FsError (Tree χ) :=
  match t.find p with
  | some .dir => .ok t
  | some (.file _) => .error .notDirectory
  | none => t.mkdir p

/-- A directory with all that is missing on the way to it. -/
def mkdirAll : Except FsError (Tree χ) := p.inits.foldlM ensureDir t

/-- A new file. -/
def create (content : χ) : Except FsError (Tree χ) :=
  if hnone : t.find p = none then
    if hparent : t.find p.dropLast = some .dir then
      .ok (t.insert p (.file content) hparent (by rw [hnone]; exact (Option.some_ne_none _).symm))
    else .error (t.missing p)
  else .error .alreadyExists

/-- The content of a file that there is. -/
def write (content : χ) : Except FsError (Tree χ) :=
  if hdir : t.find p = some .dir then .error .isDirectory
  else if hnone : t.find p = none then .error (t.missing p)
  else .ok (t.insert p (.file content) (find_dropLast (ne_root_of_find hdir) hnone) hdir)

/-- `unlink` or `rmdir`. -/
def remove : Except FsError (Tree χ) :=
  match t.find p with
  | none => .error (t.missing p)
  | some _ =>
    if hne : p = [] then .error .busy
    else if hleaf : t.Leaf p then .ok (t.erase p hne hleaf) else .error .notEmpty

end

/-- `rename`, of a file. -/
def rename (t : Tree χ) (old new : Location) : Except FsError (Tree χ) :=
  match hold : t.find old with
  | none => .error (t.missing old)
  | some .dir => .error .isDirectory
  | some (.file content) =>
    if old = new then .ok t
    else if hdir : t.find new = some .dir then .error .isDirectory
    else if hparent : t.find new.dropLast = some .dir then
      have hfile : t.find old ≠ some .dir := by rw [hold]; simp
      let gone := t.erase old (ne_root_of_find hfile) (leaf_of_not_dir hfile)
      .ok (gone.insert new (.file content)
        (by
          have hother : new.dropLast ≠ old := fun hsame => hfile (hsame ▸ hparent)
          rw [find_erase, if_neg hother]
          exact hparent)
        (by
          rw [find_erase]
          split_ifs
          · exact (Option.some_ne_none _).symm
          · exact hdir))
    else .error (t.missing new)

/-! ### What the operations leave -/

variable {content : χ}

theorem create_ok (h : t.create p content = .ok t') :
    t.find p = none ∧ t.find p.dropLast = some .dir ∧
      ∀ q, t'.find q = if q = p then some (.file content) else t.find q := by
  unfold create at h
  split_ifs at h with hnone hparent
  cases h
  exact ⟨hnone, hparent, fun q => find_insert⟩

theorem write_ok (h : t.write p content = .ok t') :
    t.isFile p = true ∧ ∀ q, t'.find q = if q = p then some (.file content) else t.find q := by
  unfold write at h
  split_ifs at h with hdir hnone
  cases h
  refine ⟨?_, fun q => find_insert⟩
  unfold isFile
  split
  · rfl
  · rename_i hno
    cases hf : t.find p with
    | none => exact absurd hf hnone
    | some node =>
      cases node with
      | dir => exact absurd hf hdir
      | file content => exact absurd hf (hno content)

theorem remove_ok (h : t.remove p = .ok t') :
    p ≠ [] ∧ t.find p ≠ none ∧ t.Leaf p ∧ ∀ q, t'.find q = if q = p then none else t.find q := by
  unfold remove at h
  split at h
  · cases h
  · rename_i node hf
    split_ifs at h with hne hleaf
    cases h
    exact ⟨hne, by rw [hf]; simp, hleaf, fun q => find_erase⟩

theorem rename_ok {old new : Location} (h : t.rename old new = .ok t') :
    ∃ content, t.find old = some (.file content) ∧ t.find new ≠ some .dir ∧
      ∀ q, t'.find q = if q = new then some (.file content) else if q = old then none else t.find q := by
  unfold rename at h
  split at h
  · cases h
  · cases h
  · rename_i content hold
    split_ifs at h with hsame hdir hparent
    · cases h
      refine ⟨content, hold, by rw [← hsame, hold]; simp, fun q => ?_⟩
      split_ifs with hq hq'
      · rw [hq, ← hsame, hold]
      · exact absurd (hq'.trans hsame) hq
      · rfl
    · cases h
      refine ⟨content, hold, hdir, fun q => ?_⟩
      rw [find_insert, find_erase]

theorem mkdir_ok (h : t.mkdir p = .ok t') :
    t.find p = none ∧ ∀ q, t'.find q = if q = p then some .dir else t.find q := by
  unfold mkdir at h
  split_ifs at h with hnone hparent
  cases h
  exact ⟨hnone, fun q => find_insert⟩

theorem ensureDir_ok (h : t.ensureDir p = .ok t') :
    t.isFile p = false ∧ ∀ q, t'.find q = if q = p then some .dir else t.find q := by
  unfold ensureDir at h
  split at h
  · rename_i hdir
    cases h
    refine ⟨by rw [isFile, hdir], fun q => ?_⟩
    split_ifs with hq
    · rw [hq, hdir]
    · rfl
  · cases h
  · rename_i hnone
    exact ⟨by rw [isFile, hnone], (mkdir_ok h).2⟩

theorem foldlM_ensureDir_ok {ps : List Location} (h : ps.foldlM ensureDir t = .ok t') :
    (∀ q ∈ ps, t.isFile q = false) ∧ ∀ q, t'.find q = if q ∈ ps then some .dir else t.find q := by
  induction ps generalizing t with
  | nil =>
    cases h
    exact ⟨fun q hq => absurd hq not_mem_nil, fun q => by rw [if_neg not_mem_nil]⟩
  | cons p ps ih =>
    rw [foldlM_cons, bind_eq_ok] at h
    obtain ⟨t₁, hp, hps⟩ := h
    obtain ⟨hfile, hf⟩ := ensureDir_ok hp
    obtain ⟨hfl, hfn⟩ := ih hps
    refine ⟨fun q hq => ?_, fun q => ?_⟩
    · by_cases hqp : q = p
      · rw [hqp, hfile]
      · have hq := hfl q ((mem_cons.mp hq).resolve_left hqp)
        rwa [isFile, hf q, if_neg hqp] at hq
    · rw [hfn q, hf q]
      by_cases hqp : q = p
      · simp [hqp]
      · simp [hqp]

theorem mkdirAll_ok (h : t.mkdirAll p = .ok t') :
    (∀ q, q <+: p → t.isFile q = false) ∧ ∀ q, t'.find q = if q <+: p then some .dir else t.find q := by
  obtain ⟨hf, hfn⟩ := foldlM_ensureDir_ok h
  simp only [mem_inits] at hf hfn
  exact ⟨hf, hfn⟩

/-! ### When the operations succeed -/

theorem exists_create (hnone : t.find p = none) (hparent : t.find p.dropLast = some .dir) (content : χ) :
    ∃ t', t.create p content = .ok t' := by
  rw [create, dif_pos hnone, dif_pos hparent]
  exact ⟨_, rfl⟩

theorem exists_write (hfile : t.isFile p = true) (content : χ) : ∃ t', t.write p content = .ok t' := by
  obtain ⟨old, hf⟩ := isFile_iff.mp hfile
  rw [write, dif_neg (by rw [hf]; simp), dif_neg (by rw [hf]; simp)]
  exact ⟨_, rfl⟩

theorem exists_remove (hfile : t.isFile p = true) : ∃ t', t.remove p = .ok t' := by
  obtain ⟨content, hf⟩ := isFile_iff.mp hfile
  have hnot : t.find p ≠ some .dir := by rw [hf]; simp
  unfold remove
  split
  · rename_i hnone
    rw [hf] at hnone
    cases hnone
  · rw [dif_neg (ne_root_of_find hnot), dif_pos (leaf_of_not_dir hnot)]
    exact ⟨_, rfl⟩

theorem exists_rename {old new : Location} (hold : t.isFile old = true) (hnew : t.find new ≠ some .dir)
    (hparent : t.find new.dropLast = some .dir) : ∃ t', t.rename old new = .ok t' := by
  obtain ⟨content, hf⟩ := isFile_iff.mp hold
  unfold rename
  split
  · rename_i hnone
    rw [hf] at hnone
    cases hnone
  · rename_i hdir
    rw [hf] at hdir
    cases hdir
  · split_ifs
    · exact ⟨_, rfl⟩
    · exact ⟨_, rfl⟩

theorem exists_ensureDir (hfile : t.isFile p = false) (hparent : t.find p.dropLast = some .dir) :
    ∃ t', t.ensureDir p = .ok t' := by
  unfold ensureDir
  split
  · exact ⟨t, rfl⟩
  · rename_i content hf
    rw [isFile, hf] at hfile
    cases hfile
  · rename_i hnone
    rw [mkdir, dif_pos hnone, dif_pos hparent]
    exact ⟨_, rfl⟩

theorem exists_mkdirAll (hway : ∀ q, q <+: p → t.isFile q = false) : ∃ t', t.mkdirAll p = .ok t' := by
  induction p using reverseRecOn with
  | nil =>
    obtain ⟨t', hok⟩ := exists_ensureDir (hway [] prefix_rfl) t.find_root
    exact ⟨t', bind_eq_ok.mpr ⟨t', hok, rfl⟩⟩
  | append_singleton front name ih =>
    obtain ⟨t₁, hfr⟩ := ih fun q hq => hway q (hq.trans (prefix_append _ _))
    have hf := (mkdirAll_ok hfr).2
    have hparent : t₁.find (front ++ [name]).dropLast = some .dir := by
      rw [dropLast_concat, hf, if_pos prefix_rfl]
    have hfile : t₁.isFile (front ++ [name]) = false := by
      rw [isFile, hf]
      split_ifs
      · rfl
      · exact hway _ prefix_rfl
    obtain ⟨t', hl⟩ := exists_ensureDir hfile hparent
    refine ⟨t', ?_⟩
    have hin : (front ++ [name]).inits = front.inits ++ [front ++ [name]] := by
      rw [inits_append]
      rfl
    rw [mkdirAll, hin, foldlM_append, bind_eq_ok]
    exact ⟨t₁, hfr, bind_eq_ok.mpr ⟨t', hl, rfl⟩⟩

end Tree

/-! ### Confined changes -/

open Tree

section Confined
variable {χ : Type} {touched touched' : List Location} {t t' t'' : Tree χ} {p q : Location}

/-- The locations touched hold what they hold; all others that are not on the way to them are as they
were, and those on the way stay directories or missing. -/
structure Confined (touched : List Location) (t t' : Tree χ) : Prop where
  files : ∀ q, q ∉ touched → t'.isFile q = t.isFile q
  same : ∀ q, (∀ a ∈ touched, ¬ q <+: a) → t'.find q = t.find q

theorem Confined.refl (touched : List Location) (t : Tree χ) : Confined touched t t :=
  ⟨fun _ _ => rfl, fun _ _ => rfl⟩

theorem Confined.trans (h : Confined touched t t') (h' : Confined touched t' t'') : Confined touched t t'' :=
  ⟨fun q hq => (h'.files q hq).trans (h.files q hq), fun q hq => (h'.same q hq).trans (h.same q hq)⟩

theorem Confined.mono (h : Confined touched t t') (hsub : touched ⊆ touched') : Confined touched' t t' :=
  ⟨fun q hq => h.files q fun hm => hq (hsub hm), fun q hq => h.same q fun a ha => hq a (hsub ha)⟩

theorem confined_of_find (h : ∀ q, q ∉ touched → t'.find q = t.find q) : Confined touched t t' := by
  refine ⟨fun q hq => by rw [isFile, isFile, h q hq], fun q hq => h q fun hm => ?_⟩
  exact hq q hm prefix_rfl

/-- **A location apart from the touched ones is looked up as before.** -/
theorem Confined.resolve_eq (h : Confined touched t t') (hap : ∀ a ∈ touched, ¬ a <+: p ∧ ¬ p <+: a) :
    t'.resolve p = t.resolve p := by
  have hway : p.inits.any t'.isFile = p.inits.any t.isFile := by
    rw [Bool.eq_iff_iff, any_eq_true, any_eq_true]
    refine exists_congr fun q => and_congr_right fun hq => ?_
    rw [h.files q fun hm => (hap q hm).1 ((mem_inits _ _).mp hq)]
  rw [resolve, resolve, missing, missing, hway, h.same p fun a ha => (hap a ha).2]

/-- A location that holds nothing before and after is not touched, if another one in its directory
is. -/
theorem Confined.restore (h : Confined (q :: touched) t t') (hbef : t.find q = none) (haf : t'.find q = none)
    (hbs : p ∈ touched) (hdir : q.dropLast = p.dropLast) : Confined touched t t' := by
  refine ⟨fun r hr => ?_, fun r hr => ?_⟩
  · by_cases hrq : r = q
    · rw [hrq, isFile, isFile, hbef, haf]
    · exact h.files r fun hm => hr ((mem_cons.mp hm).resolve_left hrq)
  · by_cases hrq : r = q
    · rw [hrq, hbef, haf]
    · refine h.same r fun a ha => ?_
      obtain rfl | ha := mem_cons.mp ha
      · intro hun
        refine hr p hbs ?_
        have hbef := prefix_dropLast hun hrq
        rw [hdir] at hbef
        exact hbef.trans (List.dropLast_prefix p)
      · exact hr a ha

section
variable {before content : χ} {tmp : Location} {t₁ t₂ : Tree χ} (hcreate : t.create tmp before = .ok t₁)
include hcreate

/-- A file that is written under another name and renamed. -/
theorem find_replace (hwrit : t₁.write tmp content = .ok t₂) (hren : t₂.rename tmp p = .ok t')
    (q : Location) :
    t'.find q = if q = p then some (.file content) else if q = tmp then none else t.find q := by
  obtain ⟨-, -, hcr⟩ := create_ok hcreate
  obtain ⟨-, hwr⟩ := write_ok hwrit
  obtain ⟨content', hold, -, hrn⟩ := rename_ok hren
  obtain rfl : content = content' := by
    rw [hwr, if_pos rfl] at hold
    exact Node.file.inj (Option.some.inj hold)
  rw [hrn]
  split_ifs with hp ht
  · rfl
  · rfl
  · rw [hwr, if_neg ht, hcr, if_neg ht]

theorem confined_replace (hwr : t₁.write tmp content = .ok t₂) (hrn : t₂.rename tmp p = .ok t')
    (hdir : tmp.dropLast = p.dropLast) : Confined [p] t t' := by
  have hf := find_replace hcreate hwr hrn
  have hbt : Confined [tmp, p] t t' := by
    refine confined_of_find fun q hq => ?_
    have ht : q ≠ tmp := ne_of_not_mem_cons hq
    have hp : q ≠ p := ne_of_not_mem_cons (not_mem_of_not_mem_cons hq)
    rw [hf, if_neg hp, if_neg ht]
  by_cases hsame : tmp = p
  · exact hbt.mono (by simp [hsame])
  · have hg : t'.find tmp = none := by rw [hf, if_neg hsame, if_pos rfl]
    exact hbt.restore (create_ok hcreate).1 hg mem_cons_self hdir

end

theorem exists_replace {tmp : Location} (hnone : t.find tmp = none) (hparent : t.find p.dropLast = some .dir)
    (hfree : t.find p ≠ some .dir) (hdir : tmp.dropLast = p.dropLast) (before content : χ) :
    ∃ t₁ t₂ t₃, t.create tmp before = .ok t₁ ∧ t₁.write tmp content = .ok t₂ ∧ t₂.rename tmp p = .ok t₃ := by
  obtain ⟨t₁, hcreate⟩ := exists_create hnone (hdir ▸ hparent) before
  have hcr := (create_ok hcreate).2.2
  obtain ⟨t₂, hwrit⟩ := exists_write (isFile_iff.mpr ⟨before, by rw [hcr, if_pos rfl]⟩) content
  have hwr := (write_ok hwrit).2
  have hpne : p.dropLast ≠ tmp := by
    intro hsame
    rw [hsame, hnone] at hparent
    cases hparent
  have hnew : t₂.find p ≠ some .dir := by
    rw [hwr, hcr]
    split_ifs
    · simp
    · exact hfree
  have hold : t₂.isFile tmp = true := isFile_iff.mpr ⟨content, by rw [hwr, if_pos rfl]⟩
  obtain ⟨t₃, hrn⟩ := exists_rename hold hnew (by rw [hwr, if_neg hpne, hcr, if_neg hpne, hparent])
  exact ⟨t₁, t₂, t₃, hcreate, hwrit, hrn⟩

/-- The directories on the way to a location. -/
theorem confined_mkdirAll (h : t.mkdirAll p.dropLast = .ok t') : Confined [p] t t' := by
  obtain ⟨hfl, hf⟩ := mkdirAll_ok h
  refine ⟨fun q _ => ?_, fun q hq => ?_⟩
  · by_cases hway : q <+: p.dropLast
    · rw [hfl q hway, isFile, hf, if_pos hway]
    · rw [isFile, isFile, hf, if_neg hway]
  · rw [hf, if_neg fun hway => hq p mem_cons_self (hway.trans (List.dropLast_prefix p))]

theorem confined_remove (h : t.remove p = .ok t') : Confined [p] t t' := by
  obtain ⟨-, -, -, hf⟩ := remove_ok h
  refine confined_of_find fun q hq => ?_
  rw [hf, if_neg (ne_of_not_mem_cons hq)]

end Confined

/-! ### Trees that there are -/

section Exist
variable {χ : Type}

/-- The root and nothing else. -/
def bare : Tree χ where
  nodes := [([], .dir)]
  rooted := rfl
  parents := by
    intro p hp hsome
    rw [lookup_cons, if_neg hp] at hsome
    cases hsome

theorem find_bare {q : Location} : (bare : Tree χ).find q = if q = [] then some .dir else none := lookup_cons

theorem isFile_of_dirs {t : Tree χ} {p : Location} (h : ∀ q, t.find q = if q <+: p then some .dir else none)
    (q : Location) : t.isFile q = false := by
  rw [isFile, h]
  split_ifs <;> rfl

/-- The directories on the way to a location and nothing else. -/
theorem exists_dirs (p : Location) : ∃ t : Tree χ, ∀ q, t.find q = if q <+: p then some .dir else none := by
  have hfile : ∀ q, (bare : Tree χ).isFile q = false := by
    intro q
    rw [isFile, find_bare]
    split_ifs <;> rfl
  obtain ⟨t, ht⟩ := exists_mkdirAll (p := p) fun q _ => hfile q
  refine ⟨t, fun q => ?_⟩
  rw [(mkdirAll_ok ht).2 q, find_bare]
  split_ifs with hq hnil
  · rfl
  · exact absurd (hnil ▸ nil_prefix) hq
  · rfl

/-- A file, the directories on the way to it and nothing else. -/
theorem exists_file {p : Location} (hp : p ≠ []) (content : χ) :
    ∃ t : Tree χ, ∀ q, t.find q =
      if q = p then some (.file content) else if q <+: p.dropLast then some .dir else none := by
  obtain ⟨t, ht⟩ := exists_dirs (χ := χ) p.dropLast
  have hnone : t.find p = none := by
    rw [ht, if_neg fun hun => ?_]
    have hle := hun.length_le
    have hpos := length_pos_of_ne_nil hp
    rw [length_dropLast] at hle
    omega
  obtain ⟨t', ht'⟩ := exists_create hnone (by rw [ht, if_pos prefix_rfl]) content
  exact ⟨t', fun q => by rw [(create_ok ht').2.2, ht]⟩

end Exist

end AeroVault.Lib.FileTree
