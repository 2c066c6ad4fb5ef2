import AeroVault.Lib.KeyText
import AeroVault.Lib.Paging

/-! Pages of an S3 listing with a delimiter: `loadObjectListPage`.

Keys that agree up to the first delimiter after the requested prefix are shown as one common
prefix. The builder goes through the raw listing key by key and knows three things
besides the page: the marker it started from, the group it is in, and the last group that it
has put on the page. The keys of a group lie next to each other, and the marker a page ends
with belongs to the last entry on the page, so that the next page can tell from the marker
alone whether the group it starts in has been shown. Following the markers therefore lists
every key without the delimiter and every common prefix once (`delimited_listing_exact`). -/
namespace AeroVault.S3
open Lib
open List hiding after

structure ObjectListPage (α : Type) where
  objects : List α
  commonPrefixes : List GoString
  nextMarker : GoString
  hasMore : Bool
  deriving DecidableEq

namespace ObjectListPage

def keyCount {α : Type} (p : ObjectListPage α) : Nat := p.objects.length + p.commonPrefixes.length

def empty {α : Type} : ObjectListPage α := ⟨[], [], [], false⟩

end ObjectListPage

inductive ListError (ε : Type)
  | fetch (err : ε)
  /-- `list objects pagination did not advance`. -/
  | didNotAdvance
  deriving DecidableEq

def objectListScanPageSize : Nat := 1000

/-- `strings.TrimPrefix`. -/
def trimPrefix (text keyPrefix : GoString) : GoString :=
  if keyPrefix <+: text then text.drop keyPrefix.length else text

def collapseListKey (key keyPrefix delimiter : GoString) : GoString × Bool :=
  let remainder := trimPrefix key keyPrefix
  match index delimiter remainder with
  | some i => (keyPrefix ++ remainder.take (i + delimiter.length), true)
  | none => (key, false)

/-- What does not change while one page is built. -/
structure ListRequest where
  keyPrefix : GoString
  delimiter : GoString
  marker : GoString
  maxKeys : Nat
  deriving DecidableEq

structure DelimiterListBuilder (α : Type) where
  page : ObjectListPage α
  activePrefix : GoString
  lastIncludedPrefix : GoString
  deriving DecidableEq

section Listing
variable {α ε : Type} (key : α → GoString)

/-- `delimiterListBuilder.append`: whether the page is full, and the builder. -/
def append (r : ListRequest) (b : DelimiterListBuilder α) (obj : α) : Bool × DelimiterListBuilder α :=
  let (value, grouped) := collapseListKey (key obj) r.keyPrefix r.delimiter
  if grouped && value == b.activePrefix then
    if value == b.lastIncludedPrefix then
      (false, {b with page := {b.page with nextMarker := key obj}})
    else (false, b)
  else
    let b := {b with activePrefix := if grouped then value else []}
    if grouped && value ≤ r.marker then (false, b)
    else if b.page.keyCount == r.maxKeys then (true, b)
    else
      let b := {b with page := {b.page with nextMarker := key obj}, lastIncludedPrefix := []}
      if grouped then
        (false, {b with
          page := {b.page with commonPrefixes := b.page.commonPrefixes ++ [value]}
          lastIncludedPrefix := value})
      else (false, {b with page := {b.page with objects := b.page.objects ++ [obj]}})

/-- What the loading of a page ends with. -/
abbrev Loaded (α ε : Type) := Except (ListError ε) (ObjectListPage α)

/-- The body of the loop over the objects of a raw page. -/
def visit (r : ListRequest) (b : DelimiterListBuilder α) (obj : α) :
    Except (Loaded α ε) (DelimiterListBuilder α) :=
  match append key r b obj with
  | (true, b) => .error (.ok {b.page with hasMore := true})
  | (false, b) => .ok b

def fetchScanPage (fetch : GoString → Nat → Except ε (ListPage α GoString)) (cursor : GoString) :
    Except (Loaded α ε) (ListPage α GoString) :=
  match fetch cursor objectListScanPageSize with
  | .error err => .error (.error (.fetch err))
  | .ok page => .ok page

/-- The loop has no bound of its own; `fuel` counts its rounds. -/
def loadDelimitedObjectListPage (r : ListRequest)
    (fetch : GoString → Nat → Except ε (ListPage α GoString)) (fuel : Nat) : Option (Loaded α ε) :=
  scanPages (fetchScanPage fetch) (visit key r)
    (fun cursor next => !(next == [] || next == cursor))
    (fun b => .ok b.page) (fun _ => .error .didNotAdvance)
    fuel r.marker ⟨.empty, [], []⟩

def loadObjectListPage (r : ListRequest) (fetch : GoString → Nat → Except ε (ListPage α GoString))
    (fuel : Nat) : Option (Loaded α ε) :=
  if r.maxKeys = 0 then some (.ok .empty)
  else if r.delimiter = [] then
    match fetch r.marker r.maxKeys with
    | .error err => some (.error (.fetch err))
    | .ok page => some (.ok ⟨page.objects, [], page.nextMarker, page.hasMore⟩)
  else loadDelimitedObjectListPage key r fetch fuel

end Listing

/-! ### Collapsed keys -/

section Collapse
variable {keyPrefix delimiter : GoString}

/-- The key has the prefix, and no delimiter after it. -/
def Plain (keyPrefix delimiter key : GoString) : Prop :=
  ∃ remainder, key = keyPrefix ++ remainder ∧ ¬ delimiter <:+: remainder

/-- The key has the prefix, and `value` is its beginning up to the first delimiter after it. -/
def RollsUp (keyPrefix delimiter key value : GoString) : Prop :=
  ∃ front rest, key = keyPrefix ++ (front ++ delimiter ++ rest) ∧
    value = keyPrefix ++ (front ++ delimiter) ∧
    ∀ front' rest', front ++ delimiter ++ rest = front' ++ delimiter ++ rest' →
      front.length ≤ front'.length

theorem trimPrefix_append (keyPrefix remainder : GoString) :
    trimPrefix (keyPrefix ++ remainder) keyPrefix = remainder := by
  simp [trimPrefix]

theorem collapseListKey_none {remainder : GoString} (h : index delimiter remainder = none) :
    collapseListKey (keyPrefix ++ remainder) keyPrefix delimiter = (keyPrefix ++ remainder, false) := by
  simp [collapseListKey, trimPrefix_append, h]

theorem collapseListKey_some {remainder : GoString} {i : Nat} (h : index delimiter remainder = some i) :
    collapseListKey (keyPrefix ++ remainder) keyPrefix delimiter =
      (keyPrefix ++ remainder.take (i + delimiter.length), true) := by
  simp [collapseListKey, trimPrefix_append, h]

variable {key : GoString}

theorem collapseListKey_ungrouped (h : (collapseListKey key keyPrefix delimiter).2 = false) :
    (collapseListKey key keyPrefix delimiter).1 = key := by
  unfold collapseListKey at h ⊢
  dsimp only at h ⊢
  split at h
  · cases h
  · rfl

/-- A key begins with what it collapses to. -/
theorem collapseListKey_isPrefix (hkey : keyPrefix <+: key) :
    (collapseListKey key keyPrefix delimiter).1 <+: key := by
  obtain ⟨remainder, rfl⟩ := hkey
  cases h : index delimiter remainder with
  | none => simp [collapseListKey_none h]
  | some i =>
    rw [collapseListKey_some h, prefix_append_right_inj]
    exact List.take_prefix _ _

/-- A key that begins with what another one is grouped under is grouped under it too. -/
theorem collapseListKey_of_isPrefix {key' : GoString} (hkey : keyPrefix <+: key)
    (hg : (collapseListKey key keyPrefix delimiter).2 = true)
    (h : (collapseListKey key keyPrefix delimiter).1 <+: key') :
    collapseListKey key' keyPrefix delimiter = collapseListKey key keyPrefix delimiter := by
  obtain ⟨remainder, rfl⟩ := hkey
  cases hin : index delimiter remainder with
  | none =>
    rw [collapseListKey_none hin] at hg
    cases hg
  | some i =>
    rw [collapseListKey_some hin] at h ⊢
    obtain ⟨tail, rfl⟩ := h
    have hsame := index_append hin tail
    rw [append_assoc, collapseListKey_some hsame]
    have hl : (remainder.take (i + delimiter.length)).length = i + delimiter.length := by
      rw [length_take]
      exact min_eq_left (index_le hin)
    rw [take_append_of_le_length hl.ge, take_of_length_le hl.le]

/-- Of two keys in order, the second collapses to something later, or they are in one group. -/
theorem collapseListKey_mono {key' : GoString} (hkey' : keyPrefix <+: key') (hlt : key < key') :
    key < (collapseListKey key' keyPrefix delimiter).1 ∨
      (collapseListKey key' keyPrefix delimiter).2 = true ∧
        collapseListKey key keyPrefix delimiter = collapseListKey key' keyPrefix delimiter := by
  obtain h | h := lt_or_ge key (collapseListKey key' keyPrefix delimiter).1
  · exact .inl h
  · cases hg : (collapseListKey key' keyPrefix delimiter).2 with
    | false =>
      rw [collapseListKey_ungrouped hg] at h
      exact absurd hlt h.not_gt
    | true =>
      have hpre := isPrefix_of_between (collapseListKey_isPrefix hkey') h hlt
      exact .inr ⟨rfl, collapseListKey_of_isPrefix hkey' hg hpre⟩

theorem plain_iff :
    Plain keyPrefix delimiter key ↔
      keyPrefix <+: key ∧ (collapseListKey key keyPrefix delimiter).2 = false := by
  constructor
  · intro h
    obtain ⟨remainder, rfl, hnot⟩ := h
    rw [collapseListKey_none (index_eq_none_iff.mpr hnot)]
    exact ⟨prefix_append _ _, rfl⟩
  · intro h
    obtain ⟨⟨remainder, rfl⟩, hg⟩ := h
    refine ⟨remainder, rfl, ?_⟩
    rw [← index_eq_none_iff]
    cases hin : index delimiter remainder with
    | none => rfl
    | some i =>
      rw [collapseListKey_some hin] at hg
      cases hg

theorem rollsUp_iff {value : GoString} :
    RollsUp keyPrefix delimiter key value ↔
      keyPrefix <+: key ∧ collapseListKey key keyPrefix delimiter = (value, true) := by
  have hv : ∀ front rest : GoString, index delimiter (front ++ delimiter ++ rest) = some front.length →
      collapseListKey (keyPrefix ++ (front ++ delimiter ++ rest)) keyPrefix delimiter =
        (keyPrefix ++ (front ++ delimiter), true) := by
    intro front rest hind
    rw [collapseListKey_some hind, ← length_append, take_left]
  constructor
  · intro h
    obtain ⟨front, rest, rfl, rfl, hf⟩ := h
    refine ⟨prefix_append _ _, hv front rest ?_⟩
    obtain ⟨i, hi, hind⟩ := index_first delimiter front rest
    obtain ⟨front', rest', happ, hl⟩ := index_occurs hind
    rw [hind, le_antisymm hi (hl ▸ hf front' rest' happ)]
  · intro h
    obtain ⟨⟨remainder, rfl⟩, hcl⟩ := h
    cases hind : index delimiter remainder with
    | none =>
      rw [collapseListKey_none hind] at hcl
      cases hcl
    | some i =>
      obtain ⟨front, rest, rfl, rfl⟩ := index_occurs hind
      rw [hv front rest hind] at hcl
      refine ⟨front, rest, rfl, (Prod.mk.inj hcl).1.symm, fun front' rest' happ => ?_⟩
      obtain ⟨j, hj, hind'⟩ := index_first delimiter front' rest'
      rw [← happ, hind] at hind'
      exact (Option.some.inj hind').le.trans hj

end Collapse

/-! ### The entries of a listing -/

inductive Entry (α : Type)
  | object (obj : α)
  | commonPrefix (value : GoString)
  deriving DecidableEq

open Entry

namespace Entry
variable {α : Type}

/-- What an entry is ordered by. -/
def text (key : α → GoString) : Entry α → GoString
  | object obj => key obj
  | commonPrefix value => value

def object? : Entry α → Option α
  | object obj => some obj
  | commonPrefix _ => none

def commonPrefix? : Entry α → Option GoString
  | object _ => none
  | commonPrefix value => some value

@[simp] theorem object?_eq_some {e : Entry α} {obj : α} : e.object? = some obj ↔ e = object obj := by
  cases e <;> simp [object?]

@[simp] theorem commonPrefix?_eq_some {e : Entry α} {value : GoString} :
    e.commonPrefix? = some value ↔ e = commonPrefix value := by
  cases e <;> simp [commonPrefix?]

end Entry

section Entries
variable {α : Type} (c : α → GoString × Bool)

/-- The entry that shows an object which collapses as `c` says. -/
def entryOf (obj : α) : Entry α := if (c obj).2 then .commonPrefix (c obj).1 else .object obj

/-- The group that a walk is in after an object; none after one that is shown itself. -/
def groupOf (obj : α) : GoString := if (c obj).2 then (c obj).1 else []

/-- The entries of a walk that starts in a group: the groups up to the marker are left out. -/
def entriesFrom (marker : GoString) : GoString → List α → List (Entry α)
  | _, [] => []
  | active, obj :: rest =>
    if (c obj).2 = true ∧ (c obj).1 = active then entriesFrom marker active rest
    else if (c obj).2 = true ∧ (c obj).1 ≤ marker then entriesFrom marker (groupOf c obj) rest
    else entryOf c obj :: entriesFrom marker (groupOf c obj) rest

/-- The entries of a whole listing. -/
def entries (objs : List α) : List (Entry α) := entriesFrom c [] [] objs

/-- What is used of the collapsed keys of a list of objects: of two objects, the second collapses
to something later than the first one's key, or they are in one group. -/
structure Collapses (key : α → GoString) (objs : List α) : Prop where
  ungrouped : ∀ o, (c o).2 = false → (c o).1 = key o
  nonempty : ∀ o ∈ objs, (c o).1 ≠ []
  le : ∀ o ∈ objs, (c o).1 ≤ key o
  apart : objs.Pairwise fun a b => key a < (c b).1 ∨ (c b).2 = true ∧ c a = c b

variable {c} {key : α → GoString}

variable {obj : α}

theorem entryOf_eq_object_iff {obj' : α} : entryOf c obj = .object obj' ↔ obj = obj' ∧ (c obj).2 = false := by
  unfold entryOf
  split_ifs with h <;> simp [h]

theorem entryOf_eq_commonPrefix_iff {value : GoString} :
    entryOf c obj = .commonPrefix value ↔ c obj = (value, true) := by
  unfold entryOf
  split_ifs with h <;> simp [h, Prod.ext_iff]

variable {rest : List α}

theorem Collapses.tail (h : Collapses c key (obj :: rest)) :
    Collapses c key rest where
  ungrouped := h.ungrouped
  nonempty o ho := h.nonempty o (mem_cons_of_mem _ ho)
  le o ho := h.le o (mem_cons_of_mem _ ho)
  apart := (pairwise_cons.mp h.apart).2

variable {marker active : GoString} {objs : List α}

theorem mem_entriesFrom {e : Entry α}
    (h : e ∈ entriesFrom c marker active objs) : ∃ obj ∈ objs, entryOf c obj = e := by
  induction objs generalizing active with
  | nil => cases h
  | cons obj rest ih =>
    have hrs : ∀ {active}, e ∈ entriesFrom c marker active rest →
        ∃ obj' ∈ obj :: rest, entryOf c obj' = e := by
      intro active h
      obtain ⟨o, ho, he⟩ := ih h
      exact ⟨o, mem_cons_of_mem _ ho, he⟩
    rw [entriesFrom] at h
    split_ifs at h
    · exact hrs h
    · exact hrs h
    · obtain rfl | h := mem_cons.mp h
      · exact ⟨obj, mem_cons_self, rfl⟩
      · exact hrs h

/-- Nothing on the list comes before the active group. -/
def From (c : α → GoString × Bool) (active : GoString) (objs : List α) : Prop :=
  ∀ o ∈ objs, active < (c o).1 ∨ (c o).2 = true ∧ (c o).1 = active

theorem Collapses.text_entryOf (hc : Collapses c key objs) (obj : α) :
    (entryOf c obj).text key = (c obj).1 := by
  unfold entryOf
  split_ifs with h
  · rfl
  · exact (hc.ungrouped obj (by simpa using h)).symm

theorem Collapses.from_nil (hc : Collapses c key objs) : From c [] objs :=
  fun o ho => .inl (nil_lt_of_ne_nil (hc.nonempty o ho))

theorem Collapses.from_groupOf (hc : Collapses c key (obj :: rest)) : From c (groupOf c obj) rest := by
  intro o ho
  unfold groupOf
  split_ifs
  · obtain h | ⟨hg, heq⟩ := (pairwise_cons.mp hc.apart).1 o ho
    · exact .inl ((hc.le obj mem_cons_self).trans_lt h)
    · exact .inr ⟨hg, by rw [heq]⟩
  · exact hc.tail.from_nil o ho

/-- Entries come in order, each later than the group that the walk started in. -/
theorem entriesFrom_inOrder (hc : Collapses c key objs) (hfrom : From c active objs) :
    InOrder (text key) (entriesFrom c marker active objs) ∧
      ∀ e ∈ entriesFrom c marker active objs, active < e.text key := by
  induction objs generalizing active with
  | nil => exact ⟨.nil, nofun⟩
  | cons obj rest ih =>
    obtain ⟨hrs, hgr⟩ := ih hc.tail hc.from_groupOf
    have hlat : ∀ e ∈ entriesFrom c marker (groupOf c obj) rest, (c obj).1 < e.text key := by
      intro e he
      cases hg : (c obj).2 with
      | true => simpa [groupOf, hg] using hgr e he
      | false =>
        obtain ⟨o, ho, rfl⟩ := mem_entriesFrom he
        rw [hc.text_entryOf, hc.ungrouped obj hg]
        obtain h | ⟨h, heq⟩ := (pairwise_cons.mp hc.apart).1 o ho
        · exact h
        · rw [heq, h] at hg
          cases hg
    have hst : ¬ ((c obj).2 = true ∧ (c obj).1 = active) → active < (c obj).1 :=
      fun hne => (hfrom obj mem_cons_self).resolve_right hne
    rw [entriesFrom]
    split_ifs with hac hm
    · exact ih hc.tail fun o ho => hfrom o (mem_cons_of_mem _ ho)
    · exact ⟨hrs, fun e he => (hst hac).trans (hlat e he)⟩
    · refine ⟨pairwise_cons.mpr ⟨fun e he => ?_, hrs⟩, fun e he => ?_⟩
      · rw [hc.text_entryOf]
        exact hlat e he
      · obtain rfl | he := mem_cons.mp he
        · rw [hc.text_entryOf]
          exact hst hac
        · exact (hst hac).trans (hlat e he)

/-- Which group a walk starts in does not matter if it lies before the marker. -/
theorem entriesFrom_before {active' : GoString} (h : active ≤ marker)
    (h' : active' ≤ marker) :
    entriesFrom c marker active objs = entriesFrom c marker active' objs := by
  induction objs generalizing active active' with
  | nil => rfl
  | cons obj rest ih =>
    by_cases hm : (c obj).2 = true ∧ (c obj).1 ≤ marker
    · have hg : groupOf c obj ≤ marker := by simpa [groupOf, hm.1] using hm.2
      rw [entriesFrom, entriesFrom, if_pos hm]
      split_ifs
      · exact ih h h'
      · exact ih h hg
      · exact ih hg h'
      · rfl
    · have hne : ∀ {group}, group ≤ marker → ¬ ((c obj).2 = true ∧ (c obj).1 = group) :=
        fun hle heq => hm ⟨heq.1, heq.2.le.trans hle⟩
      rw [entriesFrom, entriesFrom, if_neg (hne h), if_neg (hne h')]

theorem Collapses.entriesFrom_cons {active obj} (hc : Collapses c key (obj :: rest)) :
    entriesFrom c [] active (obj :: rest) =
      if (c obj).2 = true ∧ (c obj).1 = active then entriesFrom c [] active rest
      else entryOf c obj :: entriesFrom c [] (groupOf c obj) rest := by
  have hpos : ¬ ((c obj).2 = true ∧ (c obj).1 ≤ []) :=
    fun h => h.2.not_gt (nil_lt_of_ne_nil (hc.nonempty obj mem_cons_self))
  rw [entriesFrom, if_neg hpos]

/-- A walk over what comes after a marker gives the entries after it. -/
theorem entriesFrom_after (hc : Collapses c key objs) (hfrom : From c active objs) :
    entriesFrom c marker active (after key objs marker) =
      after (text key) (entriesFrom c [] active objs) marker := by
  induction objs generalizing active with
  | nil => rfl
  | cons obj rest ih =>
    have htail : From c active rest := fun o ho => hfrom o (mem_cons_of_mem _ ho)
    have hshown : ∀ shown, after (text key) (entryOf c obj :: shown) marker =
        if marker < (c obj).1 then entryOf c obj :: after (text key) shown marker
        else after (text key) shown marker := by
      intro shown
      rw [after, filter_cons, hc.text_entryOf]
      simp only [decide_eq_true_eq]
      rfl
    rw [hc.entriesFrom_cons]
    by_cases hkey : marker < key obj
    · have hcn : after key (obj :: rest) marker = obj :: after key rest marker := by
        simp [after, hkey]
      rw [hcn, entriesFrom]
      split_ifs with hact hm
      · exact ih hc.tail htail
      · rw [hshown, if_neg hm.2.not_gt]
        exact ih hc.tail hc.from_groupOf
      · have hlt : marker < (c obj).1 := by
          cases hg : (c obj).2 with
          | true => exact not_le.mp fun hle => hm ⟨hg, hle⟩
          | false => rwa [hc.ungrouped obj hg]
        rw [hshown, if_pos hlt, ih hc.tail hc.from_groupOf]
    · have hcn : after key (obj :: rest) marker = after key rest marker := by
        simp [after, hkey]
      have hle : (c obj).1 ≤ marker := (hc.le obj mem_cons_self).trans (not_lt.mp hkey)
      rw [hcn]
      split_ifs with hact
      · exact ih hc.tail htail
      · rw [hshown, if_neg hle.not_gt, ← ih hc.tail hc.from_groupOf]
        have hbf : active ≤ marker := ((hfrom obj mem_cons_self).resolve_right hact).le.trans hle
        have hgr : groupOf c obj ≤ marker := by
          unfold groupOf
          split_ifs
          · exact hle
          · exact not_lt.mp (not_lt_nil marker)
        exact entriesFrom_before hbf hgr

/-- Each object is shown, by an entry of its own or by its group's. -/
theorem entryOf_mem_entriesFrom (hc : Collapses c key objs) (ho : obj ∈ objs) :
    entryOf c obj ∈ entriesFrom c [] active objs ∨ (c obj).2 = true ∧ (c obj).1 = active := by
  induction objs generalizing active with
  | nil => cases ho
  | cons first rest ih =>
    rw [hc.entriesFrom_cons]
    obtain rfl | ho := mem_cons.mp ho
    · split_ifs with hac
      · exact .inr hac
      · exact .inl mem_cons_self
    · split_ifs with hac
      · exact ih hc.tail ho
      · have hrs : entryOf c obj ∈ entriesFrom c [] (groupOf c first) rest ∨
            (c obj).2 = true ∧ (c obj).1 = groupOf c first := ih hc.tail ho
        obtain h | ⟨hg, heq⟩ := hrs
        · exact .inl (mem_cons_of_mem _ h)
        · have hf : (c first).2 = true := by
            by_contra hpl
            rw [groupOf, if_neg hpl] at heq
            exact hc.tail.nonempty obj ho heq
          rw [groupOf, if_pos hf] at heq
          refine .inl (mem_cons.mpr (.inl ?_))
          rw [entryOf, entryOf, if_pos hg, if_pos hf, heq]

theorem mem_entries (hc : Collapses c key objs) {e : Entry α} :
    e ∈ entries c objs ↔ ∃ obj ∈ objs, entryOf c obj = e := by
  constructor
  · exact mem_entriesFrom
  · intro h
    obtain ⟨obj, ho, rfl⟩ := h
    have hsh : entryOf c obj ∈ entriesFrom c [] [] objs ∨ (c obj).2 = true ∧ (c obj).1 = [] :=
      entryOf_mem_entriesFrom hc ho
    exact hsh.resolve_right fun hnil => hc.nonempty obj ho hnil.2

end Entries

/-! ### One page -/

section Page
variable {α ε : Type} {key : α → GoString}

/-- How the keys of a request collapse. -/
def collapsed (key : α → GoString) (r : ListRequest) (obj : α) : GoString × Bool :=
  collapseListKey (key obj) r.keyPrefix r.delimiter

/-- The builder has put these entries on the page, and its marker belongs to the last of them. -/
structure Built (key : α → GoString) (r : ListRequest) (objs : List α) (b : DelimiterListBuilder α)
    (shown : List (Entry α)) : Prop where
  objects : b.page.objects = shown.filterMap object?
  commonPrefixes : b.page.commonPrefixes = shown.filterMap commonPrefix?
  hasMore : b.page.hasMore = false
  lastIncluded : b.lastIncludedPrefix ≠ [] →
    shown.getLast? = some (.commonPrefix b.lastIncludedPrefix)
  marked : ∀ e, shown.getLast? = some e →
    ∃ obj ∈ objs, entryOf (collapsed key r) obj = e ∧ b.page.nextMarker = key obj

theorem length_parts (shown : List (Entry α)) :
    (shown.filterMap object?).length + (shown.filterMap commonPrefix?).length = shown.length := by
  induction shown with
  | nil => rfl
  | cons e shown ih =>
    cases e with
    | object _ | commonPrefix _ =>
      simp only [filterMap_cons, object?, commonPrefix?, length_cons]
      omega

variable {b : DelimiterListBuilder α}

theorem Built.keyCount {r : ListRequest} {objs : List α}
    {shown : List (Entry α)} (h : Built key r objs b shown) : b.page.keyCount = shown.length := by
  rw [ObjectListPage.keyCount, h.objects, h.commonPrefixes, length_parts]

variable {r : ListRequest} {objs : List α} {shown : List (Entry α)}
  {fetch : GoString → Nat → Except ε (ListPage α GoString)}

/-- Where the group has changed, nothing else of the builder has. -/
theorem Built.inGroup (h : Built key r objs b shown) (group : GoString) :
    Built key r objs {b with activePrefix := group} shown :=
  ⟨h.objects, h.commonPrefixes, h.hasMore, h.lastIncluded, h.marked⟩

variable {obj : α}

/-- Another key of the group that is last on the page: the marker moves on to it. -/
theorem append_sameGroup
    (hc : Collapses (collapsed key r) key objs) (ho : obj ∈ objs) (h : Built key r objs b shown)
    (hsame : (collapsed key r obj).2 = true ∧ (collapsed key r obj).1 = b.activePrefix) :
    ∃ b', append key r b obj = (false, b') ∧ Built key r objs b' shown ∧
      b'.activePrefix = b.activePrefix := by
  have hap : append key r b obj =
      if (collapsed key r obj).1 == b.lastIncludedPrefix then
        (false, {b with page := {b.page with nextMarker := key obj}})
      else (false, b) := by
    have hcn : ((collapsed key r obj).2 && (collapsed key r obj).1 == b.activePrefix) = true := by
      simp [hsame]
    exact if_pos hcn
  rw [hap]
  split_ifs with hl
  · have hv : (collapsed key r obj).1 = b.lastIncludedPrefix := by simpa using hl
    have hen : shown.getLast? = some (entryOf (collapsed key r) obj) := by
      rw [entryOf, if_pos hsame.1, hv]
      exact h.lastIncluded (hv ▸ hc.nonempty obj ho)
    refine ⟨_, rfl, ⟨h.objects, h.commonPrefixes, h.hasMore, h.lastIncluded, fun e he => ?_⟩, rfl⟩
    exact ⟨obj, ho, Option.some.inj (hen.symm.trans he), rfl⟩
  · exact ⟨b, rfl, h, rfl⟩

/-- A key outside the group that the walk is in. -/
theorem append_otherGroup
    (hother : ¬ ((collapsed key r obj).2 = true ∧ (collapsed key r obj).1 = b.activePrefix)) :
    append key r b obj =
      if (collapsed key r obj).2 = true ∧ (collapsed key r obj).1 ≤ r.marker then
        (false, {b with activePrefix := groupOf (collapsed key r) obj})
      else if b.page.keyCount = r.maxKeys then
        (true, {b with activePrefix := groupOf (collapsed key r) obj})
      else (false, ⟨
        {b.page with
          nextMarker := key obj
          objects := b.page.objects ++ (entryOf (collapsed key r) obj).object?.toList
          commonPrefixes := b.page.commonPrefixes ++ (entryOf (collapsed key r) obj).commonPrefix?.toList},
        groupOf (collapsed key r) obj, groupOf (collapsed key r) obj⟩) := by
  have hcol : collapseListKey (key obj) r.keyPrefix r.delimiter = collapsed key r obj := rfl
  rw [append, hcol]
  cases hv : collapsed key r obj with
  | mk value grouped =>
    rw [hv] at hother
    cases grouped with
    | false => simp [groupOf, entryOf, hv, object?, commonPrefix?]
    | true =>
      have hac : value ≠ b.activePrefix := fun h => hother ⟨rfl, h⟩
      simp [groupOf, entryOf, hv, object?, commonPrefix?, hac]

/-- A new entry on the page. -/
theorem Built.entry (hobj : obj ∈ objs) (h : Built key r objs b shown) :
    Built key r objs ⟨
      {b.page with
        nextMarker := key obj
        objects := b.page.objects ++ (entryOf (collapsed key r) obj).object?.toList
        commonPrefixes := b.page.commonPrefixes ++ (entryOf (collapsed key r) obj).commonPrefix?.toList},
      groupOf (collapsed key r) obj, groupOf (collapsed key r) obj⟩
      (shown ++ [entryOf (collapsed key r) obj]) where
  objects := by
    rw [filterMap_append, ← h.objects]
    cases entryOf (collapsed key r) obj <;> rfl
  commonPrefixes := by
    rw [filterMap_append, ← h.commonPrefixes]
    cases entryOf (collapsed key r) obj <;> rfl
  hasMore := h.hasMore
  lastIncluded := by
    intro hne
    rw [getLast?_concat, entryOf]
    unfold groupOf at hne ⊢
    split_ifs at hne ⊢ with hg
    · rfl
    · exact absurd rfl hne
  marked e he := by
    rw [getLast?_concat] at he
    exact ⟨obj, hobj, Option.some.inj he, rfl⟩

/-- How a pass over the objects ends that has `all` to show. -/
def Ends (key : α → GoString) (r : ListRequest) (objs : List α) (all : List (Entry α)) :
    Except (Loaded α ε) (DelimiterListBuilder α) → Prop
  | .ok b => Built key r objs b all ∧ all.length ≤ r.maxKeys
  | .error result => ∃ b, result = .ok {b.page with hasMore := true} ∧
      Built key r objs b (all.take r.maxKeys) ∧ r.maxKeys < all.length

theorem foldlM_visit (hc : Collapses (collapsed key r) key objs) {rest : List α} (hrs : ∀ o ∈ rest, o ∈ objs)
    (h : Built key r objs b shown) (hroom : shown.length ≤ r.maxKeys) :
    Ends key r objs (shown ++ entriesFrom (collapsed key r) r.marker b.activePrefix rest)
      (rest.foldlM (visit key r) b : Except (Loaded α ε) (DelimiterListBuilder α)) := by
  induction rest generalizing b shown with
  | nil => exact ⟨by simpa [entriesFrom] using h, by simpa [entriesFrom] using hroom⟩
  | cons obj rest ih =>
    have hobj : obj ∈ objs := hrs obj mem_cons_self
    have htail : ∀ o ∈ rest, o ∈ objs := fun o ho => hrs o (mem_cons_of_mem _ ho)
    have hgo : ∀ {b'}, append key r b obj = (false, b') →
        ((obj :: rest).foldlM (visit key r) b : Except (Loaded α ε) (DelimiterListBuilder α)) =
          rest.foldlM (visit key r) b' := by
      intro b' hap
      rw [foldlM_cons, visit, hap]
      rfl
    rw [entriesFrom]
    by_cases hsame : (collapsed key r obj).2 = true ∧ (collapsed key r obj).1 = b.activePrefix
    · obtain ⟨b', hap, hbl, hac⟩ := append_sameGroup hc hobj h hsame
      rw [if_pos hsame, hgo hap, ← hac]
      exact ih htail hbl hroom
    · have hap := append_otherGroup hsame
      split_ifs at hap ⊢ with hps hf
      · rw [hgo hap]
        exact ih htail (h.inGroup _) hroom
      · -- The page is full: the object is left for the next one.
        rw [h.keyCount] at hf
        rw [foldlM_cons, visit, hap]
        refine ⟨_, rfl, ?_, ?_⟩
        · rw [take_left' hf]
          exact h.inGroup _
        · rw [length_append, length_cons]
          omega
      · rw [h.keyCount] at hf
        have hroom' : (shown ++ [entryOf (collapsed key r) obj]).length ≤ r.maxKeys := by
          rw [length_append, length_singleton]
          omega
        have hend := ih htail (h.entry hobj) hroom'
        rw [hgo hap]
        rwa [append_assoc] at hend

/-- The objects under the prefix of a request. -/
def under (key : α → GoString) (keyPrefix : GoString) (objs : List α) : List α :=
  objs.filter fun o => keyPrefix <+: key o

theorem mem_under {keyPrefix : GoString} {o : α} : o ∈ under key keyPrefix objs ↔ o ∈ objs ∧ keyPrefix <+: key o := by
  simp [under]

/-- The objects of a bucket in byte order of their keys; `validateKey` lets no empty key in. -/
structure Stored (key : α → GoString) (objs : List α) : Prop where
  inOrder : InOrder key objs
  named : ∀ o ∈ objs, key o ≠ []

theorem Stored.collapses (h : Stored key objs) (hd : r.delimiter ≠ []) :
    Collapses (collapsed key r) key (under key r.keyPrefix objs) where
  ungrouped _ := collapseListKey_ungrouped
  nonempty o ho := by
    obtain ⟨hobj, remainder, hkey⟩ := mem_under.mp ho
    unfold collapsed
    rw [← hkey]
    cases hin : index r.delimiter remainder with
    | none =>
      rw [collapseListKey_none hin, hkey]
      exact h.named o hobj
    | some i =>
      rw [collapseListKey_some hin]
      have hle := index_le hin
      have hpos := length_pos_of_ne_nil hd
      refine ne_nil_of_length_pos ?_
      simp only [length_append, length_take]
      omega
  le o ho := le_of_isPrefix (collapseListKey_isPrefix (mem_under.mp ho).2)
  apart := by
    refine (h.inOrder.filter _).imp_of_mem fun _ hb hlt => ?_
    exact collapseListKey_mono (mem_under.mp hb).2 hlt

/-- **The marker tells what has been shown**: after the key of an object come the entries after
the object's own. -/
theorem after_key_eq_after_text (h : Stored key objs) (hd : r.delimiter ≠ [])
    (hobj : obj ∈ under key r.keyPrefix objs) :
    after (text key) (entries (collapsed key r) (under key r.keyPrefix objs)) (key obj) =
      after (text key) (entries (collapsed key r) (under key r.keyPrefix objs))
        ((entryOf (collapsed key r) obj).text key) := by
  have hc := h.collapses hd
  refine filter_congr fun e he => ?_
  obtain ⟨o, ho, rfl⟩ := (mem_entries hc).mp he
  rw [hc.text_entryOf, hc.text_entryOf, decide_eq_decide]
  constructor
  · exact (hc.le obj hobj).trans_lt
  · intro hlt
    obtain hkey | hkey | hkey := lt_trichotomy (key obj) (key o)
    · obtain hm | ⟨-, heq⟩ := collapseListKey_mono (mem_under.mp ho).2 hkey
      · exact hm
      · exact absurd (congrArg Prod.fst heq) hlt.ne
    · exact absurd (by unfold collapsed; rw [hkey]) hlt.ne
    · obtain hm | ⟨-, heq⟩ := collapseListKey_mono (mem_under.mp hobj).2 hkey
      · exact absurd (((hc.le o ho).trans_lt hm).trans hlt) (lt_irrefl _)
      · exact absurd (congrArg Prod.fst heq).symm hlt.ne

theorem serves_fetchScanPage {source : List α}
    (h : Serves key source fun cursor => fetch cursor objectListScanPageSize) :
    Serves key source (fetchScanPage fetch) := by
  intro marker
  obtain ⟨page, rest, hf, hpg⟩ := h marker
  exact ⟨page, rest, by simp only [fetchScanPage, hf], hpg⟩

/-- Loading a page is one pass over what comes after the marker. -/
theorem loadDelimitedObjectListPage_eq (h : Stored key objs)
    (hf : Serves key (under key r.keyPrefix objs) fun cursor => fetch cursor objectListScanPageSize)
    {fuel : Nat} (hfl : objs.length < fuel) :
    loadDelimitedObjectListPage key r fetch fuel =
      some (finished (fun b => .ok b.page)
        ((after key (under key r.keyPrefix objs) r.marker).foldlM (visit key r) ⟨.empty, [], []⟩)) := by
  refine scanPages_eq_fold (h.inOrder.filter _) (serves_fetchScanPage hf) _ ?_ _ _ _ _ _ ?_
  · intro marker o ho
    have hlt := (mem_after.mp ho).2
    have hne : key o ≠ [] := fun hnil => not_lt_nil marker (hnil ▸ hlt)
    simp [hne, hlt.ne']
  · refine lt_of_le_of_lt ?_ hfl
    exact (length_filter_le _ _).trans (length_filter_le _ _)

end Page

/-! ### All pages -/

section Pages
variable {α ε : Type} {key : α → GoString} {objs : List α}

/-- One request of a client: the page, and the marker to go on from. -/
def listing (key : α → GoString) (fetch : GoString → Nat → Except ε (ListPage α GoString))
    (keyPrefix delimiter : GoString) (maxKeys fuel : Nat) (marker : GoString) :
    Except (Option (ListError ε)) (ObjectListPage α × Option GoString) :=
  match loadObjectListPage key ⟨keyPrefix, delimiter, marker, maxKeys⟩ fetch fuel with
  | none => .error none
  | some (.error err) => .error (some err)
  | some (.ok page) => .ok (page, if page.hasMore then some page.nextMarker else none)

/-- The page has these entries, split into objects and common prefixes. -/
def Shows (page : ObjectListPage α) (shown : List (Entry α)) : Prop :=
  page.objects = shown.filterMap object? ∧ page.commonPrefixes = shown.filterMap commonPrefix?

theorem Shows.keyCount {page : ObjectListPage α} {shown : List (Entry α)} (h : Shows page shown) :
    page.keyCount = shown.length := by
  rw [ObjectListPage.keyCount, h.1, h.2, length_parts]

/-- The entries that a client has still to be shown after a marker. -/
def todo (key : α → GoString) (keyPrefix delimiter : GoString) (objs : List α) (marker : GoString) :
    List (Entry α) :=
  after (text key)
    (entries (fun o => collapseListKey (key o) keyPrefix delimiter) (under key keyPrefix objs)) marker

theorem built_empty {r : ListRequest} : Built key r objs ⟨.empty, [], []⟩ [] :=
  ⟨rfl, rfl, rfl, absurd rfl, nofun⟩

/-- The pass that loads a page has the entries after the marker to show. -/
theorem pass_ends (ε : Type) {r : ListRequest} (h : Stored key objs) (hd : r.delimiter ≠ []) :
    Ends key r (under key r.keyPrefix objs) (todo key r.keyPrefix r.delimiter objs r.marker)
      ((after key (under key r.keyPrefix objs) r.marker).foldlM (visit key r) ⟨.empty, [], []⟩ :
        Except (Loaded α ε) (DelimiterListBuilder α)) := by
  have hc := h.collapses hd
  have hrs : ∀ o ∈ after key (under key r.keyPrefix objs) r.marker, o ∈ under key r.keyPrefix objs :=
    fun o ho => (mem_after.mp ho).1
  have hall : [] ++ entriesFrom (collapsed key r) r.marker []
      (after key (under key r.keyPrefix objs) r.marker) = todo key r.keyPrefix r.delimiter objs r.marker := by
    rw [nil_append, entriesFrom_after hc hc.from_nil]
    rfl
  rw [← hall]
  exact foldlM_visit hc hrs built_empty (Nat.zero_le _)

variable {keyPrefix delimiter : GoString}

section
variable (h : Stored key objs)
include h

/-- After a key of the last entry on a page come the entries that are not on it. -/
theorem todo_key {marker : GoString} {n : Nat} {obj : α} (hd : delimiter ≠ [])
    (ho : obj ∈ under key keyPrefix objs)
    (hl : ((todo key keyPrefix delimiter objs marker).take n).getLast? =
      some (entryOf (fun o => collapseListKey (key o) keyPrefix delimiter) obj)) :
    todo key keyPrefix delimiter objs (key obj) = (todo key keyPrefix delimiter objs marker).drop n := by
  let r : ListRequest := ⟨keyPrefix, delimiter, marker, n⟩
  have hc : Collapses (collapsed key r) key (under key r.keyPrefix objs) := h.collapses hd
  have hnx : todo key keyPrefix delimiter objs (key obj) =
      todo key keyPrefix delimiter objs ((entryOf (collapsed key r) obj).text key) :=
    after_key_eq_after_text (r := r) h hd ho
  rw [hnx]
  exact after_key_getLast (entriesFrom_inOrder hc hc.from_nil).1 (take_append_drop n _).symm hl

/-- **One page takes the next entries.** -/
theorem listing_takesNext {maxKeys fuel : Nat} {fetch : GoString → Nat → Except ε (ListPage α GoString)}
    (hdel : delimiter ≠ []) (hmax : 0 < maxKeys)
    (hf : Serves key (under key keyPrefix objs) fun cursor => fetch cursor objectListScanPageSize)
    (hfl : objs.length < fuel) (marker : GoString) :
    ∃ answer, listing key fetch keyPrefix delimiter maxKeys fuel marker = .ok answer ∧
      TakesNext (todo key keyPrefix delimiter objs) maxKeys Shows marker answer := by
  let r : ListRequest := ⟨keyPrefix, delimiter, marker, maxKeys⟩
  have hld : loadObjectListPage key r fetch fuel = loadDelimitedObjectListPage key r fetch fuel := by
    rw [loadObjectListPage, if_neg hmax.ne', if_neg hdel]
  have hends : Ends key r (under key keyPrefix objs) (todo key keyPrefix delimiter objs marker) _ :=
    pass_ends ε h hdel
  unfold listing
  rw [hld, loadDelimitedObjectListPage_eq h hf hfl]
  revert hends
  cases (after key (under key keyPrefix objs) marker).foldlM (visit key r)
      (⟨.empty, [], []⟩ : DelimiterListBuilder α) with
  | ok b =>
    intro hends
    obtain ⟨hbl, hl⟩ := hends
    refine ⟨_, rfl, _, [], (append_nil _).symm, ⟨hbl.objects, hbl.commonPrefixes⟩, hl,
      fun _ => rfl, fun marker' hnx => ?_⟩
    simp [hbl.hasMore] at hnx
  | error result =>
    intro hends
    obtain ⟨b, rfl, hbl, hl⟩ := hends
    -- The page is not empty, and the marker is a key of its last entry.
    have hne : (todo key keyPrefix delimiter objs marker).take maxKeys ≠ [] := by
      refine ne_nil_of_length_pos ?_
      rw [length_take]
      exact lt_min hmax (hmax.trans hl)
    refine ⟨_, rfl, _, _, (take_append_drop maxKeys _).symm,
      ⟨hbl.objects, hbl.commonPrefixes⟩, length_take_le _ _, nofun,
      fun marker' hnx => ⟨hne, ?_⟩⟩
    cases hnx
    obtain ⟨obj, ho, hen, hm⟩ := hbl.marked _ (getLast?_eq_some_getLast hne)
    rw [show b.page.nextMarker = key obj from hm]
    refine todo_key h hdel ho ?_
    rw [getLast?_eq_some_getLast hne]
    exact congrArg some hen.symm

theorem mem_todo_nil (hd : delimiter ≠ []) {e : Entry α} :
    e ∈ todo key keyPrefix delimiter objs [] ↔
      ∃ o ∈ objs, keyPrefix <+: key o ∧ entryOf (fun o => collapseListKey (key o) keyPrefix delimiter) o = e := by
  have hc : Collapses (fun o => collapseListKey (key o) keyPrefix delimiter) key (under key keyPrefix objs) :=
    h.collapses (r := ⟨keyPrefix, delimiter, [], 0⟩) hd
  rw [todo, mem_after, mem_entries hc]
  constructor
  · intro hm
    obtain ⟨⟨o, ho, he⟩, -⟩ := hm
    exact ⟨o, (mem_under.mp ho).1, (mem_under.mp ho).2, he⟩
  · intro hm
    obtain ⟨o, ho, hpre, rfl⟩ := hm
    have hun : o ∈ under key keyPrefix objs := mem_under.mpr ⟨ho, hpre⟩
    refine ⟨⟨o, hun, rfl⟩, ?_⟩
    rw [hc.text_entryOf]
    exact nil_lt_of_ne_nil (hc.nonempty o hun)

theorem mem_objects (hd : delimiter ≠ []) (o : α) :
    o ∈ (todo key keyPrefix delimiter objs []).filterMap object? ↔
      o ∈ objs ∧ Plain keyPrefix delimiter (key o) := by
  simp only [mem_filterMap, object?_eq_some, mem_todo_nil h hd, plain_iff]
  constructor
  · intro hm
    obtain ⟨e, ⟨o', ho', hpre, rfl⟩, hen⟩ := hm
    obtain ⟨rfl, hpl⟩ := entryOf_eq_object_iff.mp hen
    exact ⟨ho', hpre, hpl⟩
  · intro hm
    obtain ⟨ho, hpre, hpl⟩ := hm
    exact ⟨_, ⟨o, ho, hpre, rfl⟩, entryOf_eq_object_iff.mpr ⟨rfl, hpl⟩⟩

theorem mem_commonPrefixes (hd : delimiter ≠ []) (v : GoString) :
    v ∈ (todo key keyPrefix delimiter objs []).filterMap commonPrefix? ↔
      ∃ o ∈ objs, RollsUp keyPrefix delimiter (key o) v := by
  simp only [mem_filterMap, commonPrefix?_eq_some, mem_todo_nil h hd, rollsUp_iff]
  constructor
  · intro hm
    obtain ⟨e, ⟨o, ho, hpre, rfl⟩, hen⟩ := hm
    have hv := entryOf_eq_commonPrefix_iff.mp hen
    exact ⟨o, ho, hpre, hv⟩
  · intro hm
    obtain ⟨o, ho, hpre, hcl⟩ := hm
    refine ⟨_, ⟨o, ho, hpre, rfl⟩, ?_⟩
    rw [entryOf_eq_commonPrefix_iff]
    exact hcl

/-- **A listing with a delimiter is exact across pages.** Following the markers from the empty
one comes to an end; the pages hold each key under the prefix without the delimiter once and in
order, each common prefix once and in order, and nothing else, at most `maxKeys` on a page. The
raw listing may be cut into pages in any way. -/
theorem delimited_listing_exact {keyPrefix delimiter : GoString} {maxKeys fuel : Nat}
    {fetch : GoString → Nat → Except ε (ListPage α GoString)} (hdelimiter : delimiter ≠ [])
    (hmax : 1 ≤ maxKeys)
    (hfetch : Serves key (under key keyPrefix objs) fun cursor => fetch cursor objectListScanPageSize)
    (hfuel : objs.length < fuel) :
    ∃ pages, Follows (listing key fetch keyPrefix delimiter maxKeys fuel) [] pages ∧
      InOrder key (pages.flatMap (·.objects)) ∧
      (∀ o, o ∈ pages.flatMap (·.objects) ↔ o ∈ objs ∧ Plain keyPrefix delimiter (key o)) ∧
      (pages.flatMap (·.commonPrefixes)).Pairwise (· < ·) ∧
      (∀ v, v ∈ pages.flatMap (·.commonPrefixes) ↔ ∃ o ∈ objs, RollsUp keyPrefix delimiter (key o) v) ∧
      ∀ page ∈ pages, page.keyCount ≤ maxKeys := by
  obtain ⟨pages, shown, hf, hshows, hall, hleng⟩ :=
    exists_follows (listing_takesNext h hdelimiter hmax hfetch hfuel) []
  let r : ListRequest := ⟨keyPrefix, delimiter, [], maxKeys⟩
  have hc : Collapses (collapsed key r) key (under key keyPrefix objs) := h.collapses hdelimiter
  have hord : InOrder (text key) (todo key keyPrefix delimiter objs []) :=
    inOrder_after (entriesFrom_inOrder hc hc.from_nil).1 []
  have ho := flatMap_eq_of_shows (fun _ _ hpg => hpg.1) hshows
  have hpr := flatMap_eq_of_shows (fun _ _ hpg => hpg.2) hshows
  rw [hall] at ho hpr
  refine ⟨pages, hf, ?_, ?_, ?_, ?_, ?_⟩
  · rw [ho, InOrder, pairwise_filterMap]
    refine hord.imp fun hlt a ha b hb => ?_
    obtain rfl := object?_eq_some.mp ha
    obtain rfl := object?_eq_some.mp hb
    exact hlt
  · rw [ho]
    exact mem_objects h hdelimiter
  · rw [hpr, pairwise_filterMap]
    refine hord.imp fun hlt a ha b hb => ?_
    obtain rfl := commonPrefix?_eq_some.mp ha
    obtain rfl := commonPrefix?_eq_some.mp hb
    exact hlt
  · rw [hpr]
    exact mem_commonPrefixes h hdelimiter
  · intro page hpg
    obtain ⟨entries, hen, hpg⟩ := exists_shown hshows hpg
    rw [hpg.keyCount]
    exact hleng entries hen

end

/-- `a/1`, `a/2` and `b`. -/
def threeKeys : List GoString := [[97, 47, 49], [97, 47, 50], [98]]

def fetchThreeKeys (marker : GoString) (limit : Nat) : Except Unit (ListPage GoString GoString) :=
  .ok (cutPage id [] limit ((after id (under id [] threeKeys) marker).take (limit + 1)))

/-- One entry on a page: the first page ends inside the group `a/`. -/
theorem three_keys_listed :
    ∃ pages, Follows (listing id fetchThreeKeys [] [47] 1 4) [] pages ∧
      (∀ o, o ∈ pages.flatMap (·.objects) ↔ o ∈ threeKeys ∧ Plain [] [47] o) ∧
      (∀ v, v ∈ pages.flatMap (·.commonPrefixes) ↔ ∃ o ∈ threeKeys, RollsUp [] [47] o v) ∧
      ∀ page ∈ pages, page.keyCount ≤ 1 := by
  have hst : Stored id threeKeys := ⟨by decide, by decide⟩
  have hsr : Serves id (under id [] threeKeys)
      fun cursor => fetchThreeKeys cursor objectListScanPageSize :=
    serves_cutPage id [] _ (by decide)
  have hd : ([47] : GoString) ≠ [] := by decide
  have hfl : threeKeys.length < 4 := by decide
  obtain ⟨pages, hf, -, ho, -, hpr, hcn⟩ := delimited_listing_exact hst hd le_rfl hsr hfl
  exact ⟨pages, hf, ho, hpr, hcn⟩

end Pages

end AeroVault.S3
