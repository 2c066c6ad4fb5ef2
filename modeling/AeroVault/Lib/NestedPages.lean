import AeroVault.Lib.Paging

/-! Pages that go through groups of rows, with a budget that the groups share.

Each group has its rows in order, and some rows are hidden from the client. A page has room for
`size` rows. It opens at most `size` new groups, takes from each as many rows as it has room for and
leaves out the hidden ones afterwards. It ends in a group that has more rows than that, or with which
it is full, and the next page goes on behind the last row shown; behind the group if none was. A page
also ends when its groups are used up, and then it is taken for the last one.

Of each group the newest row, its first, is to be marked. When the pages show every row they are to
show once and mark the right ones can be told from the groups (`exact_iff_keptAt`). -/
namespace AeroVault.Lib.Nested
open List

/-- The rows of a key, and whether they are to be shown. -/
structure Group (α : Type*) where
  wanted : Bool
  rows : List α

open Group

/-- Where a page begins: in a group that the page before has not come to the end of, or at one. -/
structure Place (α : Type*) where
  opened : Option (Group α)
  groups : List (Group α)

/-! ### One page -/

section Page
variable {α : Type*} (visible : α → Bool)

/-- What is shown of the next `n` rows. -/
def seen (n : Nat) (rows : List α) : List α := (rows.take n).filter visible

/-- The rows behind the last one that is shown of the next `n`. -/
def unshown (n : Nat) (rows : List α) : List α :=
  (rows.take n).rtakeWhile (fun a => !visible a) ++ rows.drop n

/-- The first row is marked. -/
def mark (newest : Bool) : List α → List (α × Bool)
  | [] => []
  | a :: rest => (a, newest) :: rest.map fun b => (b, false)

/-- Where the next page begins if a page ends in a group of which it has shown rows, or has not. -/
def endIn (resumed : Bool) (room : Nat) (g : Group α) (groups : List (Group α)) : Place α :=
  if seen visible room g.rows = [] then if resumed then ⟨some g, groups⟩ else ⟨none, groups⟩
  else ⟨some ⟨g.wanted, unshown visible room g.rows⟩, groups⟩

/-- The rest of a page: the groups that it opens, and those beyond. -/
def fill : Bool → Nat → List (Group α) → List (Group α) → List (α × Bool) × Option (Place α)
  | _, _, [], _ => ([], none)
  | resumed, room, g :: groups, beyond =>
    let shown := seen visible room g.rows
    let left := room - shown.length
    if (left = 0 ∧ groups ++ beyond ≠ []) ∨ room < g.rows.length then
      (mark (!resumed) shown, some (endIn visible resumed room g (groups ++ beyond)))
    else
      let rest := fill false left groups beyond
      (mark (!resumed) shown ++ rest.1, rest.2)

/-- The page at a place. It is refused in a group that is not to be shown. -/
def serve (size : Nat) (p : Place α) : Except Unit (List (α × Bool) × Option (Place α)) :=
  match p.opened with
  | none => .ok (fill visible false size (p.groups.take size) (p.groups.drop size))
  | some g =>
    if g.wanted then .ok (fill visible true size (g :: p.groups.take size) (p.groups.drop size))
    else .error ()

end Page

/-! ### What is to be shown, and when it is -/

section Spec
variable {α : Type*} (visible : α → Bool)

/-- What is to be shown of a group. -/
def Group.entries (g : Group α) : List (α × Bool) :=
  if g.wanted then (mark true g.rows).filter fun e => visible e.1 else []

/-- What is to be shown from a place on. -/
def Place.entries (p : Place α) : List (α × Bool) :=
  (p.opened.elim [] fun g => (g.rows.filter visible).map fun a => (a, false)) ++
    p.groups.flatMap (Group.entries visible)

def Place.rows (p : Place α) : List α := p.opened.elim [] Group.rows ++ p.groups.flatMap Group.rows

/-- Following the pages from a place shows what is to be shown, once each. -/
def Exact (size : Nat) (p : Place α) : Prop :=
  ∃ pages, Follows (serve visible size) p pages ∧ pages.flatten.Perm (p.entries visible)

/-- A hidden stretch as long as a page is the end of the group. -/
def NoStretch (size : Nat) (rows : List α) : Prop :=
  ∀ before stretch later, rows = before ++ stretch ++ later → stretch.length = size → later ≠ [] →
    ∃ a ∈ stretch, visible a = true

end Spec

/-! ### The rows behind the last one shown -/

section Rows
variable {α : Type*} {visible : α → Bool} {n : Nat} {rows : List α}

theorem seen_eq_nil_iff : seen visible n rows = [] ↔ ∀ a ∈ rows.take n, visible a = false := by
  simp [seen]

theorem filter_rtakeWhile_hidden (l : List α) : (l.rtakeWhile fun a => !visible a).filter visible = [] := by
  refine filter_eq_nil_iff.mpr fun a ha => ?_
  simpa using mem_rtakeWhile_imp ha

theorem unshown_of_seen_eq_nil (h : seen visible n rows = []) : unshown visible n rows = rows := by
  have hall : (rows.take n).rtakeWhile (fun a => !visible a) = rows.take n := by
    refine rtakeWhile_eq_self_iff.mpr fun a ha => ?_
    rw [seen_eq_nil_iff.mp h a ha]
    rfl
  rw [unshown, hall, take_append_drop]

/-- The rows in front of the last one shown, and those behind it. -/
theorem exists_unshown (h : seen visible n rows ≠ []) :
    ∃ front last, rows = front ++ last :: unshown visible n rows ∧ visible last = true ∧
      front.length < n ∧ seen visible n rows = front.filter visible ++ [last] := by
  have hsp := rdropWhile_append_rtakeWhile (p := fun a => !visible a) (l := rows.take n)
  have hne : (rows.take n).rdropWhile (fun a => !visible a) ≠ [] := by
    intro hnil
    refine h (seen_eq_nil_iff.mpr fun a ha => ?_)
    simpa using rdropWhile_eq_nil_iff.mp hnil a ha
  have hl := rdropWhile_last_not _ _ hne
  have hcn := dropLast_concat_getLast hne
  generalize ((rows.take n).rdropWhile fun a => !visible a).getLast hne = last at hl hcn
  generalize ((rows.take n).rdropWhile fun a => !visible a).dropLast = front at hcn
  have hv : visible last = true := by simpa using hl
  have hwn : rows.take n = front ++ last :: (rows.take n).rtakeWhile fun a => !visible a := by
    rw [← hcn] at hsp
    simpa using hsp.symm
  refine ⟨front, last, ?_, hv, ?_, ?_⟩
  · rw [unshown, ← cons_append, ← append_assoc, ← hwn, take_append_drop]
  · have hln := congrArg length hwn
    have hle := length_take_le n rows
    rw [length_append, length_cons] at hln
    omega
  · rw [seen, hwn, filter_append, filter_cons_of_pos hv, filter_rtakeWhile_hidden]

theorem length_unshown_lt (h : seen visible n rows ≠ []) : (unshown visible n rows).length < rows.length := by
  obtain ⟨front, last, hrw, -, -, -⟩ := exists_unshown h
  have hl := congrArg length hrw
  rw [length_append, length_cons] at hl
  omega

/-- What is visible of the rows behind the last one shown is beyond the next `n`. -/
theorem filter_unshown : (unshown visible n rows).filter visible = (rows.drop n).filter visible := by
  rw [unshown, filter_append, filter_rtakeWhile_hidden, nil_append]

theorem seen_append_filter_drop : seen visible n rows ++ (rows.drop n).filter visible = rows.filter visible := by
  rw [seen, ← filter_append, take_append_drop]

end Rows

/-! ### When all is shown -/

section Kept
variable {α : Type*} (visible : α → Bool)

/-- The room that is left on the page that comes to the end of a group. -/
def roomAfter (size room : Nat) (rows : List α) : Nat :=
  if room < rows.length ∧ seen visible room rows ≠ [] then roomAfter size size (unshown visible room rows)
  else room - (seen visible room rows).length
termination_by rows.length
decreasing_by exact length_unshown_lt (by tauto)

/-- The pages keep all that is to be shown: a page has `room` rows and `fresh` groups left. -/
def Kept (size : Nat) : Nat → Nat → List (Group α) → Prop
  | _, _, [] => True
  | _, 0, g :: groups => ∀ h ∈ g :: groups, h.entries visible = []
  | room, fresh + 1, g :: groups =>
    if seen visible room g.rows = [] then
      g.entries visible = [] ∧
        if room < g.rows.length then Kept size size size groups else Kept size room fresh groups
    else
      g.wanted = true ∧ (∀ a ∈ g.rows.head?, visible a = true) ∧ NoStretch visible size g.rows ∧
        if roomAfter visible size room g.rows = 0 then Kept size size size groups
        else Kept size (roomAfter visible size room g.rows) (if room < g.rows.length then size else fresh) groups

end Kept

section Stretches
variable {α : Type*} {visible : α → Bool} {size room : Nat} {rows : List α}

theorem noStretch_of_length_le (h : rows.length ≤ size) : NoStretch visible size rows := by
  intro before stretch later hrw hsz hlt
  have hl := congrArg length hrw
  have hpos := length_pos_of_ne_nil hlt
  rw [length_append, length_append] at hl
  omega

/-- A page that shows nothing of a group with more rows has met a hidden stretch. -/
theorem not_noStretch (hl : size < rows.length) (h : seen visible size rows = []) :
    ¬ NoStretch visible size rows := by
  intro hst
  obtain ⟨a, ha, hv⟩ := hst [] (rows.take size) (rows.drop size)
    (by rw [nil_append, take_append_drop]) (by rw [length_take]; omega)
    (ne_nil_of_length_pos (by rw [length_drop]; omega))
  rw [seen_eq_nil_iff.mp h a ha] at hv
  cases hv

/-- A hidden stretch begins behind the last row that a page shows of a group. -/
theorem noStretch_unshown (hrm : room ≤ size) (h : seen visible room rows ≠ []) :
    NoStretch visible size rows ↔ NoStretch visible size (unshown visible room rows) := by
  obtain ⟨front, last, hrw, hvis, hfront, -⟩ := exists_unshown h
  generalize unshown visible room rows = rest at hrw
  constructor
  · intro hst before stretch later hrest
    refine hst (front ++ last :: before) stretch later ?_
    rw [hrw, hrest]
    simp
  · intro hst before stretch later hsp hsz hlat
    rw [hrw, append_assoc] at hsp
    obtain ⟨behind, hbf, hrest⟩ | ⟨behind, hfr, hrest⟩ := append_eq_append_iff.mp hsp
    · -- The stretch begins behind the rows in front of the last one shown.
      cases behind with
      | nil =>
        have hf : last ∈ stretch := by
          cases stretch with
          | nil => exact absurd (hsz ▸ hfront.trans_le hrm) (Nat.not_lt_zero _)
          | cons first stretch =>
            cases hrest
            exact mem_cons_self
        exact ⟨last, hf, hvis⟩
      | cons first behind =>
        obtain ⟨-, ht⟩ := List.cons.inj hrest
        refine hst behind stretch later ?_ hsz hlat
        rw [append_assoc]
        exact ht
    · -- It begins in front of it, and is too long to end there.
      have hls : last ∈ stretch := by
        have hl := congrArg length hfr
        rw [length_append] at hl
        have hln : behind.length < stretch.length := by omega
        have hg : (stretch ++ later)[behind.length]? = some last := by
          rw [hrest, getElem?_append_right le_rfl]
          simp
        rw [getElem?_append_left hln] at hg
        exact mem_of_getElem? hg
      exact ⟨last, hls, hvis⟩

theorem roomAfter_cut (hl : room < rows.length) (h : seen visible room rows ≠ []) :
    roomAfter visible size room rows = roomAfter visible size size (unshown visible room rows) := by
  rw [roomAfter, if_pos ⟨hl, h⟩]

theorem roomAfter_fits (h : rows.length ≤ room) :
    roomAfter visible size room rows = room - (seen visible room rows).length := by
  rw [roomAfter, if_neg fun hcut => absurd hcut.1 h.not_gt]

/-- A group of which only hidden rows are left takes no room. -/
theorem roomAfter_unshown (h : rows.length ≤ room) (hle : room ≤ size) :
    roomAfter visible size size (unshown visible room rows) = size := by
  have hh : (unshown visible room rows).filter visible = [] := by
    rw [filter_unshown, drop_of_length_le h, filter_nil]
  have hl : (unshown visible room rows).length ≤ size := by
    by_cases hsn : seen visible room rows = []
    · rw [unshown_of_seen_eq_nil hsn]
      exact h.trans hle
    · exact (length_unshown_lt hsn).le.trans (h.trans hle)
  rw [roomAfter_fits hl, seen, take_of_length_le hl, hh]
  rfl

end Stretches

/-! ### Marks and entries -/

section Entries
variable {α : Type*} {visible : α → Bool}

theorem mark_append {newest : Bool} {l : List α} (h : l ≠ []) (later : List α) :
    mark newest (l ++ later) = mark newest l ++ later.map fun a => (a, false) := by
  cases l with
  | nil => exact absurd rfl h
  | cons a l => simp [mark]

variable {e : α × Bool}

theorem mem_of_mem_mark {newest : Bool} {l : List α} (h : e ∈ mark newest l) : e.1 ∈ l := by
  cases l with
  | nil => cases h
  | cons a l =>
    obtain rfl | h := mem_cons.mp h
    · exact mem_cons_self
    · obtain ⟨b, hb, rfl⟩ := mem_map.mp h
      exact mem_cons_of_mem _ hb

theorem mark_false (l : List α) : mark false l = l.map fun a => (a, false) := by
  cases l <;> rfl

/-- Of distinct rows the first one is marked. -/
theorem mark_eq_map {rows : List α} {newest : α → Bool} (hnd : rows.Nodup)
    (hnw : ∀ a ∈ rows, newest a = true ↔ rows.head? = some a) :
    mark true rows = rows.map fun a => (a, newest a) := by
  cases rows with
  | nil => rfl
  | cons first rest =>
    have hf : newest first = true := (hnw first mem_cons_self).mpr rfl
    have hrs : ∀ a ∈ rest, newest a = false := by
      intro a ha
      rw [Bool.eq_false_iff]
      intro ht
      have hsame := Option.some.inj ((hnw a (mem_cons_of_mem _ ha)).mp ht)
      exact (nodup_cons.mp hnd).1 (hsame ▸ ha)
    rw [mark, map_cons, hf]
    exact congrArg _ (map_congr_left fun a ha => by rw [hrs a ha])

variable {g : Group α}

/-- Of the rows of a group the first is marked. -/
theorem mem_entries (h : e ∈ g.entries visible) :
    g.wanted = true ∧ e.1 ∈ g.rows ∧ visible e.1 = true ∧ (e.2 = true → g.rows.head? = some e.1) := by
  unfold entries at h
  split_ifs at h with hwn
  · obtain ⟨hm, hv⟩ := mem_filter.mp h
    refine ⟨hwn, mem_of_mem_mark hm, hv, fun hnw => ?_⟩
    cases hrw : g.rows with
    | nil =>
      rw [hrw] at hm
      cases hm
    | cons a rest =>
      rw [hrw] at hm
      obtain rfl | hm := mem_cons.mp hm
      · rfl
      · obtain ⟨b, -, rfl⟩ := mem_map.mp hm
        cases hnw
  · cases h

theorem entries_eq_nil_of_hidden (h : ∀ a ∈ g.rows, visible a = false) : g.entries visible = [] := by
  refine eq_nil_iff_forall_not_mem.mpr fun e he => ?_
  obtain ⟨-, hrow, hv, -⟩ := mem_entries he
  rw [h e.1 hrow] at hv
  cases hv

/-- If the newest row is visible, what is to be shown is what the pages show. -/
theorem entries_of_newest {room : Nat} (hwn : g.wanted = true)
    (hnw : ∀ a ∈ g.rows.head?, visible a = true) (h : seen visible room g.rows ≠ []) :
    g.entries visible =
      mark true (seen visible room g.rows) ++ ((g.rows.drop room).filter visible).map fun a => (a, false) := by
  rw [← mark_append h, seen_append_filter_drop, entries, if_pos hwn]
  cases hrw : g.rows with
  | nil => rfl
  | cons a rest =>
    have hv : visible a = true := hnw a (by rw [hrw]; rfl)
    rw [filter_cons_of_pos hv, mark, mark, filter_cons_of_pos (by exact hv), filter_map]
    rfl

theorem mem_flatMap_rows {groups : List (Group α)}
    (h : e ∈ groups.flatMap (entries visible)) : e.1 ∈ groups.flatMap rows := by
  obtain ⟨g, hg, he⟩ := mem_flatMap.mp h
  exact mem_flatMap.mpr ⟨g, hg, (mem_entries he).2.1⟩

end Entries

/-! ### What a run shows -/

section Run
variable {α : Type*} {visible : α → Bool} {size room : Nat}

theorem mem_of_mem_unshown {n : Nat} {rows : List α} {a : α} (h : a ∈ unshown visible n rows) : a ∈ rows := by
  obtain h | h := mem_append.mp h
  · exact mem_of_mem_take ((rtakeWhile_suffix _ _).subset h)
  · exact mem_of_mem_drop h

theorem mem_endIn {resumed : Bool} {g : Group α} {groups : List (Group α)} {a : α}
    (h : a ∈ (endIn visible resumed room g groups).rows) : a ∈ (g :: groups).flatMap rows := by
  unfold endIn at h
  split_ifs at h with hnone hrs
  · exact h
  · exact mem_append_right _ h
  · obtain h | h := mem_append.mp h
    · exact mem_append_left _ (mem_of_mem_unshown h)
    · exact mem_append_right _ h

/-- A page shows rows of the groups that it opens, and goes on in them or beyond. -/
theorem mem_fill (visible : α → Bool) (resumed : Bool) (room : Nat) (groups beyond : List (Group α)) :
    (∀ e ∈ (fill visible resumed room groups beyond).1, e.1 ∈ groups.flatMap rows) ∧
      ∀ p, (fill visible resumed room groups beyond).2 = some p →
        ∀ a ∈ p.rows, a ∈ (groups ++ beyond).flatMap rows := by
  induction groups generalizing resumed room with
  | nil => exact ⟨nofun, nofun⟩
  | cons g groups ih =>
    have hsh : ∀ e ∈ mark (!resumed) (seen visible room g.rows), e.1 ∈ g.rows :=
      fun e he => mem_of_mem_take (mem_of_mem_filter (mem_of_mem_mark he))
    rw [fill]
    split_ifs
    · refine ⟨fun e he => mem_append_left _ (hsh e he), fun p hp a ha => ?_⟩
      cases hp
      exact mem_endIn ha
    · obtain ⟨hrs, hnx⟩ := ih false (room - (seen visible room g.rows).length)
      refine ⟨fun e he => ?_, fun p hp a ha => mem_append_right _ (hnx p hp a ha)⟩
      obtain he | he := mem_append.mp he
      · exact mem_append_left _ (hsh e he)
      · exact mem_append_right _ (hrs e he)

/-- A page shows rows of its place, and so do the pages after it. -/
theorem mem_serve {p : Place α} {shown : List (α × Bool)} {next : Option (Place α)}
    (h : serve visible size p = .ok (shown, next)) :
    (∀ e ∈ shown, e.1 ∈ p.rows) ∧ ∀ q, next = some q → ∀ a ∈ q.rows, a ∈ p.rows := by
  obtain ⟨opened, groups⟩ := p
  have ht : ∀ a, a ∈ (groups.take size).flatMap rows → a ∈ groups.flatMap rows := by
    intro a ha
    obtain ⟨g, hg, ha⟩ := mem_flatMap.mp ha
    exact mem_flatMap.mpr ⟨g, mem_of_mem_take hg, ha⟩
  cases opened with
  | none =>
    have hpg := Except.ok.inj h
    have hm := mem_fill visible false size (groups.take size) (groups.drop size)
    rw [hpg, take_append_drop] at hm
    exact ⟨fun e he => ht e.1 (hm.1 e he), hm.2⟩
  | some g =>
    simp only [serve] at h
    split_ifs at h with hwn
    have hpg := Except.ok.inj h
    have hm := mem_fill visible true size (g :: groups.take size) (groups.drop size)
    rw [hpg, cons_append, take_append_drop] at hm
    refine ⟨fun e he => ?_, hm.2⟩
    obtain ha | ha := mem_append.mp (hm.1 e he)
    · exact mem_append_left _ ha
    · exact mem_append_right _ (ht e.1 ha)

theorem mem_follows {p : Place α} {pages : List (List (α × Bool))} (h : Follows (serve visible size) p pages) :
    ∀ e ∈ pages.flatten, e.1 ∈ p.rows := by
  induction h with
  | last hsr => simpa using (mem_serve hsr).1
  | next hsr _ ih =>
    obtain ⟨hsh, hnx⟩ := mem_serve hsr
    intro e he
    obtain he | he := mem_append.mp (flatten_cons ▸ he)
    · exact hsh e he
    · exact hnx _ rfl e.1 (ih e he)

end Run

/-! ### The end of a run -/

section Ends
variable {α : Type*} {visible : α → Bool} {size : Nat} {shown todo : List (α × Bool)} {p : Place α}

/-- From a page on, with the part of it that is still to be filled, exactly `todo` is shown. -/
def Ends (visible : α → Bool) (size : Nat) (answer : List (α × Bool) × Option (Place α))
    (todo : List (α × Bool)) : Prop :=
  match answer.2 with
  | none => answer.1.Perm todo
  | some p => ∃ pages, Follows (serve visible size) p pages ∧ (answer.1 ++ pages.flatten).Perm todo

theorem exact_iff_ends {answer : List (α × Bool) × Option (Place α)} (h : serve visible size p = .ok answer) :
    Exact visible size p ↔ Ends visible size answer (p.entries visible) := by
  obtain ⟨shown, next⟩ := answer
  cases next with
  | none =>
    constructor
    · intro ⟨pages, hf, hpr⟩
      obtain rfl := (Follows.last h).unique hf
      rw [flatten_singleton] at hpr
      exact hpr
    · intro hpr
      refine ⟨[shown], .last h, ?_⟩
      rw [flatten_singleton]
      exact hpr
  | some q =>
    constructor
    · intro ⟨pages, hf, hpr⟩
      cases hf with
      | last hsr => cases h.symm.trans hsr
      | next hsr hrs =>
        obtain ⟨rfl, hq⟩ := Prod.mk.inj (Except.ok.inj (h.symm.trans hsr))
        cases hq
        exact ⟨_, hrs, by simpa using hpr⟩
    · intro ⟨pages, hf, hpr⟩
      exact ⟨shown :: pages, .next h hf, by simpa using hpr⟩

/-- What has been shown rightly is out of the way. -/
theorem ends_append {answer : List (α × Bool) × Option (Place α)} :
    Ends visible size (shown ++ answer.1, answer.2) (shown ++ todo) ↔ Ends visible size answer todo := by
  obtain ⟨first, next⟩ := answer
  cases next with
  | none => exact perm_append_left_iff shown
  | some q =>
    refine exists_congr fun pages => and_congr_right fun _ => ?_
    rw [append_assoc]
    exact perm_append_left_iff shown

theorem ends_some :
    Ends visible size (shown, some p) (shown ++ p.entries visible) ↔ Exact visible size p :=
  exists_congr fun _ => and_congr_right fun _ => perm_append_left_iff shown

/-- What is shown is to be shown. -/
theorem Ends.mem_of_mem_shown {answer : List (α × Bool) × Option (Place α)} (h : Ends visible size answer todo)
    {e : α × Bool} (he : e ∈ answer.1) : e ∈ todo := by
  obtain ⟨shown, next⟩ := answer
  cases next with
  | none => exact h.mem_iff.mp he
  | some q =>
    obtain ⟨pages, -, hpr⟩ := h
    exact hpr.mem_iff.mp (mem_append_left _ he)

end Ends

section Exact
variable {α : Type*} {visible : α → Bool} {size : Nat}

def weight : List (Group α) → Nat
  | [] => 0
  | g :: groups => g.rows.length + 1 + weight groups

def Place.weight (p : Place α) : Nat := p.opened.elim 0 (fun g => g.rows.length) + Nested.weight p.groups

/-- The pages from a place on keep all that is to be shown. -/
def KeptAt (visible : α → Bool) (size : Nat) (p : Place α) : Prop :=
  match p.opened with
  | none => Kept visible size size size p.groups
  | some g => NoStretch visible size g.rows ∧
    if roomAfter visible size size g.rows = 0 then Kept visible size size size p.groups
    else Kept visible size (roomAfter visible size size g.rows) size p.groups

/-- The exactness of places of less weight. -/
def ExactBelow (visible : α → Bool) (size bound : Nat) : Prop :=
  ∀ p : Place α, p.weight < bound → p.rows.Nodup → (∀ g ∈ p.opened, g.wanted = true) →
    (Exact visible size p ↔ KeptAt visible size p)

variable {bound : Nat} {groups : List (Group α)}

/-- A page in progress that shows nothing of the next group. -/
theorem ends_hidden_iff (hbl : ExactBelow visible size bound) {g : Group α}
    (hbn : weight (g :: groups) ≤ bound)
    (hnd : ((g :: groups).flatMap rows).Nodup) :
    Ends visible size ([], some ⟨none, groups⟩) ((g :: groups).flatMap (entries visible)) ↔
      g.entries visible = [] ∧ Kept visible size size size groups := by
  obtain ⟨-, hrs, hd⟩ := nodup_append'.mp hnd
  have hex : Exact visible size ⟨none, groups⟩ ↔ Kept visible size size size groups := by
    refine hbl ⟨none, groups⟩ ?_ hrs nofun
    rw [weight] at hbn
    simp only [Place.weight, Option.elim]
    omega
  have hnone : ∀ _ : g.entries visible = [], (Ends visible size ([], some ⟨none, groups⟩)
      (g.entries visible ++ groups.flatMap (entries visible)) ↔ Exact visible size ⟨none, groups⟩) := by
    intro hent
    rw [hent]
    exact ends_some
  constructor
  · intro hen
    have hent : g.entries visible = [] := by
      refine eq_nil_iff_forall_not_mem.mpr fun e he => ?_
      obtain ⟨pages, hf, hpr⟩ := hen
      have hsh : e ∈ pages.flatten := by
        simpa using hpr.mem_iff.mpr (mem_append_left _ he)
      exact hd (mem_entries he).2.1 (mem_follows hf e hsh)
    exact ⟨hent, hex.mp ((hnone hent).mp hen)⟩
  · intro ⟨hent, hkp⟩
    exact (hnone hent).mpr (hex.mpr hkp)

variable {room : Nat}

/-- What a page shows of a group is to be shown, and the first row is the newest. -/
theorem newest_of_ends {g : Group α} {later : List (α × Bool)} {next : Option (Place α)}
    (hnd : ((g :: groups).flatMap rows).Nodup) (hsn : seen visible room g.rows ≠ [])
    (h : Ends visible size (mark true (seen visible room g.rows) ++ later, next)
      ((g :: groups).flatMap (entries visible))) :
    g.wanted = true ∧ ∀ a ∈ g.rows.head?, visible a = true := by
  obtain ⟨first, rest, hf⟩ := exists_cons_of_ne_nil hsn
  have hrow : first ∈ seen visible room g.rows := by simp [hf]
  obtain ⟨ht, hv⟩ := mem_filter.mp hrow
  have hm : (first, true) ∈ g.entries visible ++ groups.flatMap (entries visible) := by
    refine h.mem_of_mem_shown ?_
    rw [hf]
    exact mem_cons_self
  obtain ⟨-, -, hd⟩ := nodup_append'.mp hnd
  obtain hm | hm := mem_append.mp hm
  · obtain ⟨hwn, -, -, hh⟩ := mem_entries hm
    refine ⟨hwn, fun a ha => ?_⟩
    cases (hh rfl).symm.trans ha
    exact hv
  · exact absurd (mem_flatMap_rows hm) (hd (mem_of_mem_take ht))

/-- The next page begins in a group of which rows have been shown. -/
theorem exact_opened_iff (hbl : ExactBelow visible size bound) (hle : room ≤ size)
    {rows : List α} (hsn : seen visible room rows ≠ [])
    (hbn : rows.length + weight groups ≤ bound)
    (hnd : (rows ++ groups.flatMap Group.rows).Nodup) :
    Exact visible size ⟨some ⟨true, unshown visible room rows⟩, groups⟩ ↔
      NoStretch visible size rows ∧
        if roomAfter visible size size (unshown visible room rows) = 0 then Kept visible size size size groups
        else Kept visible size (roomAfter visible size size (unshown visible room rows)) size groups := by
  rw [noStretch_unshown hle hsn]
  refine hbl ⟨some ⟨true, unshown visible room rows⟩, groups⟩ ?_ ?_ ?_
  · have hl := length_unshown_lt hsn
    simp only [Place.weight, Option.elim]
    omega
  · obtain ⟨front, last, hrw, -, -, -⟩ := exists_unshown hsn
    have hsf : unshown visible room rows <:+ rows := ⟨front ++ [last], by rw [append_assoc]; exact hrw.symm⟩
    exact hnd.sublist (hsf.sublist.append (.refl _))
  · intro g hg
    cases hg
    rfl

/-- A page in progress that shows rows of the next group, or of the one it has begun in. -/
theorem ends_shown_iff (hbel : ExactBelow visible size bound) (hle : room ≤ size)
    {rows : List α} (hseen : seen visible room rows ≠ [])
    (hbound : rows.length + weight groups ≤ bound)
    (hnod : (rows ++ groups.flatMap Group.rows).Nodup) (shown : List (α × Bool)) (fresh : Nat)
    (hon : ∀ left, 0 < left → left ≤ size →
      (Ends visible size (fill visible false left (groups.take fresh) (groups.drop fresh))
        (groups.flatMap (entries visible)) ↔ Kept visible size left fresh groups)) :
    Ends visible size
        (if (room - (seen visible room rows).length = 0 ∧ groups ≠ []) ∨ room < rows.length then
          (shown, some ⟨some ⟨true, unshown visible room rows⟩, groups⟩)
        else
          (shown ++ (fill visible false (room - (seen visible room rows).length) (groups.take fresh)
            (groups.drop fresh)).1, (fill visible false (room - (seen visible room rows).length)
            (groups.take fresh) (groups.drop fresh)).2))
        (shown ++ (((rows.drop room).filter visible).map fun a => (a, false)) ++
          groups.flatMap (entries visible)) ↔
      NoStretch visible size rows ∧
        if roomAfter visible size room rows = 0 then Kept visible size size size groups
        else Kept visible size (roomAfter visible size room rows) (if room < rows.length then size else fresh)
          groups := by
  have hent : (((rows.drop room).filter visible).map fun a => (a, false)) ++
      groups.flatMap (entries visible) =
        Place.entries visible ⟨some ⟨true, unshown visible room rows⟩, groups⟩ := by
    rw [← filter_unshown]
    rfl
  have hop := exact_opened_iff hbel hle hseen hbound hnod
  rw [append_assoc]
  by_cases hcut : room < rows.length
  · rw [if_pos (.inr hcut), if_pos hcut, hent, ends_some, hop, roomAfter_cut hcut hseen]
  · have hf := not_lt.mp hcut
    rw [and_iff_right (noStretch_of_length_le (hf.trans hle)), if_neg hcut, roomAfter_fits hf]
    have hnone : rows.drop room = [] := drop_of_length_le hf
    by_cases hfl : room - (seen visible room rows).length = 0
    · rw [if_pos hfl]
      by_cases hm : groups = []
      · rw [if_neg (by tauto), hnone, hm, take_nil, drop_nil, fill, Kept]
        exact iff_of_true (.refl _) trivial
      · -- The page is full: the next one begins in what is hidden at the end of the group.
        rw [if_pos (.inl ⟨hfl, hm⟩), hent, ends_some, hop, roomAfter_unshown hf hle, ite_self,
          and_iff_right (noStretch_of_length_le (hf.trans hle))]
    · rw [if_neg hfl, if_neg (by tauto), hnone]
      exact ends_append.trans (hon _ (Nat.pos_of_ne_zero hfl) ((Nat.sub_le _ _).trans hle))

/-- A page in progress. -/
theorem ends_fill_iff (hbel : ExactBelow visible size bound)
    {fresh : Nat} (hroom : 0 < room) (hle : room ≤ size)
    (hbound : weight groups ≤ bound)
    (hnod : (groups.flatMap rows).Nodup) :
    Ends visible size (fill visible false room (groups.take fresh) (groups.drop fresh))
        (groups.flatMap (entries visible)) ↔
      Kept visible size room fresh groups := by
  induction groups generalizing room fresh with
  | nil =>
    rw [take_nil, drop_nil, fill, Kept]
    exact iff_of_true (.refl []) trivial
  | cons g groups ih =>
    cases fresh with
    | zero =>
      rw [take_zero, drop_zero, fill, Kept]
      show List.Perm _ _ ↔ _
      rw [nil_perm, flatMap_eq_nil_iff]
    | succ fresh =>
      rw [take_succ_cons, drop_succ_cons, fill, take_append_drop, Kept]
      have hrestb : weight groups ≤ bound := by
        rw [weight] at hbound
        omega
      have hgroupb : g.rows.length + weight groups ≤ bound := by
        rw [weight] at hbound
        omega
      have hrs : (groups.flatMap rows).Nodup := by
        exact (nodup_append'.mp hnod).2.1
      by_cases hseen : seen visible room g.rows = []
      · simp only [hseen, length_nil, Nat.sub_zero, endIn]
        by_cases hcut : room < g.rows.length
        · rw [if_pos (.inr hcut), if_pos hcut]
          exact ends_hidden_iff hbel hbound hnod
        · have hon : ¬ ((room = 0 ∧ groups ≠ []) ∨ room < g.rows.length) := by omega
          have hent : g.entries visible = [] := by
            refine entries_eq_nil_of_hidden fun a ha => seen_eq_nil_iff.mp hseen a ?_
            rwa [take_of_length_le (not_lt.mp hcut)]
          rw [if_neg hon, if_neg hcut, flatMap_cons, hent]
          exact (ih hroom hle hrestb hrs).trans (and_iff_right rfl).symm
      · rw [if_neg hseen]
        by_cases hg : g.wanted = true ∧ ∀ a ∈ g.rows.head?, visible a = true
        · obtain ⟨hwn, hnw⟩ := hg
          rw [flatMap_cons, entries_of_newest hwn hnw hseen]
          simp only [endIn, if_neg hseen, hwn, true_and]
          rw [and_iff_right hnw]
          exact ends_shown_iff hbel hle hseen hgroupb hnod _ _
            fun left hpos hl => ih hpos hl hrestb hrs
        · refine iff_of_false (fun hen => hg ?_) fun hkp => hg ⟨hkp.1, hkp.2.1⟩
          split_ifs at hen
          · rw [← append_nil (mark _ _)] at hen
            exact newest_of_ends hnod hseen hen
          · exact newest_of_ends hnod hseen hen

/-- **Pages through groups show what they are to show if and only if they keep it.** -/
theorem exact_iff_keptAt (hsize : 0 < size) (p : Place α) (hnod : p.rows.Nodup)
    (hwn : ∀ g ∈ p.opened, g.wanted = true) : Exact visible size p ↔ KeptAt visible size p := by
  induction hn : p.weight using Nat.strong_induction_on generalizing p with
  | _ n ih =>
    have hbel : ExactBelow visible size n := fun q hq hnod hwn => ih q.weight hq q hnod hwn rfl
    obtain ⟨opened, groups⟩ := p
    cases opened with
    | none =>
      have hbound : weight groups ≤ n := by
        simp only [Place.weight] at hn
        omega
      have hserve : serve visible size ⟨none, groups⟩ =
          .ok (fill visible false size (groups.take size) (groups.drop size)) := rfl
      rw [exact_iff_ends hserve]
      exact ends_fill_iff hbel hsize le_rfl hbound hnod
    | some g =>
      obtain ⟨wanted, rows⟩ := g
      obtain rfl : wanted = true := hwn _ rfl
      have hbound : rows.length + weight groups ≤ n := hn.le
      have hserve : serve visible size ⟨some ⟨true, rows⟩, groups⟩ =
          .ok (fill visible true size (⟨true, rows⟩ :: groups.take size) (groups.drop size)) := rfl
      have hrn : (groups.flatMap Group.rows).Nodup := (nodup_append'.mp hnod).2.1
      have hon : ∀ left, 0 < left → left ≤ size →
          (Ends visible size (fill visible false left (groups.take size) (groups.drop size))
            (groups.flatMap (entries visible)) ↔ Kept visible size left size groups) :=
        fun left hpos hleft => ends_fill_iff hbel hpos hleft (by omega) hrn
      have hen : Place.entries visible ⟨some ⟨true, rows⟩, groups⟩ =
          mark false (seen visible size rows) ++ (((rows.drop size).filter visible).map fun a => (a, false)) ++
            groups.flatMap (entries visible) := by
        rw [mark_false, ← map_append, seen_append_filter_drop]
        rfl
      rw [exact_iff_ends hserve, hen, fill, take_append_drop]
      by_cases hseen : seen visible size rows = []
      · have hm : mark (!true) (seen visible size rows) = [] := by rw [hseen]; rfl
        by_cases hcut : size < rows.length
        · -- The page leads to itself.
          have hself : serve visible size ⟨some ⟨true, rows⟩, groups⟩ =
              .ok ([], some ⟨some ⟨true, rows⟩, groups⟩) := by
            rw [hserve, fill, take_append_drop, if_pos (.inr hcut), endIn, if_pos hseen, hm]
            rfl
          refine iff_of_false (fun hends => ?_) fun hkp => not_noStretch hcut hseen hkp.1
          rw [if_pos (.inr hcut), endIn, if_pos hseen] at hends
          obtain ⟨pages, hfl, -⟩ := hends
          exact Follows.not_of_self hself pages hfl
        · have hf := not_lt.mp hcut
          have hleft : size - (seen visible size rows).length = size := by rw [hseen]; rfl
          have ho : ¬ ((size = 0 ∧ groups ≠ []) ∨ size < rows.length) := by omega
          have hnone : rows.drop size = [] := drop_of_length_le hf
          rw [KeptAt]
          simp only [hleft, if_neg ho, hnone, roomAfter_fits hf, ite_self]
          rw [hseen, and_iff_right (noStretch_of_length_le hf)]
          exact hon size hsize le_rfl
      · have hsh := ends_shown_iff hbel le_rfl hseen hbound hnod (mark false (seen visible size rows)) size hon
        rw [ite_self] at hsh
        simp only [endIn, if_neg hseen]
        exact hsh

end Exact

end AeroVault.Lib.Nested
