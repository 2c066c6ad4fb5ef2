import Mathlib

/-! Listings that are read page by page.

A listing is a list in key order; a marker is a key, and what lies `after` it is still to
come. A server hands out pages with a marker to go on from (`Serves`). Code that scans the
pages of a server one after the other does the same as one pass over the list
(`scanPages_eq_fold`), and a client that follows the markers of pages that each take the
next entries gets every entry once and in order (`exists_follows`). -/
namespace AeroVault.Lib
open List

section After
variable {α κ : Type*} [LinearOrder κ] {key : α → κ}

/-- What is still to come after a marker. -/
def after (key : α → κ) (source : List α) (marker : κ) : List α :=
  source.filter fun a => marker < key a

variable {source : List α} {marker : κ}

theorem mem_after {a : α} : a ∈ after key source marker ↔ a ∈ source ∧ marker < key a := by
  simp [after]

theorem after_filter (source : List α) (p : α → Bool) (marker : κ) :
    after key (source.filter p) marker = (after key source marker).filter p := by
  rw [after, after, filter_filter, filter_filter]
  exact filter_congr fun a _ => Bool.and_comm _ _

/-- Entries in strict key order. -/
abbrev InOrder (key : α → κ) (source : List α) : Prop := source.Pairwise fun a b => key a < key b

/-- Of a list in order, what comes after one of its entries. -/
theorem after_split {front rest : List α} {a : α} (h : InOrder key (front ++ a :: rest)) :
    after key (front ++ a :: rest) (key a) = rest := by
  obtain ⟨-, hrs, hcr⟩ := pairwise_append.mp h
  have hf : front.filter (fun b => key a < key b) = [] := by
    rw [filter_eq_nil_iff]
    intro b hb
    simpa using (hcr b hb a mem_cons_self).le
  have ht : rest.filter (fun b => key a < key b) = rest := by
    rw [filter_eq_self]
    intro b hb
    simpa using rel_of_pairwise_cons hrs hb
  simp [after, hf, ht]

theorem inOrder_after (h : InOrder key source) (marker : κ) : InOrder key (after key source marker) :=
  h.filter _

/-- Markers only move forward. -/
theorem after_after {marker' : κ} (h : marker ≤ marker') :
    after key (after key source marker) marker' = after key source marker' := by
  rw [after, after, filter_filter]
  refine filter_congr fun a _ => ?_
  rw [← Bool.decide_and, decide_eq_decide]
  exact ⟨fun hbt => hbt.1, fun hlt => ⟨hlt, h.trans_lt hlt⟩⟩

/-- What comes after the last entry of a page is what the page has not taken. -/
theorem after_key_getLast {taken rest : List α} {last : α}
    (h : InOrder key source) (hsp : after key source marker = taken ++ rest)
    (hl : taken.getLast? = some last) : after key source (key last) = rest := by
  obtain ⟨front, rfl⟩ := getLast?_eq_some_iff.mp hl
  have hm : last ∈ after key source marker := by simp [hsp]
  have ho := inOrder_after h marker
  rw [← after_after (mem_after.mp hm).2.le]
  rw [hsp, append_assoc] at ho ⊢
  exact after_split ho

end After

/-! ### Servers of pages -/

/-- `ListPage`. -/
structure ListPage (α κ : Type*) where
  objects : List α
  nextMarker : κ
  hasMore : Bool
  deriving DecidableEq

section Scan
variable {α κ ρ σ : Type*} [LinearOrder κ] {key : α → κ}

/-- The server answers each marker with the next entries of the source, as many as it
likes but not none, and the key of the last one to go on from. -/
def Serves (key : α → κ) (source : List α) (fetch : κ → Except ρ (ListPage α κ)) : Prop :=
  ∀ marker, ∃ page rest, fetch marker = .ok page ∧
    after key source marker = page.objects ++ rest ∧ (page.hasMore = true ↔ rest ≠ []) ∧
    (page.hasMore = true → ∃ last, page.objects.getLast? = some last ∧ page.nextMarker = key last)

/-- A page of at most `size` entries, from a query for one entry more. -/
def cutPage (key : α → κ) (start : κ) (size : Nat) (rows : List α) : ListPage α κ :=
  if size < rows.length then
    let objects := rows.take size
    ⟨objects, (objects.getLast?.map key).getD start, true⟩
  else ⟨rows, start, false⟩

/-- One entry more than the page holds tells whether there is more. -/
theorem lt_length_lookahead (size : Nat) (rows : List α) :
    size < (rows.take (size + 1)).length ↔ size < rows.length := by
  rw [length_take]
  omega

theorem cut_lookahead (size : Nat) (rows : List α) :
    (if size < (rows.take (size + 1)).length then (rows.take (size + 1)).take size else rows.take (size + 1)) =
      rows.take size := by
  split_ifs with hl
  · rw [take_take, Nat.min_eq_left (Nat.le_succ _)]
  · have hsh := not_lt.mp fun h => hl ((lt_length_lookahead size rows).mpr h)
    rw [take_of_length_le hsh, take_of_length_le (hsh.trans (Nat.le_succ _))]

/-- A query for one entry more than the page holds makes a server. -/
theorem serves_cutPage (key : α → κ) (start : κ) (source : List α) {size : Nat} (hsz : 0 < size) :
    Serves key source fun marker =>
      (.ok (cutPage key start size ((after key source marker).take (size + 1))) : Except ρ _) := by
  intro marker
  refine ⟨_, (after key source marker).drop size, rfl, ?_⟩
  unfold cutPage
  rw [length_take]
  split_ifs with hl
  · have hm : size < (after key source marker).length := by omega
    refine ⟨?_, ?_, fun _ => ?_⟩
    · rw [take_take, Nat.min_eq_left (Nat.le_succ size), take_append_drop]
    · simpa using hm
    · have hne : ((after key source marker).take (size + 1)).take size ≠ [] := by
        refine ne_nil_of_length_pos ?_
        simp only [length_take]
        omega
      refine ⟨_, getLast?_eq_some_getLast hne, ?_⟩
      simp only [getLast?_eq_some_getLast hne, Option.map_some, Option.getD_some]
  · have hall : (after key source marker).length ≤ size := by omega
    refine ⟨?_, ?_, nofun⟩
    · rw [take_of_length_le (hall.trans (Nat.le_succ size)), drop_of_length_le hall,
        append_nil]
    · simpa using hall

/-- A loop over the pages of a server. Each entry is visited; a visit may end the loop with
a result. The loop also ends after the last page, and where a page does not lead on. -/
def scanPages (fetch : κ → Except ρ (ListPage α κ)) (visit : σ → α → Except ρ σ)
    (leadsOn : κ → κ → Bool) (finish halt : σ → ρ) : Nat → κ → σ → Option ρ
  | 0, _, _ => none
  | fuel + 1, cursor, st =>
    match fetch cursor with
    | .error result => some result
    | .ok page =>
      match page.objects.foldlM visit st with
      | .error result => some result
      | .ok st =>
        if !page.hasMore then some (finish st)
        else if !leadsOn cursor page.nextMarker then some (halt st)
        else scanPages fetch visit leadsOn finish halt fuel page.nextMarker st

/-- How a pass ends. -/
def finished (finish : σ → ρ) : Except ρ σ → ρ
  | .error result => result
  | .ok st => finish st

/-- **A scan of the pages is one pass over the source**, whatever the server's page size, and
as many rounds as there are entries to come are enough. -/
theorem scanPages_eq_fold {source : List α} {fetch : κ → Except ρ (ListPage α κ)}
    (hord : InOrder key source) (hsr : Serves key source fetch) (visit : σ → α → Except ρ σ)
    {leadsOn : κ → κ → Bool} (hon : ∀ marker, ∀ a ∈ after key source marker, leadsOn marker (key a))
    (finish halt : σ → ρ) (fuel : Nat) (cursor : κ) (st : σ)
    (hfuel : (after key source cursor).length < fuel) :
    scanPages fetch visit leadsOn finish halt fuel cursor st =
      some (finished finish ((after key source cursor).foldlM visit st)) := by
  induction fuel generalizing cursor st with
  | zero => omega
  | succ fuel ih =>
    obtain ⟨page, rest, hf, hsplit, hm, hnx⟩ := hsr cursor
    rw [hsplit, foldlM_append]
    cases hps : page.objects.foldlM visit st with
    | error result => simp only [scanPages, hf, hps]; rfl
    | ok st' =>
      simp only [scanPages, hf, hps]
      show _ = some (finished finish (rest.foldlM visit st'))
      cases hh : page.hasMore with
      | false =>
        have hrs : rest = [] := by
          by_contra hne
          rw [hm.mpr hne] at hh
          cases hh
        rw [hrs]
        rfl
      | true =>
        obtain ⟨last, hl, hkey⟩ := hnx hh
        have hmem : last ∈ after key source cursor := by
          rw [hsplit]
          exact mem_append_left _ (mem_of_getLast? hl)
        have hrs := after_key_getLast hord hsplit hl
        have hsh : rest.length < fuel := by
          have hpos := length_pos_of_mem (mem_of_getLast? hl)
          rw [hsplit, length_append] at hfuel
          omega
        rw [hkey]
        simp only [Bool.not_true, Bool.false_eq_true, if_false, hon cursor last hmem]
        rw [ih _ _ (by rw [hrs]; exact hsh), hrs]

end Scan

/-! ### Clients that follow the markers -/

section Follow
variable {ε κ P ι : Type*}

/-- The pages a client gets that asks again with each marker it is given, until it is given
none. There are none if an answer is an error or the markers never end. -/
inductive Follows (serve : κ → Except ε (P × Option κ)) : κ → List P → Prop
  | last {marker : κ} {page : P} : serve marker = .ok (page, none) → Follows serve marker [page]
  | next {marker marker' : κ} {page : P} {pages : List P} :
      serve marker = .ok (page, some marker') → Follows serve marker' pages →
      Follows serve marker (page :: pages)

variable {serve : κ → Except ε (P × Option κ)} {marker : κ} {pages : List P}

/-- A marker leads to one list of pages. -/
theorem Follows.unique {pages' : List P}
    (h : Follows serve marker pages) (h' : Follows serve marker pages') : pages = pages' := by
  induction h generalizing pages' with
  | last hsr =>
    cases h' with
    | last hsr' =>
      cases hsr.symm.trans hsr'
      rfl
    | next hsr' _ => cases hsr.symm.trans hsr'
  | next hsr _ ih =>
    cases h' with
    | last hsr' => cases hsr.symm.trans hsr'
    | next hsr' hrs =>
      obtain ⟨rfl, hm⟩ := Prod.mk.inj (Except.ok.inj (hsr.symm.trans hsr'))
      cases hm
      rw [ih hrs]

/-- A marker that leads to itself leads nowhere. -/
theorem Follows.not_of_self {page : P}
    (hself : serve marker = .ok (page, some marker)) (pages : List P) : ¬ Follows serve marker pages := by
  intro h
  have hl := congrArg length (h.unique (.next hself h))
  exact absurd hl (Nat.lt_succ_self _).ne

section Alike
variable {ε' σ Q : Type*} {serve' : σ → Except ε' (Q × Option σ)} {R : κ → σ → Prop} {S : P → Q → Prop} {place : σ}

/-- Both servers answer, with pages and markers that belong together, or neither does. -/
def Alike (serve : κ → Except ε (P × Option κ)) (serve' : σ → Except ε' (Q × Option σ)) (R : κ → σ → Prop)
    (S : P → Q → Prop) (marker : κ) (place : σ) : Prop :=
  (∃ page next shown next', serve marker = .ok (page, next) ∧ serve' place = .ok (shown, next') ∧
    S page shown ∧ Option.Rel R next next') ∨
  (∃ err, serve marker = .error err) ∧ ∃ err, serve' place = .error err

theorem Alike.symm (h : Alike serve serve' R S marker place) : Alike serve' serve (flip R) (flip S) place marker := by
  obtain ⟨page, next, shown, next', hsr, hsr', hsh, hnx⟩ | ⟨herr, herr'⟩ := h
  · refine .inl ⟨shown, next', page, next, hsr', hsr, hsh, ?_⟩
    cases hnx with
    | some hpl => exact .some hpl
    | none => exact .none
  · exact .inr ⟨herr', herr⟩

/-- A client of one server has the same run with another that answers alike. -/
theorem Follows.simulate (hst : ∀ marker place, R marker place → Alike serve serve' R S marker place)
    (h : Follows serve marker pages) (hpl : R marker place) :
    ∃ shown, Follows serve' place shown ∧ List.Forall₂ S pages shown := by
  have hok {marker place page next} (hpl : R marker place) (hsr : serve marker = .ok (page, next)) :
      ∃ shown next', serve' place = .ok (shown, next') ∧ S page shown ∧ Option.Rel R next next' := by
    obtain ⟨_, _, shown, next', hsr', hok⟩ | ⟨⟨err, herr⟩, -⟩ := hst _ _ hpl
    · cases hsr.symm.trans hsr'
      exact ⟨shown, next', hok⟩
    · cases hsr.symm.trans herr
  induction h generalizing place with
  | last hsr =>
    obtain ⟨shown, next, hsr', hsh, hnx⟩ := hok hpl hsr
    cases hnx
    exact ⟨[shown], .last hsr', .cons hsh .nil⟩
  | next hsr _ ih =>
    obtain ⟨shown, next, hsr', hsh, hnx⟩ := hok hpl hsr
    cases hnx with
    | some hpl' =>
      obtain ⟨later, hf, hl⟩ := ih hpl'
      exact ⟨shown :: later, .next hsr' hf, .cons hsh hl⟩

end Alike

/-- A page takes the next entries of what is still to come, at most `limit` of them, and its
marker leaves the rest. -/
def TakesNext (todo : κ → List ι) (limit : Nat) (Shows : P → List ι → Prop) (marker : κ)
    (answer : P × Option κ) : Prop :=
  ∃ taken rest, todo marker = taken ++ rest ∧ Shows answer.1 taken ∧ taken.length ≤ limit ∧
    (answer.2 = none → rest = []) ∧ ∀ marker', answer.2 = some marker' → taken ≠ [] ∧ todo marker' = rest

variable {Shows : P → List ι → Prop}

/-- **Pages that each take the next entries give every entry once and in order**, and the
client comes to the end. -/
theorem exists_follows {todo : κ → List ι} {limit : Nat}
    (hsr : ∀ marker, ∃ answer, serve marker = .ok answer ∧ TakesNext todo limit Shows marker answer)
    (marker : κ) :
    ∃ pages shown, Follows serve marker pages ∧ List.Forall₂ Shows pages shown ∧
      shown.flatten = todo marker ∧ ∀ entries ∈ shown, entries.length ≤ limit := by
  induction hn : (todo marker).length using Nat.strong_induction_on generalizing marker with
  | _ n ih =>
    obtain ⟨⟨page, next⟩, hok, taken, rest, hsp, hsh, hshort, hls, hnx⟩ := hsr marker
    cases next with
    | none =>
      refine ⟨[page], [taken], .last hok, .cons hsh .nil, ?_, ?_⟩
      · simp [hsp, hls rfl]
      · simpa using hshort
    | some marker' =>
      obtain ⟨hne, hrs⟩ := hnx marker' rfl
      have hless : (todo marker').length < n := by
        have hpos := length_pos_of_ne_nil hne
        rw [← hn, hsp, hrs, length_append]
        omega
      obtain ⟨pages, shown, hf, hpg, hall, hl⟩ := ih _ hless marker' rfl
      refine ⟨page :: pages, taken :: shown, .next hok hf, .cons hsh hpg, ?_, ?_⟩
      · rw [flatten_cons, hall, hrs, hsp]
      · intro entries hen
        obtain rfl | hen := mem_cons.mp hen
        · exact hshort
        · exact hl entries hen

/-- A part of the pages that is read off the entries they show. -/
theorem flatMap_eq_of_shows {β : Type*} {part : P → List β}
    {f : ι → Option β} (hpr : ∀ page entries, Shows page entries → part page = entries.filterMap f)
    {shown : List (List ι)} (h : List.Forall₂ Shows pages shown) :
    pages.flatMap part = shown.flatten.filterMap f := by
  induction h with
  | nil => rfl
  | cons hpg _ ih =>
    rw [flatMap_cons, flatten_cons, filterMap_append, hpr _ _ hpg, ih]

theorem exists_shown {shown : List (List ι)}
    (h : List.Forall₂ Shows pages shown) {page : P} (hpg : page ∈ pages) :
    ∃ entries ∈ shown, Shows page entries := by
  induction h with
  | nil => cases hpg
  | cons hf _ ih =>
    obtain rfl | hpg := mem_cons.mp hpg
    · exact ⟨_, mem_cons_self, hf⟩
    · obtain ⟨entries, hen, hsh⟩ := ih hpg
      exact ⟨entries, mem_cons_of_mem _ hen, hsh⟩

end Follow

section ServedPages
variable {α κ ε : Type*} {key : α → κ}

/-- The marker to go on from. -/
def ListPage.next? (page : ListPage α κ) : Option κ := if page.hasMore then some page.nextMarker else none

theorem ListPage.next?_eq_none {page : ListPage α κ} : page.next? = none ↔ page.hasMore = false := by
  cases h : page.hasMore <;> simp [ListPage.next?, h]

theorem ListPage.next?_eq_some {page : ListPage α κ} {marker : κ} :
    page.next? = some marker ↔ page.hasMore = true ∧ page.nextMarker = marker := by
  cases h : page.hasMore <;> simp [ListPage.next?, h]

/-- What a client is answered. -/
def following (fetch : κ → Except ε (ListPage α κ)) (marker : κ) : Except ε (ListPage α κ × Option κ) :=
  match fetch marker with
  | .error err => .error err
  | .ok page => .ok (page, page.next?)

/-- The pages of a server hold at most `limit` entries. -/
def PagesWithin (limit : Nat) (fetch : κ → Except ε (ListPage α κ)) : Prop :=
  ∀ marker page, fetch marker = .ok page → page.objects.length ≤ limit

/-- **Following the pages of a server lists its source.** -/
theorem Serves.exists_follows [LinearOrder κ] {source : List α} {fetch : κ → Except ε (ListPage α κ)} {limit : Nat}
    (ho : InOrder key source) (hsr : Serves key source fetch) (hwt : PagesWithin limit fetch) (marker : κ) :
    ∃ pages, Follows (following fetch) marker pages ∧
      pages.flatMap (·.objects) = after key source marker ∧
      ∀ page ∈ pages, page.objects.length ≤ limit := by
  have ht : ∀ marker, ∃ answer, following fetch marker = .ok answer ∧
      TakesNext (after key source) limit (fun page shown => page.objects = shown) marker answer := by
    intro marker
    obtain ⟨page, rest, hf, hsp, hmr, hnx⟩ := hsr marker
    refine ⟨(page, page.next?), by rw [following, hf], _, rest, hsp, rfl,
      hwt marker page hf, fun hnone => ?_, fun marker' hsome => ?_⟩
    · by_contra hne
      simp [ListPage.next?, hmr.mpr hne] at hnone
    · cases hh : page.hasMore with
      | false => simp [ListPage.next?, hh] at hsome
      | true =>
        obtain ⟨last, hls, hkey⟩ := hnx hh
        have hm : page.nextMarker = marker' := by simpa [ListPage.next?, hh] using hsome
        refine ⟨ne_nil_of_mem (mem_of_getLast? hls), ?_⟩
        rw [← hm, hkey]
        exact after_key_getLast ho hsp hls
  obtain ⟨pages, shown, hfl, hsh, hall, hl⟩ := AeroVault.Lib.exists_follows ht marker
  refine ⟨pages, hfl, ?_, fun page hpg => ?_⟩
  · have hpr : pages.flatMap (·.objects) = shown.flatten.filterMap some :=
      flatMap_eq_of_shows (fun page entries h => by rw [h, filterMap_some]) hsh
    rw [hpr, filterMap_some, hall]
  · obtain ⟨entries, hen, hpg⟩ := exists_shown hsh hpg
    rw [hpg]
    exact hl entries hen

theorem pagesWithin_cutPage (key : α → κ) (start : κ) (rows : κ → List α) (size : Nat) :
    PagesWithin size fun marker => (.ok (cutPage key start size (rows marker)) : Except ε _) := by
  intro marker page hpg
  cases hpg
  unfold cutPage
  split_ifs with h
  · exact length_take_le _ _
  · exact not_lt.mp h

end ServedPages

/-- A loop that ran out of rounds has no answer, not even an error of its own. -/
def settled {ε β : Type*} : Option (Except ε β) → Except (Option ε) β
  | none => .error none
  | some (.error err) => .error (some err)
  | some (.ok b) => .ok b

end AeroVault.Lib
