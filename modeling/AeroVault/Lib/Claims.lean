import AeroVault.Lib.Tables

/-! Rows that are claimed for a while.

A claim is written on a row with its owner, a token and the time until which it holds; an expired
claim may be overwritten by another one. The statements that settle a claim compare all three
(`Claim.heldBy`). Beside the rows, a `Ledger` keeps every claim that was granted and those that
were settled. If every grant has a token of its own, then the rows and the ledger agree
(`Ledger.Agrees`): the claim on a row was granted and is not settled, and every grant that is
neither settled nor expired is the claim on its row, so that a row has at most one
(`Ledger.Agrees.unique`). `Claimed` says which rows a claiming transaction takes, whether it is one
statement for all of them (`claimed_statement`) or one for each (`claimed_one`, `Claimed.cons`). -/
namespace AeroVault.Lib
open List

structure Claim where
  owner : String
  token : String
  expires : Int
  deriving DecidableEq

namespace Claim

/-- The columns of a row that is not claimed. -/
def blank : Claim := ⟨"", "", 0⟩

/-- The claim is that of the owner with the token, and has not expired. -/
def heldBy (claim : Claim) (owner token : String) (now : Int) : Bool :=
  claim.owner == owner && claim.token == token && decide (now < claim.expires)

theorem heldBy_iff {claim : Claim} {owner token : String} {now : Int} :
    claim.heldBy owner token now = true ↔ claim.owner = owner ∧ claim.token = token ∧ now < claim.expires := by
  simp only [heldBy, Bool.and_eq_true, beq_iff_eq, decide_eq_true_eq, and_assoc]

end Claim

/-- A claim, and the key of the row that it was granted on. -/
structure Grant (κ : Type*) where
  key : κ
  claim : Claim
  deriving DecidableEq

structure Ledger (κ : Type*) where
  granted : List (Grant κ)
  settled : List (Grant κ)

namespace Ledger

variable {κ : Type*}

def blank : Ledger κ := ⟨[], []⟩

def grant (L : Ledger κ) (keys : List κ) (claim : Claim) : Ledger κ :=
  {L with granted := keys.map (⟨·, claim⟩) ++ L.granted}

def settle (L : Ledger κ) (key : κ) (claim : Claim) : Ledger κ :=
  {L with settled := ⟨key, claim⟩ :: L.settled}

/-- No grant has the token. -/
abbrev Unused (L : Ledger κ) (token : String) : Prop := ∀ g ∈ L.granted, g.claim.token ≠ token

/-- Granted, not settled, and not expired. -/
def Unexpired (L : Ledger κ) (time : Int) (g : Grant κ) : Prop :=
  g ∈ L.granted ∧ g ∉ L.settled ∧ time < g.claim.expires

/-- The claims on the rows, by key, are what the ledger says. -/
structure Agrees (L : Ledger κ) (current : κ → Option Claim) (time : Int) : Prop where
  granted : ∀ key claim, current key = some claim → ⟨key, claim⟩ ∈ L.granted ∧ ⟨key, claim⟩ ∉ L.settled
  settled : ∀ g ∈ L.settled, g ∈ L.granted
  current : ∀ g, L.Unexpired time g → current g.key = some g.claim

variable {L : Ledger κ} {current current' : κ → Option Claim} {time time' : Int}

theorem agrees_blank (time : Int) : (blank : Ledger κ).Agrees (fun _ => none) time where
  granted := nofun
  settled := nofun
  current _ h := nomatch h.1

theorem grant_rows {ρ : Type*} {rows : List ρ} {id : ρ → κ} {claimOf : ρ → Claim} {claim : Claim}
    (h : ∀ row ∈ rows, claimOf row = claim) :
    {L with granted := rows.map (fun row => ⟨id row, claimOf row⟩) ++ L.granted} = L.grant (rows.map id) claim := by
  rw [grant, map_map]
  congr 2
  exact map_congr_left fun row hrow => by rw [h row hrow]; rfl

section
variable (h : L.Agrees current time)
include h

/-- **A row has at most one unexpired claim.** -/
theorem Agrees.unique {g g' : Grant κ} (hg : L.Unexpired time g) (hg' : L.Unexpired time g')
    (hkey : g.key = g'.key) : g = g' := by
  obtain ⟨key, claim⟩ := g
  obtain ⟨key', claim'⟩ := g'
  cases hkey
  have hcr := h.current _ hg
  rw [h.current _ hg', Option.some.injEq] at hcr
  exact congrArg (Grant.mk key) hcr.symm

theorem Agrees.later (hl : time ≤ time') : L.Agrees current time' where
  granted := h.granted
  settled := h.settled
  current g hg := h.current g ⟨hg.1, hg.2.1, Int.lt_of_le_of_lt hl hg.2.2⟩

theorem Agrees.grant {keys : List κ} {claim : Claim} (hun : L.Unused claim.token)
    (hfree : ∀ key ∈ keys, ∀ old, current key = some old → old.expires ≤ time)
    (hnew : ∀ key ∈ keys, current' key = some claim) (hoth : ∀ key, key ∉ keys → current' key = current key) :
    (L.grant keys claim).Agrees current' time where
  granted key claim' hkey := by
    by_cases hm : key ∈ keys
    · rw [hnew key hm, Option.some.injEq] at hkey
      subst hkey
      refine ⟨mem_append_left _ (mem_map_of_mem hm), fun hst => ?_⟩
      exact hun _ (h.settled _ hst) rfl
    · rw [hoth key hm] at hkey
      obtain ⟨hgr, ho⟩ := h.granted key claim' hkey
      exact ⟨mem_append_right _ hgr, ho⟩
  settled g hg := mem_append_right _ (h.settled g hg)
  current g hg := by
    obtain ⟨hgr, ho, hex⟩ := hg
    obtain hnw | hbf := mem_append.mp hgr
    · obtain ⟨key, hm, rfl⟩ := mem_map.mp hnw
      exact hnew key hm
    · have hcr := h.current g ⟨hbf, ho, hex⟩
      by_cases hm : g.key ∈ keys
      · exact absurd hex (Int.not_lt.mpr (hfree g.key hm g.claim hcr))
      · rw [hoth g.key hm, hcr]

theorem Agrees.settle {key : κ} {claim : Claim} (hkey : current key = some claim)
    (hbl : current' key = none) (hoth : ∀ other, other ≠ key → current' other = current other) :
    (L.settle key claim).Agrees current' time where
  granted other claim' hother := by
    have hne : other ≠ key := by
      intro heq
      rw [heq, hbl] at hother
      cases hother
    rw [hoth other hne] at hother
    obtain ⟨hgr, ho⟩ := h.granted other claim' hother
    refine ⟨hgr, fun hst => ?_⟩
    obtain heq | hst := mem_cons.mp hst
    · cases heq
      exact hne rfl
    · exact ho hst
  settled g hg := by
    obtain heq | hg := mem_cons.mp hg
    · rw [heq]
      exact (h.granted key claim hkey).1
    · exact h.settled g hg
  current g hg := by
    obtain ⟨hgr, ho, hex⟩ := hg
    have hcr := h.current g ⟨hgr, fun hst => ho (mem_cons_of_mem _ hst), hex⟩
    have hne : g.key ≠ key := by
      intro heq
      rw [heq, hkey, Option.some.injEq] at hcr
      exact ho (mem_cons.mpr (.inl (by rw [hcr, ← heq])))
    rw [hoth g.key hne, hcr]

theorem Agrees.congr (hsame : ∀ key, current' key = current key) : L.Agrees current' time := by
  rw [funext hsame]
  exact h

end

end Ledger

/-! ### Claiming rows -/

section Claiming
variable {ρ κ : Type*} [BEq κ] [LawfulBEq κ]

/-- The returned rows were due and are taken; those of other keys are as they were. -/
structure Claimed (key : ρ → κ) (due : ρ → Bool) (Taken : ρ → Prop) (l rows l' : List ρ) : Prop where
  returned : ∀ row ∈ rows, Taken row
  due : ∀ k ∈ rows.map key, ∃ a, l.find? (key · == k) = some a ∧ due a = true
  taken : ∀ k ∈ rows.map key, ∃ b, l'.find? (key · == k) = some b ∧ Taken b
  others : ∀ k, k ∉ rows.map key → l'.find? (key · == k) = l.find? (key · == k)

variable {key : ρ → κ} {due : ρ → Bool} {Taken : ρ → Prop} {l l' rows : List ρ}

omit [LawfulBEq κ] in
theorem claimed_nothing : Claimed key due Taken l [] l := ⟨nofun, nofun, nofun, fun _ _ => rfl⟩

omit [LawfulBEq κ] in
theorem Claimed.cons {row : ρ} {l₁ : List ρ} (h : Claimed key due Taken l [row] l₁)
    (h' : Claimed key due Taken l₁ rows l') : Claimed key due Taken l (row :: rows) l' where
  returned := forall_mem_cons.mpr ⟨h.returned row mem_cons_self, h'.returned⟩
  due k hk := by
    by_cases hself : k ∈ [row].map key
    · exact h.due k hself
    · rw [← h.others k hself]
      exact h'.due k ((mem_cons.mp hk).resolve_left (by simpa using hself))
  taken k hk := by
    by_cases hrs : k ∈ rows.map key
    · exact h'.taken k hrs
    · rw [h'.others k hrs]
      exact h.taken k (by simpa using (mem_cons.mp hk).resolve_right hrs)
  others k hk := by
    rw [map_cons, mem_cons, not_or] at hk
    exact (h'.others k hk.2).trans (h.others k (by simpa using hk.1))

variable {f : ρ → ρ} (hkey : ∀ a, key (f a) = key a) (htk : ∀ a, Taken (f a))
include hkey htk

theorem claimed_updateWhere {p : ρ → Bool} (hret : ∀ row ∈ rows, Taken row)
    (hdue : ∀ k ∈ rows.map key, ∃ a, l.find? (key · == k) = some a ∧ due a = true)
    (hp : ∀ a, l.find? (key · == key a) = some a → (p a = true ↔ key a ∈ rows.map key)) :
    Claimed key due Taken l rows (updateWhere p f l) := by
  have hat (k : κ) : (updateWhere p f l).find? (key · == k) =
      (l.find? (key · == k)).map fun a => if p a then f a else a :=
    find?_updateWhere (fun a _ => by rw [hkey a]) l
  have hself {k : κ} {a : ρ} (ha : l.find? (key · == k) = some a) : key a = k :=
    beq_iff_eq.mp (find?_some ha :)
  refine ⟨hret, hdue, fun k hk => ?_, fun k hk => ?_⟩
  · obtain ⟨a, ha, -⟩ := hdue k hk
    obtain rfl := hself ha
    exact ⟨f a, by rw [hat, ha, Option.map_some, if_pos ((hp a ha).mpr hk)], htk a⟩
  · rw [hat]
    cases ha : l.find? (key · == k) with
    | none => rfl
    | some a =>
      obtain rfl := hself ha
      rw [Option.map_some, if_neg fun h => hk ((hp a ha).mp h)]

/-- A statement that looks again whether the row that it names is due. -/
theorem claimed_one {k : κ} {row : ρ} (hrow : l.find? (key · == k) = some row) (hdue : due row = true) :
    Claimed key due Taken l [f row] (updateWhere (fun a => key a == k && due a) f l) := by
  obtain rfl : key row = k := beq_iff_eq.mp (find?_some hrow :)
  have hm (k : κ) : k ∈ [f row].map key ↔ k = key row := by
    rw [map_singleton, mem_singleton, hkey]
  refine claimed_updateWhere hkey htk (fun a ha => mem_singleton.mp ha ▸ htk row)
    (fun k hk => ⟨row, (hm k).mp hk ▸ hrow, hdue⟩) fun a ha => ?_
  rw [hm, Bool.and_eq_true, beq_iff_eq]
  refine ⟨And.left, fun h => ⟨h, ?_⟩⟩
  rw [h, hrow] at ha
  exact Option.some.inj ha ▸ hdue

/-- One statement for all rows, which returns them. -/
theorem claimed_statement {ks : List κ}
    (hdue : ∀ k ∈ ks, ∃ a, l.find? (key · == k) = some a ∧ due a = true) :
    Claimed key due Taken l ((updateWhere (ks.contains <| key ·) f l).filter (ks.contains <| key ·))
      (updateWhere (ks.contains <| key ·) f l) := by
  have hrows {b : ρ} : b ∈ (updateWhere (ks.contains <| key ·) f l).filter (ks.contains <| key ·) ↔
      ∃ a ∈ l, key a ∈ ks ∧ f a = b := by
    simp only [mem_filter, mem_updateWhere, contains_iff_mem]
    constructor
    · rintro ⟨⟨a, ha, hk, rfl⟩ | ⟨-, hnot⟩, hb⟩
      · exact ⟨a, ha, hk, rfl⟩
      · rw [contains_iff_mem.mpr hb] at hnot
        cases hnot
    · rintro ⟨a, ha, hk, rfl⟩
      exact ⟨.inl ⟨a, ha, hk, rfl⟩, (hkey a).symm ▸ hk⟩
  have hm (k : κ) : k ∈ ((updateWhere (ks.contains <| key ·) f l).filter (ks.contains <| key ·)).map key →
      k ∈ ks := by
    intro hk
    obtain ⟨b, hb, rfl⟩ := mem_map.mp hk
    obtain ⟨a, -, hk, rfl⟩ := hrows.mp hb
    rwa [hkey]
  refine claimed_updateWhere hkey htk (fun b hb => ?_) (fun k hk => hdue k (hm k hk)) fun a ha => ?_
  · obtain ⟨a, -, -, rfl⟩ := hrows.mp hb
    exact htk a
  · rw [contains_iff_mem]
    refine ⟨fun hk => mem_map.mpr ⟨f a, hrows.mpr ⟨a, mem_of_find?_eq_some ha, hk, rfl⟩, hkey a⟩, hm _⟩

end Claiming
end AeroVault.Lib
