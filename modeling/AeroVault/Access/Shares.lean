import AeroVault.Access.PublicAssets
import AeroVault.Lib.Interleaving
import AeroVault.Repository.Timestamps

/-! Share links: `ResolveShare`, `RevokeShare` and the `shares` table.

A resolving call reads the share, validates that copy, and, if it consumes a use, updates
the row under a guard and reads it again. Calls interleave statement by statement. The
guard is complete, so the validated copy may be stale: the row counts exactly the calls
whose update took effect, never beyond its limit and never after a revocation
(`share_use_bounded`).

What a resolved share grants is another matter. `shareAllows` reads the flags, the
capability lists actions, and the authorizer closes the list under its own implications,
where `read` implies `download`: the share grants at most what it declares exactly when the
flags agree with that (`share_grants_at_most_declared_iff`). -/
namespace AeroVault.Access
open Lib Repository List

/-- A row of `shares`, with its times as stored. -/
structure Share where
  id : String
  tenantID : String
  bucket : String
  key : String
  name : String
  tokenHash : String
  passwordMAC : String
  allowPreview : Bool
  allowDownload : Bool
  maxUses : Int
  useCount : Int
  expiresAt : String
  revokedAt : String
  createdBy : String
  ownerID : String
  deriving DecidableEq

namespace Share

/-- The object that the share links to, which `owner` owns. -/
def object (share : Share) (owner : String) : Resource :=
  ⟨share.tenantID, share.bucket, share.key, .object, owner⟩

/-- The guard of `ConsumeShare` besides the hash. -/
def consumable (now : String) (share : Share) : Bool :=
  share.revokedAt == "" && shareUnexpired share.expiresAt now &&
    (share.maxUses == 0 || decide (share.useCount < share.maxUses))

def used (share : Share) : Share := {share with useCount := share.useCount + 1}

end Share

inductive ShareError
  | access (err : AccessError)
  | shareExpired
  | badPassword
  deriving DecidableEq

/-! ### The table -/

/-- The `shares` table: `id` is its primary key and `token_hash` is unique. -/
structure ShareTable where
  rows : List Share
  unique : rows.Pairwise fun a b => a.id ≠ b.id ∧ a.tokenHash ≠ b.tokenHash

namespace ShareTable

/-- `UPDATE` of the rows that satisfy `p`, of columns other than the keys. -/
def update (t : ShareTable) (p : Share → Bool) (f : Share → Share)
    (h : ∀ a, (f a).id = a.id ∧ (f a).tokenHash = a.tokenHash) : ShareTable where
  rows := updateWhere p f t.rows
  unique := by
    rw [updateWhere, pairwise_map]
    refine t.unique.imp fun {a b} hab => ?_
    have hkeys : ∀ c, (if p c then f c else c).id = c.id ∧
        (if p c then f c else c).tokenHash = c.tokenHash := by
      intro c
      split
      · exact h c
      · exact ⟨rfl, rfl⟩
    rw [(hkeys a).1, (hkeys a).2, (hkeys b).1, (hkeys b).2]
    exact hab

def getShare (t : ShareTable) (tenant id : String) : Option Share :=
  t.rows.find? fun row => row.tenantID == tenant && row.id == id

def getShareByTokenHash (t : ShareTable) (hash : String) : Option Share :=
  t.rows.find? fun row => row.tokenHash == hash

/-- The `UPDATE` of `RevokeShare`: how many rows it affected. -/
def revokeShare (t : ShareTable) (tenant id revokedAt : String) : Nat × ShareTable :=
  let guard : Share → Bool := fun row => row.tenantID == tenant && row.id == id && row.revokedAt == ""
  (t.rows.countP guard, t.update guard (fun row => {row with revokedAt := revokedAt}) fun _ => ⟨rfl, rfl⟩)

/-- The `UPDATE` of `ConsumeShare`: how many rows it affected. -/
def consumeShare (t : ShareTable) (hash now : String) : Nat × ShareTable :=
  let guard : Share → Bool := fun row => row.tokenHash == hash && row.consumable now
  (t.rows.countP guard, t.update guard Share.used fun _ => ⟨rfl, rfl⟩)

end ShareTable

/-! ### The calls -/

/-- The functions that the calls take from elsewhere: SHA-256 of a token, the HMAC of a
share's ID and a nonempty password, and `time.Parse`. -/
structure Codec where
  tokenHash : String → String
  mac : String → String → String
  parseTime : String → Option Civil

namespace Codec

variable (S : Codec)

/-- `none` is the zero time, also for a text that does not parse. -/
def accessTime (value : String) : Option Civil :=
  if value == "" then none else (S.parseTime value).filter fun c => !c.isZero

def passwordMAC (shareID password : String) : String :=
  if password == "" then "" else S.mac shareID password

end Codec

def shareAllows (share : Share) (action : Action) : Bool :=
  if action == .download then share.allowDownload
  else action == .read || (action == .preview && share.allowPreview)

def shareActions (share : Share) : List Action :=
  [.read] ++ (if share.allowPreview then [.preview] else []) ++
    if share.allowDownload then [.download] else []

/-- `now` is not before the time of expiry, if there is one. -/
def expired (now : Civil) : Option Civil → Bool
  | none => false
  | some expiresAt => !decide (now.nanos < expiresAt.nanos)

def validateShare (S : Codec) (now : Civil) (share : Share) (password : String) (action : Action) :
    Option ShareError :=
  if (S.accessTime share.revokedAt).isSome || expired now (S.accessTime share.expiresAt) ||
      (decide (0 < share.maxUses) && decide (share.maxUses ≤ share.useCount)) then
    some .shareExpired
  else if share.passwordMAC != "" && S.passwordMAC share.id password != share.passwordMAC then
    some .badPassword
  else if !shareAllows share action then some (.access (.denied "share action not granted"))
  else none

/-- `CapabilityPrincipal` of a share. -/
def sharePrincipal (share : Share) : Principal :=
  ⟨"share:" ++ share.id, share.tenantID, .share, [], [], [],
    some ⟨share.id, share.tenantID, share.bucket, share.key, shareActions share⟩⟩

inductive ShareRequest
  | resolve (token password : String) (action : Action) (consume : Bool)
  | revoke (p : Principal) (tenant id : String)
  deriving DecidableEq

def ShareRequest.consumes : ShareRequest → Bool
  | .resolve _ _ _ consume => consume
  | .revoke .. => false

/-- Where a call stands: before its first read, before the statement it goes on with, or
returned. -/
inductive SharePhase
  | start
  | consuming (hash : String)
  | reloading (hash : String)
  | revoking (tenant id : String)
  | resolved (share : Share) (p : Principal)
  | revoked
  | failed (err : ShareError)
  /-- Failed once the use was counted: the reply or the row was not read. -/
  | failedAfterUse (hash : String) (err : ShareError)
  deriving DecidableEq

/-- What a step does not control: the clock, what the manager reads, the database. -/
structure ShareEnv where
  now : Civil
  manager : Manager
  reply : Reply

namespace ShareEnv

def text (env : ShareEnv) : String := env.now.rfc3339Nano

end ShareEnv

def storeFault : ShareError := .access (.fault .storeError)

/-- `ResolveShare` on the share it has read, up to its next statement. -/
def admitShare (S : Codec) (env : ShareEnv) (password : String) (action : Action) (consume : Bool)
    (share : Share) : SharePhase :=
  match validateShare S env.now share password action with
  | some err => .failed err
  | none =>
    match env.manager.checkCapabilityTarget share.tenantID share.bucket consume with
    | some fault => .failed (.access (.fault fault))
    | none => if consume then .consuming share.tokenHash else .resolved share (sharePrincipal share)

/-- `RevokeShare` on the share it has read, up to its update. -/
def admitRevoke (env : ShareEnv) (p : Principal) (tenant id : String) (share : Share) : SharePhase :=
  match env.manager.checkBucket share.tenantID share.bucket with
  | some fault => .failed (.access (.fault fault))
  | none =>
    if p.subjectID != share.createdBy then
      match env.manager.require p .share ⟨tenant, share.bucket, share.key, .object, share.ownerID⟩ with
      | some err => .failed (.access err)
      | none => .revoking tenant id
    else .revoking tenant id

/-- The next statement of a call, up to the one after it. -/
def shareAdvance (S : Codec) (request : ShareRequest) (env : ShareEnv) (t : ShareTable) :
    SharePhase → SharePhase × ShareTable
  | .start =>
    if env.reply ≠ .ok then (.failed storeFault, t)
    else match request with
      | .resolve token password action consume =>
        match t.getShareByTokenHash (S.tokenHash token) with
        | none => (.failed (.access .notFound), t)
        | some share => (admitShare S env password action consume share, t)
      | .revoke p tenant id =>
        match t.getShare tenant id with
        | none => (.failed (.access .notFound), t)
        | some share => (admitRevoke env p tenant id share, t)
  | .consuming hash =>
    match env.reply with
    | .failed => (.failed storeFault, t)
    | .lost =>
      let done := t.consumeShare hash env.text
      (if done.1 = 0 then .failed storeFault else .failedAfterUse hash storeFault, done.2)
    | .ok =>
      let done := t.consumeShare hash env.text
      (if done.1 = 0 then .failed .shareExpired else .reloading hash, done.2)
  | .reloading hash =>
    if env.reply ≠ .ok then (.failedAfterUse hash storeFault, t)
    else match t.getShareByTokenHash hash with
      | none => (.failedAfterUse hash (.access .notFound), t)
      | some share => (.resolved share (sharePrincipal share), t)
  | .revoking tenant id =>
    match env.reply with
    | .failed => (.failed storeFault, t)
    | .lost => (.failed storeFault, (t.revokeShare tenant id env.text).2)
    | .ok =>
      let done := t.revokeShare tenant id env.text
      (if done.1 = 0 then .failed (.access .notFound) else .revoked, done.2)
  | .resolved share p => (.resolved share p, t)
  | .revoked => (.revoked, t)
  | .failed err => (.failed err, t)
  | .failedAfterUse hash err => (.failedAfterUse hash err, t)

/-! ### Rows -/

namespace ShareTable

variable {t : ShareTable} {hash now : String} {row : Share}

theorem tokenHash_of_get (h : t.getShareByTokenHash hash = some row) : row.tokenHash = hash := by
  have hfound := find?_some h
  simpa using hfound

theorem get_of_mem (h : row ∈ t.rows) : t.getShareByTokenHash row.tokenHash = some row := by
  cases hg : t.getShareByTokenHash row.tokenHash with
  | none =>
    have hno := find?_eq_none.mp hg row h
    simp at hno
  | some found =>
    have hsame := tokenHash_of_get hg
    by_contra hne
    have hpr : t.rows.Pairwise fun a b => a.tokenHash ≠ b.tokenHash := t.unique.imp fun h => h.2
    obtain hlt | hgt := pairwise_or hpr (mem_of_find?_eq_some hg) h fun heq => hne (by rw [heq])
    · exact hlt hsame
    · exact hgt hsame.symm

theorem get_update {p : Share → Bool} {f : Share → Share}
    {h : ∀ a, (f a).id = a.id ∧ (f a).tokenHash = a.tokenHash} :
    (t.update p f h).getShareByTokenHash hash =
      (t.getShareByTokenHash hash).map fun a => if p a then f a else a :=
  find?_updateWhere (fun a _ => by rw [(h a).2]) t.rows

/-- An update by hash affects a row exactly if the row of the hash passes the guard. -/
theorem consumeShare_pos : 0 < (t.consumeShare hash now).1 ↔
    ∃ row, t.getShareByTokenHash hash = some row ∧ row.consumable now = true := by
  simp only [consumeShare, countP_pos_iff, Bool.and_eq_true, beq_iff_eq]
  constructor
  · intro h
    obtain ⟨row, hrow, rfl, hg⟩ := h
    exact ⟨row, get_of_mem hrow, hg⟩
  · intro h
    obtain ⟨row, hget, hg⟩ := h
    exact ⟨row, mem_of_find?_eq_some hget, tokenHash_of_get hget, hg⟩

theorem get_consumeShare (h : t.getShareByTokenHash hash = some row) (k now : String) :
    (t.consumeShare k now).2.getShareByTokenHash hash =
      some (if hash = k ∧ row.consumable now = true then row.used else row) := by
  rw [consumeShare, get_update, h, Option.map_some, tokenHash_of_get h]
  simp only [Bool.and_eq_true, beq_iff_eq]

theorem get_revokeShare (h : t.getShareByTokenHash hash = some row) (tenant id revokedAt : String) :
    (t.revokeShare tenant id revokedAt).2.getShareByTokenHash hash =
      some (if (row.tenantID = tenant ∧ row.id = id) ∧ row.revokedAt = "" then
        {row with revokedAt := revokedAt} else row) := by
  rw [revokeShare, get_update, h, Option.map_some]
  simp only [Bool.and_eq_true, beq_iff_eq]

end ShareTable

/-- What a share can become: only the count and the revocation change, the count not past
the limit, and nothing once it is revoked. -/
structure Share.Later (a b : Share) : Prop where
  same : b = {a with useCount := b.useCount, revokedAt := b.revokedAt}
  frozen : a.revokedAt ≠ "" → b = a
  bounded : b.useCount = a.useCount ∨ b.maxUses = 0 ∨ b.useCount ≤ b.maxUses

namespace Share.Later

variable {a b c : Share}

theorem refl (a : Share) : Share.Later a a := ⟨rfl, fun _ => rfl, .inl rfl⟩

theorem maxUses (h : Share.Later a b) : b.maxUses = a.maxUses := by rw [h.same]

theorem trans (hab : Share.Later a b) (hbc : Share.Later b c) : Share.Later a c where
  same := by
    rw [hbc.same, hab.same]
  frozen hrv := by
    have hb := hab.frozen hrv
    subst hb
    exact hbc.frozen hrv
  bounded := by
    obtain hcn | hl := hbc.bounded
    · rw [hcn, hbc.maxUses]
      exact hab.bounded
    · exact .inr hl

theorem used {now : String} (h : a.consumable now = true) : Share.Later a a.used := by
  simp only [consumable, Bool.and_eq_true, Bool.or_eq_true, beq_iff_eq, decide_eq_true_eq] at h
  obtain ⟨⟨hrv, -⟩, hl⟩ := h
  refine ⟨rfl, absurd hrv, .inr ?_⟩
  obtain hnone | hbl := hl
  · exact .inl hnone
  · exact .inr hbl

theorem revoke (h : a.revokedAt = "") (revokedAt : String) : Share.Later a {a with revokedAt := revokedAt} :=
  ⟨rfl, absurd h, .inl rfl⟩

end Share.Later

/-! ### What a statement does -/

/-- The call has counted a use of the share. -/
def Used (request : ShareRequest) (hash : String) : SharePhase → Prop
  | .reloading k => k = hash
  | .failedAfterUse k _ => k = hash
  | .resolved share _ => request.consumes = true ∧ share.tokenHash = hash
  | _ => False

/-- The call returned success, with a use of the share counted. -/
def Succeeded (request : ShareRequest) (hash : String) : SharePhase → Prop
  | .resolved share _ => request.consumes = true ∧ share.tokenHash = hash
  | _ => False

theorem Succeeded.used {request : ShareRequest} {hash : String} {phase : SharePhase}
    (h : Succeeded request hash phase) : Used request hash phase := by
  cases phase with
  | resolved share p => exact h
  | _ => exact h.elim

/-- Only a consuming call consumes, and a resolved share comes with its principal. -/
def PhaseOk (request : ShareRequest) : SharePhase → Prop
  | .consuming _ => request.consumes = true
  | .reloading _ => request.consumes = true
  | .resolved share p => p = sharePrincipal share
  | _ => True

variable {S : Codec} {request : ShareRequest} {env : ShareEnv} {t : ShareTable} {phase : SharePhase}
  {hash : String} {row : Share}

theorem admitShare_ok {token password : String} {action : Action} {consume : Bool} :
    PhaseOk (.resolve token password action consume) (admitShare S env password action consume row) ∧
      ∀ hash, Used (.resolve token password action consume) hash
        (admitShare S env password action consume row) → False := by
  unfold admitShare
  split
  · exact ⟨trivial, fun _ h => h⟩
  · split
    · exact ⟨trivial, fun _ h => h⟩
    · cases consume
      · exact ⟨rfl, fun _ h => Bool.false_ne_true h.1⟩
      · exact ⟨rfl, fun _ h => h⟩

theorem admitRevoke_ok {p : Principal} {tenant id : String} :
    PhaseOk request (admitRevoke env p tenant id row) ∧
      ∀ hash, Used request hash (admitRevoke env p tenant id row) → False := by
  unfold admitRevoke
  split
  · exact ⟨trivial, fun _ h => h⟩
  · split_ifs
    · split
      · exact ⟨trivial, fun _ h => h⟩
      · exact ⟨trivial, fun _ h => h⟩
    · exact ⟨trivial, fun _ h => h⟩

theorem shareAdvance_start
    (hash : String) : (shareAdvance S request env t .start).2 = t ∧
    PhaseOk request (shareAdvance S request env t .start).1 ∧
      ¬ Used request hash (shareAdvance S request env t .start).1 := by
  unfold shareAdvance
  split_ifs
  · exact ⟨rfl, trivial, id⟩
  · cases request with
    | resolve token password action consume =>
      dsimp only
      split
      · exact ⟨rfl, trivial, id⟩
      · exact ⟨rfl, admitShare_ok.1, admitShare_ok.2 hash⟩
    | revoke p tenant id =>
      dsimp only
      split
      · exact ⟨rfl, trivial, fun h => h⟩
      · exact ⟨rfl, admitRevoke_ok.1, admitRevoke_ok.2 hash⟩

theorem phaseOk_advance (h : PhaseOk request phase) :
    PhaseOk request (shareAdvance S request env t phase).1 := by
  cases phase with
  | start => exact (shareAdvance_start "").2.1
  | consuming hash =>
    simp only [shareAdvance]
    cases env.reply
    · split_ifs
      · trivial
      · exact h
    · trivial
    · split_ifs <;> trivial
  | reloading hash =>
    simp only [shareAdvance]
    split_ifs
    · trivial
    · split
      · trivial
      · rfl
  | revoking tenant id =>
    simp only [shareAdvance]
    cases env.reply
    · split_ifs <;> trivial
    · trivial
    · trivial
  | resolved share p => exact h
  | revoked | failed | failedAfterUse => trivial

/-- What a statement leaves of a share: it counts a use exactly if its call comes to have
used the share. -/
def Counted (request : ShareRequest) (hash : String) (row : Share) (phase : SharePhase)
    (next : SharePhase × ShareTable) : Prop :=
  ∃ row', next.2.getShareByTokenHash hash = some row' ∧ row.Later row' ∧
    ((Used request hash next.1 ↔ Used request hash phase) ∧ row'.useCount = row.useCount ∨
      Used request hash next.1 ∧ ¬ Used request hash phase ∧ row'.useCount = row.useCount + 1)

section
variable (hrow : t.getShareByTokenHash hash = some row)
include hrow

theorem Counted.unchanged {phase' : SharePhase} (h : Used request hash phase' ↔ Used request hash phase) :
    Counted request hash row phase (phase', t) :=
  ⟨row, hrow, .refl row, .inl ⟨h, rfl⟩⟩

/-- The update of `ConsumeShare`, with the phase that follows if it counted a use or not. -/
theorem counted_consume {k now : String} {after without : SharePhase}
    (haft : Used request hash after ↔ k = hash) (hwith : ¬ Used request hash without) :
    Counted request hash row (.consuming k)
      (if (t.consumeShare k now).1 = 0 then without else after, (t.consumeShare k now).2) := by
  have hget := ShareTable.get_consumeShare hrow k now
  by_cases hk : hash = k
  · subst hk
    by_cases hg : row.consumable now = true
    · have hpos : (t.consumeShare hash now).1 ≠ 0 :=
        (ShareTable.consumeShare_pos.mpr ⟨row, hrow, hg⟩).ne'
      rw [if_pos ⟨rfl, hg⟩] at hget
      rw [if_neg hpos]
      exact ⟨row.used, hget, .used hg, .inr ⟨haft.mpr rfl, id, rfl⟩⟩
    · have hz : (t.consumeShare hash now).1 = 0 := by
        by_contra hne
        obtain ⟨row', hrow', hg'⟩ := ShareTable.consumeShare_pos.mp (Nat.pos_of_ne_zero hne)
        rw [hrow] at hrow'
        cases hrow'
        exact hg hg'
      rw [if_neg fun h => hg h.2] at hget
      rw [if_pos hz]
      exact ⟨row, hget, .refl row, .inl ⟨⟨hwith, False.elim⟩, rfl⟩⟩
  · rw [if_neg fun h => hk h.1] at hget
    refine ⟨row, hget, .refl row, .inl ⟨⟨fun h => ?_, False.elim⟩, rfl⟩⟩
    split_ifs at h
    · exact hwith h
    · exact hk (haft.mp h).symm

theorem counted_revoke {tenant id revokedAt : String} {phase' : SharePhase} (h : ¬ Used request hash phase') :
    Counted request hash row (.revoking tenant id) (phase', (t.revokeShare tenant id revokedAt).2) := by
  have hg := ShareTable.get_revokeShare hrow tenant id revokedAt
  refine ⟨_, hg, ?_, .inl ⟨⟨h, False.elim⟩, ?_⟩⟩
  · split_ifs with hc
    · exact .revoke hc.2 revokedAt
    · exact .refl row
  · split_ifs <;> rfl

end

theorem counted_advance (hok : PhaseOk request phase)
    (hrow : t.getShareByTokenHash hash = some row) :
    Counted request hash row phase (shareAdvance S request env t phase) := by
  cases phase with
  | start =>
    obtain ⟨ht, -, hun⟩ := shareAdvance_start hash
    have hg := (congrArg (·.getShareByTokenHash hash) ht).trans hrow
    exact ⟨row, hg, .refl row, .inl ⟨⟨hun, False.elim⟩, rfl⟩⟩
  | consuming k =>
    simp only [shareAdvance]
    cases env.reply
    · exact counted_consume hrow Iff.rfl id
    · exact .unchanged hrow Iff.rfl
    · exact counted_consume hrow Iff.rfl id
  | reloading k =>
    simp only [shareAdvance]
    split_ifs
    · exact .unchanged hrow Iff.rfl
    · split
      · exact .unchanged hrow Iff.rfl
      · rename_i share hsh
        have hh := ShareTable.tokenHash_of_get hsh
        exact .unchanged hrow ⟨fun h => hh ▸ h.2, fun h => ⟨hok, hh.trans h⟩⟩
  | revoking tenant id =>
    simp only [shareAdvance]
    cases env.reply
    · refine counted_revoke hrow ?_
      split_ifs <;> exact fun h => h
    · exact .unchanged hrow Iff.rfl
    · exact counted_revoke hrow fun h => h
  | resolved | revoked | failed | failedAfterUse => exact .unchanged hrow Iff.rfl

/-! ### Runs -/

section Runs

variable {ι : Type*} [DecidableEq ι] (S : Codec) (requests : ι → ShareRequest)

/-- The calls `requests`, interleaved. -/
def shareStep (w : World ShareTable SharePhase ι) (i : ι × ShareEnv) : World ShareTable SharePhase ι :=
  World.step (fun c env t phase => shareAdvance S (requests c) env t phase) w i

variable {S requests} {w : World ShareTable SharePhase ι} {r₀ : Share}

/-- The row of the hash descends from `r₀`, and has counted the calls that used it. -/
structure Counts (requests : ι → ShareRequest) (hash : String) (r₀ : Share)
    (w : World ShareTable SharePhase ι) : Prop where
  phases : w.Asserts fun _ c => PhaseOk (requests c)
  counted : ∃ row, w.shared.getShareByTokenHash hash = some row ∧ r₀.Later row ∧
    w.Exactly (fun c => Used (requests c) hash) (row.useCount - r₀.useCount)

omit [DecidableEq ι] in
theorem counts_start (hst : ∀ c, w.phase c = .start)
    (hrow : w.shared.getShareByTokenHash hash = some r₀) : Counts requests hash r₀ w where
  phases c := by
    rw [hst c]
    trivial
  counted := by
    refine ⟨r₀, hrow, .refl r₀, ?_⟩
    rw [Int.sub_self]
    exact World.exactly_zero fun c => by rw [hst c]; exact id

theorem phases_step (h : w.Asserts fun _ c => PhaseOk (requests c)) {i : ι × ShareEnv} :
    (shareStep S requests w i).Asserts fun _ c => PhaseOk (requests c) :=
  h.step (fun _ _ _ _ hok => phaseOk_advance hok) (fun _ _ _ _ _ _ _ _ hok => hok) i

theorem phases_run (S : Codec) (requests : ι → ShareRequest) (hst : ∀ c, w.phase c = .start)
    (ins : List (ι × ShareEnv)) :
    (run (shareStep S requests) w ins).Asserts fun _ c => PhaseOk (requests c) :=
  run_keeps (J := World.Asserts fun _ c => PhaseOk (requests c)) (fun _ i h => phases_step h)
    (fun c => by rw [hst c]; trivial) ins

theorem counts_step (h : Counts requests hash r₀ w) (i : ι × ShareEnv) :
    Counts requests hash r₀ (shareStep S requests w i) := by
  obtain ⟨hph, row, hrow, hl, hex⟩ := h
  refine ⟨phases_step hph, ?_⟩
  obtain ⟨row', hrow', hnx, hsame | hg⟩ := counted_advance (hph i.1) hrow
  · refine ⟨row', hrow', hl.trans hnx, ?_⟩
    rw [hsame.2]
    exact hex.keep hsame.1
  · refine ⟨row', hrow', hl.trans hnx, ?_⟩
    rw [hg.2.2, show row.useCount + 1 - r₀.useCount = row.useCount - r₀.useCount + 1 by omega]
    exact hex.gain hg.1 hg.2.1

theorem counts_run (h : Counts requests hash r₀ w) (ins : List (ι × ShareEnv)) :
    Counts requests hash r₀ (run (shareStep S requests) w ins) :=
  run_keeps (J := Counts requests hash r₀) (fun _ i hc => counts_step hc i) h ins

/-- Once the share is revoked no further call uses it. -/
theorem used_of_revoked (h : Counts requests hash r₀ w)
    (hrv : ∃ row, w.shared.getShareByTokenHash hash = some row ∧ row.revokedAt ≠ "")
    {ins : List (ι × ShareEnv)} {c : ι}
    (hus : Used (requests c) hash ((run (shareStep S requests) w ins).phase c)) :
    Used (requests c) hash (w.phase c) := by
  induction ins generalizing w with
  | nil => exact hus
  | cons i rest ih =>
    obtain ⟨row, hrow, hne⟩ := hrv
    obtain ⟨row', hrow', hl, hcs⟩ := counted_advance (h.phases i.1) hrow
    have hsame := hl.frozen hne
    subst hsame
    have hnx := ih (counts_step h i) ⟨row', hrow', hne⟩ hus
    by_cases hc : c = i.1
    · subst hc
      rw [shareStep, World.phase_step_self] at hnx
      obtain hkp | hg := hcs
      · exact hkp.1.mp hnx
      · exact absurd hg.2.2 (by omega)
    · rwa [shareStep, World.phase_step_of_ne hc] at hnx

/-- The update of `RevokeShare` leaves the share revoked and counts no use. -/
theorem revoked_of_step {S : Codec} {requests : ι → ShareRequest} {c : ι}
    (hrow : w.shared.getShareByTokenHash hash = some row)
    (hph : w.phase c = .revoking row.tenantID row.id) (hrp : env.reply ≠ .failed) :
    ¬ Used (requests c) hash ((shareStep S requests w (c, env)).phase c) ∧
      ∃ row', (shareStep S requests w (c, env)).shared.getShareByTokenHash hash = some row' ∧
        row'.revokedAt ≠ "" := by
  have hnx : ¬ Used (requests c) hash ((shareStep S requests w (c, env)).phase c) ∧
      (shareStep S requests w (c, env)).shared = (w.shared.revokeShare row.tenantID row.id env.text).2 := by
    rw [shareStep, World.shared_step, World.phase_step_self, hph]
    simp only [shareAdvance]
    cases hr : env.reply with
    | ok =>
      refine ⟨?_, rfl⟩
      split_ifs <;> exact id
    | failed => exact absurd hr hrp
    | lost => exact ⟨id, rfl⟩
  refine ⟨hnx.1, ?_⟩
  rw [hnx.2]
  refine ⟨_, ShareTable.get_revokeShare hrow .., ?_⟩
  split_ifs with hc
  · exact rfc3339Nano_ne_empty env.now
  · exact fun hem => hc ⟨⟨rfl, rfl⟩, hem⟩

end Runs

/-- **The uses of a share are bounded.** However resolving and revoking calls, any number
of them, interleave, with statements that fail or whose replies are lost: the count of the
row is that of the calls whose update took effect; the calls that return success are among
these, and at most `max_uses` of them if that is positive; and a revocation that took effect
is followed by no further use. -/
theorem share_use_bounded {ι : Type*} [DecidableEq ι] (S : Codec) (requests : ι → ShareRequest)
    (w : World ShareTable SharePhase ι) (hstart : ∀ c, w.phase c = .start) (hash : String) (r₀ : Share)
    (hrow : w.shared.getShareByTokenHash hash = some r₀) (hcount : 0 ≤ r₀.useCount)
    (ins : List (ι × ShareEnv)) :
    let after := run (shareStep S requests) w
    (∃ row, (after ins).shared.getShareByTokenHash hash = some row ∧
      (after ins).Exactly (fun c => Used (requests c) hash) (row.useCount - r₀.useCount)) ∧
    (∀ c, Succeeded (requests c) hash ((after ins).phase c) → Used (requests c) hash ((after ins).phase c)) ∧
    (0 < r₀.maxUses → ∀ cs : Finset ι,
      (∀ c ∈ cs, Succeeded (requests c) hash ((after ins).phase c)) → (cs.card : Int) ≤ r₀.maxUses) ∧
    (∀ before c env rest, ins = before ++ (c, env) :: rest →
      (after before).phase c = .revoking r₀.tenantID r₀.id → env.reply ≠ .failed →
      ∀ c', Used (requests c') hash ((after ins).phase c') →
        Used (requests c') hash ((after before).phase c')) := by
  intro after
  have hcounts : ∀ ins, Counts requests hash r₀ (after ins) := counts_run (counts_start hstart hrow)
  refine ⟨?_, fun c h => h.used, ?_, ?_⟩
  · obtain ⟨row, hg, -, hex⟩ := (hcounts ins).counted
    exact ⟨row, hg, hex⟩
  · intro hlm cs hcs
    obtain ⟨row, -, hl, hex⟩ := (hcounts ins).counted
    have hcr := hex.card_le fun c hc => (hcs c hc).used
    have hm := hl.maxUses
    obtain hnone | hz | hbl := hl.bounded <;> omega
  · intro before c env rest hins hph hrp c' hus
    obtain ⟨row, hg, hl, -⟩ := (hcounts before).counted
    have hrv : (after before).phase c = .revoking row.tenantID row.id := by
      rw [hph, hl.same]
    obtain ⟨hun, hrev⟩ := revoked_of_step hg hrv hrp
    have hus' : Used (requests c') hash
        ((run (shareStep S requests) (shareStep S requests (after before) (c, env)) rest).phase c') := by
      rw [hins] at hus
      have hsp : after (before ++ (c, env) :: rest) =
          run (shareStep S requests) (shareStep S requests (after before) (c, env)) rest := by
        show run _ _ _ = _
        rw [run_append]
        rfl
      rwa [hsp] at hus
    have hst := used_of_revoked (counts_step (hcounts before) (c, env)) hrev hus'
    by_cases hc : c' = c
    · subst hc
      exact absurd hst hun
    · rwa [shareStep, World.phase_step_of_ne hc] at hst

/-! Two calls for the one use of a share: both validate before either counts. -/

/-- A preview of `report.pdf`, once. -/
def previewOnce : Share where
  id := "s1"
  tenantID := "acme"
  bucket := "docs"
  key := "report.pdf"
  name := ""
  tokenHash := "7f"
  passwordMAC := ""
  allowPreview := true
  allowDownload := false
  maxUses := 1
  useCount := 0
  expiresAt := ""
  revokedAt := ""
  createdBy := "alice"
  ownerID := "alice"

def previewTable : ShareTable := ⟨[previewOnce], pairwise_singleton _ _⟩

/-- Access control without entries; every bucket is open. -/
def denyingManager : Manager where
  cfg := ⟨true, .deny, false⟩
  checkBucket := fun _ _ => none
  listApplicableACL := fun _ _ _ => .ok []
  listSubjectDepartments := fun _ _ => .ok []

def sampleCodec : Codec := ⟨fun token => token, fun _ password => password, fun _ => none⟩

def newYearEnv : ShareEnv := ⟨newYear 2026 0 (by decide), denyingManager, .ok⟩

theorem second_use_refused :
    let w : World ShareTable SharePhase Bool := ⟨previewTable, fun _ => .start⟩
    let requests : Bool → ShareRequest := fun _ => .resolve "7f" "" .preview true
    let after := run (shareStep sampleCodec requests) w
      [(false, newYearEnv), (true, newYearEnv), (true, newYearEnv), (false, newYearEnv), (true, newYearEnv)]
    after.phase true = .resolved previewOnce.used (sharePrincipal previewOnce.used) ∧
      after.phase false = .failed .shareExpired ∧
      ∀ cs : Finset Bool, (∀ c ∈ cs, Succeeded (requests c) "7f" (after.phase c)) → (cs.card : Int) ≤ 1 := by
  intro w requests after
  have hbn := share_use_bounded sampleCodec requests w (fun _ => rfl) "7f" previewOnce rfl (by decide)
    [(false, newYearEnv), (true, newYearEnv), (true, newYearEnv), (false, newYearEnv), (true, newYearEnv)]
  exact ⟨rfl, rfl, hbn.2.2.1 (by decide)⟩

/-! ### What a resolved share grants -/

variable {m : Manager} {share : Share} {a : Action} {owner : String} {entries : List ACLEntry}
  {departments : List String}

/-- The authorizer closes the action list under its implications, so every share's list
says the same. -/
theorem capabilityAllows_share :
    capabilityAllows (sharePrincipal share).capability (share.object owner) a =
      (a == .read || a == .preview || a == .download) := by
  simp only [capabilityAllows, sharePrincipal, Share.object, shareActions, bne_self_eq_false, Bool.false_eq_true]
  cases share.allowPreview <;> cases share.allowDownload <;>
    simp only [if_true, if_false, Bool.false_eq_true, cons_append, nil_append,
      any_cons] <;>
    cases a <;> rfl

theorem authorizeDelete_share :
    (authorizeDelete (sharePrincipal share) a (share.object owner) []).allowed = true ↔
      a = .adminDelete ∧ share.tenantID = "*" := by
  have hg : carriesFileDelete (sharePrincipal share) = false := rfl
  have hadm : isAdministrator (sharePrincipal share) = (share.tenantID == "*") := by
    simp [isAdministrator, sharePrincipal]
  by_cases ha : a = .adminDelete
  · subst ha
    have hcap : capabilityAllows (sharePrincipal share).capability (share.object owner) .adminDelete = false :=
      capabilityAllows_share
    by_cases ht : share.tenantID = "*" <;>
      simp [authorizeDelete, hasEffect, hasExplicitAdminDeleteGrant, hg, hadm, hcap, ht, denied]
  · simp [authorizeDelete, hasEffect, hasExplicitDeleteGrant, hg, ha, denied]

/-- What the cascade allows the principal of a share if no entry matches. -/
theorem authorizeMatching_share (hpl : m.cfg.defaultPolicy = .deny) :
    (m.authorizeMatching (sharePrincipal share) a (share.object owner) entries []).allowed = true ↔
      (a = .read ∨ a = .preview ∨ a = .download) ∨ (a = .adminDelete ∧ share.tenantID = "*") ∨
        isDeleteAction a = false ∧ ("share:" ++ share.id = owner ∨ share.tenantID = "*") := by
  have hdef : (m.authorizeDefault (sharePrincipal share) a entries).allowed = false := by
    simp only [Manager.authorizeDefault, denied]
    split_ifs <;> simp_all
  cases hd : isDeleteAction a with
  | true =>
    have hnot : ¬ (a = .read ∨ a = .preview ∨ a = .download) := by
      intro h
      obtain rfl | rfl | rfl := h <;> cases hd
    simp only [Manager.authorizeMatching, hd, if_true, authorizeDelete_share, hnot, false_or,
      Bool.true_eq_false, false_and, or_false]
  | false =>
    have hnot : ¬ (a = .adminDelete ∧ share.tenantID = "*") := by
      intro h
      rw [h.1] at hd
      cases hd
    have hadm : isAdministrator (sharePrincipal share) = (share.tenantID == "*") := by
      simp [isAdministrator, sharePrincipal]
    simp only [Manager.authorizeMatching, hd, hasEffect, any_nil, Bool.false_eq_true, if_false,
      capabilityAllows_share, hadm, hnot]
    have how : ((sharePrincipal share).subjectID != "" &&
        (sharePrincipal share).subjectID == (share.object owner).ownerID) = ("share:" ++ share.id == owner) := by
      simp [sharePrincipal, Share.object]
    rw [how]
    split_ifs with hcap ho hst
    · simp only [Bool.or_eq_true, beq_iff_eq, or_assoc] at hcap
      simp [hcap]
    · simp only [beq_iff_eq] at ho
      simp [ho]
    · simp only [beq_iff_eq] at hst
      simp [hst]
    · simp only [Bool.or_eq_true, beq_iff_eq, or_assoc] at hcap ho hst
      simp [hdef, hcap, ho, hst]

theorem authorize_share (hpol : m.cfg.defaultPolicy = .deny)
    (hacl : m.listApplicableACL share.tenantID share.bucket share.key = .ok entries)
    (hdep : m.listSubjectDepartments share.tenantID (sharePrincipal share).subjectID = .ok departments)
    (hnone : matchingEntries entries (sharePrincipal share) departments a = []) :
    (m.authorize (sharePrincipal share) a (share.object owner)).1.allowed = true ↔
      m.checkBucket share.tenantID share.bucket = none ∧ (m.cfg.enabled = true → share.tenantID ≠ "") ∧
        ((a = .read ∨ a = .preview ∨ a = .download) ∨
          if m.cfg.enabled then
            (a = .adminDelete ∧ share.tenantID = "*") ∨
              isDeleteAction a = false ∧ ("share:" ++ share.id = owner ∨ share.tenantID = "*")
          else isDeleteAction a = true → m.cfg.deleteFailOpen = true) := by
  have hkn : ((sharePrincipal share).kind == .system) = false := rfl
  have hsb : ((sharePrincipal share).subjectID == "") = false := by
    simp [sharePrincipal]
  have htn : tenantMatches (sharePrincipal share) (share.object owner) = (share.tenantID != "") := by
    by_cases ht : share.tenantID = "*" <;> simp [tenantMatches, sharePrincipal, Share.object, ht]
  unfold Manager.authorize
  rw [show (share.object owner).tenantID = share.tenantID from rfl,
    show (share.object owner).bucket = share.bucket from rfl,
    show (share.object owner).key = share.key from rfl, hacl, hdep]
  cases hbn : m.checkBucket share.tenantID share.bucket with
  | some fault => simp [denied]
  | none =>
    simp only [hkn, hsb, htn, hnone]
    cases hen : m.cfg.enabled with
    | true =>
      by_cases ht : share.tenantID = ""
      · simp [ht, denied]
      · simpa [ht] using authorizeMatching_share hpol
    | false =>
      have hth : (a = .read ∨ a = .preview ∨ a = .download) → isDeleteAction a = false := by
        intro h
        obtain rfl | rfl | rfl := h <;> rfl
      cases hd : isDeleteAction a <;> cases ho : m.cfg.deleteFailOpen <;>
        simp_all [denied]

theorem shareAllows_iff : shareAllows share a = true ↔
    a = .read ∨ (a = .preview ∧ share.allowPreview = true) ∨ (a = .download ∧ share.allowDownload = true) := by
  by_cases hd : a = .download
  · subst hd
    simp [shareAllows]
  · simp [shareAllows, hd]

/-- The flags of the share cover the action, or the action is not granted at all. Every
share grants preview and download. Beyond these and `read`, the tenant `*` makes the principal
an administrator, an object may name it as the owner, and access control may be off; nothing
is granted across the boundary or, under access control, to a share without a tenant. -/
def GrantsDeclared (m : Manager) (share : Share) (owner : String) (a : Action) : Prop :=
  m.checkBucket share.tenantID share.bucket = none → (m.cfg.enabled = true → share.tenantID ≠ "") →
    (a = .preview → share.allowPreview = true) ∧ (a = .download → share.allowDownload = true) ∧
    (a ≠ .read → a ≠ .preview → a ≠ .download →
      if m.cfg.enabled then
        (a = .adminDelete → share.tenantID ≠ "*") ∧
          (isDeleteAction a = false → "share:" ++ share.id ≠ owner ∧ share.tenantID ≠ "*")
      else isDeleteAction a = true ∧ m.cfg.deleteFailOpen = false)

/-- **When a share grants no more than it declares.** For every share that a call resolves, in
any interleaving of calls, and every action: if no ACL entry applies and the default policy is
deny, then what `Authorize` allows its principal on the object is what the flags allow, exactly
under `GrantsDeclared`. -/
theorem share_grants_at_most_declared_iff {ι : Type*} [DecidableEq ι] (S : Codec)
    (requests : ι → ShareRequest) (w : World ShareTable SharePhase ι) (hstart : ∀ c, w.phase c = .start)
    (ins : List (ι × ShareEnv)) (c : ι) (share : Share) (p : Principal)
    (hresolved : (run (shareStep S requests) w ins).phase c = .resolved share p) (m : Manager)
    (hpolicy : m.cfg.defaultPolicy = .deny) (owner : String) (a : Action) (entries : List ACLEntry)
    (departments : List String)
    (hacl : m.listApplicableACL share.tenantID share.bucket share.key = .ok entries)
    (hdep : m.listSubjectDepartments share.tenantID p.subjectID = .ok departments)
    (hnone : matchingEntries entries p departments a = []) :
    ((m.authorize p a (share.object owner)).1.allowed = true → shareAllows share a = true) ↔
      GrantsDeclared m share owner a := by
  have hp := phases_run S requests hstart ins c
  rw [hresolved] at hp
  subst hp
  rw [authorize_share hpolicy hacl hdep hnone, shareAllows_iff]
  unfold GrantsDeclared
  by_cases hrd : a = .read
  · simp [hrd]
  · by_cases hpr : a = .preview
    · simp [hpr]
    · by_cases hd : a = .download
      · simp [hd]
      · simp only [hrd, hpr, hd, or_false, false_and, imp_false, false_implies, ne_eq, not_false_eq_true]
        cases m.cfg.enabled <;> cases hdl : isDeleteAction a <;> simp

/-- A share for previews only, resolved for a preview, is authorized to download. -/
theorem preview_share_downloads :
    let after := run (shareStep sampleCodec fun _ : Unit => .resolve "7f" "" .preview false)
      ⟨previewTable, fun _ => .start⟩ [((), newYearEnv)]
    after.phase () = .resolved previewOnce (sharePrincipal previewOnce) ∧
      shareAllows previewOnce .download = false ∧
      denyingManager.authorize (sharePrincipal previewOnce) .download (previewOnce.object "alice") =
        (⟨true, "capability"⟩, none) :=
  ⟨rfl, rfl, rfl⟩

theorem preview_share_grants_preview :
    GrantsDeclared denyingManager previewOnce "alice" .preview ∧
      ((denyingManager.authorize (sharePrincipal previewOnce) .preview (previewOnce.object "alice")).1.allowed =
        true → shareAllows previewOnce .preview = true) := by
  have hg : GrantsDeclared denyingManager previewOnce "alice" .preview := fun _ _ =>
    ⟨fun _ => rfl, (nomatch ·), fun _ h _ => absurd rfl h⟩
  exact ⟨hg, (share_grants_at_most_declared_iff sampleCodec (fun _ : Unit => .resolve "7f" "" .preview false)
    ⟨previewTable, fun _ => .start⟩ (fun _ => rfl) [((), newYearEnv)] () previewOnce
    (sharePrincipal previewOnce) rfl denyingManager rfl "alice" .preview [] [] rfl rfl rfl).mpr hg⟩

end AeroVault.Access
