import AeroVault.Lib.Interleaving
import AeroVault.Service.FailedPut
import AeroVault.Service.Staged

/-! Puts with `If-None-Match: *`, through the REST and the S3 handler.

A handler asks `Stat` for the object, refuses if there is one, and calls `Put`, which writes the blob
and then the row. The requests for one key interleave at these steps. What the reads at the start of
`Put` come to is free, since rows may be written between any two of them.

Nothing holds the key between the check and the row. At most one request succeeds exactly if the key
is still without an object whenever a row is written (`conditional_create_iff`). The check says that
it was, so it is enough that no row is written between the check of a request and its own row
(`serialized_create`); two requests that both check the key before either writes both succeed
(`both_create`). -/
namespace AeroVault.Rest
open Lib Repository Access Service

/-! ### Preconditions of the REST handler -/

structure ParsedETag where
  weak : Bool
  value : List Char
  deriving DecidableEq

def isOWS (c : Char) : Bool := c == ' ' || c == '\t'

def validETagByte (c : Char) : Bool := c.toNat == 0x21 || 0x80 ≤ c.toNat || (0x23 ≤ c.toNat && c.toNat ≤ 0x7e)

/-- An entity tag at the start of a text, and the text behind it. -/
def parseEntityTag (value : List Char) : Option (ParsedETag × List Char) :=
  let value := value.dropWhile isOWS
  let weak := ['W', '/'].isPrefixOf value
  match if weak then value.drop 2 else value with
  | '"' :: opened =>
    match opened.dropWhile validETagByte with
    | '"' :: rest => some (⟨weak, opened.takeWhile validETagByte⟩, rest)
    | _ => none
  | _ => none

/-- The loop of `parseEntityTagList`; a tag takes up at least one character. -/
def parseEntityTags : Nat → List Char → Option (List ParsedETag)
  | 0, _ => none
  | fuel + 1, header => do
    let (tag, rest) ← parseEntityTag header
    match rest.dropWhile isOWS with
    | [] => return [tag]
    | ',' :: rest =>
      let rest := rest.dropWhile isOWS
      if rest.head? = none || rest.head? = some '*' then none
      else return tag :: (← parseEntityTags fuel rest)
    | _ => none

def parseEntityTagList (header : List Char) : Option (List ParsedETag) :=
  match header.dropWhile isOWS with
  | [] => none
  | '*' :: rest => if rest.dropWhile isOWS = [] then some [] else none
  | header => parseEntityTags header.length header

/-- The value of a stored ETag, and whether it is a strong one. -/
def currentETagValue (etag : String) : List Char × Bool :=
  let etag := (GoText.trimFunc isOWS etag).toList
  if ['W', '/'].isPrefixOf etag then
    match parseEntityTag (etag.drop 2) with
    | some (parsed, rest) => if rest.dropWhile isOWS = [] then (parsed.value, false) else ([], false)
    | none => ([], false)
  else if ['"'].isPrefixOf etag then
    match parseEntityTag etag with
    | some (parsed, rest) => (parsed.value, rest.dropWhile isOWS = [])
    | none => ([], false)
  else if etag ≠ [] ∧ etag.all validETagByte then (etag, true)
  else ([], false)

def etagListMatchesMode (header etag : String) (strong : Bool) : Bool :=
  if GoText.trimFunc isOWS header = "*" then true
  else
    match parseEntityTagList header.toList with
    | none => false
    | some tags =>
      let current := currentETagValue etag
      if !current.2 && strong then false
      else tags.any fun tag => !(strong && tag.weak) && tag.value == current.1

/-- Whether a write may go on, given the ETag of the object if there is one. -/
def checkWritePreconditions (ifMatch ifNoneMatch : String) (current : Option String) : Bool :=
  if ifMatch ≠ "" && !current.any fun etag => etagListMatchesMode ifMatch etag true then false
  else if ifNoneMatch = "" then true
  else if ifNoneMatch = "*" then current.isNone
  else !current.any fun etag => etagListMatchesMode ifNoneMatch etag false

/-! ### Preconditions of the S3 handler -/

def s3ETagEquals (token etag : String) : Bool :=
  GoText.trim '"' (GoText.trimPrefix (GoText.trimSpace token) "W/") == etag

def s3ETagListMatches (header etag : String) : Bool :=
  let header := GoText.trimSpace header
  if header = "" then false
  else if header = "*" then true
  else (header.toList.splitOn ',').any fun token => s3ETagEquals (String.ofList token) etag

def checkS3WritePreconditions (ifMatch ifNoneMatch : String) (current : Option String) : Bool :=
  if ifMatch ≠ "" && !current.any (s3ETagListMatches ifMatch) then false
  else !(ifNoneMatch ≠ "" && current.any (s3ETagListMatches ifNoneMatch))

/-! ### Requests -/

inductive Handler
  | rest
  | s3
  deriving DecidableEq

/-- A put with `If-None-Match: *`, and maybe with an `If-Match`. -/
structure CreateRequest where
  handler : Handler
  ctx : Ctx
  put : PutRequest
  ifMatch : String

namespace CreateRequest

def path (r : CreateRequest) : Path := defaults r.put.tenant r.put.bucket r.put.key

def preconditions (r : CreateRequest) (current : Option String) : Bool :=
  match r.handler with
  | .rest => checkWritePreconditions r.ifMatch "*" current
  | .s3 => checkS3WritePreconditions r.ifMatch "*" current

end CreateRequest

/-- `Stat`. -/
def statObject (ctx : Ctx) (tenant bucket key : String) (s : Vault) : Except GetError Object := do
  let k ← (checkedObjectDefaults tenant bucket key).mapError .service
  match getObject s.objects k with
  | none => throw (.service .notFound)
  | some o =>
    checkCorrupt o
    (authorizeObject ctx .read o).mapError .service
    return o

/-- Whether a handler goes on to `Put`: any error but a missing object is answered. -/
def CreateRequest.admitted (r : CreateRequest) (s : Vault) : Bool :=
  match statObject r.ctx r.put.tenant r.put.bucket r.put.key s with
  | .ok o => r.preconditions (some o.etag)
  | .error (.service .notFound) => r.preconditions none
  | .error _ => false

/-- Where a request stands. -/
inductive CreatePhase
  | start
  | admitted
  /-- The blob is written. -/
  | stored (plan : PutPlan)
  | returned (o : Object)
  | failed
  deriving DecidableEq

/-- What a request does not control: the clock, and what the reads of `Put` come to. -/
structure CreateEnv where
  now : Nat
  prepared : Except ServiceError PutPlan

/-- The `Put` of a request that has written its blob. -/
def CreateRequest.staged (r : CreateRequest) (plan : PutPlan) : StagedPut :=
  ⟨r.ctx, r.put, {plan with path := r.path}⟩

/-- The next step of a request. -/
def createAdvance (r : CreateRequest) (env : CreateEnv) (s : Vault) : CreatePhase → CreatePhase × Vault
  | .start => (if r.admitted s then .admitted else .failed, s)
  | .admitted =>
    match env.prepared with
    | .error _ => (.failed, s)
    | .ok plan => (.stored plan, s.putBlob plan.storageKey r.put.body env.now)
  | .stored plan =>
    match (r.staged plan).commit env.now s with
    | (.ok o, s') => (.returned o, s')
    | (.error _, s') => (.failed, s')
  | .returned o => (.returned o, s)
  | .failed => (.failed, s)

/-! ### What a step does -/

def CreatePhase.succeeded : CreatePhase → Bool
  | .returned _ => true
  | _ => false

section Change

variable {r : CreateRequest} {env : CreateEnv} {s s' : Vault} {k : Path} {p p' : CreatePhase}

/-- The body that a request has stored is as it was declared, so its row comes next. -/
def Writes (r : CreateRequest) (p : CreatePhase) : Prop :=
  ∃ plan, p = .stored plan ∧ plan.accepts r.ctx r.put.body = true

instance (r : CreateRequest) : (p : CreatePhase) → Decidable (Writes r p)
  | .stored plan =>
    decidable_of_iff (plan.accepts r.ctx r.put.body = true)
      ⟨fun h => ⟨plan, rfl, h⟩, fun ⟨_, hplan, h⟩ => CreatePhase.stored.inj hplan ▸ h⟩
  | .start | .admitted | .returned _ | .failed => isFalse nofun

/-- A step writes the row of its request, which succeeds, or changes no row. -/
inductive CreateChange (r : CreateRequest) (s s' : Vault) (p p' : CreatePhase) : Prop
  | keeps (rows : s'.objects = s.objects) (succeeded : p'.succeeded = p.succeeded) (idle : ¬ Writes r p)
  | creates (present : getObject s'.objects r.path ≠ none) (succeeded : p'.succeeded = true) (writes : Writes r p)

theorem commit_accepted_present {p : StagedPut} (h : p.plan.accepts p.ctx p.req.body = true) (now : Nat)
    (s : Vault) : ∃ o s', p.commit now s = (.ok o, s') ∧ getObject s'.objects p.plan.path ≠ none := by
  refine ⟨_, _, p.commit_accepted h now s, ?_⟩
  obtain ⟨row, hrow, -⟩ := (rowWritten_saveObject {p.ctx with now := now} s
    (buildPutObject {p.ctx with now := now} p.req p.plan) p.plan.config.versioning p.req.opts.acl
    p.req.opts.legalHold "s3 upload").live
  intro hnone
  cases hrow.symm.trans hnone

theorem createAdvance_change (r : CreateRequest) (env : CreateEnv) (s : Vault) (p : CreatePhase) :
    CreateChange r s (createAdvance r env s p).2 p (createAdvance r env s p).1 := by
  cases p with
  | start =>
    refine .keeps rfl ?_ nofun
    simp only [createAdvance]
    split <;> rfl
  | admitted =>
    simp only [createAdvance]
    split <;> exact .keeps rfl rfl nofun
  | stored plan =>
    cases hac : plan.accepts r.ctx r.put.body with
    | true =>
      obtain ⟨o, s', hcm, hpr⟩ := commit_accepted_present (p := r.staged plan) hac env.now s
      simp only [createAdvance, hcm]
      exact .creates hpr rfl ⟨plan, rfl, hac⟩
    | false =>
      obtain ⟨err, hcm⟩ := (r.staged plan).commit_refused hac env.now s
      simp only [createAdvance, hcm]
      refine .keeps rfl rfl fun h => ?_
      obtain ⟨plan', hplan, ht⟩ := h
      cases hplan
      cases hac.symm.trans ht
  | returned | failed => exact .keeps rfl rfl nofun

end Change

/-! ### Runs -/

section Runs

variable {ι : Type*} [DecidableEq ι] {puts : ι → CreateRequest} {k : Path} {w : World Vault CreatePhase ι}

/-- One step of one of the requests. -/
def createStep (puts : ι → CreateRequest) (w : World Vault CreatePhase ι) (i : ι × CreateEnv) :
    World Vault CreatePhase ι :=
  World.step (fun c env s p => createAdvance (puts c) env s p) w i

def AtMostOne (w : World Vault CreatePhase ι) : Prop :=
  ∀ c c', (w.phase c).succeeded = true → (w.phase c').succeeded = true → c = c'

/-- The key has no object. -/
abbrev Absent (k : Path) (w : World Vault CreatePhase ι) : Prop := getObject w.shared.objects k = none

/-- The key has an object exactly if a request has succeeded. -/
def Accounted (k : Path) (w : World Vault CreatePhase ι) : Prop :=
  Absent k w ↔ ∀ c, (w.phase c).succeeded = false

theorem succeeded_step {c : ι} {env : CreateEnv}
    (h : (createAdvance (puts c) env w.shared (w.phase c)).1.succeeded = (w.phase c).succeeded) (c' : ι) :
    ((createStep puts w (c, env)).phase c').succeeded = (w.phase c').succeeded := by
  by_cases hc : c' = c
  · rw [hc, createStep, World.phase_step_self, h]
  · rw [createStep, World.phase_step_of_ne hc]

theorem accounted_step (hpt : ∀ c, (puts c).path = k) (h : Accounted k w) (c : ι) (env : CreateEnv) :
    Accounted k (createStep puts w (c, env)) := by
  cases createAdvance_change (puts c) env w.shared (w.phase c) with
  | keeps rows succeeded _ =>
    simp only [Accounted, Absent, succeeded_step succeeded]
    rw [createStep, World.shared_step, rows]
    exact h
  | creates present succeeded _ =>
    rw [hpt c] at present
    refine iff_of_false present fun hnone => ?_
    have hself := hnone c
    rw [createStep, World.phase_step_self, succeeded] at hself
    cases hself

/-- A request that comes to write its row is the only one to succeed exactly if there is no object yet. -/
theorem atMostOne_step (hac : Accounted k w) (h : AtMostOne w) (c : ι) (env : CreateEnv) :
    AtMostOne (createStep puts w (c, env)) ↔ (Writes (puts c) (w.phase c) → Absent k w) := by
  cases createAdvance_change (puts c) env w.shared (w.phase c) with
  | keeps _ succeeded idle =>
    refine iff_of_true ?_ fun hwr => absurd hwr idle
    simpa only [AtMostOne, succeeded_step succeeded] using h
  | creates _ succeeded writes =>
    have hself : ((createStep puts w (c, env)).phase c).succeeded = true := by
      rw [createStep, World.phase_step_self, succeeded]
    have hoth {c' : ι} (hc : c' ≠ c) :
        ((createStep puts w (c, env)).phase c').succeeded = (w.phase c').succeeded := by
      rw [createStep, World.phase_step_of_ne hc]
    constructor
    · intro hone _
      refine hac.mpr fun c' => ?_
      by_cases hc : c' = c
      · obtain ⟨plan, hst, -⟩ := writes
        rw [hc, hst]
        rfl
      · refine Bool.eq_false_iff.mpr fun hc' => hc (hone c' c ?_ hself)
        rw [hoth hc, hc']
    · intro habs c₁ c₂ h₁ h₂
      have hnone := hac.mp (habs writes)
      have ho {c' : ι} (h' : ((createStep puts w (c, env)).phase c').succeeded = true) : c' = c := by
        by_contra hc
        rw [hoth hc, hnone c'] at h'
        cases h'
      rw [ho h₁, ho h₂]

/-- **At most one of any number of conditional puts of an absent key succeeds exactly if, whenever one of them
writes its row, there is no object under the key.** -/
theorem conditional_create_iff (puts : ι → CreateRequest) (k : Path) (hpaths : ∀ c, (puts c).path = k)
    (w : World Vault CreatePhase ι) (hstart : ∀ c, w.phase c = .start) (habsent : Absent k w)
    (ins : List (ι × CreateEnv)) :
    Always (createStep puts) AtMostOne w ins ↔
      Each (createStep puts) (fun w i => Writes (puts i.1) (w.phase i.1) → Absent k w) w ins := by
  have hnone (c : ι) : (w.phase c).succeeded = false := by rw [hstart c]; rfl
  refine always_iff_each
    (fun w i h _ => accounted_step hpaths h i.1 i.2) (fun w i hJ hP _ => atMostOne_step hJ hP i.1 i.2)
    (iff_of_true habsent hnone) (fun c c' hc _ => ?_) (.trivial w ins)
  cases (hnone c).symm.trans hc

/-! ### Nothing between the check and the row -/

theorem preconditions_some (r : CreateRequest) (etag : String) : r.preconditions (some etag) = false := by
  have hall : s3ETagListMatches "*" etag = true := by rfl
  cases hh : r.handler with
  | rest => simp [CreateRequest.preconditions, hh, checkWritePreconditions]
  | s3 => simp [CreateRequest.preconditions, hh, checkS3WritePreconditions, hall]

theorem validateKey_ne_notFound {key : String} : validateKey key ≠ .error .notFound := by
  unfold validateKey
  split_ifs <;> nofun

theorem statObject_ne_notFound {ctx : Ctx} {tenant bucket key : String} {s : Vault} {o : Object}
    (ho : getObject s.objects (defaults tenant bucket key) = some o)
    (hread : ctx.authorize .read (objectResource o) ≠ some .notFound) :
    statObject ctx tenant bucket key s ≠ .error (.service .notFound) := by
  intro h
  simp only [statObject, checkedObjectDefaults] at h
  cases hkey : validateKey key with
  | error err =>
    rw [hkey] at h
    cases h
    exact validateKey_ne_notFound hkey
  | ok u =>
    simp only [hkey, Except.mapError, bind, Except.bind, ho, checkCorrupt] at h
    by_cases hcr : o.metadata.get "_aero_scrub_status" = "corrupt"
    · rw [if_pos hcr] at h
      cases h
    · rw [if_neg hcr] at h
      cases hat : ctx.authorize .read (objectResource o) with
      | none =>
        simp only [authorizeObject, hat] at h
        cases h
      | some err =>
        simp only [authorizeObject, hat] at h
        cases h
        exact hread hat

/-- A request is admitted only if there is no object. -/
theorem absent_of_admitted {r : CreateRequest} {s : Vault}
    (hrd : ∀ o, r.ctx.authorize .read (objectResource o) ≠ some .notFound) (h : r.admitted s = true) :
    getObject s.objects r.path = none := by
  by_contra hpr
  obtain ⟨o, ho⟩ := Option.ne_none_iff_exists'.mp hpr
  unfold CreateRequest.admitted at h
  split at h
  · rw [preconditions_some] at h
    cases h
  next hst => exact statObject_ne_notFound ho (hrd o) hst
  · cases h

/-- The request has passed its check and is yet to end. -/
def CreatePhase.pending : CreatePhase → Bool
  | .admitted | .stored _ => true
  | _ => false

/-- A request writes its row only while no other one is between its check and its end. -/
def Serialized (puts : ι → CreateRequest) (w : World Vault CreatePhase ι) (i : ι × CreateEnv) : Prop :=
  Writes (puts i.1) (w.phase i.1) → ∀ c, c ≠ i.1 → (w.phase c).pending = false

theorem Writes.pending {r : CreateRequest} {p : CreatePhase} (h : Writes r p) : p.pending = true := by
  obtain ⟨plan, rfl, -⟩ := h
  rfl

theorem CreatePhase.not_pending_of_succeeded {p : CreatePhase} (h : p.succeeded = true) : ¬ p.pending = true := by
  cases p with
  | returned o => nofun
  | _ => cases h

theorem admitted_of_pending {r : CreateRequest} {env : CreateEnv} {s : Vault} {p : CreatePhase}
    (hp : ¬ p.pending = true) (h : (createAdvance r env s p).1.pending = true) : r.admitted s = true := by
  cases p with
  | start =>
    by_contra hrf
    rw [createAdvance, if_neg hrf] at h
    cases h
  | admitted | stored => exact absurd rfl hp
  | returned | failed => cases h

/-- While a request is pending, there is no object. -/
def Pending (k : Path) (w : World Vault CreatePhase ι) : Prop := ∀ c, (w.phase c).pending = true → Absent k w

theorem pending_step (hpt : ∀ c, (puts c).path = k)
    (hrd : ∀ c o, (puts c).ctx.authorize .read (objectResource o) ≠ some .notFound) (h : Pending k w) {c : ι}
    {env : CreateEnv} (hsr : Serialized puts w (c, env)) : Pending k (createStep puts w (c, env)) := by
  intro c' hp'
  by_cases hc : c' = c
  · rw [hc, createStep, World.phase_step_self] at hp'
    cases createAdvance_change (puts c) env w.shared (w.phase c) with
    | keeps rows _ _ =>
      rw [Absent, createStep, World.shared_step, rows]
      by_cases hp : (w.phase c).pending = true
      · exact h c hp
      · exact hpt c ▸ absent_of_admitted (hrd c) (admitted_of_pending hp hp')
    | creates _ succeeded _ => exact absurd hp' (CreatePhase.not_pending_of_succeeded succeeded)
  · rw [createStep, World.phase_step_of_ne hc] at hp'
    cases createAdvance_change (puts c) env w.shared (w.phase c) with
    | keeps rows _ _ =>
      rw [Absent, createStep, World.shared_step, rows]
      exact h c' hp'
    | creates _ _ writes =>
      rw [hsr writes c' hc] at hp'
      cases hp'

/-- **Requests create the object once** if no row is written between the check of a request and its
own row, such as those that come one after the other. -/
theorem serialized_create (hpt : ∀ c, (puts c).path = k)
    (hrd : ∀ c o, (puts c).ctx.authorize .read (objectResource o) ≠ some .notFound)
    (hst : ∀ c, w.phase c = .start) (habs : Absent k w) {ins : List (ι × CreateEnv)}
    (h : Each (createStep puts) (Serialized puts) w ins) : Always (createStep puts) AtMostOne w ins := by
  have hnone (c : ι) : (w.phase c).succeeded = false := by rw [hst c]; rfl
  have hpn : Pending k w := by
    intro c hc
    rw [hst c] at hc
    cases hc
  have ho : AtMostOne w := by
    intro c c' hc _
    cases (hnone c).symm.trans hc
  have hstep (w : World Vault CreatePhase ι) (i : ι × CreateEnv)
      (hJ : (Accounted k w ∧ Pending k w) ∧ AtMostOne w) (hi : Serialized puts w i) :
      (Accounted k (createStep puts w i) ∧ Pending k (createStep puts w i)) ∧ AtMostOne (createStep puts w i) := by
    obtain ⟨⟨hac, hpn⟩, ho⟩ := hJ
    refine ⟨⟨accounted_step hpt hac i.1 i.2, pending_step hpt hrd hpn hi⟩, ?_⟩
    exact (atMostOne_step hac ho i.1 i.2).mpr fun hwr => hpn i.1 hwr.pending
  exact (always_of_each hstep ⟨⟨iff_of_true habs hnone, hpn⟩, ho⟩ h).mono fun w hJ => hJ.2

end Runs

/-! ### Two requests -/

private def newPath : Path := ⟨"acme", "default", "new"⟩

private def twoCreates (c : Bool) : CreateRequest :=
  ⟨.rest, allowedUser 0 (if c then "v1" else "v2") "", plainPut "acme" "default" "new" (if c then [1] else [2]), ""⟩

private def beforeCreates : World Vault CreatePhase Bool :=
  ⟨.empty, fun _ => .start⟩

/-- A step of one of them, whose `Put` finds what was there at the start. -/
private def createStepOf (c : Bool) : Bool × CreateEnv :=
  (c, ⟨0, preparePut (twoCreates c).ctx (twoCreates c).put beforeCreates.shared⟩)

theorem first_creates_alone :
    Always (createStep twoCreates) AtMostOne beforeCreates ([true, true, true, false].map createStepOf) := by
  refine (conditional_create_iff twoCreates newPath (fun c => ?_) beforeCreates (fun _ => rfl) ?_ _).mpr ?_
  · cases c <;> rfl
  · decide +kernel
  · decide +kernel

theorem creates_in_turn :
    Always (createStep twoCreates) AtMostOne beforeCreates ([false, false, false, true].map createStepOf) :=
  serialized_create (k := newPath) (by decide) (fun c _ => by cases c <;> nofun) (by decide) (by decide +kernel)
    (by unfold Serialized; decide +kernel)

/-- Both requests make their check, both store their blobs, and both write their row. -/
theorem both_create :
    Absent newPath beforeCreates ∧
      ∀ c, ((run (createStep twoCreates) beforeCreates
        ([true, false, true, false, true, false].map createStepOf)).phase c).succeeded = true := by
  decide +kernel

end AeroVault.Rest
