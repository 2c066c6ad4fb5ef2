import AeroVault.Service.Vault

/-! Persisted API keys and the cache in front of them.

`lookupStore` looks in the cache, then in the store, and puts what it finds there
into the cache; `RevokeKey` deletes from the cache, then from the store. Each of
these is a critical section of its own, so `Step` are the points between which
other calls may come, and `System.next` takes one. The result is when a revocation
takes effect at once: no lookup that starts after `RevokeKey` has returned is
answered, exactly when no key that was read before the deletion reaches the cache
after it (`revocation_immediate_iff`). -/
namespace AeroVault.Auth
open Lib List

structure Key where
  token : String
  tenant : String
  scopes : Finset String
  deriving DecidableEq

structure PersistedKey where
  tokenHash : String
  tenantID : String
  /-- Joined by `+`. -/
  scopes : String
  /-- RFC 3339, or empty for none. -/
  expiresAt : String
  deriving DecidableEq

def scopesToString (scopes : Finset String) : String := "+".intercalate (scopes.sort (· ≤ ·))

def parseScopeString (s : String) : Finset String :=
  (((s.toList.splitOn '+').map fun part => GoText.trimSpace (String.ofList part)).filter (· ≠ "")).toFinset

/-! ### The cache -/

structure KeyCacheEntry where
  key : Key
  expires : Nat
  deriving DecidableEq

structure KeyCache where
  ttl : Nat
  capacity : Nat
  entries : AList fun _ : String => KeyCacheEntry

/-- An entry expires with its key, if that is before its time is up. -/
def entryExpiry (ttl now : Nat) (keyExpiry : Option Nat) : Nat :=
  match keyExpiry with
  | some expiry => if expiry < now + ttl then expiry else now + ttl
  | none => now + ttl

namespace KeyCache

def delete (c : KeyCache) (hash : String) : KeyCache := {c with entries := c.entries.erase hash}

/-- An expired entry is dropped. -/
def get (c : KeyCache) (hash : String) (now : Nat) : Option Key × KeyCache :=
  match c.entries.lookup hash with
  | none => (none, c)
  | some e => if e.expires < now then (none, c.delete hash) else (some e.key, c)

/-- The entry that the iteration over the map meets first. -/
def evict (c : KeyCache) (victim : Nat) : KeyCache :=
  match c.entries.keys[victim % c.entries.keys.length]? with
  | none => c
  | some hash => c.delete hash

def put (c : KeyCache) (hash : String) (key : Key) (keyExpiry : Option Nat) (now victim : Nat) :
    KeyCache :=
  let room := if hash ∉ c.entries ∧ c.capacity ≤ c.entries.keys.length then c.evict victim else c
  {room with entries := room.entries.insert hash ⟨key, entryExpiry c.ttl now keyExpiry⟩}

variable {c : KeyCache} {hash other : String} {e : KeyCacheEntry} {now : Nat}

theorem get_eq_none : (c.get hash now).1 = none ↔ ∀ e, c.entries.lookup hash = some e → e.expires < now := by
  unfold get
  cases hl : c.entries.lookup hash with
  | none => simp
  | some e =>
    by_cases he : e.expires < now
    · simp [he]
    · simp [he]

/-- Every entry of `c'` is one of `c`. -/
def Within (c' c : KeyCache) : Prop :=
  ∀ hash e, c'.entries.lookup hash = some e → c.entries.lookup hash = some e

theorem within_delete (hash : String) : Within (c.delete hash) c := by
  intro other e h
  by_cases heq : other = hash
  · rw [heq, delete, AList.lookup_erase] at h
    cases h
  · rwa [delete, AList.lookup_erase_ne heq] at h

theorem within_get (hash : String) : Within (c.get hash now).2 c := by
  unfold get
  split
  · exact fun _ _ h => h
  · split
    · exact within_delete hash
    · exact fun _ _ h => h

theorem within_evict {victim : Nat} : Within (c.evict victim) c := by
  unfold evict
  split
  · exact fun _ _ h => h
  · exact within_delete _

theorem Within.get_none {c' : KeyCache} (h : Within c' c) (hnone : (c.get hash now).1 = none) :
    (c'.get hash now).1 = none :=
  get_eq_none.mpr fun e he => get_eq_none.mp hnone e (h hash e he)

/-- What is found later is found now. -/
theorem get_none_later {now' : Nat} (hle : now ≤ now') (hnone : (c.get hash now).1 = none) :
    (c.get hash now').1 = none :=
  get_eq_none.mpr fun e he => Nat.lt_of_lt_of_le (get_eq_none.mp hnone e he) hle

theorem lookup_put_self {key : Key} {keyExpiry : Option Nat} {victim : Nat} :
    (c.put hash key keyExpiry now victim).entries.lookup hash =
      some ⟨key, entryExpiry c.ttl now keyExpiry⟩ := by
  simp [put]

theorem lookup_put_other {key : Key} {keyExpiry : Option Nat} {victim : Nat} (hne : other ≠ hash)
    (h : (c.put hash key keyExpiry now victim).entries.lookup other = some e) :
    c.entries.lookup other = some e := by
  simp only [put] at h
  rw [AList.lookup_insert_ne hne] at h
  split at h
  · exact within_evict other e h
  · exact h

end KeyCache

/-! ### Calls, step by step -/

/-- What is not computed here: `HashToken` and `time.Parse`. -/
structure Env where
  hashToken : String → String
  parseTime : String → Option Nat

/-- How far a `lookupStore` has come. -/
inductive Stage
  | started
  /-- The cache had no entry, the store is to be read. -/
  | missed
  | loaded (pk : PersistedKey) (keyExpiry : Option Nat)
  | returned (result : Option Key)
  deriving DecidableEq

structure Lookup where
  token : String
  /-- The time at which the call started. -/
  now : Nat
  /-- It started after a `RevokeKey` of its token had returned success, and the key
  has not been added since. -/
  barred : Bool
  stage : Stage
  deriving DecidableEq

structure System where
  clock : Nat
  cache : KeyCache
  /-- The `api_keys` table, by token hash. It is shared with the other replicas. -/
  store : AList fun _ : String => PersistedKey
  lookups : List Lookup
  /-- Tokens whose `RevokeKey` is between its two deletions. -/
  revoking : List String
  /-- What an `AddKey` is to store, with the expiry it was given. -/
  adding : List (Key × String)
  /-- Hashes whose `RevokeKey` has returned success, until the key is added again. -/
  revoked : List String

/-- How a statement ends. An error may also be reported after the row was written,
as when `RowsAffected` fails. -/
inductive Outcome
  | done
  | failed
  | unconfirmed
  deriving DecidableEq

inductive Step
  | tick (elapsed : Nat)
  /-- `lookupStore`: the clock, the cache, the store, and the cache again. -/
  | start (token : String)
  | get (i : Nat)
  | read (i : Nat) (fault : Bool)
  | put (i victim : Nat)
  /-- `RevokeKey`: the cache, then the store. -/
  | revokeCached (token : String)
  | revokeStored (i : Nat) (outcome : Outcome)
  /-- `AddKey`: the cache, then the store. -/
  | addCached (key : Key) (expiresAt : String)
  | addStored (i : Nat) (outcome : Outcome)
  /-- Another replica writes or deletes a row. -/
  | peerPut (pk : PersistedKey)
  | peerDelete (hash : String)
  /-- `InvalidateCachedKey` and `InvalidatePersistedKey`. -/
  | invalidate (hash : String)

namespace System

def empty (ttl capacity : Nat) : System := ⟨0, ⟨ttl, capacity, ∅⟩, ∅, [], [], [], []⟩

variable (env : Env)

def start (s : System) (token : String) : System :=
  {s with lookups := s.lookups ++ [⟨token, s.clock, s.revoked.contains (env.hashToken token), .started⟩]}

def advance (s : System) (i : Nat) (l : Lookup) (stage : Stage) : System :=
  {s with lookups := s.lookups.set i {l with stage := stage}}

def get (s : System) (i : Nat) : System :=
  match s.lookups[i]? with
  | none => s
  | some l =>
    if l.stage = .started then
      let found := s.cache.get (env.hashToken l.token) l.now
      {s with cache := found.2}.advance i l (if found.1.isSome then .returned found.1 else .missed)
    else s

/-- What the answer of the store amounts to. -/
def load (now : Nat) (fault : Bool) : Option PersistedKey → Stage
  | none => .returned none
  | some pk =>
    if fault then .returned none
    else if pk.expiresAt = "" then .loaded pk none
    else
      match env.parseTime pk.expiresAt with
      | none => .returned none
      | some expiry => if expiry < now then .returned none else .loaded pk (some expiry)

def read (s : System) (i : Nat) (fault : Bool) : System :=
  match s.lookups[i]? with
  | none => s
  | some l =>
    if l.stage = .missed then
      s.advance i l (load env l.now fault (s.store.lookup (env.hashToken l.token)))
    else s

def resolved (token : String) (pk : PersistedKey) : Key :=
  ⟨token, pk.tenantID, parseScopeString pk.scopes⟩

def put (s : System) (i victim : Nat) : System :=
  match s.lookups[i]? with
  | none => s
  | some l =>
    match l.stage with
    | .loaded pk keyExpiry =>
      let key := resolved l.token pk
      {s with cache := s.cache.put (env.hashToken l.token) key keyExpiry l.now victim}.advance i l
        (.returned (some key))
    | _ => s

def deleteAPIKeyByHash (s : System) (hash : String) : System := {s with store := s.store.erase hash}

/-- From here on the key is there again, also for the lookups under way. -/
def putAPIKey (s : System) (pk : PersistedKey) : System :=
  {s with
    store := s.store.insert pk.tokenHash {pk with tenantID := Repository.defaultTenant pk.tenantID}
    lookups := s.lookups.map fun l =>
      {l with barred := l.barred && env.hashToken l.token != pk.tokenHash}
    revoked := s.revoked.filter (· ≠ pk.tokenHash)}

def revokeStored (s : System) (i : Nat) (outcome : Outcome) : System :=
  match s.revoking[i]? with
  | none => s
  | some token =>
    let s := {s with revoking := s.revoking.eraseIdx i}
    match outcome with
    | .failed => s
    | .unconfirmed => s.deleteAPIKeyByHash (env.hashToken token)
    | .done =>
      {s.deleteAPIKeyByHash (env.hashToken token) with revoked := env.hashToken token :: s.revoked}

def addStored (s : System) (i : Nat) (outcome : Outcome) : System :=
  match s.adding[i]? with
  | none => s
  | some (key, expiresAt) =>
    let s := {s with adding := s.adding.eraseIdx i}
    if outcome = .failed then s
    else s.putAPIKey env ⟨env.hashToken key.token, key.tenant, scopesToString key.scopes, expiresAt⟩

def next (s : System) : Step → System
  | .tick elapsed => {s with clock := s.clock + elapsed}
  | .start token => s.start env token
  | .get i => s.get env i
  | .read i fault => s.read env i fault
  | .put i victim => s.put env i victim
  | .revokeCached token =>
    {s with cache := s.cache.delete (env.hashToken token), revoking := s.revoking ++ [token]}
  | .revokeStored i outcome => s.revokeStored env i outcome
  | .addCached key expiresAt =>
    {s with cache := s.cache.delete (env.hashToken key.token), adding := s.adding ++ [(key, expiresAt)]}
  | .addStored i outcome => s.addStored env i outcome
  | .peerPut pk => s.putAPIKey env pk
  | .peerDelete hash => s.deleteAPIKeyByHash hash
  | .invalidate hash => {s with cache := s.cache.delete hash}

end System

/-! ### Revocation -/

section Revocation
variable (env : Env)

/-- No lookup that started after the revocation has succeeded, none that is about to
look in the cache will find the key there, and neither will one that starts now. -/
structure Immediate (s : System) : Prop where
  failed : ∀ l ∈ s.lookups, l.barred = true → ∀ key, l.stage ≠ .returned (some key)
  waiting : ∀ l ∈ s.lookups, l.barred = true → l.stage = .started →
    (s.cache.get (env.hashToken l.token) l.now).1 = none
  starting : ∀ hash ∈ s.revoked, (s.cache.get hash s.clock).1 = none

/-- A key that was revoked is not put into the cache, unless it is expired there for
every lookup that must fail; and it has not come back into the cache when
`RevokeKey` returns. -/
def Timely (s : System) : Step → Prop
  | .put i _ => ∀ l, s.lookups[i]? = some l → ∀ pk keyExpiry, l.stage = .loaded pk keyExpiry →
      env.hashToken l.token ∈ s.revoked →
        entryExpiry s.cache.ttl l.now keyExpiry < s.clock ∧
        ∀ l' ∈ s.lookups, l'.barred = true → l'.stage = .started →
          env.hashToken l'.token = env.hashToken l.token →
            entryExpiry s.cache.ttl l.now keyExpiry < l'.now
  | .revokeStored i outcome => ∀ token, s.revoking[i]? = some token → outcome = .done →
      (s.cache.get (env.hashToken token) s.clock).1 = none
  | _ => True

/-- A revoked key has no row, so a lookup that must fail has none either. -/
structure Sound (s : System) : Prop where
  erased : ∀ hash ∈ s.revoked, s.store.lookup hash = none
  barred : ∀ l ∈ s.lookups, l.barred = true → env.hashToken l.token ∈ s.revoked
  unloaded : ∀ l ∈ s.lookups, l.barred = true → ∀ pk keyExpiry, l.stage ≠ .loaded pk keyExpiry

variable {env} {s : System} {i : Nat} {l l' : Lookup} {stage : Stage}

theorem mem_advance (h : l' ∈ (s.advance i l stage).lookups) :
    l' ∈ s.lookups ∨ l' = {l with stage := stage} :=
  mem_or_eq_of_mem_set h

/-- The lookups that the advanced one is not are still there. -/
theorem mem_advance_of_ne (hi : s.lookups[i]? = some l) (hm : l' ∈ s.lookups) (hne : l' ≠ l) :
    l' ∈ (s.advance i l stage).lookups := by
  obtain ⟨j, hj⟩ := mem_iff_getElem?.mp hm
  have hij : i ≠ j := by
    intro heq
    rw [heq, hj] at hi
    exact hne (Option.some.inj hi)
  exact mem_iff_getElem?.mpr ⟨j, by rw [System.advance, getElem?_set_ne hij, hj]⟩

theorem Sound.advance (hs : Sound env s) (hl : l ∈ s.lookups)
    (hst : l.barred = true → ∀ pk keyExpiry, stage ≠ .loaded pk keyExpiry) :
    Sound env (s.advance i l stage) := by
  refine ⟨hs.erased, ?_, ?_⟩
  · intro l' hm hb
    cases mem_advance hm with
    | inl hold => exact hs.barred l' hold hb
    | inr heq =>
      subst heq
      exact hs.barred l hl hb
  · intro l' hm hb
    cases mem_advance hm with
    | inl hold => exact hs.unloaded l' hold hb
    | inr heq =>
      subst heq
      exact hst hb

theorem Immediate.advance (hs : Immediate env s) (hstart : stage ≠ .started)
    (hstag : l.barred = true → ∀ key, stage ≠ .returned (some key)) :
    Immediate env (s.advance i l stage) := by
  refine ⟨?_, ?_, hs.starting⟩
  · intro l' hm hb
    cases mem_advance hm with
    | inl hold => exact hs.failed l' hold hb
    | inr heq =>
      subst heq
      exact hstag hb
  · intro l' hm hb hst
    cases mem_advance hm with
    | inl hold => exact hs.waiting l' hold hb hst
    | inr heq =>
      subst heq
      exact absurd hst hstart

/-- Dropping cache entries and letting time pass keep it. -/
theorem Immediate.mono {s' : System} (hs : Immediate env s) (hl : s'.lookups = s.lookups)
    (hrv : s'.revoked = s.revoked) (hcl : s.clock ≤ s'.clock)
    (hcc : KeyCache.Within s'.cache s.cache) : Immediate env s' := by
  refine ⟨?_, ?_, ?_⟩
  · rw [hl]
    exact hs.failed
  · rw [hl]
    exact fun l hm hb hst => hcc.get_none (hs.waiting l hm hb hst)
  · rw [hrv]
    exact fun hash hm => hcc.get_none (KeyCache.get_none_later hcl (hs.starting hash hm))

theorem KeyCache.Within.refl (c : KeyCache) : KeyCache.Within c c := fun _ _ h => h

/-! ### One step -/

theorem load_none {now : Nat} {fault : Bool} : System.load env now fault none = .returned none := rfl

/-- The store's answer ends the lookup without a key, or is a key that is yet to be returned. -/
theorem load_unanswered {now : Nat} {fault : Bool} {pk : Option PersistedKey} :
    System.load env now fault pk ≠ .started ∧ ∀ key, System.load env now fault pk ≠ .returned (some key) := by
  unfold System.load
  split
  · simp
  · split_ifs
    · simp
    · simp
    · split
      · simp
      · split_ifs <;> simp

theorem Sound.start (hs : Sound env s) (token : String) : Sound env (s.start env token) := by
  refine ⟨hs.erased, ?_, ?_⟩
  · intro l hm hb
    cases mem_append.mp hm with
    | inl hold => exact hs.barred l hold hb
    | inr hnew =>
      rw [mem_singleton] at hnew
      subst hnew
      simpa [System.start] using hb
  · intro l hm hb
    cases mem_append.mp hm with
    | inl hold => exact hs.unloaded l hold hb
    | inr hnew =>
      rw [mem_singleton] at hnew
      subst hnew
      simp

theorem Immediate.start (hs : Immediate env s) (token : String) : Immediate env (s.start env token) := by
  refine ⟨?_, ?_, hs.starting⟩
  · intro l hm hb
    cases mem_append.mp hm with
    | inl hold => exact hs.failed l hold hb
    | inr hnew =>
      rw [mem_singleton] at hnew
      subst hnew
      simp
  · intro l hm hb hst
    cases mem_append.mp hm with
    | inl hold => exact hs.waiting l hold hb hst
    | inr hnew =>
      rw [mem_singleton] at hnew
      subst hnew
      exact hs.starting _ (by simpa using hb)

theorem Sound.get (hs : Sound env s) (i : Nat) : Sound env (s.get env i) := by
  unfold System.get
  split
  · exact hs
  · rename_i l hi
    split_ifs
    · have hcc : Sound env {s with cache := (s.cache.get (env.hashToken l.token) l.now).2} :=
        ⟨hs.erased, hs.barred, hs.unloaded⟩
      apply hcc.advance (mem_of_getElem? hi)
      intro _ pk keyExpiry
      split_ifs <;> simp
    · exact hs

theorem Immediate.get (hs : Immediate env s) (i : Nat) : Immediate env (s.get env i) := by
  unfold System.get
  split
  · exact hs
  · rename_i l hi
    split_ifs with hst
    · have hcc : Immediate env {s with cache := (s.cache.get (env.hashToken l.token) l.now).2} :=
        hs.mono rfl rfl le_rfl (KeyCache.within_get _)
      apply hcc.advance
      · split_ifs <;> simp
      · intro hb key
        simp [hs.waiting l (mem_of_getElem? hi) hb hst]
    · exact hs

theorem Sound.read (hs : Sound env s) (i : Nat) (fault : Bool) : Sound env (s.read env i fault) := by
  unfold System.read
  split
  · exact hs
  · rename_i l hi
    have hm := mem_of_getElem? hi
    split_ifs
    · apply hs.advance hm
      intro hb pk keyExpiry
      rw [hs.erased _ (hs.barred l hm hb), load_none]
      simp
    · exact hs

theorem Immediate.read (hs : Immediate env s) (i : Nat) (fault : Bool) :
    Immediate env (s.read env i fault) := by
  unfold System.read
  split
  · exact hs
  · split_ifs
    · exact hs.advance load_unanswered.1 fun _ => load_unanswered.2
    · exact hs

theorem Sound.put (hs : Sound env s) (i victim : Nat) : Sound env (s.put env i victim) := by
  unfold System.put
  split
  · exact hs
  · rename_i l hi
    split
    · have hcc (c : KeyCache) : Sound env {s with cache := c} := ⟨hs.erased, hs.barred, hs.unloaded⟩
      exact (hcc _).advance (mem_of_getElem? hi) fun _ _ _ => by simp
    · exact hs

/-- What the cache answers for a hash after a `put` of it, and of another. -/
theorem get_put {c : KeyCache} {hash other : String} {key : Key} {keyExpiry : Option Nat}
    {now now' victim : Nat} (hold : (c.get other now').1 = none) :
    ((c.put hash key keyExpiry now victim).get other now').1 = none ↔
      (other = hash → entryExpiry c.ttl now keyExpiry < now') := by
  rw [KeyCache.get_eq_none]
  constructor
  · intro h heq
    subst heq
    exact h _ KeyCache.lookup_put_self
  · intro h e he
    by_cases heq : other = hash
    · subst heq
      rw [KeyCache.lookup_put_self] at he
      rw [← Option.some.inj he]
      exact h rfl
    · exact KeyCache.get_eq_none.mp hold e (KeyCache.lookup_put_other heq he)

theorem put_loaded {pk : PersistedKey} {keyExpiry : Option Nat} (hi : s.lookups[i]? = some l)
    (hst : l.stage = .loaded pk keyExpiry) (victim : Nat) :
    s.put env i victim =
      {s with cache := s.cache.put (env.hashToken l.token) (System.resolved l.token pk) keyExpiry
                l.now victim}.advance
        i l (.returned (some (System.resolved l.token pk))) := by
  simp only [System.put, hi, hst]

theorem put_of_ne (hi : s.lookups[i]? = some l) (hst : ∀ pk keyExpiry, l.stage ≠ .loaded pk keyExpiry)
    (victim : Nat) : s.put env i victim = s := by
  simp only [System.put, hi]

theorem immediate_put_iff (hs : Sound env s) (hp : Immediate env s) {victim : Nat} :
    Immediate env (s.put env i victim) ↔ Timely env s (.put i victim) := by
  cases hi : s.lookups[i]? with
  | none => simp [Timely, System.put, hi, hp]
  | some l =>
    have hm := mem_of_getElem? hi
    cases hst : l.stage with
    | started | missed | returned => simp [put_of_ne hi, Timely, hi, hst, hp]
    | loaded pk keyExpiry =>
      -- A lookup that has loaded a row is not one that must fail.
      have hfree : l.barred ≠ true := fun hb => hs.unloaded l hm hb pk keyExpiry hst
      rw [put_loaded hi hst]
      simp only [Timely, hi]
      constructor
      · intro h l₁ hl₁ pk₁ exp₁ hst₁ hrev
        cases hl₁
        rw [hst] at hst₁
        obtain ⟨rfl, rfl⟩ := Stage.loaded.inj hst₁
        refine ⟨(get_put (hp.starting _ hrev)).mp (h.starting _ hrev) rfl, ?_⟩
        intro l' hl' hb hst' heq
        have hne : l' ≠ l := fun hll => hfree (hll ▸ hb)
        exact (get_put (hp.waiting l' hl' hb hst')).mp
          (h.waiting l' (mem_advance_of_ne hi hl' hne) hb hst') heq
      · intro h
        have hnew := h l rfl pk keyExpiry hst
        refine ⟨?_, ?_, ?_⟩
        · intro l' hl' hb
          cases mem_advance hl' with
          | inl hold => exact hp.failed l' hold hb
          | inr heq =>
            subst heq
            exact absurd hb hfree
        · intro l' hl' hb hst'
          cases mem_advance hl' with
          | inl hold =>
            refine (get_put (hp.waiting l' hold hb hst')).mpr fun heq => ?_
            exact (hnew (heq ▸ hs.barred l' hold hb)).2 l' hold hb hst' heq
          | inr heq =>
            subst heq
            exact absurd hb hfree
        · intro hash hrev
          exact (get_put (hp.starting hash hrev)).mpr fun heq => (hnew (heq ▸ hrev)).1

theorem Sound.deleteAPIKeyByHash (hs : Sound env s) (hash : String) :
    Sound env (s.deleteAPIKeyByHash hash) := by
  refine ⟨?_, hs.barred, hs.unloaded⟩
  intro other hm
  by_cases heq : other = hash
  · rw [heq]
    exact AList.lookup_erase _ _
  · exact (AList.lookup_erase_ne heq).trans (hs.erased other hm)

theorem Sound.putAPIKey (hs : Sound env s) (pk : PersistedKey) : Sound env (s.putAPIKey env pk) := by
  refine ⟨?_, ?_, ?_⟩
  · intro hash hm
    simp only [System.putAPIKey, mem_filter, decide_eq_true_eq] at hm
    exact (AList.lookup_insert_ne hm.2).trans (hs.erased hash hm.1)
  · intro l hm hb
    obtain ⟨l₀, hl₀, rfl⟩ := mem_map.mp hm
    simp only [Bool.and_eq_true, bne_iff_ne] at hb
    simpa [System.putAPIKey, hb.2] using hs.barred l₀ hl₀ hb.1
  · intro l hm hb
    obtain ⟨l₀, hl₀, rfl⟩ := mem_map.mp hm
    simp only [Bool.and_eq_true] at hb
    exact hs.unloaded l₀ hl₀ hb.1

theorem Immediate.putAPIKey (hs : Immediate env s) (pk : PersistedKey) :
    Immediate env (s.putAPIKey env pk) := by
  refine ⟨?_, ?_, ?_⟩
  · intro l hm hb
    obtain ⟨l₀, hl₀, rfl⟩ := mem_map.mp hm
    simp only [Bool.and_eq_true] at hb
    exact hs.failed l₀ hl₀ hb.1
  · intro l hm hb
    obtain ⟨l₀, hl₀, rfl⟩ := mem_map.mp hm
    simp only [Bool.and_eq_true] at hb
    exact hs.waiting l₀ hl₀ hb.1
  · intro hash hm
    exact hs.starting hash (mem_filter.mp hm).1

theorem Sound.revokeStored (hs : Sound env s) (i : Nat) (outcome : Outcome) :
    Sound env (s.revokeStored env i outcome) := by
  unfold System.revokeStored
  split
  · exact hs
  · rename_i token _
    have hpn : Sound env {s with revoking := s.revoking.eraseIdx i} := ⟨hs.erased, hs.barred, hs.unloaded⟩
    have hd := hpn.deleteAPIKeyByHash (env.hashToken token)
    cases outcome with
    | failed => exact hpn
    | unconfirmed => exact hd
    | done =>
      refine ⟨?_, fun l hl hb => mem_cons_of_mem _ (hd.barred l hl hb), hd.unloaded⟩
      intro hash hm
      cases mem_cons.mp hm with
      | inl heq =>
        rw [heq]
        exact AList.lookup_erase _ _
      | inr hold => exact hd.erased hash hold

theorem immediate_revokeStored_iff (hp : Immediate env s) {outcome : Outcome} :
    Immediate env (s.revokeStored env i outcome) ↔ Timely env s (.revokeStored i outcome) := by
  unfold System.revokeStored
  cases hi : s.revoking[i]? with
  | none => simp [Timely, hi, hp]
  | some token =>
    cases outcome with
    | failed | unconfirmed => exact iff_of_true ⟨hp.failed, hp.waiting, hp.starting⟩ fun _ _ h => by cases h
    | done =>
      constructor
      · intro h token' ht _
        rw [hi] at ht
        rw [← Option.some.inj ht]
        exact h.starting _ (mem_cons_self ..)
      · intro h
        refine ⟨hp.failed, hp.waiting, ?_⟩
        intro hash hm
        cases mem_cons.mp hm with
        | inl heq =>
          rw [heq]
          exact h token hi rfl
        | inr hold => exact hp.starting hash hold

theorem Sound.addStored (hs : Sound env s) (i : Nat) (outcome : Outcome) :
    Sound env (s.addStored env i outcome) := by
  unfold System.addStored
  split
  · exact hs
  · have hpn : Sound env {s with adding := s.adding.eraseIdx i} :=
      ⟨hs.erased, hs.barred, hs.unloaded⟩
    split_ifs
    · exact hpn
    · exact hpn.putAPIKey _

theorem Immediate.addStored (hs : Immediate env s) (i : Nat) (outcome : Outcome) :
    Immediate env (s.addStored env i outcome) := by
  unfold System.addStored
  split
  · exact hs
  · have hpn : Immediate env {s with adding := s.adding.eraseIdx i} :=
      ⟨hs.failed, hs.waiting, hs.starting⟩
    split_ifs
    · exact hpn
    · exact hpn.putAPIKey _

theorem Sound.next (hs : Sound env s) (step : Step) : Sound env (s.next env step) := by
  cases step with
  | start token => exact hs.start token
  | get i => exact hs.get i
  | read i fault => exact hs.read i fault
  | put i victim => exact hs.put i victim
  | revokeStored i outcome => exact hs.revokeStored i outcome
  | addStored i outcome => exact hs.addStored i outcome
  | peerPut pk => exact hs.putAPIKey pk
  | peerDelete hash => exact hs.deleteAPIKeyByHash hash
  | tick _ | revokeCached _ | addCached _ _ | invalidate _ => exact ⟨hs.erased, hs.barred, hs.unloaded⟩

theorem immediate_next_iff (hs : Sound env s) (hp : Immediate env s) (step : Step) :
    Immediate env (s.next env step) ↔ Timely env s step := by
  cases step with
  | put i victim => exact immediate_put_iff hs hp
  | revokeStored i outcome => exact immediate_revokeStored_iff hp
  | tick elapsed =>
    exact iff_of_true (hp.mono rfl rfl (Nat.le_add_right ..) (KeyCache.Within.refl _)) trivial
  | start token => exact iff_of_true (hp.start token) trivial
  | get i => exact iff_of_true (hp.get i) trivial
  | read i fault => exact iff_of_true (hp.read i fault) trivial
  | revokeCached | invalidate => exact iff_of_true (hp.mono rfl rfl le_rfl (KeyCache.within_delete _)) trivial
  | addCached key expiresAt =>
    exact iff_of_true (hp.mono rfl rfl le_rfl (KeyCache.within_delete _)) trivial
  | addStored i outcome => exact iff_of_true (hp.addStored i outcome) trivial
  | peerPut pk => exact iff_of_true (hp.putAPIKey pk) trivial
  | peerDelete hash => exact iff_of_true ⟨hp.failed, hp.waiting, hp.starting⟩ trivial

/-! ### Runs -/

theorem sound_empty (env : Env) (ttl capacity : Nat) : Sound env (System.empty ttl capacity) := by
  constructor <;> simp [System.empty]

theorem immediate_empty {env : Env} {ttl capacity : Nat} : Immediate env (System.empty ttl capacity) := by
  constructor <;> simp [System.empty]

/-- **When a revocation is immediate.** Along any interleaving of lookups, revocations
and additions, no lookup that starts after `RevokeKey` returned succeeds, exactly when
every step is timely. -/
theorem revocation_immediate_iff (env : Env) (ttl capacity : Nat) (steps : List Step) :
    Always (System.next env) (Immediate env) (System.empty ttl capacity) steps ↔
      Each (System.next env) (Timely env) (System.empty ttl capacity) steps :=
  always_iff_each (fun _ step (hs : Sound env _) _ => hs.next step)
    (fun _ step hs hp _ => immediate_next_iff hs hp step) (sound_empty env ttl capacity)
    immediate_empty (.trivial _ steps)

/-- A lookup reads the row, the key is revoked, and the lookup then fills the cache, from
which the next one is answered. -/
theorem revoked_key_answered :
    let env : Env := ⟨fun token => token, fun _ => none⟩
    let key : Key := ⟨"k", "t", {"read"}⟩
    let steps : List Step := [.addCached key "", .addStored 0 .done, .start "k", .get 0, .read 0 false,
      .revokeCached "k", .revokeStored 0 .done, .put 0 0, .start "k", .get 1]
    (⟨"k", 0, true, .returned (some key)⟩ : Lookup) ∈
      (run (System.next env) (System.empty 30 8) steps).lookups := by
  decide +kernel

end Revocation
end AeroVault.Auth
