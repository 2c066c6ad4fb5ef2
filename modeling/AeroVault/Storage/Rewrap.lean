import AeroVault.Storage.Local

/-! Moving an object to the current master key.

The envelope in a sidecar holds the data key of the object, wrapped under a master key. `RewrapObject`
wraps it again under the current one, which it asks the key provider for as soon as the envelope is
one of local wrapping. A server that wraps its keys remotely has no provider, and its objects can
still have such envelopes: from before, or under a customer key. The call panics on exactly these;
otherwise it returns, and an error leaves the sidecar as it was (`rewrapObject_total_iff`). -/
namespace AeroVault.Storage
open Lib Lib.FileTree LocalStorage

/-! ### Envelopes -/

def sseAlg : String := "AES-256-GCM"

def masterKeyLen : Nat := 32

structure SseEnvelope where
  alg : String
  /-- Empty for local wrapping, `kms` for a remote wrapper. -/
  wrap : String
  kid : String
  kek : String
  iv : String

structure SecretProvider where
  current : String × List UInt8
  resolve : String → Option (List UInt8)

/-- The packages that `rewrap` calls. -/
structure Codec where
  unmarshal : String → Except String SseEnvelope
  marshal : SseEnvelope → String
  decodeString : String → Except String (List UInt8)
  encodeToString : List UInt8 → String
  gcmSeal : (key nonce plain : List UInt8) → List UInt8
  gcmOpen : (key nonce sealed : List UInt8) → Except String (List UInt8)
  quote : String → String
  /-- What `rand.Read` gives for the nonce. -/
  nonce : Except String (List UInt8)

inductive Fault
  | storage (err : StorageError)
  | sse (text : String)
  /-- A call through the nil provider. -/
  | panic
  deriving DecidableEq

section Rewrap
variable (c : Codec)

def Codec.parseEnvelope (s : String) : Except String SseEnvelope := do
  let env ← (c.unmarshal s).mapError ("sse: malformed envelope: " ++ ·)
  refuseIf (env.kek = "" ∨ env.iv = "") "sse: envelope missing kek/iv"
  return env

def Codec.buildEnvelope (wrap keyID : String) (wrapped iv : List UInt8) : String :=
  c.marshal ⟨sseAlg, wrap, keyID, c.encodeToString wrapped, c.encodeToString iv⟩

/-- The key sizes of `aes.NewCipher`. -/
def newCipher (key : List UInt8) : Except String Unit :=
  refuseIf (key.length ∉ [16, 24, 32]) ("crypto/aes: invalid key size " ++ toString key.length)

def Codec.wrapKey (masterKey dataKey : List UInt8) : Except String (List UInt8) := do
  newCipher masterKey
  let nonce ← c.nonce
  return nonce ++ c.gcmSeal masterKey nonce dataKey

def Codec.unwrapKey (masterKey wrapped : List UInt8) : Except String (List UInt8) := do
  newCipher masterKey
  refuseIf (wrapped.length < 12) "envelope: wrapped key too short"
  c.gcmOpen masterKey (wrapped.take 12) (wrapped.drop 12)

def Codec.resolveOldKey (ring : SecretProvider) (kid : String) : Except String (List UInt8) :=
  match ring.resolve kid with
  | none =>
    if kid = "" then .error "sse: object has no key id and no legacy key is configured"
    else .error ("sse: unknown key version " ++ c.quote kid)
  | some oldKey => do
    refuseIf (oldKey.length ≠ masterKeyLen) ("sse: master key for " ++ c.quote kid ++ " is " ++
      toString oldKey.length ++ " bytes, want " ++ toString masterKeyLen)
    return oldKey

def Codec.rewrapObject (env : SseEnvelope) (oldKey curKey : List UInt8) (curID : String) :
    Except String String := do
  let wrapped ← (c.decodeString env.kek).mapError ("sse: decode kek: " ++ ·)
  let iv ← (c.decodeString env.iv).mapError ("sse: decode iv: " ++ ·)
  refuseIf (iv.length ≠ 12) ("sse: envelope iv is " ++ toString iv.length ++ " bytes, want 12")
  let dataKey ← (c.unwrapKey oldKey wrapped).mapError ("rewrap unwrap: " ++ ·)
  let newWrapped ← c.wrapKey curKey dataKey
  return c.buildEnvelope "" curID newWrapped iv

/-- The part of `rewrap` that has the provider. -/
def Codec.rewrapLocal (ring : SecretProvider) (envelope : String) (env : SseEnvelope) :
    Except String (String × Bool) :=
  let (curID, curKey) := ring.current
  if env.kid = curID then .ok (envelope, false)
  else do
    let oldKey ← c.resolveOldKey ring env.kid
    refuseIf (curKey.length ≠ masterKeyLen) ("sse: master key must be " ++ toString masterKeyLen ++ " bytes")
    let newEnv ← c.rewrapObject env oldKey curKey curID
    return (newEnv, true)

/-- `rewrap`, by an encrypter whose provider, if it has one, is `ring`. -/
def Codec.rewrap (e : Encrypter) (ring : SecretProvider) (envelope : String) :
    Except Fault (String × Bool) := do
  let env ← (c.parseEnvelope envelope).mapError .sse
  refuseIf (env.alg ≠ sseAlg) (.sse ("sse: unsupported envelope alg " ++ c.quote env.alg))
  if env.wrap ≠ "" then return (envelope, false)
  match e with
  | .wrapper => .error .panic
  | .provider => (c.rewrapLocal ring envelope env).mapError .sse

variable (s : LocalStorage) (out : Outside) (ring : SecretProvider)

/-- The new sidecar of an object that has one. -/
def LocalStorage.rewrapSidecar (e : Encrypter) (path : Location) (m : LocalMeta) (t : Disk) :
    Except Fault Bool × Disk :=
  if m.envelope = "" then (.ok false, t)
  else
    match c.rewrap e ring m.envelope with
    | .error err => (.error err, t)
    | .ok (_, false) => (.ok false, t)
    | .ok (newEnv, true) =>
      let result := Attempt.runFrom (s.writeMeta out (metaPath path) { m with envelope := newEnv }) t
      ((result.1.mapError .storage).map fun _ => true, result.2)

/-- `RewrapObject`, with the result and the tree it leaves. -/
def LocalStorage.rewrapObject (key : String) (t : Disk) : Except Fault Bool × Disk :=
  match s.enc with
  | none => (.ok false, t)
  | some e =>
    match s.objectPath key with
    | .error err => (.error (.storage err), t)
    | .ok path =>
      match s.readMeta (metaPath path) t with
      | .error (.fs .notExist) => (.error (.storage .notFound), t)
      | .error err => (.error (.storage err), t)
      | .ok m => s.rewrapSidecar c out ring e path m t

/-! ### When it returns -/

/-- The envelope is one that only a key provider can open. -/
def Codec.Local (envelope : String) : Prop :=
  ∃ env, c.parseEnvelope envelope = .ok env ∧ env.alg = sseAlg ∧ env.wrap = ""

/-- There is no key provider for the envelope of the key. -/
def LocalStorage.Stranded (key : String) (t : Disk) : Prop :=
  s.enc = some .wrapper ∧ ∃ path m, s.objectPath key = .ok path ∧ s.readMeta (metaPath path) t = .ok m ∧
    m.envelope ≠ "" ∧ c.Local m.envelope

/-- The call ends with a result or an error, and after an error the sidecar is as before. -/
structure LocalStorage.RewrapTotal (key : String) (t : Disk) : Prop where
  returns : (s.rewrapObject c out ring key t).1 ≠ .error .panic
  sidecar : ∀ err, (s.rewrapObject c out ring key t).1 = .error err → ∀ path, s.objectPath key = .ok path →
    (s.rewrapObject c out ring key t).2.find (metaPath path) = t.find (metaPath path)

variable {c s out ring} {key : String} {path : Location} {t : Disk} {m : LocalMeta} {e : Encrypter}

theorem rewrap_eq_panic_iff {envelope : String} :
    c.rewrap e ring envelope = .error .panic ↔ e = .wrapper ∧ c.Local envelope := by
  unfold Codec.rewrap Codec.Local
  cases c.parseEnvelope envelope with
  | error text => simp [bind, Except.bind, Except.mapError]
  | ok env =>
    by_cases halg : env.alg = sseAlg
    · by_cases hwrap : env.wrap = ""
      · cases e with
        | wrapper => simp [bind, Except.bind, Except.mapError, refuseIf, halg]
        | provider =>
          cases hl : c.rewrapLocal ring envelope env with
          | error | ok => simp [bind, Except.bind, Except.mapError, refuseIf, halg, hwrap, hl]
      · simp [bind, Except.bind, Except.mapError, refuseIf, halg, hwrap, pure, Except.pure]
    · simp [bind, Except.bind, Except.mapError, refuseIf, halg]

/-- A sidecar that cannot be replaced stays: the temporary file is a new one. -/
theorem find_of_writeMeta_error {content : List UInt8} {t' : Disk} {err : StorageError}
    (hf : t.find path = some (.file content))
    (h : Attempt.runFrom (s.writeMeta out path m) t = (.error err, t')) : t'.find path = t.find path := by
  refine writeMeta_stopsIn (P := fun w => w.find path = t.find path) m ?_ t rfl err t' h
  intro w hw hnone w₁ w₂ node hw₁ hfind
  have hne : path ≠ path.dropLast ++ [".meta-" ++ out.metaName] := by
    intro hsame
    rw [← hsame, hw, hf] at hnone
    cases hnone
  rw [hfind, if_neg hne, hw₁]

theorem find_of_readMeta (h : s.readMeta path t = .ok m) : ∃ content, t.find path = some (.file content) := by
  unfold readMeta Tree.readFile Tree.resolve at h
  cases hf : t.find path with
  | none => simp [hf] at h
  | some node =>
    cases node with
    | dir => simp [hf] at h
    | file content => exact ⟨content, rfl⟩

theorem rewrapSidecar_eq_panic_iff : (s.rewrapSidecar c out ring e path m t).1 = .error .panic ↔
    m.envelope ≠ "" ∧ e = .wrapper ∧ c.Local m.envelope := by
  have hpanic : c.rewrap e ring m.envelope = .error .panic ↔ _ := rewrap_eq_panic_iff
  rw [← hpanic, rewrapSidecar]
  by_cases hempty : m.envelope = ""
  · simp [hempty]
  · rw [if_neg hempty]
    cases c.rewrap e ring m.envelope with
    | error err => simp [hempty]
    | ok result =>
      obtain ⟨newEnv, changed⟩ := result
      cases changed with
      | false => simp
      | true =>
        cases h : (Attempt.runFrom (s.writeMeta out (metaPath path) { m with envelope := newEnv }) t).1 with
        | error | ok => simp [h, Except.mapError, Except.map]

theorem find_rewrapSidecar {err : Fault} (hm : s.readMeta (metaPath path) t = .ok m)
    (h : (s.rewrapSidecar c out ring e path m t).1 = .error err) :
    (s.rewrapSidecar c out ring e path m t).2.find (metaPath path) = t.find (metaPath path) := by
  unfold rewrapSidecar at h ⊢
  split_ifs at h ⊢ with hempty
  cases hrw : c.rewrap e ring m.envelope with
  | error err => rfl
  | ok result =>
    obtain ⟨newEnv, changed⟩ := result
    cases changed with
    | false => rfl
    | true =>
      obtain ⟨content, hf⟩ := find_of_readMeta hm
      rw [hrw] at h
      cases hrun : Attempt.runFrom (s.writeMeta out (metaPath path) { m with envelope := newEnv }) t with
      | mk result t' =>
        cases result with
        | ok u => simp [hrun, Except.mapError, Except.map] at h
        | error err' => simpa [hrun] using find_of_writeMeta_error hf hrun

/-- The call ends before the envelope is looked at, or goes on with a sidecar. -/
theorem rewrapObject_cases :
    (s.rewrapObject c out ring key t).1 ≠ .error .panic ∧ (s.rewrapObject c out ring key t).2 = t ∨
      ∃ e path m, s.enc = some e ∧ s.objectPath key = .ok path ∧ s.readMeta (metaPath path) t = .ok m ∧
        s.rewrapObject c out ring key t = s.rewrapSidecar c out ring e path m t := by
  unfold rewrapObject
  split
  · exact .inl ⟨nofun, rfl⟩
  · split
    · exact .inl ⟨nofun, rfl⟩
    · split
      · exact .inl ⟨nofun, rfl⟩
      · exact .inl ⟨nofun, rfl⟩
      · rename_i henc _ _ hpath _ m hm
        exact .inr ⟨_, _, m, henc, hpath, hm, rfl⟩

/-- **Moving a key to the current master key ends without a panic, and after an error with the old
sidecar, if and only if no envelope of local wrapping meets a server without a key provider.** -/
theorem rewrapObject_total_iff (c : Codec) (s : LocalStorage) (out : Outside) (ring : SecretProvider)
    (key : String) (t : Disk) : s.RewrapTotal c out ring key t ↔ ¬ s.Stranded c key t := by
  constructor
  · rintro ⟨hret, -⟩ ⟨henc, path, m, hpath, hm, hne, hl⟩
    apply hret
    rw [rewrapObject, henc, hpath]
    dsimp only
    rw [hm]
    exact rewrapSidecar_eq_panic_iff.mpr ⟨hne, rfl, hl⟩
  · intro hst
    obtain ⟨hret, hsame⟩ | ⟨e, path, m, henc, hpath, hm, heq⟩ :
        _ ∨ ∃ e path m, _ ∧ _ ∧ _ ∧ s.rewrapObject c out ring key t = s.rewrapSidecar c out ring e path m t :=
      rewrapObject_cases
    · exact ⟨hret, fun _ _ _ _ => by rw [hsame]⟩
    · refine ⟨fun hp => ?_, fun err herr path' hpath' => ?_⟩
      · rw [heq] at hp
        obtain ⟨hne, rfl, hl⟩ := rewrapSidecar_eq_panic_iff.mp hp
        exact hst ⟨henc, path, m, hpath, hm, hne, hl⟩
      · cases hpath.symm.trans hpath'
        rw [heq] at herr ⊢
        exact find_rewrapSidecar hm herr

/-! ### An object under a customer key -/

/-- The texts of envelopes are those of the sample. -/
def sampleCodec (env : SseEnvelope) : Codec where
  unmarshal := fun _ => .ok env
  marshal := fun _ => ""
  decodeString := fun _ => .error "illegal base64 data"
  encodeToString := fun _ => ""
  gcmSeal := fun _ _ plain => plain
  gcmOpen := fun _ _ sealed => .ok sealed
  quote := id
  nonce := .ok []

def remoteStorage : LocalStorage :=
  { sampleStorage with enc := some .wrapper, unmarshal := fun _ => some ⟨"a", 1, "", "", [], "envelope"⟩ }

/-- **An object under a customer key stops the sweep of a server that wraps remotely**: its envelope
is one of local wrapping. -/
theorem customer_key_rewrap_panics :
    (remoteStorage.rewrapObject (sampleCodec ⟨sseAlg, "", "__ssec__", "kek", "iv"⟩) (quiet ["data", "a"])
      ⟨("", []), fun _ => none⟩ "a" loneObject).1 = .error .panic :=
  rfl

end Rewrap

end AeroVault.Storage
