import AeroVault.Auth.ChunkReader
import AeroVault.Auth.KeyCache
import AeroVault.Lib.KeyText

/-! Signed requests: what a SigV4 signature covers.

A request is signed in its `Authorization` header or in its query. Both are checked, and
then `signWith` signs a text of four lines, the last of which is the hash of a canonical
form of the request. `equal_strings_to_sign_agree`: two requests with the same string to
sign have the same canonical parts, whichever way each of them is signed. The canonical
form fills in some defaults, so the requests themselves may differ:
`defaults_are_signed_alike`. -/
namespace AeroVault.Auth
open Lib List

/-- What is read of an `http.Request`. -/
structure HttpRequest where
  method : GoString
  /-- `r.URL.EscapedPath()`. -/
  escapedPath : GoString
  /-- `r.URL.Query()`, in the order of the query string. -/
  query : List (GoString × GoString)
  host : GoString
  /-- `r.Header[http.CanonicalHeaderKey(name)]`. -/
  header : GoString → List GoString
  /-- Negative if it is not known. -/
  contentLength : Int
  /-- `EscapedPath` escapes what a path may not contain. -/
  path_one_line : newline ∉ escapedPath

namespace HttpRequest

/-- `r.Header.Get`. -/
def get (r : HttpRequest) (name : String) : GoString := (r.header (ascii name)).headD []

/-- `r.URL.Query().Get`. -/
def queryGet (r : HttpRequest) (name : String) : GoString := (valuesOf r.query (ascii name)).headD []

end HttpRequest

structure SigV4Cred where
  secret : GoString
  key : Key
  deriving DecidableEq

/-- The credentials by access key. -/
abbrev SigV4Verifier := GoString → Option SigV4Cred

inductive SigError
  | notConfigured
  | malformedAuthorization | malformedCredential | unknownAccessKey
  | missingDate | invalidDate | invalidScope | dateMismatch | outsideSkew
  | emptySignedHeader | duplicateSignedHeader | hostNotSigned
  | invalidPayloadHash
  | badAlgorithm | invalidExpires | inFuture | expired
  | signatureMismatch | presignedSignatureMismatch
  deriving DecidableEq

def sigV4Algorithm : GoString := ascii "AWS4-HMAC-SHA256"

def sigV4Service : GoString := ascii "s3"

def unsignedPayload : GoString := ascii "UNSIGNED-PAYLOAD"

def streamingPayload : GoString := ascii "STREAMING-AWS4-HMAC-SHA256-PAYLOAD"

/-- `time.Second`, in nanoseconds. -/
def second : Int := 10 ^ 9

def maxHeaderSkew : Int := 15 * 60 * second

def maxPresignTTL : Int := 7 * 24 * 3600 * second

/-! ### Reading a signed request -/

/-- `strings.HasPrefix`. -/
def startsWith (s : GoString) (start : String) : Bool := (ascii start).isPrefixOf s

/-- `strings.TrimPrefix`, of a text that has the prefix. -/
def dropStart (s : GoString) (start : String) : GoString := s.drop start.length

structure AuthHeader where
  credential : GoString
  signedHeaders : List GoString
  signature : GoString
  deriving DecidableEq

/-- One part of the header; a later one of a kind replaces an earlier one. -/
def AuthHeader.add (auth : AuthHeader) (part : GoString) : AuthHeader :=
  if startsWith part "Credential=" then {auth with credential := dropStart part "Credential="}
  else if startsWith part "SignedHeaders=" then
    {auth with signedHeaders := (dropStart part "SignedHeaders=").splitOn 59}
  else if startsWith part "Signature=" then {auth with signature := dropStart part "Signature="}
  else auth

section Signing
variable (text : TextFunctions)

def parseAuthHeader (h : GoString) : Except SigError AuthHeader := do
  refuseIf (¬ startsWith h "AWS4-HMAC-SHA256 ") .malformedAuthorization
  let parts := (text.trimSpace (dropStart h "AWS4-HMAC-SHA256")).splitOn 44
  let auth := (parts.map text.trimSpace).foldl AuthHeader.add ⟨[], [], []⟩
  refuseIf (auth.credential = [] ∨ auth.signedHeaders = [] ∨ auth.signature = [])
    .malformedAuthorization
  return auth

/-- The access key and the credential scope. -/
def splitCredential (cred : GoString) : Except SigError (GoString × GoString) := do
  let parts := cred.splitOn 47
  refuseIf (parts.length ≠ 5 ∨ [] ∈ parts) .malformedCredential
  return (parts.headD [], [47].intercalate parts.tail)

def validateCredentialScope (scope amzDate : GoString) : Except SigError Unit := do
  let parts := scope.splitOn 47
  refuseIf (parts.length ≠ 4 ∨ parts[0]? = some [] ∨ parts[1]? = some [] ∨
    parts[2]? ≠ some sigV4Service ∨ parts[3]? ≠ some (ascii "aws4_request")) .invalidScope
  refuseIf (amzDate.length < 8 ∨ parts[0]? ≠ some (amzDate.take 8)) .dateMismatch

/-- `time.Parse("20060102T150405Z", amzDate)`. -/
def parseDate (amzDate : GoString) : Except SigError Int :=
  match text.parseTime amzDate with
  | some signedAt => .ok signedAt
  | none => .error .invalidDate

def validateHeaderTime (amzDate : GoString) (now : Int) : Except SigError Unit := do
  let signedAt ← parseDate text amzDate
  refuseIf (signedAt < now - maxHeaderSkew ∨ now + maxHeaderSkew < signedAt) .outsideSkew

def headerName (header : GoString) : GoString := text.toLower (text.trimSpace header)

def validateSignedHeadersFrom (seen : List GoString) (hasHost : Bool) :
    List GoString → Except SigError Unit
  | [] => refuseIf (hasHost = false) .hostNotSigned
  | header :: rest =>
    if headerName text header = [] then .error .emptySignedHeader
    else if headerName text header ∈ seen then .error .duplicateSignedHeader
    else
      validateSignedHeadersFrom (headerName text header :: seen)
        (hasHost || headerName text header == ascii "host") rest

def validateSignedHeaders (headers : List GoString) : Except SigError Unit :=
  validateSignedHeadersFrom text [] false headers

def validatePayloadHash (payloadHash : GoString) : Except SigError Unit :=
  refuseIf (payloadHash ≠ unsignedPayload ∧ payloadHash ≠ streamingPayload ∧
    (payloadHash.length ≠ 64 ∨ ¬ payloadHash.all fun b => (hexDigit b).isSome)) .invalidPayloadHash

def parseDecimalDigits (digits : GoString) : Option Nat :=
  if digits = [] then none
  else digits.foldlM (fun n b => ((hexDigit b).filter (· < 10)).map (n * 10 + ·)) 0

/-- `strconv.Atoi`. -/
def atoi (s : GoString) : Option Int :=
  match s with
  | 45 :: digits => (parseDecimalDigits digits).bind fun n => if n ≤ 2 ^ 63 then some (-n) else none
  | 43 :: digits => (parseDecimalDigits digits).bind fun n => if n < 2 ^ 63 then some n else none
  | digits => (parseDecimalDigits digits).bind fun n => if n < 2 ^ 63 then some n else none

/-- `time.Duration(secs) * time.Second`, which wraps around. -/
def durationOf (secs : Int) : Int := (secs * second).bmod (2 ^ 64)

def parseExpires (s : GoString) : Except SigError Int :=
  match atoi s with
  | some secs =>
    if secs ≤ 0 ∨ maxPresignTTL < durationOf secs then .error .invalidExpires else .ok secs
  | none => .error .invalidExpires

/-- The access key of a presigned URL. -/
def parsePresignedURL (now : Int) (r : HttpRequest) : Except SigError GoString := do
  refuseIf (r.queryGet "X-Amz-Algorithm" ≠ sigV4Algorithm) .badAlgorithm
  let credential ← splitCredential (r.queryGet "X-Amz-Credential")
  let amzDate := r.queryGet "X-Amz-Date"
  refuseIf (amzDate = []) .missingDate
  let signedAt ← parseDate text amzDate
  validateCredentialScope credential.2 amzDate
  validateSignedHeaders text ((r.queryGet "X-Amz-SignedHeaders").splitOn 59)
  let secs ← parseExpires (r.queryGet "X-Amz-Expires")
  refuseIf (now + maxHeaderSkew < signedAt) .inFuture
  refuseIf (signedAt + durationOf secs < now) .expired
  return credential.1

/-- What is signed besides the request, with the credential and the signature to compare. -/
structure Signing where
  /-- The parameters of the canonical query. -/
  query : List (GoString × GoString)
  scope : GoString
  signedHeaders : List GoString
  payloadHash : GoString
  amzDate : GoString
  cred : SigV4Cred
  providedSig : GoString
  deriving DecidableEq

def lookupCred (creds : SigV4Verifier) (accessKey : GoString) : Except SigError SigV4Cred :=
  match creds accessKey with
  | some cred => .ok cred
  | none => .error .unknownAccessKey

/-- The declared hash of the body. -/
def declaredPayloadHash (r : HttpRequest) : GoString :=
  if r.get "X-Amz-Content-Sha256" = [] then unsignedPayload else r.get "X-Amz-Content-Sha256"

/-- `verifyHeader`, up to the call of `sign`. -/
def headerSigning (creds : SigV4Verifier) (now : Int) (r : HttpRequest) :
    Except SigError Signing := do
  let auth ← parseAuthHeader text (r.get "Authorization")
  let credential ← splitCredential auth.credential
  let cred ← lookupCred creds credential.1
  let amzDate := r.get "X-Amz-Date"
  refuseIf (amzDate = []) .missingDate
  validateCredentialScope credential.2 amzDate
  validateHeaderTime text amzDate now
  validateSignedHeaders text auth.signedHeaders
  validatePayloadHash (declaredPayloadHash r)
  return {
    query := r.query
    scope := credential.2
    signedHeaders := auth.signedHeaders
    payloadHash := declaredPayloadHash r
    amzDate := amzDate
    cred := cred
    providedSig := auth.signature }

/-- The scope that `verifyPresignedSig` reads again from the query. -/
def presignedScope (r : HttpRequest) : GoString :=
  match splitCredential (r.queryGet "X-Amz-Credential") with
  | .ok credential => credential.2
  | .error _ => []

/-- `verifyPresigned` and `verifyPresignedSig`, up to the call of `signWith`. -/
def presignedSigning (creds : SigV4Verifier) (now : Int) (r : HttpRequest) :
    Except SigError Signing := do
  let accessKey ← parsePresignedURL text now r
  let cred ← lookupCred creds accessKey
  return {
    query := r.query.filter fun pair => pair.1 ≠ ascii "X-Amz-Signature"
    scope := presignedScope r
    signedHeaders := (r.queryGet "X-Amz-SignedHeaders").splitOn 59
    payloadHash := unsignedPayload
    amzDate := r.queryGet "X-Amz-Date"
    cred := cred
    providedSig := r.queryGet "X-Amz-Signature" }

def presigned (r : HttpRequest) : Bool := r.queryGet "X-Amz-Signature" != []

/-- What `Verify` signs. -/
def signing (creds : SigV4Verifier) (now : Int) (r : HttpRequest) : Except SigError Signing :=
  if presigned r then presignedSigning text creds now r else headerSigning text creds now r

/-! ### The string to sign -/

def hexLetter (ten : UInt8) (n : Nat) : UInt8 :=
  if n < 10 then 48 + n.toUInt8 else ten + (n - 10).toUInt8

def hexByte (ten b : UInt8) : GoString := [hexLetter ten (b.toNat / 16), hexLetter ten (b.toNat % 16)]

/-- `hex.EncodeToString`. -/
def hexEncode (s : GoString) : GoString := s.flatMap (hexByte 97)

def unreserved (b : UInt8) : Bool :=
  65 ≤ b && b ≤ 90 || 97 ≤ b && b ≤ 122 || 48 ≤ b && b ≤ 57 ||
    b == 45 || b == 95 || b == 46 || b == 126

def uriByte (encodeSlash : Bool) (b : UInt8) : GoString :=
  if unreserved b || (b == 47 && !encodeSlash) then [b] else 37 :: hexByte 65 b

def uriEncode (s : GoString) (encodeSlash : Bool) : GoString := s.flatMap (uriByte encodeSlash)

def encodePair (pair : GoString × GoString) : GoString :=
  uriEncode pair.1 true ++ 61 :: uriEncode pair.2 true

/-- `sort.Strings`. -/
def sortStrings (l : List GoString) : List GoString := l.insertionSort (· ≤ ·)

def encodeQuery (q : List (GoString × GoString)) : GoString :=
  let keys := sortStrings (q.map Prod.fst).dedup
  [38].intercalate ((byKey keys fun key => sortStrings (valuesOf q key)).map encodePair)

def contentLengthValue (r : HttpRequest) : GoString :=
  match r.header (ascii "content-length") with
  | value :: _ => text.trimSpace value
  | [] => if 0 ≤ r.contentLength then ascii (toString r.contentLength.toNat) else ascii "0"

def canonicalHeaderValue (r : HttpRequest) (name : GoString) : GoString :=
  if name = ascii "host" then text.trimSpace r.host
  else if name = ascii "content-length" then contentLengthValue text r
  else [44].intercalate ((r.header name).map fun value => [32].intercalate (text.fields value))

/-- The names in the order in which they are signed. -/
def lowerNames (signedHeaders : List GoString) : List GoString :=
  sortStrings (signedHeaders.map (headerName text))

def canonicalHeader (r : HttpRequest) (name : GoString) : GoString :=
  name ++ 58 :: (canonicalHeaderValue text r name ++ [newline])

def canonicalURI (escapedPath : GoString) : GoString :=
  if escapedPath = [] then ascii "/" else escapedPath

def canonicalRequest (r : HttpRequest) (s : Signing) : GoString :=
  let lower := lowerNames text s.signedHeaders
  [newline].intercalate [r.method, canonicalURI r.escapedPath, encodeQuery s.query,
    lower.flatMap (canonicalHeader text r), [59].intercalate lower, s.payloadHash]

/-- `stringToSign` of `signWith`, where `sha` is SHA-256. -/
def stringToSign (sha : GoString → GoString) (r : HttpRequest) (s : Signing) : GoString :=
  [newline].intercalate
    [sigV4Algorithm, s.amzDate, s.scope, hexEncode (sha (canonicalRequest text r s))]

def deriveSigningKey (hmac : GoString → GoString → GoString) (secret date region : GoString) :
    GoString :=
  let kDate := hmac (ascii "AWS4" ++ secret) date
  let kRegion := hmac kDate region
  let kService := hmac kRegion sigV4Service
  hmac kService (ascii "aws4_request")

def signWith (sha : GoString → GoString) (hmac : GoString → GoString → GoString) (r : HttpRequest)
    (s : Signing) : GoString :=
  let parts := s.scope.splitOn 47
  let signingKey := deriveSigningKey hmac s.cred.secret (parts.getD 0 []) (parts.getD 1 [])
  hexEncode (hmac signingKey (stringToSign text sha r s))

/-- `Verify`; there is no verifier if none is configured. -/
def verify (sha : GoString → GoString) (hmac : GoString → GoString → GoString)
    (v : Option SigV4Verifier) (now : Int) (r : HttpRequest) : Except SigError Key := do
  refuseIf v.isNone .notConfigured
  let s ← signing text (v.getD fun _ => none) now r
  refuseIf (signWith text sha hmac r s ≠ s.providedSig)
    (if presigned r then .presignedSignatureMismatch else .signatureMismatch)
  return s.cred.key

end Signing

/-! ### Codes and their letters -/

theorem hexDigit_hexLetter_lower : ∀ n < 16, hexDigit (hexLetter 97 n) = some n := by decide

theorem hexDigit_hexLetter_upper : ∀ n < 16, hexDigit (hexLetter 65 n) = some n := by decide

theorem unreserved_hexLetter : ∀ n < 16, unreserved (hexLetter 65 n) = true := by decide

theorem hexByte_prefixFree {ten : UInt8} (h : ∀ n < 16, hexDigit (hexLetter ten n) = some n) :
    PrefixFree (hexByte ten) := by
  intro a b after after' heq
  have ha := a.toNat_lt
  have hb := b.toNat_lt
  simp only [hexByte, cons_append, cons.injEq] at heq
  have hh := congrArg hexDigit heq.1
  have hl := congrArg hexDigit heq.2.1
  rw [h _ (by omega), h _ (by omega), Option.some.injEq] at hh hl
  exact UInt8.toNat_inj.mp (by omega)

theorem mem_hexByte {ten b c : UInt8} (h : b ∈ hexByte ten c) : ∃ n < 16, b = hexLetter ten n := by
  have hc := c.toNat_lt
  simp only [hexByte, mem_cons, not_mem_nil, or_false] at h
  obtain h | h := h
  · exact ⟨_, by omega, h⟩
  · exact ⟨_, by omega, h⟩

theorem hexEncode_injective : Function.Injective hexEncode :=
  (hexByte_prefixFree hexDigit_hexLetter_lower).flatMap_injective fun _ => cons_ne_nil _ _

theorem newline_notMem_hexEncode (s : GoString) : newline ∉ hexEncode s := by
  intro h
  obtain ⟨c, -, hc⟩ := mem_flatMap.mp h
  obtain ⟨n, hn, heq⟩ := mem_hexByte hc
  have hd := hexDigit_hexLetter_lower n hn
  rw [← heq] at hd
  exact absurd hd.symm (by simp [hexDigit, newline])

theorem uriByte_prefixFree {encodeSlash : Bool} : PrefixFree (uriByte encodeSlash) := by
  intro a b after after' heq
  have hpr : (unreserved 37 || ((37 : UInt8) == 47 && !encodeSlash)) = false := by
    cases encodeSlash <;> decide
  by_cases ha : (unreserved a || (a == 47 && !encodeSlash)) = true <;>
    by_cases hb : (unreserved b || (b == 47 && !encodeSlash)) = true
  · simp only [uriByte, if_pos ha, if_pos hb, cons_append, cons.injEq] at heq
    exact heq.1
  · simp only [uriByte, if_pos ha, if_neg hb, cons_append, cons.injEq] at heq
    rw [heq.1, hpr] at ha
    exact absurd ha (by simp)
  · simp only [uriByte, if_neg ha, if_pos hb, cons_append, cons.injEq] at heq
    rw [← heq.1, hpr] at hb
    exact absurd hb (by simp)
  · simp only [uriByte, if_neg ha, if_neg hb, cons_append, cons.injEq] at heq
    exact hexByte_prefixFree hexDigit_hexLetter_upper a b after after' heq.2

theorem uriEncode_injective {encodeSlash : Bool} : Function.Injective (uriEncode · encodeSlash) :=
  uriByte_prefixFree.flatMap_injective fun b => by
    unfold uriByte
    split <;> exact cons_ne_nil _ _

theorem mem_uriEncode {s : GoString} {b : UInt8} (h : b ∈ uriEncode s true) :
    unreserved b = true ∨ b = 37 := by
  obtain ⟨c, -, hc⟩ := mem_flatMap.mp h
  unfold uriByte at hc
  split at hc
  case isTrue hkp =>
    rw [mem_singleton] at hc
    subst hc
    exact .inl (by simpa using hkp)
  case isFalse =>
    obtain rfl | hc := mem_cons.mp hc
    · exact .inr rfl
    · obtain ⟨n, hn, rfl⟩ := mem_hexByte hc
      exact .inl (unreserved_hexLetter n hn)

/-- No separator of the canonical request is left in an encoded text. -/
theorem notMem_uriEncode {b : UInt8} (hb : b ∈ [newline, 38, 61]) {s : GoString} : b ∉ uriEncode s true := by
  have hrs : ¬ (unreserved b = true ∨ b = 37) := by
    simp only [mem_cons, not_mem_nil, or_false] at hb
    obtain rfl | rfl | rfl := hb <;> decide
  exact fun h => hrs (mem_uriEncode h)

/-! ### The query -/

theorem encodePair_injective : Function.Injective encodePair := by
  intro a b h
  obtain ⟨hkey, hv⟩ := ended_inj (notMem_uriEncode (by decide)) (notMem_uriEncode (by decide)) h
  exact Prod.ext (uriEncode_injective hkey) (uriEncode_injective hv)

theorem notMem_encodePair {b : UInt8} (hb : b ∈ [newline, 38]) {pair : GoString × GoString} :
    b ∉ encodePair pair := by
  have hsep : b ∈ [newline, 38, 61] ∧ b ≠ 61 := by
    simp only [mem_cons, not_mem_nil, or_false] at hb
    obtain rfl | rfl := hb <;> decide
  intro h
  obtain h | h := mem_append.mp h
  · exact notMem_uriEncode hsep.1 h
  · obtain h | h := mem_cons.mp h
    · exact hsep.2 h
    · exact notMem_uriEncode hsep.1 h

theorem newline_notMem_encodeQuery (q : List (GoString × GoString)) : newline ∉ encodeQuery q := by
  intro h
  obtain h | ⟨p, hp, h⟩ := mem_joined h
  · exact absurd h (by decide)
  · obtain ⟨pair, -, rfl⟩ := mem_map.mp hp
    exact notMem_encodePair (by decide) h

/-- **The canonical query has the values of every parameter**, in some order. -/
theorem encodeQuery_perm {q q' : List (GoString × GoString)} (h : encodeQuery q = encodeQuery q')
    (key : GoString) : (valuesOf q key).Perm (valuesOf q' key) := by
  have hpr (l : List (GoString × GoString)) : ∀ p ∈ l.map encodePair, (38 : UInt8) ∉ p ∧ p ≠ [] := by
    intro p hp
    obtain ⟨pair, -, rfl⟩ := mem_map.mp hp
    exact ⟨notMem_encodePair (by decide), by simp [encodePair]⟩
  have hpairs := map_injective_iff.mpr encodePair_injective
    (joined_inj_of_ne_nil (hpr _) (hpr _) h)
  have hkp (q : List (GoString × GoString)) := valuesOf_byKey_perm (perm_insertionSort (· ≤ ·) _)
    (fun key => perm_insertionSort (· ≤ ·) (valuesOf q key)) key
  exact (hkp q).symm.trans (hpairs ▸ hkp q')

/-! ### What has been checked -/

section Checked
variable {text : TextFunctions} {r : HttpRequest} {s : Signing}

/-- What is known of the parts of a signature that is about to be computed. -/
structure Signing.Checked (r : HttpRequest) (s : Signing) : Prop where
  headers : s.signedHeaders ≠ []
  names : ∀ name ∈ s.signedHeaders, 59 ∉ name
  date : newline ∉ s.amzDate
  payload : s.payloadHash = unsignedPayload ∨ ∃ name, s.payloadHash ∈ r.header name

theorem parseDate_one_line {amzDate : GoString} {t : Int} (h : parseDate text amzDate = .ok t) :
    newline ∉ amzDate := by
  unfold parseDate at h
  split at h
  case h_1 signedAt heq =>
    intro hm
    exact absurd (text.parseTime_bytes heq hm) (by decide)
  case h_2 => exact nomatch h

theorem add_names {auth : AuthHeader} (h : ∀ name ∈ auth.signedHeaders, 59 ∉ name) {part : GoString} :
    ∀ name ∈ (auth.add part).signedHeaders, 59 ∉ name := by
  unfold AuthHeader.add
  split_ifs
  · exact h
  · exact fun _ => not_mem_of_mem_splitOn
  · exact h
  · exact h

theorem foldl_add_names {parts : List GoString} {auth : AuthHeader}
    (h : ∀ name ∈ auth.signedHeaders, 59 ∉ name) :
    ∀ name ∈ (parts.foldl AuthHeader.add auth).signedHeaders, 59 ∉ name := by
  induction parts generalizing auth with
  | nil => exact h
  | cons part parts ih => exact ih (add_names h)

theorem parseAuthHeader_names {h : GoString} {auth : AuthHeader} (hat : parseAuthHeader text h = .ok auth) :
    auth.signedHeaders ≠ [] ∧ ∀ name ∈ auth.signedHeaders, 59 ∉ name := by
  simp only [parseAuthHeader, bind_eq_ok, refuseIf_ok] at hat
  obtain ⟨_, -, _, hpr, h⟩ := hat
  cases h
  exact ⟨fun h => hpr (.inr (.inl h)), foldl_add_names (by simp)⟩

theorem get_mem {name : String} (h : r.get name ≠ []) : r.get name ∈ r.header (ascii name) := by
  unfold HttpRequest.get at h ⊢
  cases hv : r.header (ascii name) with
  | nil => simp [hv] at h
  | cons value others => simp

theorem declaredPayloadHash_cases :
    declaredPayloadHash r = unsignedPayload ∨ ∃ name, declaredPayloadHash r ∈ r.header name := by
  unfold declaredPayloadHash
  split_ifs with h
  · exact .inl rfl
  · exact .inr ⟨_, get_mem h⟩

variable {creds : SigV4Verifier} {now : Int}

theorem headerSigning_checked (h : headerSigning text creds now r = .ok s) : s.Checked r := by
  simp only [headerSigning, validateHeaderTime, bind_eq_ok] at h
  obtain ⟨auth, hat, credential, -, cred, -, _, -, _, -, _, ⟨signedAt, hd, -⟩, _, -, _, -, h⟩ := h
  cases h
  obtain ⟨hh, hnames⟩ := parseAuthHeader_names hat
  exact ⟨hh, hnames, parseDate_one_line hd, declaredPayloadHash_cases⟩

theorem presignedSigning_checked (h : presignedSigning text creds now r = .ok s) : s.Checked r := by
  simp only [presignedSigning, parsePresignedURL, bind_eq_ok] at h
  obtain ⟨accessKey, ⟨_, -, credential, -, _, -, signedAt, hd, -⟩, cred, -, h⟩ := h
  cases h
  exact ⟨splitOn_ne_nil _ _, fun _ => not_mem_of_mem_splitOn, parseDate_one_line hd, .inl rfl⟩

theorem signing_checked (h : signing text creds now r = .ok s) : s.Checked r := by
  unfold signing at h
  split_ifs at h
  · exact presignedSigning_checked h
  · exact headerSigning_checked h

/-- A request that is signed in its headers signs the hash that it declares. -/
theorem signing_payloadHash (hp : presigned r = false) (h : signing text creds now r = .ok s) :
    s.payloadHash = declaredPayloadHash r := by
  rw [signing, hp, if_neg Bool.false_ne_true] at h
  simp only [headerSigning, bind_eq_ok] at h
  obtain ⟨auth, -, credential, -, cred, -, _, -, _, -, _, -, _, -, _, -, h⟩ := h
  cases h
  rfl

end Checked

/-! ### The lines of the canonical request -/

/-- The method, the values of the headers and the names of the signed ones have no line end. -/
structure OneLine (r : HttpRequest) (s : Signing) : Prop where
  method : newline ∉ r.method
  host : newline ∉ r.host
  headers : ∀ name, ∀ value ∈ r.header name, newline ∉ value
  names : ∀ name ∈ s.signedHeaders, newline ∉ name

section Lines
variable {text : TextFunctions} {r r' : HttpRequest} {s s' : Signing}

theorem newline_notMem_ascii_digits {n : Nat} : newline ∉ ascii (toString n) := by
  intro h
  obtain ⟨c, hc, heq⟩ := mem_map.mp h
  rw [Nat.toString_eq_ofList_toDigits, String.toList_ofList] at hc
  have hd := Nat.isDigit_of_mem_toDigits (by decide) (by decide) hc
  have hbn : 48 ≤ c.toNat ∧ c.toNat ≤ 57 := by
    simpa [Char.isDigit, UInt32.le_iff_toNat_le] using hd
  have hv : c.toNat % 2 ^ 8 = 10 := by simpa [newline] using congrArg UInt8.toNat heq
  omega

theorem trimSpace_one_line {v : GoString} (h : newline ∉ v) : newline ∉ text.trimSpace v :=
  fun hm => h (text.trimSpace_adds hm)

theorem contentLengthValue_one_line (h : ∀ name, ∀ value ∈ r.header name, newline ∉ value) :
    newline ∉ contentLengthValue text r := by
  unfold contentLengthValue
  split
  case h_1 value others heq => exact trimSpace_one_line (h _ value (heq ▸ mem_cons_self))
  case h_2 =>
    split_ifs
    · exact newline_notMem_ascii_digits
    · decide

theorem canonicalHeaderValue_one_line (h : OneLine r s) {name : GoString} :
    newline ∉ canonicalHeaderValue text r name := by
  unfold canonicalHeaderValue
  split_ifs
  · exact trimSpace_one_line h.host
  · exact contentLengthValue_one_line h.headers
  · intro hm
    obtain hm | ⟨line, hl, hm⟩ := mem_joined hm
    · exact absurd hm (by decide)
    obtain ⟨value, hv, rfl⟩ := mem_map.mp hl
    obtain hm | ⟨field, hf, hm⟩ := mem_joined hm
    · exact absurd hm (by decide)
    · exact h.headers name value hv (text.fields_adds hf hm)

theorem mem_lowerNames {name : GoString} :
    name ∈ lowerNames text s.signedHeaders ↔ ∃ h ∈ s.signedHeaders, headerName text h = name := by
  rw [lowerNames, sortStrings, (perm_insertionSort _ _).mem_iff, mem_map]

/-- The bytes below the lower-case letters are those that were written. -/
theorem notMem_headerName {b : UInt8} {h : GoString} (hb : b < 97) (hm : b ∉ h) : b ∉ headerName text h :=
  fun hnm => hm (text.trimSpace_adds (text.toLower_adds hnm hb))

theorem lowerNames_clean {b : UInt8} (hb : b < 97) (h : ∀ name ∈ s.signedHeaders, b ∉ name) :
    ∀ name ∈ lowerNames text s.signedHeaders, b ∉ name := by
  intro name hnm
  obtain ⟨header, hh, rfl⟩ := mem_lowerNames.mp hnm
  exact notMem_headerName hb (h header hh)

theorem lowerNames_ne_nil (h : s.signedHeaders ≠ []) : lowerNames text s.signedHeaders ≠ [] := by
  obtain ⟨header, hh⟩ := exists_mem_of_ne_nil _ h
  exact ne_nil_of_mem (mem_lowerNames.mpr ⟨header, hh, rfl⟩)

/-- Header lines of the same names are equal only if the values are. -/
theorem canonicalHeader_inj {names : List GoString} (h : OneLine r s) (h' : OneLine r' s')
    (heq : names.flatMap (canonicalHeader text r) = names.flatMap (canonicalHeader text r')) :
    ∀ name ∈ names, canonicalHeaderValue text r name = canonicalHeaderValue text r' name := by
  induction names with
  | nil => simp
  | cons name names ih =>
    simp only [flatMap_cons, canonicalHeader, append_assoc, cons_append,
      append_cancel_left_eq, cons.injEq, true_and] at heq
    obtain ⟨hv, hrs⟩ := ended_inj (canonicalHeaderValue_one_line h)
      (canonicalHeaderValue_one_line h') heq
    intro other hother
    obtain rfl | hother := mem_cons.mp hother
    · exact hv
    · exact ih hrs other hother

theorem canonicalURI_one_line (r : HttpRequest) : newline ∉ canonicalURI r.escapedPath := by
  unfold canonicalURI
  split_ifs
  · decide
  · exact r.path_one_line

theorem payloadHash_one_line (h : OneLine r s) (hs : s.Checked r) : newline ∉ s.payloadHash := by
  obtain heq | ⟨name, hm⟩ := hs.payload
  · rw [heq]
    decide
  · exact h.headers name _ hm

theorem nameList_one_line (h : OneLine r s) :
    newline ∉ [59].intercalate (lowerNames text s.signedHeaders) := by
  intro hm
  obtain hm | ⟨name, hnm, hm⟩ := mem_joined hm
  · exact absurd hm (by decide)
  · exact lowerNames_clean (by decide) h.names name hnm hm

/-! ### Equal strings to sign -/

/-- Two signed requests have the same parts, up to the defaults of the canonical form: an
empty path is `/`, a body without a declared hash is unsigned, and a header has the
normalized lines joined by commas. A presigned request signs no hash that it declares. -/
structure Agree (text : TextFunctions) (r r' : HttpRequest) (s s' : Signing) : Prop where
  method : r.method = r'.method
  path : canonicalURI r.escapedPath = canonicalURI r'.escapedPath
  query : ∀ key, (valuesOf s.query key).Perm (valuesOf s'.query key)
  names : ∀ name, (∃ h ∈ s.signedHeaders, headerName text h = name) ↔
    ∃ h ∈ s'.signedHeaders, headerName text h = name
  values : ∀ h ∈ s.signedHeaders, canonicalHeaderValue text r (headerName text h) =
    canonicalHeaderValue text r' (headerName text h)
  payloadHash : s.payloadHash = s'.payloadHash
  declared : presigned r = false → presigned r' = false → declaredPayloadHash r = declaredPayloadHash r'
  amzDate : s.amzDate = s'.amzDate
  scope : s.scope = s'.scope

/-- The lines of the canonical request around the headers. -/
theorem canonicalRequest_parts (h : OneLine r s) (h' : OneLine r' s') (hs : s.Checked r)
    (hs' : s'.Checked r') (heq : canonicalRequest text r s = canonicalRequest text r' s') :
    [r.method, canonicalURI r.escapedPath, encodeQuery s.query] =
        [r'.method, canonicalURI r'.escapedPath, encodeQuery s'.query] ∧
      (lowerNames text s.signedHeaders).flatMap (canonicalHeader text r) =
        (lowerNames text s'.signedHeaders).flatMap (canonicalHeader text r') ∧
      [[59].intercalate (lowerNames text s.signedHeaders), s.payloadHash] =
        [[59].intercalate (lowerNames text s'.signedHeaders), s'.payloadHash] := by
  refine joined_around_inj ?_ ?_ ?_ ?_ rfl rfl heq
  · simp [h.method, canonicalURI_one_line, newline_notMem_encodeQuery]
  · simp [h'.method, canonicalURI_one_line, newline_notMem_encodeQuery]
  · simp [nameList_one_line h, payloadHash_one_line h hs]
  · simp [nameList_one_line h', payloadHash_one_line h' hs']

theorem stringToSign_parts {sha : GoString → GoString} (hsha : Function.Injective sha) (hs : s.Checked r)
    (hs' : s'.Checked r') (heq : stringToSign text sha r s = stringToSign text sha r' s') :
    s.amzDate = s'.amzDate ∧ s.scope = s'.scope ∧
      canonicalRequest text r s = canonicalRequest text r' s' := by
  have halg : newline ∉ sigV4Algorithm := by decide
  have hpr : [sigV4Algorithm, s.amzDate] = [sigV4Algorithm, s'.amzDate] ∧ s.scope = s'.scope ∧
      [hexEncode (sha (canonicalRequest text r s))] = [hexEncode (sha (canonicalRequest text r' s'))] := by
    refine joined_around_inj ?_ ?_ ?_ ?_ rfl rfl heq
    · simp [halg, hs.date]
    · simp [halg, hs'.date]
    · simp [newline_notMem_hexEncode]
    · simp [newline_notMem_hexEncode]
  obtain ⟨hbf, hsc, haf⟩ := hpr
  simp only [cons.injEq, and_true, true_and] at hbf haf
  exact ⟨hbf, hsc, hsha (hexEncode_injective haf)⟩

/-- **Two requests with the same string to sign agree on everything that is signed**, if
the hash is injective and the method, the header values and the names of the signed headers
have no line end. -/
theorem equal_strings_to_sign_agree {sha : GoString → GoString} (hsha : Function.Injective sha)
    {creds creds' : SigV4Verifier} {now now' : Int} (hs : signing text creds now r = .ok s)
    (hs' : signing text creds' now' r' = .ok s') (h : OneLine r s) (h' : OneLine r' s')
    (heq : stringToSign text sha r s = stringToSign text sha r' s') : Agree text r r' s s' := by
  have hc := signing_checked hs
  have hc' := signing_checked hs'
  obtain ⟨hd, hsc, hrq⟩ := stringToSign_parts hsha hc hc' heq
  obtain ⟨hf, hbl, hl⟩ := canonicalRequest_parts h h' hc hc' hrq
  simp only [cons.injEq, and_true] at hf hl
  have hnames : lowerNames text s.signedHeaders = lowerNames text s'.signedHeaders :=
    joined_inj (lowerNames_clean (by decide) hc.names) (lowerNames_clean (by decide) hc'.names)
      (lowerNames_ne_nil hc.headers) (lowerNames_ne_nil hc'.headers) hl.1
  rw [hnames] at hbl
  refine ⟨hf.1, hf.2.1, encodeQuery_perm hf.2.2, fun name => ?_, fun header hh => ?_, hl.2, fun hp hp' => ?_, hd, hsc⟩
  · rw [← mem_lowerNames, ← mem_lowerNames, hnames]
  · refine canonicalHeader_inj h h' hbl _ ?_
    rw [← hnames]
    exact mem_lowerNames.mpr ⟨header, hh, rfl⟩
  · rw [← signing_payloadHash hp hs, ← signing_payloadHash hp' hs', hl.2]

end Lines

/-! ### Requests that are signed alike -/

theorem lowerByte_eq_self {c : UInt8} (h : lowerByte c < 97) : lowerByte c = c := by
  unfold lowerByte at h ⊢
  split_ifs at h ⊢ with hc
  · have hlt : (c.toNat + 32) % 256 < 97 := by simpa [UInt8.lt_iff_toNat_lt] using h
    omega
  · rfl

/-- Texts whose letters are ASCII and whose only white space is the blank; every date is the
same time. -/
def plainText : TextFunctions where
  toLower s := s.map lowerByte
  trimSpace s := (s.dropWhile (· == 32)).rdropWhile (· == 32)
  fields s := (s.splitOn 32).filter (· ≠ [])
  parseTime s := if ∀ b ∈ s, 48 ≤ b ∧ b ≤ 57 ∨ b ∈ [84, 90, 44, 46] then some 0 else none
  toLower_adds := by
    intro s b h hb
    obtain ⟨c, hc, rfl⟩ := mem_map.mp h
    rwa [lowerByte_eq_self hb]
  trimSpace_adds h := (dropWhile_suffix _).subset ((List.rdropWhile_prefix _ _).subset h)
  fields_adds h hb := mem_of_mem_splitOn (mem_of_mem_filter h) hb
  parseTime_bytes := by
    intro s t b h hb
    split_ifs at h with hs
    exact hs b hb

/-- A request whose headers are looked up by their names in lower case. -/
def sampleRequest (path : GoString) (query headers : List (GoString × GoString)) (contentLength : Int)
    (hpath : newline ∉ path) : HttpRequest where
  method := ascii "GET"
  escapedPath := path
  query := query
  host := ascii "vault"
  header name := valuesOf headers (name.map lowerByte)
  contentLength := contentLength
  path_one_line := hpath

def sampleCred : SigV4Cred := ⟨ascii "secret", ⟨"AK", "t", {"read"}⟩⟩

def sampleVerifier : SigV4Verifier := fun accessKey =>
  if accessKey = ascii "AK" then some sampleCred else none

def sampleDate : GoString := ascii "20260101T000000Z"

def sampleScope : GoString := ascii "20260101/r/s3" ++ ascii "/aws4_request"

/-- The headers of a request that is signed in a header. -/
def sampleHeaders (signedHeaders : GoString) : List (GoString × GoString) :=
  [(ascii "authorization", ascii "AWS4-HMAC-SHA256 " ++ ascii "Credential=AK/" ++ sampleScope ++
      ascii ", SignedHeaders=" ++ signedHeaders ++ ascii ", Signature=00"),
    (ascii "x-amz-date", sampleDate)]

def sampleSigning (query : List (GoString × GoString)) (signedHeaders : List GoString) : Signing where
  query := query
  scope := sampleScope
  signedHeaders := signedHeaders
  payloadHash := unsignedPayload
  amzDate := sampleDate
  cred := sampleCred
  providedSig := ascii "00"

theorem sampleRequest_oneLine {path : GoString} {query headers : List (GoString × GoString)}
    {contentLength : Int} {hpath : newline ∉ path} {s : Signing} (hh : ∀ pair ∈ headers, newline ∉ pair.2)
    (hnames : ∀ name ∈ s.signedHeaders, newline ∉ name) :
    OneLine (sampleRequest path query headers contentLength hpath) s := by
  have hm : newline ∉ ascii "GET" ∧ newline ∉ ascii "vault" := by decide
  refine ⟨hm.1, hm.2, fun name value hv => ?_, hnames⟩
  obtain ⟨pair, hpr, rfl⟩ := mem_map.mp hv
  exact hh pair (mem_of_mem_filter hpr)

def presignedQuery : List (GoString × GoString) :=
  [(ascii "X-Amz-Algorithm", sigV4Algorithm), (ascii "X-Amz-Credential", ascii "AK/" ++ sampleScope),
    (ascii "X-Amz-Date", sampleDate), (ascii "X-Amz-Expires", ascii "60"),
    (ascii "X-Amz-SignedHeaders", ascii "host")]

/-- A presigned request with further headers. -/
def presignedWith (headers : List (GoString × GoString)) : HttpRequest :=
  sampleRequest (ascii "/b/k") ((ascii "X-Amz-Signature", ascii "00") :: presignedQuery) headers 0 (by decide)

def presignedRequest : HttpRequest := presignedWith []

/-- The same request with the signature in its header, and the parameters in another order. -/
def headerRequest : HttpRequest :=
  sampleRequest (ascii "/b/k") presignedQuery.reverse (sampleHeaders (ascii "Host")) 0 (by decide)

theorem presigned_and_header_agree :
    Agree plainText presignedRequest headerRequest (sampleSigning presignedQuery [ascii "host"])
      (sampleSigning presignedQuery.reverse [ascii "Host"]) := by
  have hs : signing plainText sampleVerifier 0 presignedRequest =
      .ok (sampleSigning presignedQuery [ascii "host"]) := by decide +kernel
  have hs' : signing plainText sampleVerifier 0 headerRequest =
      .ok (sampleSigning presignedQuery.reverse [ascii "Host"]) := by decide +kernel
  have heq : stringToSign plainText id presignedRequest (sampleSigning presignedQuery [ascii "host"]) =
      stringToSign plainText id headerRequest (sampleSigning presignedQuery.reverse [ascii "Host"]) := by
    decide +kernel
  exact equal_strings_to_sign_agree Function.injective_id hs hs'
    (sampleRequest_oneLine (by decide +kernel) (by decide +kernel))
    (sampleRequest_oneLine (by decide +kernel) (by decide +kernel)) heq

/-- No path, no length, no declared hash, and a header in two lines. -/
def bareRequest : HttpRequest :=
  sampleRequest [] [] (sampleHeaders (ascii "content-length;host;a") ++
    [(ascii "a", ascii "1"), (ascii "a", ascii "2")]) (-1) (by decide)

/-- The same with all of them written out. -/
def spelledRequest : HttpRequest :=
  sampleRequest (ascii "/") [] (sampleHeaders (ascii "content-length;host;a") ++
    [(ascii "x-amz-content-sha256", unsignedPayload), (ascii "a", ascii "1,2")]) 0 (by decide)

/-- A presigned request that declares a hash. -/
def presignedDeclaring : HttpRequest :=
  presignedWith [(ascii "x-amz-content-sha256", List.replicate 64 48)]

def defaultsSigning : Signing := sampleSigning [] [ascii "content-length", ascii "host", ascii "a"]

/-- **A path, a length, a hash and a line that are left out are signed as their defaults**, and
what a presigned request declares as its hash is not signed. -/
theorem defaults_are_signed_alike :
    Function.Injective (id : GoString → GoString) ∧
      signing plainText sampleVerifier 0 bareRequest = .ok defaultsSigning ∧
      signing plainText sampleVerifier 0 spelledRequest = .ok defaultsSigning ∧
      OneLine bareRequest defaultsSigning ∧ OneLine spelledRequest defaultsSigning ∧
      stringToSign plainText id bareRequest defaultsSigning =
        stringToSign plainText id spelledRequest defaultsSigning ∧
      bareRequest.escapedPath ≠ spelledRequest.escapedPath ∧
      bareRequest.contentLength ≠ spelledRequest.contentLength ∧
      bareRequest.get "X-Amz-Content-Sha256" ≠ spelledRequest.get "X-Amz-Content-Sha256" ∧
      bareRequest.header (ascii "a") ≠ spelledRequest.header (ascii "a") ∧
      signing plainText sampleVerifier 0 presignedRequest = .ok (sampleSigning presignedQuery [ascii "host"]) ∧
      signing plainText sampleVerifier 0 presignedDeclaring = .ok (sampleSigning presignedQuery [ascii "host"]) ∧
      OneLine presignedRequest (sampleSigning presignedQuery [ascii "host"]) ∧
      OneLine presignedDeclaring (sampleSigning presignedQuery [ascii "host"]) ∧
      stringToSign plainText id presignedRequest (sampleSigning presignedQuery [ascii "host"]) =
        stringToSign plainText id presignedDeclaring (sampleSigning presignedQuery [ascii "host"]) ∧
      declaredPayloadHash presignedRequest ≠ declaredPayloadHash presignedDeclaring := by
  refine ⟨Function.injective_id, by decide +kernel, by decide +kernel,
    sampleRequest_oneLine (by decide +kernel) (by decide +kernel),
    sampleRequest_oneLine (by decide +kernel) (by decide +kernel), by decide +kernel, by decide +kernel,
    by decide +kernel, by decide +kernel, by decide +kernel, by decide +kernel, by decide +kernel,
    sampleRequest_oneLine (by decide) (by decide +kernel),
    sampleRequest_oneLine (by decide +kernel) (by decide +kernel), by decide +kernel, by decide +kernel⟩

/-! ### The lifetime of a presigned URL -/

/-- The lifetime of a presigned URL, in whole numbers: up to seven days after a time of signing that is
at most 15 minutes ahead. -/
def LivesAsSigned (text : TextFunctions) (now : Int) (r : HttpRequest) : Prop :=
  ∃ secs signedAt, atoi (r.queryGet "X-Amz-Expires") = some secs ∧
    text.parseTime (r.queryGet "X-Amz-Date") = some signedAt ∧ 1 ≤ secs ∧ secs ≤ 604800 ∧
    signedAt ≤ now + maxHeaderSkew ∧ now ≤ signedAt + secs * second

/-- The seconds can be counted in nanoseconds. -/
def ExpiryFits (r : HttpRequest) : Prop :=
  ∀ secs, atoi (r.queryGet "X-Amz-Expires") = some secs → secs * second < 2 ^ 63

theorem durationOf_eq {secs : Int} (h : 0 ≤ secs) (hf : secs * second < 2 ^ 63) :
    durationOf secs = secs * second := by
  rw [durationOf, Int.bmod_eq_of_le] <;> unfold second at * <;> omega

theorem parseDate_ok {text : TextFunctions} {amzDate : GoString} {signedAt : Int}
    (h : parseDate text amzDate = .ok signedAt) : text.parseTime amzDate = some signedAt := by
  unfold parseDate at h
  split at h
  next t ht => rw [ht, Except.ok.inj h]
  next => cases h

theorem parseExpires_ok {s : GoString} {secs : Int} (h : parseExpires s = .ok secs) :
    atoi s = some secs ∧ 0 < secs ∧ durationOf secs ≤ maxPresignTTL := by
  unfold parseExpires at h
  split at h
  next n hn =>
    split at h
    · cases h
    next hr =>
      obtain ⟨hp, hd⟩ := not_or.mp hr
      cases h
      exact ⟨hn, not_le.mp hp, not_lt.mp hd⟩
  next => cases h

/-- **A presigned URL that is accepted has the lifetime that it states** if and only if the seconds do
not overflow in nanoseconds. -/
theorem presigned_lifetime_iff {text : TextFunctions} {now : Int} {r : HttpRequest} {accessKey : GoString}
    (h : parsePresignedURL text now r = .ok accessKey) : LivesAsSigned text now r ↔ ExpiryFits r := by
  simp only [parsePresignedURL, bind_eq_ok, refuseIf_ok] at h
  obtain ⟨_, -, _, -, _, -, signedAt, hd, _, -, _, -, secs, he, _, hf, _, hx, -⟩ := h
  obtain ⟨ha, hp, ht⟩ := parseExpires_ok he
  constructor
  · rintro ⟨secs', -, ha', -, -, hle, -, -⟩ n hn
    cases ha'.symm.trans hn
    unfold second
    omega
  · intro hfit
    have heq := durationOf_eq hp.le (hfit secs ha)
    refine ⟨secs, signedAt, ha, parseDate_ok hd, hp, ?_, not_lt.mp hf, ?_⟩
    · unfold maxPresignTTL at ht
      unfold second at *
      omega
    · rw [← heq]
      exact not_lt.mp hx

theorem sample_lifetime :
    parsePresignedURL plainText 0 presignedRequest = .ok (ascii "AK") ∧
      LivesAsSigned plainText 0 presignedRequest := by
  have hok : parsePresignedURL plainText 0 presignedRequest = .ok (ascii "AK") := by decide +kernel
  refine ⟨hok, (presigned_lifetime_iff hok).mpr fun secs h => ?_⟩
  have hs : atoi (presignedRequest.queryGet "X-Amz-Expires") = some 60 := by decide +kernel
  cases hs.symm.trans h
  decide

/-- An expiry of almost 585 years. -/
def overflowingRequest : HttpRequest :=
  sampleRequest (ascii "/b/k") ((ascii "X-Amz-Expires", ascii "18446744074") ::
    (ascii "X-Amz-Signature", ascii "00") :: presignedQuery) [] 0 (by decide)

/-- In nanoseconds it has wrapped around to a third of a second. -/
theorem overflowing_expiry_accepted :
    parsePresignedURL plainText 0 overflowingRequest = .ok (ascii "AK") ∧
      ¬ LivesAsSigned plainText 0 overflowingRequest := by
  refine ⟨by decide +kernel, ?_⟩
  rintro ⟨secs, -, ha, -, -, hle, -⟩
  have hs : atoi (overflowingRequest.queryGet "X-Amz-Expires") = some 18446744074 := by decide +kernel
  cases hs.symm.trans ha
  exact absurd hle (by decide)

end AeroVault.Auth
