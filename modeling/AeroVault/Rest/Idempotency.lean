import AeroVault.Repository.Idempotency

/-! Write requests that carry an `Idempotency-Key`: the `idempotency` middleware.

A request claims the key, runs the handler behind a writer that captures the response, and stores
what it captured, or releases the claim after a 5xx or a panic. A request that finds the key taken
reads the record, and replays it, if it is completed and of the same request. The requests of one
tenant and key interleave statement by statement; what the handler writes, whether a replay is
admitted and what JSON makes of a stored header value are free.

The claims do what they are for in every run, and a replay has the status and the body of the
original. It need not have its headers: it adds the stored ones to those that the middleware around
this one has set on its own response, which were stored as well. With handlers that leave their
headers as they were sent, the headers are the original ones exactly if no header is set before the
middleware (`idempotent_writes_iff`), which fails as soon as a header like `X-Request-Id` is set on
every response (`replay_repeats_request_id`). -/
namespace AeroVault.Rest
open Lib Repository

/-! ### Responses of the server -/

/-- An `http.Header`: the values of each canonical name. -/
abbrev Header := String → List (List UInt8)

def Header.set (h : Header) (name : String) (values : List (List UInt8)) : Header :=
  Function.update h name values

structure Response where
  status : Nat
  header : Header
  body : List UInt8

/-- The server's `http.ResponseWriter`: the header map of the handler, what was sent with it, and
the body. -/
structure ResponseWriter where
  header : Header
  sent : Option (Nat × Header)
  body : List UInt8

open ResponseWriter

/-- The statuses that `WriteHeader` sends ahead of the response. -/
def informational (status : Nat) : Bool := 100 ≤ status && status ≤ 199 && status != 101

def bodyAllowedForStatus (status : Nat) : Bool :=
  !(100 ≤ status && status ≤ 199) && status != 204 && status != 304

namespace ResponseWriter

def writeHeader (status : Nat) (w : ResponseWriter) : ResponseWriter :=
  match w.sent with
  | some _ => w
  | none => if informational status then w else {w with sent := some (status, w.header)}

def statusOf (w : ResponseWriter) : Nat := (w.sent.getD (200, w.header)).1

def write (b : List UInt8) (w : ResponseWriter) : ResponseWriter :=
  let w := w.writeHeader 200
  if bodyAllowedForStatus w.statusOf then {w with body := w.body ++ b} else w

/-- The response once the handler has returned: 200 unless something was sent. -/
def finish (w : ResponseWriter) : Response :=
  ⟨w.statusOf, (w.sent.getD (200, w.header)).2, w.body⟩

end ResponseWriter

/-! ### The handler behind `idemCapture` -/

/-- What a handler does with the writer it is given. -/
inductive HandlerOp
  | setHeader (name : String) (values : List (List UInt8))
  | writeHeader (status : Nat)
  | write (b : List UInt8)

structure IdemCapture where
  inner : ResponseWriter
  status : Nat
  wroteHeader : Bool
  body : List UInt8

namespace IdemCapture

/-- The capture of a response on which `outer` was set before. -/
def initial (outer : Header) : IdemCapture := ⟨⟨outer, none, []⟩, 200, false, []⟩

def writeHeader (status : Nat) (c : IdemCapture) : IdemCapture :=
  if c.wroteHeader then c else {c with inner := c.inner.writeHeader status, status, wroteHeader := true}

def write (b : List UInt8) (c : IdemCapture) : IdemCapture :=
  let c := c.writeHeader 200
  {c with inner := c.inner.write b, body := c.body ++ b}

def apply (c : IdemCapture) : HandlerOp → IdemCapture
  | .setHeader name values => {c with inner := {c.inner with header := c.inner.header.set name values}}
  | .writeHeader status => c.writeHeader status
  | .write b => c.write b

end IdemCapture

/-- An execution of the handler that has ended. -/
structure Execution where
  capture : IdemCapture
  panicked : Bool
  admission : Option (List UInt8)

namespace Execution

/-- What the client got. -/
def response (x : Execution) : Response := x.capture.inner.finish

/-- Whether the claim is released, and not completed. -/
def releases (x : Execution) : Bool := x.panicked || 500 ≤ x.capture.status

/-- It ended with a 5xx status or a panic. -/
def Failed (x : Execution) : Prop := x.panicked = true ∨ 500 ≤ x.response.status

end Execution

/-! ### Records and replays -/

structure StoredResponse where
  status : Nat
  body : List UInt8
  contentType : List UInt8
  headers : Header

def replayAdmissionHeader : String := "Aero-Internal-Replay-Admission"

/-- A header that is stored under its own name and written back by a replay. -/
def replayable (name : String) : Prop :=
  name ≠ "Content-Type" ∧ name ≠ "Content-Length" ∧ name ≠ "Date" ∧ name ≠ replayAdmissionHeader ∧
    name ≠ "Idempotency-Replayed"

def replayableHeaders (h : Header) : Header := fun name =>
  if name = "Content-Type" ∨ name = "Content-Length" ∨ name = "Date" then [] else h name

def replayAdmissionHeaders (h : Header) (admission : Option (List UInt8)) : Header :=
  h.set replayAdmissionHeader admission.toList

/-- The headers that are added to those of the response. -/
def addHeaders (h stored : Header) : Header := fun name =>
  if name = replayAdmissionHeader then h name else h name ++ stored name

/-- `replay`, on a response on which `outer` was set before. -/
def replay (outer : Header) (stored : StoredResponse) : Response :=
  let typed := if stored.contentType = [] then outer else outer.set "Content-Type" [stored.contentType]
  let header := (addHeaders typed stored.headers).set "Idempotency-Replayed" ["true".toUTF8.toList]
  (((mk header none []).writeHeader stored.status).write stored.body).finish

/-! ### Requests -/

/-- A write request: what its fingerprint is made of, with an empty body hash if bodies are not
hashed, and the headers that are set on its response before the middleware runs. -/
structure IdemRequest where
  method : String
  path : String
  rawQuery : String
  bodyHash : String
  outer : Header

def fingerprintInput (r : IdemRequest) : String :=
  r.method ++ " " ++ r.path ++ (if r.rawQuery = "" then "" else "?" ++ r.rawQuery) ++
    (if r.bodyHash = "" then "" else " " ++ r.bodyHash)

inductive IdemAnswer
  | replayed (response : Response)
  | keyReused
  | inProgress
  | refused
  | unavailable

/-- Where a request stands. -/
inductive IdemPhase
  | start
  | selecting
  | executing
  | releasing (x : Execution)
  | completing (x : Execution)
  | released (x : Execution)
  | completed (x : Execution)
  | answered (a : IdemAnswer)

namespace IdemPhase

/-- The request has claimed the key and not released it. -/
def claims : IdemPhase → Prop
  | executing | releasing _ | completing _ | completed _ => True
  | _ => False

/-- The execution that has ended. -/
def execution? : IdemPhase → Option Execution
  | releasing x | completing x | released x | completed x => some x
  | _ => none

end IdemPhase

/-- What a request does not control: the reply of the database, what its handler does, and
whether its replay is admitted. -/
structure IdemEnv where
  reply : Reply
  ops : List HandlerOp
  panicked : Bool
  admission : Option (List UInt8)
  admitted : Bool

section Protocol

variable (sha256Hex : String → String) (viaJSON : List UInt8 → List UInt8)

def fingerprint (r : IdemRequest) : String := sha256Hex (fingerprintInput r)

/-- The record that `CompleteIdempotencyKey` stores and a later read returns. -/
def Execution.stored (x : Execution) : StoredResponse where
  status := x.capture.status
  body := x.capture.body
  contentType := ((x.capture.inner.header "Content-Type").head?).getD []
  headers name :=
    (replayAdmissionHeaders (replayableHeaders x.capture.inner.header) x.admission name).map viaJSON

def execute (r : IdemRequest) (env : IdemEnv) : Execution :=
  ⟨env.ops.foldl IdemCapture.apply (.initial r.outer), env.panicked, env.admission⟩

/-- The answer of `handleIdempotentRequest` to a request that did not win the claim. -/
def answerTaken (r : IdemRequest) (admitted : Bool) (rec : IdempotencyRecord StoredResponse) : IdemAnswer :=
  if rec.fingerprint ≠ fingerprint sha256Hex r then .keyReused
  else match rec.response with
    | none => .inProgress
    | some stored => if admitted then .replayed (replay r.outer stored) else .refused

/-- The next statement of a request, or its handler. A body that cannot be spooled fails the request
like a failed claim. -/
def idemAdvance (r : IdemRequest) (env : IdemEnv) (row : Option (IdempotencyRecord StoredResponse)) :
    IdemPhase → IdemPhase × Option (IdempotencyRecord StoredResponse)
  | .start =>
    let claim := claimIdempotencyKey (fingerprint sha256Hex r) env.reply row
    match claim.1 with
    | .claimed => (.executing, claim.2)
    | .taken => (.selecting, claim.2)
    | .failed => (.answered .unavailable, claim.2)
  | .selecting =>
    match getIdempotencyKey env.reply row with
    | some rec => (.answered (answerTaken sha256Hex r env.admitted rec), row)
    | none => (.answered .unavailable, row)
  | .executing =>
    let x := execute r env
    (if x.releases then .releasing x else .completing x, row)
  | .releasing x => (.released x, env.reply.after row (deleteIdempotencyKey row))
  | .completing x => (.completed x, env.reply.after row (completeIdempotencyKey (x.stored viaJSON) row))
  | .released x => (.released x, row)
  | .completed x => (.completed x, row)
  | .answered a => (.answered a, row)

variable {ι : Type*} [DecidableEq ι] (requests : ι → IdemRequest)

/-- The requests with one key, and the row of the key. -/
abbrev IdemWorld (ι : Type*) := World (Option (IdempotencyRecord StoredResponse)) IdemPhase ι

def idemStep (w : IdemWorld ι) (i : ι × IdemEnv) : IdemWorld ι :=
  World.step (fun c env row phase => idemAdvance sha256Hex viaJSON (requests c) env row phase) w i

/-- No request has run, and the key is free. -/
def IdemWorld.initial : IdemWorld ι := ⟨none, fun _ => .start⟩

end Protocol

/-! ### What the capture has of a response -/

/-- The status of a response whose handler first wrote `status`. -/
def finalStatus (status : Nat) : Nat := if informational status then 200 else status

theorem le_finalStatus {status : Nat} : 500 ≤ finalStatus status ↔ 500 ≤ status := by
  unfold finalStatus informational
  split <;> simp_all
  omega

/-- The body of a response with this status. -/
def finalBody (status : Nat) (b : List UInt8) : List UInt8 := if bodyAllowedForStatus status then b else []

namespace ResponseWriter

variable {w : ResponseWriter} {status : Nat} {h : Header}

theorem writeHeader_sent (hsn : w.sent = some (status, h)) (st : Nat) : w.writeHeader st = w := by
  rw [writeHeader, hsn]

theorem writeHeader_informational (hsn : w.sent = none) (hin : informational status = true) :
    w.writeHeader status = w := by
  rw [writeHeader, hsn]
  exact if_pos hin

theorem writeHeader_final (hsn : w.sent = none) (hin : informational status ≠ true) :
    w.writeHeader status = {w with sent := some (status, w.header)} := by
  rw [writeHeader, hsn]
  exact if_neg hin

theorem write_sent (hsn : w.sent = some (status, h)) (b : List UInt8) :
    w.write b = {w with body := w.body ++ finalBody status b} := by
  have hst : w.statusOf = status := by rw [statusOf, hsn]; rfl
  simp only [write, writeHeader_sent hsn, hst, finalBody]
  split
  · rfl
  · rw [List.append_nil]

/-- A write sends 200 first if nothing was sent. -/
theorem write_unsent (hsn : w.sent = none) (b : List UInt8) :
    w.write b = {w with sent := some (200, w.header), body := w.body ++ b} := by
  have hwr : w.writeHeader 200 = {w with sent := some (200, w.header)} := writeHeader_final hsn (by decide)
  unfold write
  rw [hwr]
  rfl

end ResponseWriter

/-- The capture has the status and the body that the server sends, except that the server replaces
an informational status and drops a body that the status does not allow. -/
structure Mirrors (c : IdemCapture) : Prop where
  unsent : c.inner.sent = none → finalStatus c.status = 200 ∧ c.inner.body = [] ∧ c.body = []
  sent : ∀ status h, c.inner.sent = some (status, h) →
    c.wroteHeader = true ∧ finalStatus c.status = status ∧ c.inner.body = finalBody status c.body

namespace Mirrors

variable {c : IdemCapture}

theorem initial (outer : Header) : Mirrors (.initial outer) := ⟨fun _ => ⟨rfl, rfl, rfl⟩, nofun⟩

section
variable (h : Mirrors c)
include h

theorem unsent_of_unwritten (hc : c.wroteHeader = false) : c.inner.sent = none := by
  cases hsn : c.inner.sent with
  | none => rfl
  | some p =>
    have hwr := (h.sent p.1 p.2 hsn).1
    rw [hc] at hwr
    cases hwr

theorem writeHeader (status : Nat) : Mirrors (c.writeHeader status) := by
  unfold IdemCapture.writeHeader
  split
  · exact h
  next hc =>
    have hsn := h.unsent_of_unwritten (Bool.eq_false_iff.mpr hc)
    obtain ⟨-, hinner, hbd⟩ := h.unsent hsn
    by_cases hin : informational status = true
    · rw [writeHeader_informational hsn hin]
      refine ⟨fun _ => ⟨if_pos hin, hinner, hbd⟩, fun st hd hst => ?_⟩
      rw [hsn] at hst
      cases hst
    · rw [writeHeader_final hsn hin]
      refine ⟨nofun, fun st hd hst => ?_⟩
      cases hst
      refine ⟨rfl, if_neg hin, ?_⟩
      simp only [hinner, hbd, finalBody, ite_self]

theorem write (b : List UInt8) : Mirrors (c.write b) := by
  have hc := h.writeHeader 200
  have hwrit : (c.writeHeader 200).wroteHeader = true := by
    unfold IdemCapture.writeHeader
    split
    next hold => exact hold
    · rfl
  simp only [IdemCapture.write]
  generalize c.writeHeader 200 = c at hc hwrit
  cases hsn : c.inner.sent with
  | none =>
    -- An informational status was written first, so the server sends 200 now.
    obtain ⟨hstat, hin, hbd⟩ := hc.unsent hsn
    rw [write_unsent hsn]
    refine ⟨nofun, fun st hd hst => ?_⟩
    cases hst
    refine ⟨hwrit, hstat, ?_⟩
    simp only [hin, hbd]
    rfl
  | some p =>
    obtain ⟨-, hstat, hin⟩ := hc.sent p.1 p.2 hsn
    rw [write_sent hsn]
    refine ⟨fun hst => ?_, fun st hd hst => ?_⟩
    · rw [hsn] at hst
      cases hst
    · rw [hsn] at hst
      cases hst
      refine ⟨hwrit, hstat, ?_⟩
      rw [hin]
      unfold finalBody
      split
      · rfl
      · rfl

theorem apply (op : HandlerOp) : Mirrors (c.apply op) := by
  cases op with
  | setHeader name values => exact ⟨h.unsent, h.sent⟩
  | writeHeader status => exact h.writeHeader status
  | write b => exact h.write b

/-- Whatever the handler does. -/
theorem ops (ops : List HandlerOp) : Mirrors (ops.foldl IdemCapture.apply c) := by
  induction ops generalizing c with
  | nil => exact h
  | cons op rest ih => exact ih (h.apply op)

theorem finish_status : c.inner.finish.status = finalStatus c.status := by
  unfold finish statusOf
  cases hsn : c.inner.sent with
  | none => exact (h.unsent hsn).1.symm
  | some p => exact (h.sent p.1 p.2 hsn).2.1.symm

theorem finish_body : c.inner.finish.body = finalBody (finalStatus c.status) c.body := by
  show c.inner.body = _
  cases hsn : c.inner.sent with
  | none =>
    obtain ⟨-, hin, hbd⟩ := h.unsent hsn
    rw [hin, hbd, finalBody, ite_self]
  | some p =>
    obtain ⟨-, hst, hin⟩ := h.sent p.1 p.2 hsn
    rw [hin, hst]

end

end Mirrors

theorem Execution.failed_of_releases {x : Execution} (h : Mirrors x.capture) (hx : x.releases = true) :
    x.Failed := by
  rw [releases, Bool.or_eq_true, decide_eq_true_iff] at hx
  refine hx.imp_right fun hst => ?_
  rw [response, h.finish_status]
  exact le_finalStatus.mpr hst

theorem mirrors_execute (r : IdemRequest) (env : IdemEnv) : Mirrors (execute r env).capture :=
  (Mirrors.initial r.outer).ops env.ops

/-! ### What a replay sends -/

theorem finish_write_writeHeader (h : Header) (status : Nat) (b : List UInt8) :
    (((mk h none []).writeHeader status).write b).finish =
      ⟨finalStatus status, h, finalBody (finalStatus status) b⟩ := by
  by_cases hin : informational status = true
  · rw [writeHeader_informational rfl hin, write_unsent rfl, finalStatus,
      if_pos hin]
    rfl
  · rw [writeHeader_final rfl hin, write_sent rfl, finalStatus, if_neg hin]
    rfl

/-- An execution whose record has the headers of its response. -/
structure Settled (viaJSON : List UInt8 → List UInt8) (x : Execution) : Prop where
  /-- The handler left its header map as it was when it was sent. -/
  sent : x.response.header = x.capture.inner.header
  /-- JSON keeps the values. -/
  kept : ∀ name, ∀ v ∈ x.capture.inner.header name, viaJSON v = v

section Replay

variable (viaJSON : List UInt8 → List UInt8) (outer : Header) (x : Execution)

theorem replay_header {name : String} (hnm : replayable name) :
    (replay outer (x.stored viaJSON)).header name =
      outer name ++ (x.capture.inner.header name).map viaJSON := by
  obtain ⟨ht, hl, hd, hadm, hrp⟩ := hnm
  rw [replay, finish_write_writeHeader]
  have hty : (if (x.stored viaJSON).contentType = [] then outer
      else outer.set "Content-Type" [(x.stored viaJSON).contentType]) name = outer name := by
    split
    · rfl
    · exact Function.update_of_ne ht ..
  have hst : (x.stored viaJSON).headers name = (x.capture.inner.header name).map viaJSON := by
    simp only [Execution.stored, replayAdmissionHeaders, Header.set, Function.update_of_ne hadm,
      replayableHeaders, ht, hl, hd, or_self, if_false]
  calc (Header.set _ "Idempotency-Replayed" _) name
    _ = addHeaders _ _ name := Function.update_of_ne hrp ..
    _ = _ ++ (x.stored viaJSON).headers name := if_neg hadm
    _ = _ := by rw [hty, hst]

/-- A replay has the status and the body of the original response. -/
theorem replay_status_body (h : Mirrors x.capture) :
    (replay outer (x.stored viaJSON)).status = x.response.status ∧
      (replay outer (x.stored viaJSON)).body = x.response.body := by
  rw [replay, finish_write_writeHeader, Execution.response, h.finish_status, h.finish_body]
  exact ⟨rfl, rfl⟩

variable {viaJSON outer x}

/-- It has the headers of a settled execution exactly if none of them is set before. -/
theorem replay_header_iff_unset (hx : Settled viaJSON x) :
    (∀ name, replayable name → (replay outer (x.stored viaJSON)).header name = x.response.header name) ↔
      ∀ name, replayable name → outer name = [] := by
  refine forall₂_congr fun name hnm => ?_
  have hv : (x.capture.inner.header name).map viaJSON = x.capture.inner.header name :=
    (List.map_congr_left (hx.kept name)).trans (List.map_id _)
  rw [replay_header viaJSON outer x hnm, hv, hx.sent, List.append_left_eq_self]

end Replay

/-! ### The claim -/

section Claim

variable (sha256Hex : String → String) (viaJSON : List UInt8 → List UInt8)
variable {ι : Type*} (requests : ι → IdemRequest)

/-- What the row is while a request has the claim. -/
def Holds (row : Option (IdempotencyRecord StoredResponse)) (c : ι) (p : IdemPhase) : Prop :=
  row = some (.inProgress (fingerprint sha256Hex (requests c))) ∨
    ∃ x, p = .completed x ∧
      row = some (.completed (fingerprint sha256Hex (requests c)) (x.stored viaJSON))

/-- What is true of the execution of a request. -/
def Genuine : IdemPhase → Prop
  | .releasing x | .released x => Mirrors x.capture ∧ x.releases = true
  | .completing x | .completed x => Mirrors x.capture
  | _ => True

structure Sound (w : IdemWorld ι) : Prop where
  owned : World.Owned IdemPhase.claims (Holds sha256Hex viaJSON requests) w
  recorded : ∀ f stored, w.shared = some (.completed f stored) →
    ∃ c x, w.phase c = .completed x ∧ stored = x.stored viaJSON
  genuine : World.Asserts (fun _ _ p => Genuine p) w

variable {sha256Hex viaJSON requests} {row : Option (IdempotencyRecord StoredResponse)} {c : ι}
  {env : IdemEnv} {p : IdemPhase} {w : IdemWorld ι} {i : ι × IdemEnv}

theorem Holds.isSome (h : Holds sha256Hex viaJSON requests row c p) : ∃ rec, row = some rec := by
  obtain h | ⟨x, -, h⟩ := h
  · exact ⟨_, h⟩
  · exact ⟨_, h⟩

theorem Holds.inProgress (h : Holds sha256Hex viaJSON requests row c p) (hp : ∀ x, p ≠ .completed x) :
    row = some (.inProgress (fingerprint sha256Hex (requests c))) :=
  h.resolve_right fun ⟨x, hx, _⟩ => hp x hx

/-- A request comes to the claim only by inserting the row, and then executes its handler. -/
theorem advance_claims (hnx : (idemAdvance sha256Hex viaJSON (requests c) env row p).1.claims) :
    p.claims ∧ (idemAdvance sha256Hex viaJSON (requests c) env row p).1 ≠ .executing ∨
      row = none ∧ (idemAdvance sha256Hex viaJSON (requests c) env row p).2 =
        some (.inProgress (fingerprint sha256Hex (requests c))) := by
  cases p with
  | start =>
    simp only [idemAdvance] at hnx ⊢
    split at hnx
    next hcl => exact .inr (claimIdempotencyKey_claimed hcl)
    · exact hnx.elim
    · exact hnx.elim
  | selecting =>
    simp only [idemAdvance] at hnx
    split at hnx <;> exact hnx.elim
  | executing =>
    refine .inl ⟨trivial, ?_⟩
    simp only [idemAdvance]
    split <;> nofun
  | completing | completed => exact .inl ⟨trivial, nofun⟩
  | releasing | released | answered => exact hnx.elim

/-- A request without the claim leaves a row as it is. -/
theorem advance_others {rec : IdempotencyRecord StoredResponse} (hp : ¬ p.claims) :
    (idemAdvance sha256Hex viaJSON (requests c) env (some rec) p).2 = some rec := by
  cases p with
  | start =>
    simp only [idemAdvance]
    split <;> exact claimIdempotencyKey_some rec
  | selecting =>
    simp only [idemAdvance]
    split <;> rfl
  | executing | releasing | completing | completed => exact absurd trivial hp
  | released | answered => rfl

/-- A request that keeps the claim keeps the row. -/
theorem advance_own (hp : p.claims)
    (hnx : (idemAdvance sha256Hex viaJSON (requests c) env row p).1.claims)
    (h : Holds sha256Hex viaJSON requests row c p) :
    Holds sha256Hex viaJSON requests (idemAdvance sha256Hex viaJSON (requests c) env row p).2 c
      (idemAdvance sha256Hex viaJSON (requests c) env row p).1 := by
  cases p with
  | start | selecting | released | answered => exact hp.elim
  | executing => exact .inl (h.inProgress nofun)
  | releasing x => exact hnx.elim
  | completing x =>
    have hrow := h.inProgress nofun
    by_cases hrp : env.reply = .failed
    · exact .inl ((if_pos hrp).trans hrow)
    · refine .inr ⟨x, rfl, (if_neg hrp).trans ?_⟩
      rw [hrow]
      rfl
  | completed x => exact h

/-- Only a request that has completed its execution leaves a completed row. -/
theorem advance_recorded {f : String} {stored : StoredResponse}
    (hrow : (idemAdvance sha256Hex viaJSON (requests c) env row p).2 = some (.completed f stored)) :
    row = some (.completed f stored) ∨
      ∃ x, (idemAdvance sha256Hex viaJSON (requests c) env row p).1 = .completed x ∧
        stored = x.stored viaJSON := by
  cases p with
  | start =>
    left
    simp only [idemAdvance] at hrow
    split at hrow <;> exact claimIdempotencyKey_completed hrow
  | selecting =>
    left
    simp only [idemAdvance] at hrow
    split at hrow <;> exact hrow
  | executing | released | completed | answered => exact .inl hrow
  | releasing x =>
    by_cases hrp : env.reply = .failed
    · exact .inl ((if_pos hrp).symm.trans hrow)
    · cases (if_neg hrp).symm.trans hrow
  | completing x =>
    by_cases hrp : env.reply = .failed
    · exact .inl ((if_pos hrp).symm.trans hrow)
    · right
      exact ⟨x, rfl, completeIdempotencyKey_completed ((if_neg hrp).symm.trans hrow)⟩

theorem advance_genuine (h : Genuine p) :
    Genuine (idemAdvance sha256Hex viaJSON (requests c) env row p).1 := by
  cases p with
  | start | selecting =>
    simp only [idemAdvance]
    split <;> trivial
  | executing =>
    have hx := mirrors_execute (requests c) env
    simp only [idemAdvance]
    split
    next hrl => exact ⟨hx, hrl⟩
    · exact hx
  | releasing | completing | released | completed | answered => exact h

/-- When an execution starts, whoever ran the handler has failed and released the claim. -/
theorem Sound.again (h : Sound sha256Hex viaJSON requests w) (hfree : w.shared = none)
    {x : Execution} (hx : (w.phase c).execution? = some x) : x.Failed := by
  have hun : ¬ (w.phase c).claims := by
    intro hcl
    obtain ⟨rec, hrec⟩ := (h.owned.holds c hcl).isSome
    rw [hfree] at hrec
    cases hrec
  have hg := h.genuine c
  cases hph : w.phase c with
  | released y =>
    rw [hph] at hx hg
    cases hx
    exact Execution.failed_of_releases hg.1 hg.2
  | releasing | completing | completed => exact absurd (by rw [hph]; trivial) hun
  | start | selecting | executing | answered =>
    rw [hph] at hx
    cases hx

theorem Sound.mirrors (h : Sound sha256Hex viaJSON requests w) {x : Execution}
    (hc : w.phase c = .completed x) : Mirrors x.capture := by
  have hg := h.genuine c
  rwa [hc] at hg

theorem answerTaken_replayed {r : IdemRequest} {admitted : Bool} {rec : IdempotencyRecord StoredResponse}
    {response : Response} :
    answerTaken sha256Hex r admitted rec = .replayed response ↔
      admitted = true ∧ ∃ stored, rec = .completed (fingerprint sha256Hex r) stored ∧
        replay r.outer stored = response := by
  obtain ⟨f, stored | stored⟩ := rec <;> by_cases hf : f = fingerprint sha256Hex r <;> cases admitted <;>
    simp [answerTaken, IdempotencyRecord.completed, hf]

/-- A request that replays has read a completed record of its own fingerprint. -/
theorem advance_replayed {response : Response} (hp : p ≠ .answered (.replayed response)) :
    (idemAdvance sha256Hex viaJSON (requests c) env row p).1 = .answered (.replayed response) ↔
      p = .selecting ∧ env.reply = .ok ∧ env.admitted = true ∧
        ∃ stored, row = some (.completed (fingerprint sha256Hex (requests c)) stored) ∧
          replay (requests c).outer stored = response := by
  cases p with
  | selecting =>
    simp only [idemAdvance, getIdempotencyKey]
    by_cases hrp : env.reply = .ok
    · cases row with
      | none => simp
      | some rec => simp [hrp, answerTaken_replayed]
    · simp [hrp]
  | start | executing =>
    simp only [idemAdvance]
    split <;> simp
  | answered a => simp [idemAdvance] at hp ⊢; exact hp
  | releasing | completing | released | completed => simp [idemAdvance]

theorem sound_initial : Sound sha256Hex viaJSON requests .initial :=
  ⟨⟨fun _ _ h => h.elim, fun _ h => h.elim⟩, nofun, fun _ => trivial⟩

variable [DecidableEq ι]

/-- Soundness is kept by the steps of all requests. -/
theorem Sound.step (h : Sound sha256Hex viaJSON requests w) (i : ι × IdemEnv) :
    Sound sha256Hex viaJSON requests (idemStep sha256Hex viaJSON requests w i) := by
  obtain ⟨c, env⟩ := i
  refine ⟨h.owned.step advance_own (fun hp hnx => ?_) (fun hp c' hc' => ?_), fun f stored hrow => ?_,
    h.genuine.step (fun _ _ _ _ => advance_genuine) (fun _ _ _ _ _ _ _ _ h' => h') _⟩
  · obtain ⟨hfree, hrow⟩ := (advance_claims hnx).resolve_left fun hold => hp hold.1
    refine ⟨fun c' hc' => ?_, .inl hrow⟩
    obtain ⟨rec, hrec⟩ := hc'.isSome
    rw [hfree] at hrec
    cases hrec
  · obtain ⟨rec, hrec⟩ := hc'.isSome
    rw [hrec, advance_others hp, ← hrec]
    exact hc'
  · obtain hold | ⟨x, hx, hst⟩ := advance_recorded hrow
    · obtain ⟨c', x, hc', hst⟩ := h.recorded f stored hold
      refine ⟨c', x, ?_, hst⟩
      by_cases hself : c' = c
      · subst hself
        rw [idemStep, World.phase_step_self, hc']
        rfl
      · rw [idemStep, World.phase_step_of_ne hself, hc']
    · exact ⟨c, x, by rw [idemStep, World.phase_step_self, hx], hst⟩

end Claim

/-! ### Runs -/

section Runs

variable (sha256Hex : String → String) (viaJSON : List UInt8 → List UInt8)
variable {ι : Type*} [DecidableEq ι] (requests : ι → IdemRequest)

/-- The step starts an execution of the handler. -/
def Starts (w : IdemWorld ι) (i : ι × IdemEnv) : Prop :=
  w.phase i.1 ≠ .executing ∧ (idemStep sha256Hex viaJSON requests w i).phase i.1 = .executing

/-- What a step of a request keeps to. -/
structure Idempotent (w : IdemWorld ι) (i : ι × IdemEnv) : Prop where
  /-- At most one execution is in progress. -/
  alone : ∀ c c', (idemStep sha256Hex viaJSON requests w i).phase c = .executing →
    (idemStep sha256Hex viaJSON requests w i).phase c' = .executing → c = c'
  /-- The handler runs again only after executions that ended with a 5xx status or a panic. -/
  again : Starts sha256Hex viaJSON requests w i → ∀ c x, (w.phase c).execution? = some x → x.Failed
  /-- A request with another fingerprint than the stored record is not executed. -/
  matching : ∀ rec, w.shared = some rec → rec.fingerprint ≠ fingerprint sha256Hex (requests i.1) →
    ¬ Starts sha256Hex viaJSON requests w i
  /-- A replayed response has the status and the body of the one completed execution. -/
  replayed : ∀ response, w.phase i.1 ≠ .answered (.replayed response) →
    (idemStep sha256Hex viaJSON requests w i).phase i.1 = .answered (.replayed response) →
    ∃ c x, w.phase c = .completed x ∧ (∀ c' x', w.phase c' = .completed x' → c' = c) ∧
      response.status = x.response.status ∧ response.body = x.response.body

/-- A replayed response has the replayable headers of the completed execution. -/
def SameHeaders (w : IdemWorld ι) (i : ι × IdemEnv) : Prop :=
  ∀ response, w.phase i.1 ≠ .answered (.replayed response) →
    (idemStep sha256Hex viaJSON requests w i).phase i.1 = .answered (.replayed response) →
    ∀ c x, w.phase c = .completed x → ∀ name, replayable name → response.header name = x.response.header name

/-- The step runs a handler that settles. -/
def HandlerSettles (w : IdemWorld ι) (i : ι × IdemEnv) : Prop :=
  w.phase i.1 = .executing → Settled viaJSON (execute (requests i.1) i.2)

/-- If the step replays a record, no replayable header is set before the middleware. -/
def Unset (w : IdemWorld ι) (i : ι × IdemEnv) : Prop :=
  w.phase i.1 = .selecting → i.2.reply = .ok → i.2.admitted = true →
    (∃ stored, w.shared = some (.completed (fingerprint sha256Hex (requests i.1)) stored)) →
    ∀ name, replayable name → (requests i.1).outer name = []

/-- Every execution that is to be recorded or was recorded is settled. -/
def AllSettled (w : IdemWorld ι) : Prop :=
  ∀ c x, w.phase c = .completing x ∨ w.phase c = .completed x → Settled viaJSON x

variable {sha256Hex viaJSON requests} {w : IdemWorld ι} {i : ι × IdemEnv}

theorem Starts.free (h : Starts sha256Hex viaJSON requests w i) : w.shared = none := by
  have hnx := h.2
  rw [idemStep, World.phase_step_self] at hnx
  exact ((advance_claims (by rw [hnx]; trivial)).resolve_left fun hold => hold.2 hnx).1

/-- An execution comes to its record from the handler. -/
theorem advance_ended {r : IdemRequest} {env : IdemEnv} {row : Option (IdempotencyRecord StoredResponse)}
    {p : IdemPhase} {x : Execution}
    (h : (idemAdvance sha256Hex viaJSON r env row p).1 = .completing x ∨
      (idemAdvance sha256Hex viaJSON r env row p).1 = .completed x) :
    p = .executing ∧ x = execute r env ∨ p = .completing x ∨ p = .completed x := by
  cases p with
  | start | selecting =>
    simp only [idemAdvance] at h
    split at h <;> simp at h
  | executing =>
    simp only [idemAdvance] at h
    split at h
    · simp at h
    · exact .inl ⟨rfl, by simpa [eq_comm] using h⟩
  | completing y =>
    simp only [idemAdvance, reduceCtorEq, IdemPhase.completed.injEq, false_or] at h
    exact .inr (.inl (h ▸ rfl))
  | completed y => exact .inr h
  | releasing | released | answered => simp [idemAdvance] at h

theorem AllSettled.step (h : AllSettled viaJSON w) (hi : HandlerSettles viaJSON requests w i) :
    AllSettled viaJSON (idemStep sha256Hex viaJSON requests w i) := by
  intro c x hx
  by_cases hc : c = i.1
  · subst hc
    rw [idemStep, World.phase_step_self] at hx
    obtain ⟨hex, rfl⟩ | hold := advance_ended hx
    · exact hi hex
    · exact h _ x hold
  · rw [idemStep, World.phase_step_of_ne hc] at hx
    exact h c x hx

/-- A replay is of the record of the one completed execution. -/
theorem Sound.replayed (h : Sound sha256Hex viaJSON requests w) {response : Response}
    (hold : w.phase i.1 ≠ .answered (.replayed response))
    (hnx : (idemStep sha256Hex viaJSON requests w i).phase i.1 = .answered (.replayed response)) :
    w.phase i.1 = .selecting ∧ i.2.reply = .ok ∧ i.2.admitted = true ∧
      ∃ c x, w.phase c = .completed x ∧ (∀ c' x', w.phase c' = .completed x' → c' = c) ∧
        w.shared = some (.completed (fingerprint sha256Hex (requests i.1)) (x.stored viaJSON)) ∧
        response = replay (requests i.1).outer (x.stored viaJSON) := by
  rw [idemStep, World.phase_step_self, advance_replayed hold] at hnx
  obtain ⟨hsel, hreply, hadmitted, stored, hrow, rfl⟩ := hnx
  obtain ⟨c, x, hc, rfl⟩ := h.recorded _ _ hrow
  refine ⟨hsel, hreply, hadmitted, c, x, hc, fun c' x' hc' => ?_, hrow, rfl⟩
  exact h.owned.unique c' c (by rw [hc']; trivial) (by rw [hc]; trivial)

theorem Sound.idempotent (h : Sound sha256Hex viaJSON requests w) :
    Idempotent sha256Hex viaJSON requests w i := by
  refine ⟨fun c c' hc hc' => ?_, fun hst c x => h.again hst.free, fun rec hrec _ hst => ?_,
    fun response hold hnx => ?_⟩
  · exact (h.step i).owned.unique c c' (by rw [hc]; trivial) (by rw [hc']; trivial)
  · rw [hst.free] at hrec
    cases hrec
  · obtain ⟨-, -, -, c, x, hc, hun, -, rfl⟩ := h.replayed hold hnx
    exact ⟨c, x, hc, hun, replay_status_body viaJSON _ x (h.mirrors hc)⟩

/-- Between settled executions, a step replays the headers exactly if none is set before. -/
theorem Sound.sameHeaders_iff (h : Sound sha256Hex viaJSON requests w) (hs : AllSettled viaJSON w) :
    SameHeaders sha256Hex viaJSON requests w i ↔ Unset sha256Hex requests w i := by
  constructor
  · rintro hi hsel hreply hadmitted ⟨stored, hrow⟩
    obtain ⟨c, x, hc, rfl⟩ := h.recorded _ _ hrow
    have hnx : (idemStep sha256Hex viaJSON requests w i).phase i.1 =
        .answered (.replayed (replay (requests i.1).outer (x.stored viaJSON))) := by
      rw [idemStep, World.phase_step_self, advance_replayed (by rw [hsel]; nofun)]
      exact ⟨hsel, hreply, hadmitted, _, hrow, rfl⟩
    exact (replay_header_iff_unset (hs c x (.inr hc))).mp (hi _ (by rw [hsel]; nofun) hnx c x hc)
  · intro hi response hold hnx c' x' hc'
    obtain ⟨hsel, hreply, hadmitted, c, x, hc, hun, hrow, rfl⟩ := h.replayed hold hnx
    obtain rfl := hun c' x' hc'
    obtain rfl : x = x' := IdemPhase.completed.inj (hc.symm.trans hc')
    exact (replay_header_iff_unset (hs c' x (.inr hc))).mpr (hi hsel hreply hadmitted ⟨_, hrow⟩)

/-- **The claims on an idempotency key do what they are for, in every run: at most one execution is in
progress, the handler runs again only after a failure, no request is executed against a record of
another, and a replay has the status and the body of the one completed execution. If the handlers
settle, it has its headers as well if and only if, at every replay, no replayable header is set on the
response before the middleware.** -/
theorem idempotent_writes_iff (sha256Hex : String → String) (viaJSON : List UInt8 → List UInt8)
    (requests : ι → IdemRequest) (ins : List (ι × IdemEnv)) :
    Each (idemStep sha256Hex viaJSON requests) (Idempotent sha256Hex viaJSON requests) .initial ins ∧
      (Each (idemStep sha256Hex viaJSON requests) (HandlerSettles viaJSON requests) .initial ins →
        (Each (idemStep sha256Hex viaJSON requests) (SameHeaders sha256Hex viaJSON requests)
            .initial ins ↔
          Each (idemStep sha256Hex viaJSON requests) (Unset sha256Hex requests) .initial ins)) := by
  have hsound := always_of_each (J := Sound sha256Hex viaJSON requests)
    (fun w i h (_ : True) => h.step i) sound_initial (Each.trivial _ ins)
  refine ⟨Each.of_always (fun w i h _ => h.idempotent) hsound (Each.trivial _ ins), fun hst => ?_⟩
  exact each_iff_each (J := fun w => Sound sha256Hex viaJSON requests w ∧ AllSettled viaJSON w)
    (fun w i h hi => ⟨h.1.step i, h.2.step hi⟩) (fun w i h _ => h.1.sameHeaders_iff h.2)
    ⟨sound_initial, by simp [IdemWorld.initial, AllSettled]⟩ hst

/-- A request on whose response these headers are set. -/
def putRequest (outer : Header) : IdemRequest := ⟨"PUT", "/v1/files/a", "", "", outer⟩

/-- A request on whose response its identifier is set. -/
def taggedRequest (requestID : List UInt8) : IdemRequest :=
  putRequest (Header.set (fun _ => []) "X-Request-Id" [requestID])

/-- Every statement is done, the handler answers 201, and a replay is admitted. -/
def createdEnv : IdemEnv := ⟨.ok, [.writeHeader 201], false, none, true⟩

/-- A request runs to its end, and its retry finds the record. -/
def requestAndRetry : List (Bool × IdemEnv) :=
  [(false, createdEnv), (false, createdEnv), (false, createdEnv), (true, createdEnv), (true, createdEnv)]

/-- A request and its retry: the replay has both identifiers. -/
theorem replay_repeats_request_id :
    ¬ Each (idemStep id id fun retry => taggedRequest (if retry then [2] else [1]))
      (SameHeaders id id fun retry => taggedRequest (if retry then [2] else [1])) .initial requestAndRetry := by
  intro h
  obtain ⟨-, -, -, -, hrp, -⟩ := h
  have hv := hrp _ nofun rfl false _ rfl "X-Request-Id" (by unfold replayable replayAdmissionHeader; decide)
  exact absurd (congrArg List.length hv) (by decide)

/-- With nothing set before, the retry is answered with the headers of the original. -/
theorem plain_retry_has_headers :
    (run (idemStep id id fun _ : Bool => putRequest fun _ => []) .initial requestAndRetry).phase true =
        .answered (.replayed (replay (fun _ => []) ((execute (putRequest fun _ => []) createdEnv).stored id))) ∧
      Each (idemStep id id fun _ : Bool => putRequest fun _ => [])
        (SameHeaders id id fun _ => putRequest fun _ => []) .initial requestAndRetry := by
  have hset : Each (idemStep id id fun _ : Bool => putRequest fun _ => [])
      (HandlerSettles id fun _ => putRequest fun _ => []) .initial requestAndRetry := by
    have hx (w : IdemWorld Bool) (c : Bool) :
        HandlerSettles id (fun _ => putRequest fun _ => []) w (c, createdEnv) :=
      fun _ => ⟨rfl, fun _ _ _ => rfl⟩
    exact ⟨hx _ _, hx _ _, hx _ _, hx _ _, hx _ _, trivial⟩
  have hun : Each (idemStep id id fun _ : Bool => putRequest fun _ => [])
      (Unset id fun _ => putRequest fun _ => []) .initial requestAndRetry :=
    Each.mono (fun _ _ _ _ _ _ _ _ _ => rfl) (Each.trivial _ _)
  exact ⟨rfl, ((idempotent_writes_iff id id _ requestAndRetry).2 hset).mpr hun⟩

end Runs

end AeroVault.Rest
