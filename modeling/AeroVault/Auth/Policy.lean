import AeroVault.Lib.GoJson

/-! Bucket policies: how a document is parsed, and who its statements apply to.

`Principal` is any JSON value. `UnmarshalJSON` turns it into a map, `validatePrincipal`
refuses maps that name someone, and `matchesPrincipal` says whether a map means everyone.
`principals_are_open_iff` says for which documents a statement that means everyone said
so; `named_principal_is_everyone` is one for which it did not. -/
namespace AeroVault.Auth
open Lib List Except Json

/-- The functions of `encoding/json`, `strconv` and `net` that a policy is read with. -/
structure PolicyLibrary where
  /-- The document that a text is, if it is JSON. -/
  scan : String → Option Json
  /-- The number is one of `float64`. -/
  number : String → Bool
  /-- `net.ParseCIDR` returns no error. -/
  isCIDR : String → Bool

structure Statement where
  effect : String
  principal : List (String × Json)
  action : List String
  resource : List String
  condition : List (String × List (String × List String))

structure Policy where
  version : String
  statements : List Statement

inductive StatementError
  | conditionOperator (operator : String)
  | conditionKey (key : String)
  | sourceCIDR (value : String)
  | principal (candidate : String)
  deriving DecidableEq

inductive PolicyError
  | malformed
  | invalidEffect (index : Nat) (effect : String)
  | statement (index : Nat) (cause : StatementError)
  deriving DecidableEq

/-! ### A statement of the document -/

/-- `StringOrArray`; what is no string is left out. -/
def stringOrArray : Json → List String
  | .string s => [s]
  | .array items => items.filterMap text?
  | .null | .bool _ | .number _ | .object _ => []

inductive RawField
  | effect | principal | action | resource | condition
  deriving DecidableEq

def RawField.name : RawField → String
  | .effect => "Effect"
  | .principal => "Principal"
  | .action => "Action"
  | .resource => "Resource"
  | .condition => "Condition"

/-- The field of a statement that a key is read into. -/
def rawField (key : String) : Option RawField :=
  fieldOf RawField.name [.effect, .principal, .action, .resource, .condition] key

/-- The struct that `UnmarshalJSON` decodes into; a nil interface is `null`. -/
structure RawStatement where
  effect : String
  principal : Json
  action : Json
  resource : Json
  condition : List (String × List (String × Json))

def RawStatement.zero : RawStatement := ⟨"", .null, .null, .null, []⟩

section Decoding
variable (lib : PolicyLibrary)

def decodeInterface (value : Json) : Except PolicyError Json :=
  if value.convertible lib.number then .ok value.decodeAny else .error .malformed

/-- Decoding into `map[string]interface{}`. -/
def decodeInner : Json → Except PolicyError (List (String × Json))
  | .null => .ok []
  | .object fields => do
    let decoded ← decodeInterface lib (.object fields)
    match decoded with
    | .object m => return m
    | _ => throw .malformed
  | .bool _ | .number _ | .string _ | .array _ => .error .malformed

/-- The fields of a `Condition`, which are added to those of an earlier one. -/
def decodeOperators (m : List (String × List (String × Json))) :
    List (String × Json) → Except PolicyError (List (String × List (String × Json)))
  | [] => .ok m
  | (operator, value) :: rest => do
    let conditions ← decodeInner lib value
    decodeOperators (setKey m operator conditions) rest

def decodeCondition (old : List (String × List (String × Json))) :
    Json → Except PolicyError (List (String × List (String × Json)))
  | .null => .ok []
  | .object fields => decodeOperators lib old fields
  | .bool _ | .number _ | .string _ | .array _ => .error .malformed

def decodeRawField (raw : RawStatement) (field : RawField) (value : Json) :
    Except PolicyError RawStatement :=
  match field with
  | .effect => do
    let effect ← decodeString .malformed raw.effect value
    return {raw with effect := effect}
  | .principal => do
    let principal ← decodeInterface lib value
    return {raw with principal := principal}
  | .action => do
    let action ← decodeInterface lib value
    return {raw with action := action}
  | .resource => do
    let resource ← decodeInterface lib value
    return {raw with resource := resource}
  | .condition => do
    let condition ← decodeCondition lib raw.condition value
    return {raw with condition := condition}

def decodeRawFields (raw : RawStatement) : List (String × Json) → Except PolicyError RawStatement
  | [] => .ok raw
  | (key, value) :: rest =>
    match rawField key with
    | none => decodeRawFields raw rest
    | some field => do
      let raw ← decodeRawField lib raw field value
      decodeRawFields raw rest

def decodeRaw : Json → Except PolicyError RawStatement
  | .null => .ok .zero
  | .object fields => decodeRawFields lib .zero fields
  | .bool _ | .number _ | .string _ | .array _ => .error .malformed

/-- What becomes of `Principal`: nothing, if it is not there. -/
def normalizePrincipal (old : List (String × Json)) : Json → List (String × Json)
  | .null => old
  | .string s => if s = "*" then [("*", .string "*")] else []
  | .object m => m
  | .bool _ | .number _ | .array _ => []

/-- `UnmarshalJSON`, into a statement that may have been decoded into before. -/
def unmarshalStatement (old : Statement) (value : Json) : Except PolicyError Statement := do
  let raw ← decodeRaw lib value
  return {
    effect := raw.effect
    principal := normalizePrincipal old.principal raw.principal
    action := stringOrArray raw.action
    resource := stringOrArray raw.resource
    condition := raw.condition.map fun op => (op.1, op.2.map fun c => (c.1, stringOrArray c.2)) }

/-! ### The document -/

def Statement.zero : Statement := ⟨"", [], [], [], []⟩

/-- The elements of an array, each decoded over what the slice held at its place. -/
def decodeElements (old : List Statement) : List Json → Except PolicyError (List Statement)
  | [] => .ok []
  | item :: rest => do
    let statement ← unmarshalStatement lib (old.headD .zero) item
    let statements ← decodeElements old.tail rest
    return statement :: statements

inductive PolicyField
  | version | statement
  deriving DecidableEq

def PolicyField.name : PolicyField → String
  | .version => "Version"
  | .statement => "Statement"

def policyField (key : String) : Option PolicyField :=
  fieldOf PolicyField.name [.version, .statement] key

/-- A policy as it is decoded: behind the statements, the slice keeps those that a shorter
array left. -/
structure Decoded where
  policy : Policy
  behind : List Statement

def decodePolicyField (d : Decoded) (field : PolicyField) (value : Json) : Except PolicyError Decoded :=
  match field, value with
  | .version, value => do
    let version ← decodeString .malformed d.policy.version value
    return {d with policy.version := version}
  | .statement, .null => .ok {d with policy.statements := [], behind := []}
  | .statement, .array [] => .ok {d with policy.statements := [], behind := []}
  | .statement, .array items => do
    let old := d.policy.statements ++ d.behind
    let statements ← decodeElements lib old items
    return {d with policy.statements := statements, behind := old.drop items.length}
  | .statement, _ => .error .malformed

def decodePolicyFields (d : Decoded) : List (String × Json) → Except PolicyError Decoded
  | [] => .ok d
  | (key, value) :: rest =>
    match policyField key with
    | none => decodePolicyFields d rest
    | some field => do
      let d ← decodePolicyField lib d field value
      decodePolicyFields d rest

def decodePolicy : Json → Except PolicyError Decoded
  | .null => .ok ⟨⟨"", []⟩, []⟩
  | .object fields => decodePolicyFields lib ⟨⟨"", []⟩, []⟩ fields
  | .bool _ | .number _ | .string _ | .array _ => .error .malformed

end Decoding

/-! ### Principals and conditions -/

/-- `principalValues`: the strings of a value, one level deep. -/
def principalValues : Json → List String
  | .string s => [s]
  | .array items => items.filterMap text?
  | .object m => (m.map Prod.snd).filterMap text?
  | .null | .bool _ | .number _ => []

/-- All candidates of a map. -/
def candidates (principal : List (String × Json)) : List String :=
  principal.flatMap fun p => principalValues p.2

def Statement.matchesPrincipal (s : Statement) : Bool :=
  s.principal.isEmpty || (candidates s.principal).any (· == "*")

def Statement.validatePrincipal (s : Statement) : Except StatementError Unit :=
  match (candidates s.principal).find? (· != "*") with
  | some candidate => .error (.principal candidate)
  | none => .ok ()

def validateValues (lib : PolicyLibrary) : List String → Except StatementError Unit
  | [] => .ok ()
  | value :: rest => do
    refuseIf (lib.isCIDR value = false) (.sourceCIDR value)
    validateValues lib rest

def validateKeys (lib : PolicyLibrary) : List (String × List String) → Except StatementError Unit
  | [] => .ok ()
  | (key, values) :: rest => do
    refuseIf (key ≠ "aws:SourceIp" ∨ values = []) (.conditionKey key)
    validateValues lib values
    validateKeys lib rest

def validateOperators (lib : PolicyLibrary) :
    List (String × List (String × List String)) → Except StatementError Unit
  | [] => .ok ()
  | (operator, conditions) :: rest => do
    refuseIf (operator ≠ "IpAddress" ∧ operator ≠ "NotIpAddress") (.conditionOperator operator)
    validateKeys lib conditions
    validateOperators lib rest

def Statement.validateConditions (lib : PolicyLibrary) (s : Statement) : Except StatementError Unit :=
  validateOperators lib s.condition

/-! ### Parsing -/

/-- The loop of `ParsePolicy`. -/
def validateStatements (lib : PolicyLibrary) (index : Nat) : List Statement → Except PolicyError Unit
  | [] => .ok ()
  | s :: rest => do
    refuseIf (s.effect ≠ "Allow" ∧ s.effect ≠ "Deny") (.invalidEffect index s.effect)
    (s.validateConditions lib).mapError (.statement index)
    s.validatePrincipal.mapError (.statement index)
    validateStatements lib (index + 1) rest

/-- `ParsePolicy`; no policy is `none`. -/
def parsePolicy (lib : PolicyLibrary) (text : String) : Except PolicyError (Option Policy) :=
  if text = "" then .ok none
  else
    match lib.scan text with
    | none => .error .malformed
    | some doc => do
      let decoded ← decodePolicy lib doc
      if decoded.policy.statements = [] then return none
      else
        validateStatements lib 0 decoded.policy.statements
        return some decoded.policy

/-! ### What the document says -/

/-- The elements of an array. -/
def itemsOf : Json → List Json
  | .array items => items
  | .null | .bool _ | .number _ | .string _ | .object _ => []

/-- The statements of a document, as they stand in it. -/
def statementItems : Json → List Json
  | .object fields => ((lastOf policyField .statement fields).map itemsOf).getD []
  | .null | .bool _ | .number _ | .string _ | .array _ => []

/-- The `Principal` of a statement in the document; `null` if there is none. -/
def principalField : Json → Json
  | .object fields => ((lastOf rawField .principal fields).map decodeAny).getD .null
  | .null | .bool _ | .number _ | .string _ | .array _ => .null

section
variable {lib : PolicyLibrary} {raw raw' : RawStatement} {old s : Statement} {item value : Json}

theorem decodeInterface_ok {v : Json} (h : decodeInterface lib value = .ok v) : v = value.decodeAny := by
  unfold decodeInterface at h
  split at h
  · exact (ok.inj h).symm
  · cases h

theorem decodeRawField_principal {field : RawField} (h : decodeRawField lib raw field value = .ok raw') :
    raw'.principal = if field = .principal then value.decodeAny else raw.principal := by
  cases field with
  | principal =>
    simp only [decodeRawField, bind_eq_ok] at h
    obtain ⟨v, hv, hraw⟩ := h
    rw [← ok.inj hraw, decodeInterface_ok hv]
    rfl
  | _ =>
    simp only [decodeRawField, bind_eq_ok] at h
    obtain ⟨v, -, hraw⟩ := h
    rw [← ok.inj hraw]
    rfl

theorem decodeRawFields_principal {fields : List (String × Json)}
    (h : decodeRawFields lib raw fields = .ok raw') :
    raw'.principal = ((lastOf rawField .principal fields).map decodeAny).getD raw.principal := by
  induction fields generalizing raw with
  | nil =>
    rw [← ok.inj h]
    rfl
  | cons p rest ih =>
    obtain ⟨key, value⟩ := p
    unfold decodeRawFields at h
    unfold lastOf
    cases hrd : rawField key with
    | none =>
      rw [hrd] at h
      rw [ih h]
      cases lastOf rawField .principal rest <;> rfl
    | some field =>
      simp only [hrd, bind_eq_ok] at h
      obtain ⟨next, hnx, h⟩ := h
      rw [ih h, decodeRawField_principal hnx]
      cases lastOf rawField .principal rest with
      | some later => rfl
      | none => by_cases hf : field = .principal <;> simp [hf]

theorem unmarshalStatement_principal (h : unmarshalStatement lib old item = .ok s) :
    s.principal = normalizePrincipal old.principal (principalField item) := by
  simp only [unmarshalStatement, bind_eq_ok] at h
  obtain ⟨raw, hraw, hs⟩ := h
  rw [← ok.inj hs]
  show normalizePrincipal old.principal raw.principal = _
  refine congrArg _ ?_
  cases item with
  | object fields => exact decodeRawFields_principal hraw
  | null =>
    rw [← ok.inj hraw]
    rfl
  | _ => cases hraw

/-- A statement was decoded from an element of the document. -/
def DecodedFrom (lib : PolicyLibrary) (item : Json) (s : Statement) : Prop :=
  ∃ old, unmarshalStatement lib old item = .ok s

theorem decodeElements_ok {old statements : List Statement} {items : List Json}
    (h : decodeElements lib old items = .ok statements) :
    List.Forall₂ (DecodedFrom lib) items statements := by
  induction items generalizing old statements with
  | nil =>
    rw [← ok.inj h]
    exact .nil
  | cons item rest ih =>
    simp only [decodeElements, bind_eq_ok] at h
    obtain ⟨first, hf, others, ho, hs⟩ := h
    rw [← ok.inj hs]
    exact .cons ⟨_, hf⟩ (ih ho)

theorem decodePolicyField_statements {d d' : Decoded} {field : PolicyField}
    (h : decodePolicyField lib d field value = .ok d') :
    if field = .statement then List.Forall₂ (DecodedFrom lib) (itemsOf value) d'.policy.statements
    else d'.policy.statements = d.policy.statements := by
  cases field with
  | version =>
    simp only [decodePolicyField, bind_eq_ok] at h
    obtain ⟨version, -, hd⟩ := h
    rw [← ok.inj hd]
    rfl
  | statement =>
    cases value with
    | null =>
      rw [← ok.inj h]
      exact .nil
    | array items =>
      cases items with
      | nil =>
        rw [← ok.inj h]
        exact .nil
      | cons first rest =>
        simp only [decodePolicyField, bind_eq_ok] at h
        obtain ⟨statements, hdc, hd⟩ := h
        rw [← ok.inj hd]
        exact decodeElements_ok hdc
    | _ => cases h

theorem decodePolicyFields_statements {d d' : Decoded} {fields : List (String × Json)}
    (h : decodePolicyFields lib d fields = .ok d') :
    match lastOf policyField .statement fields with
    | some value => List.Forall₂ (DecodedFrom lib) (itemsOf value) d'.policy.statements
    | none => d'.policy.statements = d.policy.statements := by
  induction fields generalizing d with
  | nil =>
    rw [← ok.inj h]
    rfl
  | cons p rest ih =>
    obtain ⟨key, value⟩ := p
    unfold decodePolicyFields at h
    unfold lastOf
    cases hrd : policyField key with
    | none =>
      rw [hrd] at h
      have hrs := ih h
      cases hl : lastOf policyField .statement rest <;> simpa [hl] using hrs
    | some field =>
      simp only [hrd, bind_eq_ok] at h
      obtain ⟨next, hnx, h⟩ := h
      have hrs := ih h
      have hf := decodePolicyField_statements hnx
      cases hl : lastOf policyField .statement rest with
      | some later => simpa [hl] using hrs
      | none =>
        simp only [hl] at hrs
        by_cases hfl : field = .statement
        · simpa [hfl, hrs] using hf
        · simpa [hfl, hrs] using hf

/-- The statements of a policy are those of the document, one for one. -/
theorem decodePolicy_ok {doc : Json} {d : Decoded} (h : decodePolicy lib doc = .ok d) :
    List.Forall₂ (DecodedFrom lib) (statementItems doc) d.policy.statements := by
  cases doc with
  | null =>
    rw [← ok.inj h]
    exact .nil
  | object fields =>
    have hf := decodePolicyFields_statements h
    unfold statementItems
    cases hl : lastOf policyField .statement fields with
    | some value => simpa [hl] using hf
    | none =>
      simp only [hl] at hf
      simp only [hl, hf, Option.map_none]
      exact .nil
  | _ => cases h

theorem validateStatements_principal {index : Nat} {statements : List Statement}
    (h : validateStatements lib index statements = .ok ()) (hs : s ∈ statements) :
    ∀ candidate ∈ candidates s.principal, candidate = "*" := by
  induction statements generalizing index with
  | nil => cases hs
  | cons first rest ih =>
    simp only [validateStatements, bind_eq_ok] at h
    obtain ⟨_, -, _, -, _, hpr, hrs⟩ := h
    obtain rfl | hs := mem_cons.mp hs
    · unfold Statement.validatePrincipal at hpr
      split at hpr
      · cases hpr
      next hnone =>
        intro candidate hm
        simpa using find?_eq_none.mp hnone candidate hm
    · exact ih hrs hs

theorem parsePolicy_ok {text : String} {p : Policy} (h : parsePolicy lib text = .ok (some p)) :
    ∃ doc, lib.scan text = some doc ∧
      List.Forall₂ (DecodedFrom lib) (statementItems doc) p.statements ∧
      validateStatements lib 0 p.statements = .ok () := by
  unfold parsePolicy at h
  split at h
  · cases h
  · split at h
    · cases h
    next doc hsc =>
      simp only [bind_eq_ok] at h
      obtain ⟨d, hd, h⟩ := h
      split at h
      · cases h
      · simp only [bind_eq_ok] at h
        obtain ⟨_, hv, hp⟩ := h
        cases hp
        exact ⟨doc, hsc, decodePolicy_ok hd, hv⟩

end

/-! ### Who a statement is for -/

/-- The principal names someone, anywhere in it. -/
def NamesSomeone (principal : Json) : Prop := ∃ s, .string s ∈ principal.leaves ∧ s ≠ "*"

/-- The principal says that it means everyone: it is not there, it is `"*"`, or it is a map
with nothing but `"*"` in it. -/
def SaysEveryone (principal : Json) : Prop :=
  principal = .null ∨ principal = .string "*" ∨
    ∃ m, principal = .object m ∧ ∀ leaf ∈ principal.leaves, leaf = .string "*"

/-- What `principalValues` passes over in a value. -/
def passedOver : Json → List Json
  | .string _ => []
  | .array items => besidesTexts items
  | .object m => besidesTexts (m.map Prod.snd)
  | .null => [.null]
  | .bool b => [.bool b]
  | .number literal => [.number literal]

/-- What is passed over in a map. -/
def passedOverIn (m : List (String × Json)) : List Json := m.flatMap fun p => passedOver p.2

/-- The principals that the code reads in full, or reads nothing from: a map in which no
name is passed over and, if it is read as `"*"`, nothing but `"*"` is. -/
def ReadInFull : Json → Prop
  | .null => True
  | .string s => s = "*"
  | .object m =>
    (∀ s, .string s ∈ passedOverIn m → s = "*") ∧
      (candidates m ≠ [] → ∀ leaf ∈ passedOverIn m, leaf = .string "*")
  | .bool _ | .number _ | .array _ => False

theorem mem_leaves_iff {v leaf : Json} :
    leaf ∈ v.leaves ↔ (∃ s ∈ principalValues v, leaf = .string s) ∨ leaf ∈ passedOver v := by
  cases v with
  | array items =>
    simp only [leaves, leavesOfItems_eq]
    exact mem_flatMap_leaves_iff
  | object m =>
    simp only [leaves, leavesOfFields_eq, principalValues, passedOver]
    rw [← mem_flatMap_leaves_iff, flatMap_map]
  | _ => simp [leaves, principalValues, passedOver]

theorem mem_leaves_object_iff {m : List (String × Json)} {leaf : Json} :
    leaf ∈ (object m).leaves ↔ (∃ s ∈ candidates m, leaf = .string s) ∨ leaf ∈ passedOverIn m := by
  simp only [leaves, leavesOfFields_eq, candidates, passedOverIn, mem_flatMap, mem_leaves_iff]
  constructor
  · intro h
    obtain ⟨p, hp, ⟨s, hs, rfl⟩ | hleaf⟩ := h
    · exact .inl ⟨s, ⟨p, hp, hs⟩, rfl⟩
    · exact .inr ⟨p, hp, hleaf⟩
  · intro h
    obtain ⟨s, ⟨p, hp, hs⟩, rfl⟩ | ⟨p, hp, hleaf⟩ := h
    · exact ⟨p, hp, .inl ⟨s, hs, rfl⟩⟩
    · exact ⟨p, hp, .inr hleaf⟩

/-- The claim about one principal, as far as the statement that came of it goes. -/
def Told (principal : Json) (s : Statement) : Prop :=
  (s.matchesPrincipal = true → SaysEveryone principal) ∧ ¬ NamesSomeone principal

section
variable {s : Statement} {m : List (String × Json)}

theorem saysEveryone_object_iff (hall : ∀ candidate ∈ candidates m, candidate = "*") :
    SaysEveryone (.object m) ↔ ∀ leaf ∈ passedOverIn m, leaf = .string "*" := by
  constructor
  · intro h leaf hleaf
    obtain h | h | ⟨m', -, h⟩ := h
    · cases h
    · cases h
    · exact h leaf (mem_leaves_object_iff.mpr (.inr hleaf))
  · intro h
    refine .inr (.inr ⟨m, rfl, fun leaf hleaf => ?_⟩)
    obtain ⟨candidate, hm, rfl⟩ | hleaf := mem_leaves_object_iff.mp hleaf
    · rw [hall candidate hm]
    · exact h leaf hleaf

theorem not_namesSomeone_object_iff (hall : ∀ candidate ∈ candidates m, candidate = "*") :
    ¬ NamesSomeone (.object m) ↔ ∀ name, .string name ∈ passedOverIn m → name = "*" := by
  constructor
  · intro h name hnm
    by_contra hne
    exact h ⟨name, mem_leaves_object_iff.mpr (.inr hnm), hne⟩
  · intro h hnames
    obtain ⟨name, hleaf, hne⟩ := hnames
    obtain ⟨candidate, hm, heq⟩ | hleaf := mem_leaves_object_iff.mp hleaf
    · obtain rfl := string.inj heq
      exact hne (hall name hm)
    · exact hne (h name hleaf)

theorem matchesPrincipal_iff (hall : ∀ candidate ∈ candidates s.principal, candidate = "*") :
    s.matchesPrincipal = true ↔ s.principal = [] ∨ candidates s.principal ≠ [] := by
  simp only [Statement.matchesPrincipal, Bool.or_eq_true, List.isEmpty_iff, any_eq_true, beq_iff_eq]
  refine or_congr Iff.rfl ⟨fun h => ?_, fun h => ?_⟩
  · obtain ⟨candidate, hm, -⟩ := h
    exact ne_nil_of_mem hm
  · obtain ⟨candidate, hm⟩ := exists_mem_of_ne_nil _ h
    exact ⟨candidate, hm, hall candidate hm⟩

/-- A statement means everyone, though its principal does not say so. -/
theorem not_told {principal : Json} (hs : s.principal = []) (h : ¬ SaysEveryone principal) :
    ¬ Told principal s := by
  intro ht
  exact h (ht.1 (by simp [Statement.matchesPrincipal, hs]))

theorem told_iff {old : List (String × Json)} {principal : Json}
    (hs : s.principal = normalizePrincipal old principal)
    (hall : ∀ candidate ∈ candidates s.principal, candidate = "*") :
    Told principal s ↔ ReadInFull principal := by
  cases principal with
  | null => exact iff_of_true ⟨fun _ => .inl rfl, by simp [NamesSomeone, leaves]⟩ trivial
  | string name =>
    by_cases hnm : name = "*"
    · subst hnm
      exact iff_of_true ⟨fun _ => .inr (.inl rfl), by simp [NamesSomeone, leaves]⟩ rfl
    · refine iff_of_false (not_told ?_ ?_) hnm
      · rw [hs, normalizePrincipal, if_neg hnm]
      · simp [SaysEveryone, hnm]
  | object m =>
    have hm : s.principal = m := hs
    rw [hm] at hall
    unfold Told ReadInFull
    rw [saysEveryone_object_iff hall, not_namesSomeone_object_iff hall, matchesPrincipal_iff (hm ▸ hall), hm]
    constructor
    · intro h
      exact ⟨h.2, fun hne => h.1 (.inr hne)⟩
    · intro h
      refine ⟨fun hmt => ?_, h.1⟩
      obtain rfl | hne := hmt
      · exact fun leaf hleaf => by cases hleaf
      · exact h.2 hne
  | _ => exact iff_of_false (not_told hs (by simp [SaysEveryone])) id

end

/-- **A statement that means everyone said so, and nobody is named in vain**: of the policies
that `ParsePolicy` accepts, in exactly those each of whose principals is read in full. -/
theorem principals_are_open_iff (lib : PolicyLibrary) (text : String) (doc : Json) (p : Policy)
    (hscan : lib.scan text = some doc) (h : parsePolicy lib text = .ok (some p)) :
    (∀ (i : Nat) (s : Statement), p.statements[i]? = some s →
        ∃ item, (statementItems doc)[i]? = some item ∧ Told (principalField item) s) ↔
      ∀ item ∈ statementItems doc, ReadInFull (principalField item) := by
  obtain ⟨doc', hscan', hd, hv⟩ := parsePolicy_ok h
  obtain rfl : doc' = doc := Option.some.inj (hscan'.symm.trans hscan)
  obtain ⟨hl, hg⟩ := forall₂_iff_get.mp hd
  have ht (i : Nat) (h₁ : i < (statementItems doc').length) (h₂ : i < p.statements.length) :
      Told (principalField (statementItems doc')[i]) p.statements[i] ↔
        ReadInFull (principalField (statementItems doc')[i]) := by
    obtain ⟨old, hold⟩ := hg i h₁ h₂
    exact told_iff (unmarshalStatement_principal hold)
      (validateStatements_principal hv (getElem_mem h₂))
  constructor
  · intro hall item hitem
    obtain ⟨i, h₁, rfl⟩ := getElem_of_mem hitem
    have h₂ : i < p.statements.length := hl ▸ h₁
    obtain ⟨item, hsome, hitem⟩ := hall i _ (getElem?_eq_getElem h₂)
    rw [getElem?_eq_getElem h₁] at hsome
    cases hsome
    exact (ht i h₁ h₂).mp hitem
  · intro hall i s hs
    obtain ⟨h₂, rfl⟩ := List.getElem?_eq_some_iff.mp hs
    have h₁ : i < (statementItems doc').length := hl ▸ h₂
    exact ⟨_, getElem?_eq_getElem h₁, (ht i h₁ h₂).mpr (hall _ (getElem_mem h₁))⟩

/-! ### Two documents -/

/-- A policy with one statement, for the given principal. -/
def documentFor (principal : Json) : Json :=
  .object [("Statement", .array [.object [("Effect", .string "Allow"), ("Principal", principal),
    ("Action", .string "s3:*"), ("Resource", .string "*")]])]

def libraryFor (doc : Json) : PolicyLibrary := ⟨fun _ => some doc, fun _ => true, fun _ => true⟩

/-- The policy that comes of it. -/
def policyFor (principal : List (String × Json)) : Policy :=
  ⟨"", [⟨"Allow", principal, ["s3:*"], ["*"], []⟩]⟩

/-- `{"AWS": ["*"]}` means everyone. -/
theorem wildcard_map_is_open :
    let doc := documentFor (.object [("AWS", .array [.string "*"])])
    let p := policyFor [("AWS", .array [.string "*"])]
    parsePolicy (libraryFor doc) "text" = .ok (some p) ∧
      ∀ (i : Nat) (s : Statement), p.statements[i]? = some s →
        ∃ item, (statementItems doc)[i]? = some item ∧ Told (principalField item) s := by
  intro doc p
  have hpr : parsePolicy (libraryFor doc) "text" = .ok (some p) := rfl
  refine ⟨hpr, (principals_are_open_iff (libraryFor doc) "text" doc p rfl hpr).mpr ?_⟩
  intro item hitem
  obtain rfl := mem_singleton.mp hitem
  exact ⟨nofun, nofun⟩

/-- **A statement for one principal, written as a string, applies to everyone.** -/
theorem named_principal_is_everyone :
    let doc := documentFor (.string "arn:aws:iam::1:user/a")
    parsePolicy (libraryFor doc) "text" = .ok (some (policyFor [])) ∧
      (policyFor []).statements.map Statement.matchesPrincipal = [true] ∧
      (statementItems doc).map principalField = [.string "arn:aws:iam::1:user/a"] := by
  refine ⟨rfl, rfl, rfl⟩

end AeroVault.Auth
