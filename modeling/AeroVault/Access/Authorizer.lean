import AeroVault.Access.Types
import AeroVault.Lib.GoText

/-! The policy decision point, `Manager.Authorize`.

A request passes the resource boundary, the trusted-system and disabled
shortcuts, the tenant check, and then a cascade over the ACL entries that match
its action and principal. Deletes have a cascade of their own, which owners,
administrators and catch-all entries do not pass. -/
namespace AeroVault.Access

def permissionVaultFileDelete : String := "vault.file.delete"

def denied (reason : String) : Decision := ⟨false, reason⟩

def isDeleteAction (action : Action) : Bool := action == .delete || action == .adminDelete

def tenantMatches (p : Principal) (r : Resource) : Bool :=
  p.tenantID == "*" || (p.tenantID != "" && p.tenantID == r.tenantID)

def actionMatches (granted wanted : Action) : Bool :=
  if granted == .all || granted == wanted then true
  else if wanted == .adminDelete && granted == .delete then true
  else if wanted == .preview || wanted == .download then granted == .read
  else false

def principalMatches (entry : ACLEntry) (p : Principal) (departments : List String) : Bool :=
  match entry.principalType with
  | .everyone => true
  | .authenticated => p.kind != .anonymous && p.kind != .publicAsset && p.kind != .share
  | .user => entry.principalID == p.subjectID
  | .department => departments.contains entry.principalID
  | .group => p.groups.contains entry.principalID
  | .role => p.roles.contains entry.principalID
  | .other _ => false

def matchingEntries (entries : List ACLEntry) (p : Principal) (departments : List String)
    (action : Action) : List ACLEntry :=
  entries.filter fun entry => actionMatches entry.action action && principalMatches entry p departments

def hasEffect (entries : List ACLEntry) (effect : Effect) : Bool :=
  entries.any fun entry => entry.effect == effect

def capabilityAllows (capability : Option Capability) (resource : Resource) (action : Action) : Bool :=
  match capability with
  | none => false
  | some c =>
    if c.tenantID != resource.tenantID || c.bucket != resource.bucket then false
    else if c.key != resource.key then false
    else c.actions.any fun granted => actionMatches granted action

def isAdministrator (principal : Principal) : Bool :=
  principal.tenantID == "*" || principal.scopes.contains "admin" ||
    principal.roles.any fun role => role == "vault.tenant_admin" || role == "vault.file_admin"

def scopeAllows (principal : Principal) (action : Action) : Bool :=
  if principal.scopes.contains "admin" then true
  else if action == .manageACL then false
  else if action == .share then principal.scopes.contains "share"
  else if action == .publish then
    principal.scopes.contains "publish" ||
      principal.roles.any fun role => role == "vault.publisher" || role == "vault.publisher_admin"
  else
    let read := action == .list || action == .read || action == .preview || action == .download ||
      action == .exportObject
    let wanted := if read then "read" else "write"
    principal.scopes.contains wanted || principal.roles.any fun role =>
      role == "vault.member" && read || Lib.GoText.hasPrefix role "vault.publisher"

/-- The permission carried as a scope or a role. -/
def carriesFileDelete (principal : Principal) : Bool :=
  principal.scopes.contains permissionVaultFileDelete ||
    principal.roles.contains permissionVaultFileDelete

def hasExplicitDeleteGrant (principal : Principal) (entries : List ACLEntry) : Bool :=
  carriesFileDelete principal ||
    entries.any fun entry => entry.effect == .allow && entry.action == .delete

def hasExplicitAdminDeleteGrant (principal : Principal) (entries : List ACLEntry) : Bool :=
  carriesFileDelete principal ||
    entries.any fun entry =>
      entry.effect == .allow && (entry.action == .adminDelete || entry.action == .delete)

def authorizeDelete (principal : Principal) (action : Action) (resource : Resource)
    (matching : List ACLEntry) : Decision :=
  if hasEffect matching .deny then denied "explicit_deny"
  else if action == .adminDelete then
    if capabilityAllows principal.capability resource action ||
        hasExplicitAdminDeleteGrant principal matching || isAdministrator principal then
      ⟨true, "explicit_delete_grant"⟩
    else denied "delete_permission_required"
  else if hasExplicitDeleteGrant principal matching then ⟨true, "explicit_delete_grant"⟩
  else denied "default_deny"

namespace Manager

variable (m : Manager)

def authorizeDefault (principal : Principal) (action : Action) (entries : List ACLEntry) : Decision :=
  if entries.length > 0 then denied "resource_acl_no_match"
  else if m.cfg.defaultPolicy == .tenant && scopeAllows principal action then ⟨true, "tenant_default"⟩
  else denied "default_deny"

def authorizeMatching (principal : Principal) (action : Action) (resource : Resource)
    (entries matching : List ACLEntry) : Decision :=
  if isDeleteAction action then authorizeDelete principal action resource matching
  else if hasEffect matching .deny then denied "explicit_deny"
  else if hasEffect matching .allow then ⟨true, "acl_allow"⟩
  else if capabilityAllows principal.capability resource action then ⟨true, "capability"⟩
  else if principal.subjectID != "" && principal.subjectID == resource.ownerID then ⟨true, "owner"⟩
  else if isAdministrator principal then ⟨true, "administrator"⟩
  else m.authorizeDefault principal action entries

/-- `Manager.Authorize`: the decision, with the error that accompanies a denial
the manager could not settle. -/
def authorize (principal : Principal) (action : Action) (resource : Resource) :
    Decision × Option Fault :=
  match m.checkBucket resource.tenantID resource.bucket with
  | some fault => (denied "resource_boundary", some fault)
  | none =>
    if principal.kind == .system then (⟨true, "trusted_system"⟩, none)
    else if !m.cfg.enabled then
      if isDeleteAction action && !m.cfg.deleteFailOpen then (denied "access_control_disabled", none)
      else (⟨true, "access_control_disabled"⟩, none)
    else if principal.subjectID == "" then (denied "missing_principal", none)
    else if !tenantMatches principal resource then (denied "tenant_mismatch", none)
    else
      match m.listApplicableACL resource.tenantID resource.bucket resource.key with
      | .error fault => (denied "acl_store_error", some fault)
      | .ok entries =>
        match m.listSubjectDepartments resource.tenantID principal.subjectID with
        | .error fault => (denied "directory_store_error", some fault)
        | .ok departments =>
          let matching := matchingEntries entries principal departments action
          (m.authorizeMatching principal action resource entries matching, none)

/-- The same manager with `entries` as the ACL of every resource. -/
def withACL (entries : List ACLEntry) : Manager :=
  {m with listApplicableACL := fun _ _ _ => .ok entries}

end Manager

/-! ### What the cascade reads of the entries -/

variable {entries : List ACLEntry} {e : ACLEntry}

theorem mem_matchingEntries {p : Principal} {departments : List String} {a : Action} :
    e ∈ matchingEntries entries p departments a ↔
      e ∈ entries ∧ actionMatches e.action a = true ∧ principalMatches e p departments = true := by
  simp [matchingEntries]

theorem hasEffect_of_mem (h : e ∈ entries) : hasEffect entries e.effect = true :=
  List.any_eq_true.mpr ⟨e, h, by simp⟩

variable {entries' : List ACLEntry}

theorem hasEffect_perm (h : entries.Perm entries') (x : Effect) :
    hasEffect entries x = hasEffect entries' x := h.any_eq

theorem authorizeDelete_perm {p : Principal} {a : Action} {r : Resource}
    {matching matching' : List ACLEntry} (h : matching.Perm matching') :
    authorizeDelete p a r matching = authorizeDelete p a r matching' := by
  have hd := hasEffect_perm h .deny
  have hg : hasExplicitDeleteGrant p matching = hasExplicitDeleteGrant p matching' := by
    simp only [hasExplicitDeleteGrant, h.any_eq]
  have ha : hasExplicitAdminDeleteGrant p matching = hasExplicitAdminDeleteGrant p matching' := by
    simp only [hasExplicitAdminDeleteGrant, h.any_eq]
  simp only [authorizeDelete, hd, hg, ha]

namespace Manager

variable {m : Manager} {p : Principal} {a : Action} {r : Resource}
  {entries : List ACLEntry} {departments : List String}

theorem authorizeMatching_deny (he : hasEffect entries .deny = true) (all : List ACLEntry) :
    m.authorizeMatching p a r all entries = denied "explicit_deny" := by
  simp [authorizeMatching, authorizeDelete, he]

theorem authorizeMatching_perm {matching matching' : List ACLEntry}
    (he : entries.Perm entries') (hm : matching.Perm matching') :
    m.authorizeMatching p a r entries matching = m.authorizeMatching p a r entries' matching' := by
  simp only [authorizeMatching, authorizeDelete_perm hm, hasEffect_perm hm, authorizeDefault,
    he.length_eq]

/-- Besides the matching entries only the emptiness of the ACL is read, and a
nonempty ACL never allows what the empty one denies. -/
theorem authorizeMatching_cons {matching : List ACLEntry}
    (h : (m.authorizeMatching p a r entries matching).allowed = false) :
    (m.authorizeMatching p a r (e :: entries) matching).allowed = false := by
  have hd : (m.authorizeDefault p a (e :: entries)).allowed = false := by
    simp [authorizeDefault, denied]
  revert h
  unfold authorizeMatching
  split_ifs
  all_goals first | exact id | exact fun _ => hd

section
variable (he : m.cfg.enabled = true) (hk : p.kind ≠ .system)
include he hk

theorem authorize_foreign_tenant (hany : p.tenantID ≠ "*") (hne : p.tenantID ≠ r.tenantID) :
    (m.authorize p a r).1.allowed = false := by
  have ht : tenantMatches p r = false := by simp [tenantMatches, hany, hne]
  unfold authorize
  split
  · rfl
  · simp only [he, ht]
    by_cases hs : p.subjectID = "" <;> simp [hk, hs, denied]

variable (hacl : m.listApplicableACL r.tenantID r.bucket r.key = .ok entries)
  (hdep : m.listSubjectDepartments r.tenantID p.subjectID = .ok departments)
include hacl hdep

/-- Past the boundary, an enabled manager decides for a named subject of the
tenant by the cascade over the matching entries. -/
theorem authorize_settled :
    m.authorize p a r =
      match m.checkBucket r.tenantID r.bucket with
      | some fault => (denied "resource_boundary", some fault)
      | none =>
        if p.subjectID == "" then (denied "missing_principal", none)
        else if !tenantMatches p r then (denied "tenant_mismatch", none)
        else (m.authorizeMatching p a r entries (matchingEntries entries p departments a), none) := by
  simp only [authorize, he, hacl, hdep]
  simp [hk]

/-- Whatever the cascade denies, the manager denies. -/
theorem not_allowed_of_cascade
    (h : (m.authorizeMatching p a r entries (matchingEntries entries p departments a)).allowed = false) :
    (m.authorize p a r).1.allowed = false := by
  rw [authorize_settled he hk hacl hdep]
  split
  · rfl
  · split_ifs
    · rfl
    · rfl
    · exact h

/-! ### The clauses -/

theorem authorize_matching_deny (hm : e ∈ entries)
    (heff : e.effect = .deny) (hact : actionMatches e.action a = true)
    (hpr : principalMatches e p departments = true) : (m.authorize p a r).1.allowed = false := by
  have hd : hasEffect (matchingEntries entries p departments a) .deny = true :=
    heff ▸ hasEffect_of_mem (mem_matchingEntries.mpr ⟨hm, hact, hpr⟩)
  apply not_allowed_of_cascade he hk hacl hdep
  rw [authorizeMatching_deny hd]
  rfl

theorem authorize_delete_granted (h : (m.authorize p .delete r).1.allowed = true) :
    permissionVaultFileDelete ∈ p.scopes ∨ permissionVaultFileDelete ∈ p.roles ∨
      ∃ e ∈ entries, e.effect = .allow ∧ e.action = .delete ∧ principalMatches e p departments = true := by
  by_contra hno
  have hnot : hasExplicitDeleteGrant p (matchingEntries entries p departments .delete) = false := by
    simp only [not_or, not_exists, not_and] at hno
    obtain ⟨hsc, hrl, hen⟩ := hno
    simp only [hasExplicitDeleteGrant, carriesFileDelete, Bool.or_eq_false_iff,
      List.contains_eq_mem, decide_eq_false_iff_not, List.any_eq_false]
    refine ⟨⟨hsc, hrl⟩, ?_⟩
    intro e hm
    obtain ⟨hin, -, hpr⟩ := mem_matchingEntries.mp hm
    simpa using fun heff hact => hen e hin heff hact hpr
  have hcs := not_allowed_of_cascade (a := .delete) he hk hacl hdep (by
    simp only [authorizeMatching, authorizeDelete, hnot]
    split_ifs <;> first | rfl | contradiction)
  rw [hcs] at h
  cases h

theorem authorize_perm (hpr : entries'.Perm entries) :
    (m.withACL entries').authorize p a r = m.authorize p a r := by
  have hm : (matchingEntries entries' p departments a).Perm
      (matchingEntries entries p departments a) := hpr.filter _
  rw [authorize_settled he hk hacl hdep,
    authorize_settled (m := m.withACL entries') he hk rfl hdep,
    authorizeMatching_perm hpr hm]
  rfl

theorem authorize_deny_added (heff : e.effect = .deny) (h : (m.authorize p a r).1.allowed = false) :
    ((m.withACL (e :: entries)).authorize p a r).1.allowed = false := by
  by_cases hm : actionMatches e.action a = true ∧ principalMatches e p departments = true
  · exact authorize_matching_deny he hk rfl hdep
      List.mem_cons_self heff hm.1 hm.2
  · have hsame : matchingEntries (e :: entries) p departments a =
        matchingEntries entries p departments a := by
      simp only [matchingEntries]
      rw [List.filter_cons_of_neg]
      simpa using hm
    rw [authorize_settled (m := m.withACL (e :: entries)) he hk rfl hdep, hsame]
    rw [authorize_settled he hk hacl hdep] at h
    revert h
    simp only [show (m.withACL (e :: entries)).checkBucket = m.checkBucket from rfl]
    split
    · exact id
    · split_ifs
      · exact id
      · exact id
      · exact authorizeMatching_cons

end

/-- **Authorization is deny-dominant and tenant-confined.** With access control
enabled, for a principal that is not the system: a matching deny entry denies; a
foreign tenant is denied; object delete is allowed only on the file-delete
permission or a matching allow entry that names exactly the delete action; the
order of the entries is irrelevant; and adding a deny entry, anywhere, keeps
denials. -/
theorem authorize_deny_dominant_tenant_confined (m : Manager) (he : m.cfg.enabled = true)
    (p : Principal) (hk : p.kind ≠ .system) (a : Action) (r : Resource) (entries : List ACLEntry)
    (departments : List String)
    (hacl : m.listApplicableACL r.tenantID r.bucket r.key = .ok entries)
    (hdep : m.listSubjectDepartments r.tenantID p.subjectID = .ok departments) :
    ((∃ e ∈ entries, e.effect = .deny ∧ actionMatches e.action a = true ∧
        principalMatches e p departments = true) → (m.authorize p a r).1.allowed = false) ∧
    (p.tenantID ≠ "*" → p.tenantID ≠ r.tenantID → (m.authorize p a r).1.allowed = false) ∧
    (a = .delete → (m.authorize p a r).1.allowed = true →
      permissionVaultFileDelete ∈ p.scopes ∨ permissionVaultFileDelete ∈ p.roles ∨
        ∃ e ∈ entries, e.effect = .allow ∧ e.action = .delete ∧ principalMatches e p departments = true) ∧
    (∀ entries', entries'.Perm entries → (m.withACL entries').authorize p a r = m.authorize p a r) ∧
    (∀ e entries', e.effect = .deny → entries'.Perm (e :: entries) →
      (m.authorize p a r).1.allowed = false → ((m.withACL entries').authorize p a r).1.allowed = false) := by
  refine ⟨?_, authorize_foreign_tenant he hk, ?_, fun entries' hpr =>
    authorize_perm he hk hacl hdep hpr, ?_⟩
  · intro hex
    obtain ⟨e, hm, heff, hact, hprin⟩ := hex
    exact authorize_matching_deny he hk hacl hdep hm heff hact hprin
  · intro ha h
    subst ha
    exact authorize_delete_granted he hk hacl hdep h
  · intro e entries' heff hpr h
    have hcn := authorize_deny_added he hk hacl hdep heff h
    have hsame := authorize_perm (m := m.withACL (e :: entries)) (a := a) he hk rfl hdep hpr
    rw [← hsame] at hcn
    exact hcn

end Manager

/-- An editor of tenant `acme` against an ACL that lets everyone delete but bars
the editor's group. -/
theorem group_deny_overrides_everyone_allow :
    let editor : Principal := ⟨"u1", "acme", .user, [], ["interns"], ["write"], none⟩
    let acl : List ACLEntry := [⟨.everyone, "", .delete, .allow⟩, ⟨.group, "interns", .all, .deny⟩]
    let m : Manager := ⟨⟨true, .tenant, false⟩, fun _ _ => none, fun _ _ _ => .ok acl, fun _ _ => .ok []⟩
    let report : Resource := ⟨"acme", "docs", "report.pdf", .object, "u1"⟩
    (m.authorize editor .delete report).1.allowed = false ∧
      ((m.withACL acl.reverse).authorize editor .delete report) = m.authorize editor .delete report := by
  intro editor acl m report
  obtain ⟨hd, -, -, hpr, -⟩ := Manager.authorize_deny_dominant_tenant_confined m rfl editor
    (by decide) .delete report acl [] rfl rfl
  exact ⟨hd ⟨⟨.group, "interns", .all, .deny⟩, by decide, rfl, by decide, by decide⟩, hpr _ acl.reverse_perm⟩

end AeroVault.Access
