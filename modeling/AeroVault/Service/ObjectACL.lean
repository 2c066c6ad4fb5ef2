import AeroVault.Service.Usage

/-! The canned ACL of an object that is overwritten.

`Put` writes the row and then, if the request has an ACL, sets it. A row that is inserted has the
column's default, `private`; the conflict clause of `UpsertObject` does not assign the column. So a
put without an ACL gives the default if and only if it does not replace, in a bucket without
versions, a live object that has another one (`put_acl_iff`). -/
namespace AeroVault.Service
open Lib Repository

/-- `GetObjectACL` of the repository. -/
def getObjectACL (t : Objects) (k : Path) : Option String :=
  (getObject t k).map fun o => if o.acl = "" then "private" else o.acl

section Rows
variable {t : Objects} {k : Path} {acl : String}

theorem getObjectACL_insert {now : Nat} {obj : Object} (h : getObject t obj.path = none) :
    getObjectACL (t.insert (insertColumns now obj)) obj.path = some "private" := by
  rw [getObjectACL, getObject_insert, h, if_pos (liveAt_insertColumns now obj)]
  rfl

theorem getObjectACL_insertObjectVersion {now : Nat} {obj : Object} :
    getObjectACL (insertObjectVersion now obj t).2 obj.path = some "private" :=
  getObjectACL_insert (getObject_retireLive_self now obj.path t)

/-- An object that is overwritten in place keeps its ACL. -/
theorem getObjectACL_upsertObject {now : Nat} {obj : Object} :
    getObjectACL (upsertObject now obj t).2 obj.path = some ((getObjectACL t obj.path).getD "private") := by
  cases hrow : getObject t obj.path with
  | none =>
    have hnone : getObjectACL t obj.path = none := by rw [getObjectACL, hrow, Option.map_none]
    simp only [hnone, upsertObject, hrow]
    exact getObjectACL_insert hrow
  | some row =>
    rw [getObjectACL, getObject_upsertObject_some now hrow, getObjectACL, hrow]
    simp [overwriteColumns]

theorem getObjectACL_setObjectACL (hne : acl ≠ "") (h : (getObjectACL t k).isSome) :
    getObjectACL (committed t (setObjectACL k acl t)) k = some acl := by
  obtain ⟨row, hrow⟩ := Option.isSome_iff_exists.mp (by simpa [getObjectACL] using h)
  have hany : t.rows.any (liveAt k) = true :=
    List.any_eq_true.mpr ⟨row, List.mem_of_find?_eq_some hrow, List.find?_some hrow⟩
  rw [setObjectACL, if_pos hany, committed, getObjectACL,
    getObject_update (f := fun o => {o with acl := acl}) (fun _ => rfl) fun _ _ _ => rfl, hrow]
  simp [List.find?_some hrow, hne]

end Rows

theorem getObjectACL_saveObject {ctx : Ctx} {s : Vault} {obj : Object} {versioning : Bool} {acl : String}
    (hold : Bool) {reason : String} :
    getObjectACL (saveObject ctx s obj versioning acl hold reason).2.objects obj.path =
      some (if acl ≠ "" then acl else if versioning then "private"
        else (getObjectACL s.objects obj.path).getD "private") := by
  have hw : getObjectACL (if versioning then insertObjectVersion ctx.now obj s.objects
      else upsertObject ctx.now obj s.objects).2 obj.path =
        some (if versioning then "private" else (getObjectACL s.objects obj.path).getD "private") := by
    cases versioning with
    | true => exact getObjectACL_insertObjectVersion
    | false => exact getObjectACL_upsertObject
  have ho : (saveObject ctx s obj versioning acl hold reason).2.objects =
      (saveObject ctx s obj versioning acl false reason).2.objects := by
    cases hold <;> rfl
  rw [ho]
  by_cases hne : acl = ""
  · simpa [saveObject, hne] using hw
  · simpa [saveObject, hne] using getObjectACL_setObjectACL hne (by rw [hw]; rfl)

/-- **A put gives the object the ACL of the request, or else the default**, if and only if the request has
one, or the bucket keeps versions, or the object it replaces, if there is one, has the default. -/
theorem put_acl_iff {ctx : Ctx} {req : PutRequest} {s : Vault} (hok : (put ctx req s).1.isOk = true) :
    let k := defaults req.tenant req.bucket req.key
    getObjectACL (put ctx req s).2.objects k = some (if req.opts.acl = "" then "private" else req.opts.acl) ↔
      req.opts.acl ≠ "" ∨ (s.config k).versioning = true ∨
        (getObjectACL s.objects k).getD "private" = "private" := by
  intro k
  obtain ⟨plan, hplan, hput⟩ := put_ok hok
  have hp := planned hplan
  have haf : getObjectACL (put ctx req s).2.objects plan.path =
      some (if req.opts.acl ≠ "" then req.opts.acl else if plan.config.versioning then "private"
        else (getObjectACL s.objects plan.path).getD "private") := by
    rw [hput]
    exact getObjectACL_saveObject _
  have hk : plan.path = k := hp.path
  rw [← hk, haf, ← hp.config]
  by_cases hne : req.opts.acl = ""
  · cases plan.config.versioning <;> simp [hne]
  · simp [hne]

/-- A put of other bytes to `a`, with or without an ACL. -/
def putWithACL (now : Nat) (acl : String) : Call :=
  ⟨allowedUser now "v" "u", .put {plainPut "acme" "docs" "a" [2] with
    opts := ⟨"text/plain", "", "", [], [], acl, false, "", ""⟩}⟩

/-- `a` after a put with the ACL `public-read`. -/
def publicObject : Vault := onePut.next (putWithACL 2 "public-read")

theorem put_acl_of_request : getObjectACL publicObject.objects ⟨"acme", "docs", "a"⟩ = some "public-read" :=
  (put_acl_iff (by decide +kernel)).mpr (.inl (by decide))

/-- An object that was public is still public after a put without an ACL. -/
theorem put_inherits_acl :
    (putWithACL 3 "").succeeds publicObject = true ∧
      getObjectACL (publicObject.next (putWithACL 3 "")).objects ⟨"acme", "docs", "a"⟩ = some "public-read" := by
  decide +kernel

end AeroVault.Service
