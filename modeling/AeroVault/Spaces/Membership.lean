import AeroVault.Spaces.Commands

/-! What the tables of the spaces say together.

A space starts with one user as its admin, and every change of a member moves its revision on by one
and leaves an entry. So the history of a space is the account of all of it: it has one entry for each
revision, and the last entry for a subject is what its member row says. A change that takes the last
active admin away is refused, by a count within the transaction. All of this is one invariant of the
three tables, and holds in every state that the commands lead to (`space_membership`). -/
namespace AeroVault.Spaces
open Lib Lib.SqlLike Function Keyed

/-! ### Histories -/

def SpaceStore.historyOf (db : SpaceStore) (k : SpaceKey) : List History :=
  db.history.filter fun h => h.space = k

/-- The role and the state that the last entry for a subject gave it. -/
def lastChange (entries : List History) (subject : SubjectRef) : Option (Role × MemberState) :=
  (entries.filter fun h => h.target = subject).getLast?.map fun h => (h.afterRole, h.afterState)

/-- The revisions that the entries lead from and to. -/
def revisions (entries : List History) : List (Int × Int) :=
  entries.map fun h => (h.beforeRevision, h.afterRevision)

/-- From 0 to 1, from 1 to 2, and on up to `n`. -/
def contiguous (n : Nat) : List (Int × Int) := (List.range n).map fun i : Nat => ((i : Int), (i : Int) + 1)

theorem contiguous_succ (n : Nat) : contiguous (n + 1) = contiguous n ++ [((n : Int), (n : Int) + 1)] := by
  rw [contiguous, List.range_succ, List.map_append]
  rfl

theorem lastChange_append (entries : List History) (h : History) (subject : SubjectRef) :
    lastChange (entries ++ [h]) subject =
      if subject = h.target then some (h.afterRole, h.afterState) else lastChange entries subject := by
  by_cases hsb : h.target = subject
  · simp [lastChange, hsb]
  · rw [if_neg (Ne.symm hsb)]
    simp [lastChange, hsb]

theorem historyOf_append {db db' : SpaceStore} {h : History} (hdb : db'.history = db.history ++ [h])
    (k : SpaceKey) : db'.historyOf k = if k = h.space then db.historyOf k ++ [h] else db.historyOf k := by
  by_cases hk : h.space = k
  · simp [SpaceStore.historyOf, hdb, hk]
  · rw [if_neg (Ne.symm hk)]
    simp [SpaceStore.historyOf, hdb, hk]

/-! ### What a command writes -/

/-- The rows that an accepted command writes: of the space, of the member and of the history. -/
structure Written (db db' : SpaceStore) (v : Space) (m : Member) (h : History) : Prop where
  spaces : ∀ k, db'.spaces.get? k = if k = v.key then some v else db.spaces.get? k
  members : ∀ k, db'.members.get? k = if k = m.key then some m else db.members.get? k
  history : db'.history = db.history ++ [h]

section Writes

variable {env : CommandEnv} {db db' : SpaceStore} {c : MemberCommand} {before : Option Member}

theorem unique_ok {α : Type} {x : Option α} {a : α} (h : unique x = .ok a) : x = some a := by
  cases x with
  | none => cases h
  | some b => exact congrArg some (Except.ok.inj h)

theorem spaceInsertRoot_ok {v : Space} {t t' : Keyed Space.key} (h : spaceInsertRoot v t = .ok t') :
    t.insert? v = some t' := by
  unfold spaceInsertRoot at h
  split at h
  · cases h
  · exact unique_ok h

theorem spaceUpdateMember_ok {m : Member} {t t' : Keyed Member.key} (h : spaceUpdateMember m t = .ok t') :
    t.update? m = some t' := by
  unfold spaceUpdateMember at h
  split at h
  next hup => rw [hup, Except.ok.inj h]
  · cases h

theorem spaceAppendHistory_ok {g : History} {entries entries' : List History}
    (h : spaceAppendHistory g entries = .ok entries') : entries' = entries ++ [g] := by
  unfold spaceAppendHistory at h
  split at h
  · cases h
  · exact (Except.ok.inj h).symm

/-- What an accepted `CreateSpace` has found and done. -/
structure Created (env : CommandEnv) (c : CreateCommand) (db db' : SpaceStore) : Prop where
  user : c.actor.kind = .user
  fresh : db.spaces.get? c.key = none
  written : Written db db' (c.space env.now) (c.member env.now) (c.entry env)

theorem spaceCreateRows_ok {d : Dialect} {c : CreateCommand} {v : Space}
    (h : spaceCreateRows d env c db = .ok (v, db')) :
    db.spaces.get? c.key = none ∧ Written db db' (c.space env.now) (c.member env.now) (c.entry env) := by
  obtain ⟨-, -, h⟩ := bind_eq_ok.mp h
  obtain ⟨buckets, -, h⟩ := bind_eq_ok.mp h
  obtain ⟨-, -, h⟩ := bind_eq_ok.mp h
  obtain ⟨spaces, hsp, h⟩ := bind_eq_ok.mp h
  obtain ⟨members, hm, h⟩ := bind_eq_ok.mp h
  obtain ⟨history, hh, h⟩ := bind_eq_ok.mp h
  cases h
  have hsp := spaceInsertRoot_ok hsp
  exact ⟨(insert?_eq_some hsp).1, get?_of_insert? hsp,
    get?_of_insert? (unique_ok hm), spaceAppendHistory_ok hh⟩

theorem user_of_validateCreate {c : CreateCommand} (h : validateCreate c = .ok ()) : c.actor.kind = .user := by
  obtain ⟨-, -, h⟩ := bind_eq_ok.mp h
  obtain ⟨-, -, h⟩ := bind_eq_ok.mp h
  obtain ⟨u, hac, h⟩ := bind_eq_ok.mp h
  exact not_not.mp (refuseIf_ok.mp hac)

/-- A transaction changes nothing unless it is accepted. -/
theorem transact_cases {α : Type} {reply : Reply} {body : Except SpaceError (α × SpaceStore)} :
    ((transact reply db body).1.accepted = false ∧ (transact reply db body).2 = db) ∨
      ((transact reply db body).1.accepted = true ∧ ∃ a, body = .ok (a, (transact reply db body).2)) := by
  cases body with
  | error err => exact .inl ⟨rfl, rfl⟩
  | ok result =>
    cases reply with
    | ok | lost => exact .inr ⟨rfl, result.1, rfl⟩
    | failed => exact .inl ⟨rfl, rfl⟩

theorem createSpace_cases (d : Dialect) (env : CommandEnv) (c : CreateCommand) (db : SpaceStore) :
    ((createSpace d env c db).1.accepted = false ∧ (createSpace d env c db).2 = db) ∨
      ((createSpace d env c db).1.accepted = true ∧ Created env c db (createSpace d env c db).2) := by
  unfold createSpace
  cases hv : validateCreate c with
  | error err => exact .inl ⟨rfl, rfl⟩
  | ok u =>
    refine transact_cases.imp_right fun ⟨hac, v, hrw⟩ => ⟨hac, ?_⟩
    obtain ⟨hf, hwr⟩ := spaceCreateRows_ok hrw
    exact ⟨user_of_validateCreate hv, hf, hwr⟩

/-- What an accepted `ChangeSpaceMember` has found and done. -/
structure Changed (env : CommandEnv) (c : MemberCommand) (db db' : SpaceStore) (v : Space) (before : Option Member)
    (after : Member) : Prop where
  space : db.spaces.get? c.key = some v
  expected : v.revision = c.expectedRevision
  member : db.members.get? (c.key, c.target) = before
  key : after.key = (c.key, c.target)
  keepsAdmin : spaceProtectAdmin db.members before after = .ok ()
  written : Written db db' (c.space env.now v) after (c.entry env before after)

theorem spaceCAS_ok {t t' : Keyed Space.key} (h : spaceCAS env c t = .ok t') :
    ∃ v, t.get? c.key = some v ∧ v.revision = c.expectedRevision ∧ t.update? (c.space env.now v) = some t' := by
  obtain ⟨-, -, h⟩ := bind_eq_ok.mp h
  split at h
  · cases h
  next v hv =>
    split_ifs at h with hrv
    · exact ⟨v, hv, not_not.mp hrv, unique_ok h⟩

theorem key_spaceMemberAfter {t : Keyed Member.key} {now : Nat} (h : t.get? (c.key, c.target) = before) :
    (spaceMemberAfter c before now).key = (c.key, c.target) := by
  cases before with
  | none => rfl
  | some m =>
    unfold spaceMemberAfter
    split_ifs
    · rfl
    all_goals exact (get?_eq_some.mp h).2

theorem spaceChangeMemberRows_ok {after : Member} {members : Keyed Member.key} {entries : List History}
    (hbf : db.members.get? (c.key, c.target) = before) (haf : spaceMemberAfter c before env.now = after)
    (h : spaceChangeMemberRows env c db = .ok (members, entries)) :
    spaceProtectAdmin db.members before after = .ok () ∧
      (∀ k, members.get? k = if k = after.key then some after else db.members.get? k) ∧
      entries = db.history ++ [c.entry env before after] := by
  simp only [spaceChangeMemberRows, hbf, haf] at h
  obtain ⟨-, -, h⟩ := bind_eq_ok.mp h
  obtain ⟨u, hadm, h⟩ := bind_eq_ok.mp h
  obtain ⟨members', hm, h⟩ := bind_eq_ok.mp h
  obtain ⟨entries', hen, h⟩ := bind_eq_ok.mp h
  cases h
  refine ⟨hadm, ?_, spaceAppendHistory_ok hen⟩
  split_ifs at hm
  · exact get?_of_insert? (unique_ok hm)
  · exact get?_of_update? (spaceUpdateMember_ok hm)

theorem changeSpaceMember_cases (env : CommandEnv) (c : MemberCommand) (db : SpaceStore) :
    ((changeSpaceMember env c db).1.accepted = false ∧ (changeSpaceMember env c db).2 = db) ∨
      ((changeSpaceMember env c db).1.accepted = true ∧
        ∃ v before after, Changed env c db (changeSpaceMember env c db).2 v before after) := by
  unfold changeSpaceMember
  cases hvl : validateMemberCommand c with
  | error err => exact .inl ⟨rfl, rfl⟩
  | ok u =>
    refine transact_cases.imp_right fun ⟨hac, revision, hrw⟩ => ⟨hac, ?_⟩
    obtain ⟨spaces, hsp, hrw⟩ := bind_eq_ok.mp hrw
    obtain ⟨⟨members, entries⟩, hm, hrw⟩ := bind_eq_ok.mp hrw
    obtain ⟨v, hv, hrv, hup⟩ := spaceCAS_ok hsp
    obtain ⟨hadm, hg, hen⟩ := spaceChangeMemberRows_ok rfl rfl hm
    have hdb := (Prod.mk.inj (Except.ok.inj hrw)).2
    refine ⟨v, _, _, hv, hrv, rfl, key_spaceMemberAfter rfl, hadm, ?_⟩
    rw [← hdb]
    exact ⟨get?_of_update? hup, hg, hen⟩

end Writes

/-! ### The invariant -/

/-- The tables, and how many member changes of each space were accepted. -/
structure SpaceTrace where
  db : SpaceStore
  accepted : SpaceKey → Nat

structure SpaceSound (s : SpaceTrace) (v : Space) : Prop where
  revision : v.revision = 1 + s.accepted v.key
  history : revisions (s.db.historyOf v.key) = contiguous v.revision.toNat
  members : ∀ subject, (s.db.members.get? (v.key, subject)).map (fun m => (m.role, m.state)) =
    lastChange (s.db.historyOf v.key) subject
  admin : ∃ m, s.db.members.get? (v.key, m.subject) = some m ∧ m.administers = true

structure Sound (s : SpaceTrace) : Prop where
  spaces : ∀ v ∈ s.db.spaces.rows, SpaceSound s v
  /-- There is nothing about a space that does not exist. -/
  unknown : ∀ k, s.db.spaces.get? k = none →
    s.accepted k = 0 ∧ s.db.historyOf k = [] ∧ ∀ subject, s.db.members.get? (k, subject) = none

section Writing

variable {s : SpaceTrace} {db' : SpaceStore} {v : Space} {m : Member} {h : History} {accepted' : SpaceKey → Nat}

section
variable (hw : Written s.db db' v m h)
include hw

/-- A command writes to one space only. -/
theorem Written.frame (hm : m.key.1 = v.key) (hh : h.space = v.key) {k : SpaceKey} (hk : k ≠ v.key) :
    db'.spaces.get? k = s.db.spaces.get? k ∧ db'.historyOf k = s.db.historyOf k ∧
      ∀ subject, db'.members.get? (k, subject) = s.db.members.get? (k, subject) := by
  refine ⟨?_, ?_, fun subject => ?_⟩
  · rw [hw.spaces, if_neg hk]
  · rw [historyOf_append hw.history, if_neg (hh ▸ hk)]
  · rw [hw.members, if_neg fun hkey => hk ?_]
    rw [← hm, ← hkey]

theorem Written.historyOf_self (hh : h.space = v.key) :
    db'.historyOf v.key = s.db.historyOf v.key ++ [h] := by
  rw [historyOf_append hw.history, if_pos hh.symm]

theorem Written.member_self (hm : m.key.1 = v.key) (subject : SubjectRef) :
    db'.members.get? (v.key, subject) =
      if subject = m.subject then some m else s.db.members.get? (v.key, subject) := by
  rw [hw.members, ← hm]
  exact if_congr (by simp [Member.key]) rfl rfl

/-- The members of the space still are what its history says, if the entry is about the member. -/
theorem Written.members_agree (hm : m.key.1 = v.key) (hh : h.space = v.key) (ht : h.target = m.subject)
    (hrl : h.afterRole = m.role) (hst : h.afterState = m.state)
    (hold : ∀ subject, (s.db.members.get? (v.key, subject)).map (fun m => (m.role, m.state)) =
      lastChange (s.db.historyOf v.key) subject)
    (subject : SubjectRef) :
    (db'.members.get? (v.key, subject)).map (fun m => (m.role, m.state)) =
      lastChange (db'.historyOf v.key) subject := by
  rw [hw.member_self hm, hw.historyOf_self hh, lastChange_append, ht, hrl, hst, ← hold subject]
  split_ifs <;> rfl

end

theorem SpaceSound.of_frame {u : Space} (hu : SpaceSound s u) (hac : accepted' u.key = s.accepted u.key)
    (hh : db'.historyOf u.key = s.db.historyOf u.key)
    (hmm : ∀ subject, db'.members.get? (u.key, subject) = s.db.members.get? (u.key, subject)) :
    SpaceSound ⟨db', accepted'⟩ u where
  revision := by
    rw [hu.revision]
    exact congrArg (fun n : Nat => 1 + (n : Int)) hac.symm
  history := by rw [hh, hu.history]
  members subject := by rw [hmm, hh, hu.members]
  admin := by
    obtain ⟨m, hm, hadm⟩ := hu.admin
    exact ⟨m, (hmm _).trans hm, hadm⟩

/-- It is enough to look at the space that a command writes to. -/
theorem Sound.write (hs : Sound s) (hw : Written s.db db' v m h) (hm : m.key.1 = v.key) (hh : h.space = v.key)
    (hac : ∀ k, k ≠ v.key → accepted' k = s.accepted k) (hv : SpaceSound ⟨db', accepted'⟩ v) :
    Sound ⟨db', accepted'⟩ := by
  constructor
  · intro u hu
    have hg : db'.spaces.get? u.key = some u := get?_key hu
    by_cases hk : u.key = v.key
    · rw [hw.spaces, if_pos hk] at hg
      exact Option.some.inj hg ▸ hv
    · obtain ⟨hsp, hhs, hmm⟩ := hw.frame hm hh hk
      have hold := hs.spaces u (get?_eq_some.mp (hsp ▸ hg)).1
      exact hold.of_frame (hac _ hk) hhs hmm
  · intro k hnone
    have hk : k ≠ v.key := by
      intro hk
      have hself : db'.spaces.get? k = some v := by rw [hw.spaces, if_pos hk]
      cases hself.symm.trans hnone
    obtain ⟨hsp, hhs, hmm⟩ := hw.frame hm hh hk
    obtain ⟨hz, hem, habs⟩ := hs.unknown k (hsp ▸ hnone)
    exact ⟨(hac k hk).trans hz, hhs.trans hem, fun subject => (hmm subject).trans (habs subject)⟩

theorem Sound.create (hs : Sound s) {env : CommandEnv} {c : CreateCommand} (hc : Created env c s.db db') :
    Sound ⟨db', s.accepted⟩ := by
  obtain ⟨hz, hem, habs⟩ := hs.unknown c.key hc.fresh
  refine hs.write hc.written rfl rfl (fun _ _ => rfl) ⟨?_, ?_, ?_, c.member env.now, ?_, ?_⟩
  · exact congrArg (fun n : Nat => 1 + (n : Int)) hz.symm
  · rw [hc.written.historyOf_self rfl]
    exact congrArg (fun entries => revisions (entries ++ [c.entry env])) hem
  · refine hc.written.members_agree rfl rfl rfl rfl rfl fun subject => ?_
    rw [show s.db.members.get? ((c.space env.now).key, subject) = none from habs subject,
      show s.db.historyOf (c.space env.now).key = [] from hem]
    rfl
  · rw [hc.written.member_self rfl, if_pos rfl]
  · simp [Member.administers, CreateCommand.member, hc.user]

/-- One of two rows that the count has found is another one. -/
theorem exists_other_admin {t : Keyed Member.key} {k : SpaceKey} (hcn : ¬ adminCount t k ≤ 1) :
    ∃ m' ∈ t.rows, m'.key.1 = k ∧ m'.administers = true ∧ m' ≠ m := by
  have hnd := t.rows_nodup.filter fun m => (m.tenantID, m.spaceID) == k && m.administers
  rw [adminCount, ← List.toFinset_card_of_nodup hnd, not_le] at hcn
  obtain ⟨m', hm', hne⟩ := Finset.exists_mem_ne hcn m
  rw [List.mem_toFinset, List.mem_filter, Bool.and_eq_true, beq_iff_eq] at hm'
  exact ⟨m', hm'.1, hm'.2.1, hm'.2.2, hne⟩

variable {env : CommandEnv} {c : MemberCommand} {before : Option Member} {after : Member}

/-- A member change leaves an admin. -/
theorem Changed.admin (hc : Changed env c s.db db' v before after)
    (hadmin : ∃ m, s.db.members.get? (c.key, m.subject) = some m ∧ m.administers = true) :
    ∃ m, db'.members.get? (c.key, m.subject) = some m ∧ m.administers = true := by
  have haft : after.subject = c.target := congrArg Prod.snd hc.key
  have hother {m : Member} (hm : m.subject ≠ c.target) :
      db'.members.get? (c.key, m.subject) = s.db.members.get? (c.key, m.subject) := by
    rw [hc.written.members, hc.key, if_neg fun hkey => hm (congrArg Prod.snd hkey)]
  obtain ⟨m, hm, hadm⟩ := hadmin
  by_cases ht : m.subject = c.target
  · -- The target is an admin, and stays one, or is not the last one.
    have hbf : before = some m := by rw [← hc.member, ← ht, hm]
    have hpr := hc.keepsAdmin
    simp only [hbf, spaceProtectAdmin, hadm] at hpr
    by_cases hkp : after.state = .active ∧ after.role = .admin
    · refine ⟨after, ?_, ?_⟩
      · rw [hc.written.members, hc.key, haft, if_pos rfl]
      · simp only [Member.administers, Bool.and_eq_true, beq_iff_eq] at hadm ⊢
        exact ⟨⟨by rw [haft, ← ht, hadm.1.1], hkp.1⟩, hkp.2⟩
    · have hsp : (m.tenantID, m.spaceID) = c.key := congrArg Prod.fst (get?_eq_some.mp hm).2
      rw [if_neg (by simp), if_neg hkp, hsp] at hpr
      split_ifs at hpr with hcn
      obtain ⟨m', hmem, hkey, hadm', hne⟩ := exists_other_admin hcn
      have hg : s.db.members.get? (c.key, m'.subject) = some m' := hkey ▸ get?_key hmem
      refine ⟨m', ?_, hadm'⟩
      rw [hother, hg]
      intro hsame
      rw [hsame, ← ht, hm] at hg
      exact hne (Option.some.inj hg).symm
  · exact ⟨m, (hother ht).trans hm, hadm⟩

theorem Sound.change (hs : Sound s) (hc : Changed env c s.db db' v before after) :
    Sound ⟨db', update s.accepted c.key (s.accepted c.key + 1)⟩ := by
  obtain ⟨hm, hkey⟩ := get?_eq_some.mp hc.space
  have hv := hs.spaces v hm
  have hself : (c.space env.now v).key = c.key := hkey
  have hmm : after.key.1 = (c.space env.now v).key := (congrArg Prod.fst hc.key).trans hself.symm
  have hent : (c.entry env before after).space = (c.space env.now v).key := hself.symm
  have hcs : (v.revision.toNat : Int) = v.revision := Int.toNat_of_nonneg (by rw [hv.revision]; omega)
  refine hs.write hc.written hmm hent (fun k hk => update_of_ne (hself ▸ hk) ..) ⟨?_, ?_, ?_, ?_⟩
  · show v.revision + 1 = 1 + ((update s.accepted c.key _ (c.space env.now v).key : Nat) : Int)
    rw [hself, update_self, hv.revision, hkey]
    omega
  · have hnx : (v.revision + 1).toNat = v.revision.toNat + 1 := by omega
    have hl : revisions [c.entry env before after] = [(v.revision, v.revision + 1)] := by
      rw [hc.expected]
      rfl
    rw [hc.written.historyOf_self hent, revisions, List.map_append]
    show revisions (s.db.historyOf v.key) ++ revisions [c.entry env before after] = contiguous (v.revision + 1).toNat
    rw [hv.history, hl, hnx, contiguous_succ, hcs]
  · exact hc.written.members_agree hmm hent (congrArg Prod.snd hc.key).symm rfl rfl hv.members
  · rw [hself]
    exact hc.admin (hkey ▸ hv.admin)

end Writing

/-! ### Runs -/

inductive SpaceCommand
  | create (c : CreateCommand)
  | change (c : MemberCommand)

/-- One transaction. -/
def spacesStep (d : Dialect) (s : SpaceTrace) (i : CommandEnv × SpaceCommand) : SpaceTrace :=
  match i.2 with
  | .create c => {s with db := (createSpace d i.1 c s.db).2}
  | .change c =>
    let next := changeSpaceMember i.1 c s.db
    ⟨next.2, if next.1.accepted then Function.update s.accepted c.key (s.accepted c.key + 1) else s.accepted⟩

/-- There are buckets, and no spaces. -/
def noSpaces (buckets : List (String × String)) : SpaceTrace := ⟨⟨buckets, .empty, .empty, []⟩, fun _ => 0⟩

theorem sound_noSpaces {buckets : List (String × String)} : Sound (noSpaces buckets) :=
  ⟨fun _ hv => (List.not_mem_nil hv).elim, fun _ _ => ⟨rfl, rfl, fun _ => rfl⟩⟩

theorem sound_step {d : Dialect} (s : SpaceTrace) (i : CommandEnv × SpaceCommand) (hs : Sound s) :
    Sound (spacesStep d s i) := by
  obtain ⟨env, command⟩ := i
  cases command with
  | create c =>
    obtain ⟨-, hdb⟩ | ⟨-, hcr⟩ := createSpace_cases d env c s.db
    · simp only [spacesStep, hdb]
      exact hs
    · exact hs.create hcr
  | change c =>
    simp only [spacesStep]
    obtain ⟨hrj, hdb⟩ | ⟨hac, v, before, after, hch⟩ := changeSpaceMember_cases env c s.db
    · rw [hrj, hdb]
      exact hs
    · rw [hac]
      exact hs.change hch

/-- **In every state that the commands lead to, every space has an active user admin, a revision that counts the
accepted member changes, a history with one entry for each revision, and members as its history says; and a command
that is rejected there changes nothing.** -/
theorem space_membership (d : Dialect) (buckets : List (String × String)) (ins : List (CommandEnv × SpaceCommand)) :
    let s := run (spacesStep d) (noSpaces buckets) ins
    (∀ v ∈ s.db.spaces.rows, SpaceSound s v) ∧
      (∀ env c, (createSpace d env c s.db).1.accepted = false → (createSpace d env c s.db).2 = s.db) ∧
      (∀ env c, (changeSpaceMember env c s.db).1.accepted = false → (changeSpaceMember env c s.db).2 = s.db) := by
  refine ⟨(run_keeps sound_step sound_noSpaces ins).spaces, fun env c hrj => ?_,
    fun env c hrj => ?_⟩
  · obtain ⟨-, hdb⟩ | ⟨hac, -⟩ := createSpace_cases d env c (run (spacesStep d) (noSpaces buckets) ins).db
    · exact hdb
    · cases hrj.symm.trans hac
  · obtain ⟨-, hdb⟩ | ⟨hac, -⟩ := changeSpaceMember_cases env c (run (spacesStep d) (noSpaces buckets) ins).db
    · exact hdb
    · cases hrj.symm.trans hac

end AeroVault.Spaces
