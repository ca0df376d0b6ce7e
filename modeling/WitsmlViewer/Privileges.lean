/-
# Who may change what, and as whom

Two laws about whole runs of requests.

* `guarded_iff`: every step that changes users, page grants or server connections is made by a user
  of sufficient level, except that deleting a page deletes its grants and asks nobody.
* `token_bound`: while no account is created under the user name of a token that is still good, a
  token is accepted as the account that it was issued to and as no other.

The module that the first law is about says in its first lines that all such changes require a
super admin.  Its own routes do as they say.  The page routes are in another module, which has no
checks; they write pages, and a page's grants go with it by the database's cascade.  So the
exception is not in any line of code that names grants, and it is the only one.

The second law is about names.  A token names its account by user name and not by id, and a user
name is free again as soon as its account is deleted.  Renaming is not possible, so this is the
only way in which a name can change hands.
-/
import WitsmlViewer.Accounts

namespace WitsmlViewer.Api

open Py Runs

/-! ## 1. Levels

What a check has established when it lets a request through: the token names an account that
exists, is active, and has a sufficient level, now. -/

/-- The token names an account that exists, is active and has one of these levels, now. -/
def State.Bears (s : State) (token : Option Token) (levels : List Str) : Prop :=
  ∃ t, token = some t ∧ s.decodes t = true ∧
    ∃ u ∈ s.db.users, u.username = t.sub ∧ u.isActive = true ∧ u.accessLevel ∈ levels

/-- The account of a token is one of the table, active, and has its user name. -/
theorem State.mem_of_getCurrentUser {s : State} {token : Option Token} {u : User}
    (h : s.getCurrentUser token = .ok u) :
    ∃ t, token = some t ∧ s.decodes t = true ∧ u ∈ s.db.users ∧ u.username = t.sub ∧
      u.isActive = true := by
  cases token with
  | none => simp [getCurrentUser] at h
  | some t =>
    simp only [getCurrentUser] at h
    split at h
    · rename_i hdec
      rw [Bool.and_eq_true] at hdec
      split at h
      · rename_i u' hf
        obtain rfl := Except.ok.inj h
        obtain ⟨hfind, hact⟩ := Option.filter_eq_some_iff.mp hf
        refine ⟨t, rfl, hdec.1, List.mem_of_find?_eq_some hfind, ?_, hact⟩
        simpa using List.find?_some hfind
      · simp at h
    · simp at h

/-- A level of at least `super_admin` is that level. -/
theorem levelRank_superAdmin {level : Str} (h : ¬levelRank level < levelRank "super_admin".toList) :
    level = "super_admin".toList := by
  by_contra hne
  have htop : levelRank "super_admin".toList = 2 := rfl
  have hlow : levelRank level ≤ 1 := by
    rw [levelRank, if_neg hne]
    split <;> omega
  omega

/-- A level of at least `admin` is that level or the one above. -/
theorem levelRank_admin {level : Str} (h : ¬levelRank level < levelRank "admin".toList) :
    level ∈ ["admin".toList, "super_admin".toList] := by
  have hadmin : levelRank "admin".toList = 1 := by decide
  by_cases hs : level = "super_admin".toList
  · simp [hs]
  · by_cases ha : level = "admin".toList
    · simp [ha]
    · have hzero : levelRank level = 0 := by rw [levelRank, if_neg hs, if_neg ha]
      omega

/-- A check that lets a request through has found such an account. -/
theorem State.bears_of_requireLevel {s : State} {token : Option Token} {minLevel : Str} {u : User}
    {levels : List Str} (h : s.requireLevel minLevel token = .ok u)
    (hlevels : ∀ level, ¬levelRank level < levelRank minLevel → level ∈ levels) :
    s.Bears token levels := by
  rw [requireLevel] at h
  split at h
  · simp at h
  · rename_i u' hu
    split at h
    · simp at h
    · rename_i hrank
      obtain ⟨t, ht, hdec, hmem, hname, hact⟩ := State.mem_of_getCurrentUser hu
      exact ⟨t, ht, hdec, u', hmem, hname, hact, hlevels _ hrank⟩

theorem State.bears_superAdmin {s : State} {token : Option Token} {u : User}
    (h : s.requireSuperAdmin token = .ok u) : s.Bears token ["super_admin".toList] :=
  State.bears_of_requireLevel h fun _ hl => by simp [levelRank_superAdmin hl]

theorem State.bears_admin {s : State} {token : Option Token} {u : User}
    (h : s.requireAdmin token = .ok u) : s.Bears token ["admin".toList, "super_admin".toList] :=
  State.bears_of_requireLevel h fun _ hl => levelRank_admin hl

/-! ## 2. Who changes users, grants and connections

One lemma for each kind of route: those behind the check for super admins, those behind the one for
admins, those that leave the three tables alone, and the deletion of a page.  `guarded_iff` is
their case distinction over all routes, with no route left out. -/

/-- The bearer token of an event. -/
def Event.token : Event → Option Token
  | .request r => r.token
  | .wait _ => none

/-- A step that changes users or grants is made by a super admin, and one that changes server
connections by an admin. -/
def Guarded (sec : Security) (s : State) (e : Event) : Prop :=
  ∀ s', next sec s e = some s' →
    (s'.db.users ≠ s.db.users ∨ s'.db.grants ≠ s.db.grants →
      s.Bears e.token ["super_admin".toList]) ∧
    (s'.db.servers ≠ s.db.servers → s.Bears e.token ["admin".toList, "super_admin".toList])

/-- The deletion of a page that somebody was granted, by anybody but a super admin. -/
def DeletesGrantedPage (s : State) (e : Event) : Prop :=
  ∃ r pageId, e = .request r ∧ r.op = .deletePage pageId ∧ (s.db.findPage pageId).isSome = true ∧
    (∃ g ∈ s.db.grants, g.pageId = pageId) ∧ ¬s.Bears r.token ["super_admin".toList]

section Commit

variable {sec : Security} {s : State}

/-- What holds of the database before and of what a route makes of it holds after the commit. -/
theorem State.commit_db {result : Except Status Db} {P : Db → Prop} (hs : P s.db)
    (hr : ∀ db, result = .ok db → P db) : P (s.commit result).1.db := by
  cases result with
  | error e => exact hs
  | ok db => exact hr db rfl

/-- A route behind a role check changes the database only for a user of that role. -/
theorem State.guarded_db {role : Except Status User} {result : Except Status Db}
    (h : (s.guarded role result).1.db ≠ s.db) : ∃ u, role = .ok u := by
  cases role with
  | error e => exact absurd rfl h
  | ok u => exact ⟨u, rfl⟩

/-! What the page routes and the server routes write. -/

theorem Db.createPage_eq {db db' : Db} {body : PageCreate} (h : db.createPage body = .ok db') :
    ∃ pages n, db' = { db with pages := pages, nextPage := n } := by
  rw [createPage] at h
  split at h
  · exact ⟨_, _, (Except.ok.inj h).symm⟩
  · simp at h

theorem Db.updatePage_eq {db db' : Db} {pageId : ℤ} {body : PageUpdate}
    (h : db.updatePage pageId body = .ok db') :
    ∃ pages n, db' = { db with pages := pages, nextPage := n } := by
  rw [updatePage] at h
  split at h
  · simp at h
  · split at h
    · simp at h
    · exact ⟨_, _, (Except.ok.inj h).symm⟩

theorem Db.duplicatePage_eq {db db' : Db} {pageId : ℤ} {name : Option Str}
    (h : db.duplicatePage pageId name = .ok db') :
    ∃ pages n, db' = { db with pages := pages, nextPage := n } := by
  rw [duplicatePage] at h
  split at h
  · simp at h
  · exact Db.createPage_eq h

/-- Deleting a page writes pages, and takes its grants along. -/
theorem Db.deletePage_eq {db db' : Db} {pageId : ℤ} (h : db.deletePage pageId = .ok db') :
    (db.findPage pageId).isSome = true ∧ ∃ pages, db' = { db with
      pages := pages, grants := db.grants.filter fun g => decide (g.pageId ≠ pageId) } := by
  rw [deletePage] at h
  split at h
  · simp at h
  · rename_i hf
    exact ⟨by rw [hf]; rfl, _, (Except.ok.inj h).symm⟩

theorem Db.createServer_eq {db db' : Db} {body : ServerCreate}
    (h : db.createServer sec body = .ok db') :
    ∃ servers n, db' = { db with servers := servers, nextServer := n } := by
  rw [createServer] at h
  split at h
  · simp at h
  · exact ⟨_, _, (Except.ok.inj h).symm⟩

theorem Db.updateServer_eq {db db' : Db} {serverId : ℤ} {body : ServerUpdate}
    (h : db.updateServer sec serverId body = .ok db') :
    ∃ servers n, db' = { db with servers := servers, nextServer := n } := by
  rw [updateServer] at h
  split at h
  · simp at h
  · split at h
    · simp at h
    · split at h
      · simp at h
      · exact ⟨_, _, (Except.ok.inj h).symm⟩

theorem Db.deleteServer_eq {db db' : Db} {serverId : ℤ}
    (h : db.deleteServer serverId = .ok db') :
    ∃ servers n, db' = { db with servers := servers, nextServer := n } := by
  rw [deleteServer] at h
  split at h
  · simp at h
  · split at h
    · simp at h
    · exact ⟨_, _, (Except.ok.inj h).symm⟩

end Commit

theorem State.Bears.admin {s : State} {token : Option Token}
    (h : s.Bears token ["super_admin".toList]) :
    s.Bears token ["admin".toList, "super_admin".toList] := by
  obtain ⟨t, ht, hdec, u, hu, hname, hact, hlevel⟩ := h
  exact ⟨t, ht, hdec, u, hu, hname, hact, List.mem_cons_of_mem _ hlevel⟩

/-- A step that only a super admin can make anything of is guarded. -/
theorem guarded_of_superAdmin {sec : Security} {s : State} {r : Request}
    (h : (handle sec s r).1.db ≠ s.db → s.Bears r.token ["super_admin".toList]) :
    Guarded sec s (.request r) := by
  intro s' hs'
  rw [next, Option.some.injEq] at hs'
  subst hs'
  constructor
  · intro hchange
    refine h fun heq => ?_
    rw [heq] at hchange
    exact hchange.elim (fun hne => hne rfl) fun hne => hne rfl
  · intro hchange
    exact (h fun heq => hchange (by rw [heq])).admin

/-- A step that changes none of the three tables is guarded. -/
theorem guarded_of_frame {sec : Security} {s : State} {e : Event}
    (h : ∀ s', next sec s e = some s' → s'.db.users = s.db.users ∧ s'.db.grants = s.db.grants ∧
      s'.db.servers = s.db.servers) : Guarded sec s e := by
  intro s' hs'
  obtain ⟨hu, hg, hc⟩ := h s' hs'
  exact ⟨fun hchange => hchange.elim (fun hne => absurd hu hne) fun hne => absurd hg hne,
    fun hchange => absurd hc hchange⟩

/-- A server route is guarded by the admin level. -/
theorem guarded_of_admin {sec : Security} {s : State} {r : Request} {result : Except Status Db}
    (hrun : handle sec s r = s.guarded (s.requireAdmin r.token) result)
    (hservers : ∀ db, result = .ok db →
      ∃ servers n, db = { s.db with servers := servers, nextServer := n }) :
    Guarded sec s (.request r) := by
  intro s' hs'
  rw [next, Option.some.injEq] at hs'
  subst hs'
  rw [hrun]
  cases hrole : s.requireAdmin r.token with
  | error e =>
    exact ⟨fun hchange => hchange.elim (fun hne => absurd rfl hne) fun hne => absurd rfl hne,
      fun hchange => absurd rfl hchange⟩
  | ok u =>
    obtain ⟨hu, hg⟩ : (s.commit result).1.db.users = s.db.users ∧
        (s.commit result).1.db.grants = s.db.grants := by
      refine State.commit_db (P := fun db => db.users = s.db.users ∧ db.grants = s.db.grants)
        ⟨rfl, rfl⟩ fun db hdb => ?_
      obtain ⟨servers, n, rfl⟩ := hservers db hdb
      exact ⟨rfl, rfl⟩
    exact ⟨fun hchange => hchange.elim (fun hne => absurd hu hne) fun hne => absurd hg hne,
      fun _ => State.bears_admin hrole⟩

/-- The page routes leave the three tables alone, the deletion of a page apart. -/
theorem guarded_of_commit {sec : Security} {s : State} {r : Request} {result : Except Status Db}
    (hrun : handle sec s r = s.commit result)
    (hpages : ∀ db, result = .ok db →
      ∃ pages n, db = { s.db with pages := pages, nextPage := n }) :
    Guarded sec s (.request r) := by
  refine guarded_of_frame fun s' hs' => ?_
  rw [next, Option.some.injEq, hrun] at hs'
  rw [← hs']
  refine State.commit_db (P := fun db => db.users = s.db.users ∧ db.grants = s.db.grants ∧
    db.servers = s.db.servers) ⟨rfl, rfl, rfl⟩ fun db hdb => ?_
  obtain ⟨pages, n, rfl⟩ := hpages db hdb
  exact ⟨rfl, rfl, rfl⟩

/-- Deleting a page is guarded unless it takes grants along and nobody of rank asked for it. -/
theorem guarded_deletePage {sec : Security} {s : State} {r : Request} {pageId : ℤ}
    (hop : r.op = .deletePage pageId) :
    Guarded sec s (.request r) ↔ ¬((s.db.findPage pageId).isSome = true ∧
      (∃ g ∈ s.db.grants, g.pageId = pageId) ∧ ¬s.Bears r.token ["super_admin".toList]) := by
  have hrun : handle sec s r = s.commit (s.db.deletePage pageId) := by rw [handle, hop]
  constructor
  · rintro h ⟨hf, ⟨g, hg, hpage⟩, hbears⟩
    obtain ⟨p, hp⟩ := Option.isSome_iff_exists.mp hf
    refine hbears ((h _ rfl).1 (Or.inr fun heq => ?_))
    have hgone : (handle sec s r).1.db.grants =
        s.db.grants.filter fun g => decide (g.pageId ≠ pageId) := by
      rw [hrun, Db.deletePage, hp]
      rfl
    rw [hgone] at heq
    rw [← heq] at hg
    exact absurd hpage (of_decide_eq_true (List.mem_filter.mp hg).2)
  · intro h s' hs'
    rw [next, Option.some.injEq, hrun] at hs'
    subst hs'
    cases hdel : s.db.deletePage pageId with
    | error e =>
      exact ⟨fun hchange => hchange.elim (fun hne => absurd rfl hne) fun hne => absurd rfl hne,
        fun hchange => absurd rfl hchange⟩
    | ok db =>
      obtain ⟨hf, pages, rfl⟩ := Db.deletePage_eq hdel
      refine ⟨fun hchange => ?_, fun hchange => absurd rfl hchange⟩
      by_contra hbears
      refine hchange.elim (fun hne => absurd rfl hne) fun hne => h ⟨hf, ?_, hbears⟩
      by_contra hnone
      refine hne (List.filter_eq_self.mpr fun g hmem => decide_eq_true fun heq => ?_)
      exact hnone ⟨g, hmem, heq⟩

/-- **A step is guarded exactly if it does not delete a granted page.**  The direction from right
to left goes through all routes.  The other one is the deletion of a page that somebody was
granted, by somebody who is no super admin: the route asks nothing, so the grants are gone. -/
theorem guarded_iff (sec : Security) (s : State) (e : Event) :
    Guarded sec s e ↔ ¬DeletesGrantedPage s e := by
  cases e with
  | wait seconds =>
    have hguard : Guarded sec s (.wait seconds) := by
      refine guarded_of_frame fun s' hs' => ?_
      rw [next, Option.some.injEq] at hs'
      rw [← hs']
      exact ⟨rfl, rfl, rfl⟩
    exact iff_of_true hguard (by rintro ⟨r, pageId, he, -⟩; exact absurd he (by simp))
  | request r =>
    by_cases hdel : ∃ pageId, r.op = .deletePage pageId
    · obtain ⟨pageId, hop⟩ := hdel
      rw [guarded_deletePage hop]
      refine not_congr ⟨fun ⟨hf, hg, hb⟩ => ⟨r, pageId, rfl, hop, hf, hg, hb⟩, ?_⟩
      rintro ⟨r', pageId', he, hop', hf, hg, hb⟩
      obtain rfl : r = r' := Event.request.inj he
      obtain rfl : pageId = pageId' := Operation.deletePage.inj (hop.symm.trans hop')
      exact ⟨hf, hg, hb⟩
    · have hnot : ¬DeletesGrantedPage s (.request r) := by
        rintro ⟨r', pageId, he, hop, -⟩
        obtain rfl : r = r' := Event.request.inj he
        exact hdel ⟨pageId, hop⟩
      refine iff_of_true ?_ hnot
      cases hop : r.op with
      | deletePage pageId => exact absurd ⟨pageId, hop⟩ hdel
      | login username password =>
        refine guarded_of_frame fun s' hs' => ?_
        rw [next, handle, hop, Option.some.injEq] at hs'
        rw [← hs']
        dsimp only
        split <;> exact ⟨rfl, rfl, rfl⟩
      | createUser body =>
        refine guarded_of_superAdmin fun hne => ?_
        rw [handle, hop] at hne
        obtain ⟨u, hu⟩ := State.guarded_db hne
        exact State.bears_superAdmin hu
      | updateUser userId body =>
        refine guarded_of_superAdmin fun hne => ?_
        rw [handle, hop] at hne
        obtain ⟨u, hu⟩ := State.guarded_db hne
        exact State.bears_superAdmin hu
      | deleteUser userId =>
        refine guarded_of_superAdmin fun hne => ?_
        rw [handle, hop] at hne
        obtain ⟨u, hu⟩ := State.guarded_db hne
        exact State.bears_superAdmin hu
      | setUserPages userId pageIds =>
        refine guarded_of_superAdmin fun hne => ?_
        rw [handle, hop] at hne
        dsimp only at hne
        split at hne
        · exact absurd rfl hne
        · rename_i u hu
          exact State.bears_superAdmin hu
      | createPage body =>
        exact guarded_of_commit (by rw [handle, hop]) fun db hdb => Db.createPage_eq hdb
      | updatePage pageId body =>
        exact guarded_of_commit (by rw [handle, hop]) fun db hdb => Db.updatePage_eq hdb
      | duplicatePage pageId name =>
        exact guarded_of_commit (by rw [handle, hop]) fun db hdb => Db.duplicatePage_eq hdb
      | createServer body =>
        exact guarded_of_admin (by rw [handle, hop]) fun db hdb => Db.createServer_eq hdb
      | updateServer serverId body =>
        exact guarded_of_admin (by rw [handle, hop]) fun db hdb => Db.updateServer_eq hdb
      | deleteServer serverId =>
        exact guarded_of_admin (by rw [handle, hop]) fun db hdb => Db.deleteServer_eq hdb
      | otherWrite other =>
        have hrun : handle sec s r = s.commit (.ok { s.db with other := other }) := by
          rw [handle, hop]
          rfl
        refine guarded_of_frame fun s' hs' => ?_
        rw [next, hrun, Option.some.injEq] at hs'
        rw [← hs']
        exact ⟨rfl, rfl, rfl⟩
      | read =>
        refine guarded_of_frame fun s' hs' => ?_
        rw [next, handle, hop, Option.some.injEq] at hs'
        rw [← hs']
        exact ⟨rfl, rfl, rfl⟩

/-- **In a run of requests every step is guarded exactly if none deletes a granted page.**

No hypothesis is made on the run.  Tokens may be expired or made up, accounts inactive, and the
state to begin with any state; a step that is refused changes nothing and is guarded for that
reason. -/
theorem run_guarded_iff (sec : Security) (s s' : State) (es : List Event) :
    Run (next sec) (Guarded sec) s es s' ↔
      Run (next sec) (fun s e => ¬DeletesGrantedPage s e) s es s' :=
  ⟨Run.mono fun s e h => (guarded_iff sec s e).mp h, Run.mono fun s e h => (guarded_iff sec s e).mpr h⟩

/-! ## 3. Whom a token stands for

The invariant is about tokens that are still good: the account that such a token names by its user
name is the one that it was issued to, if there is any.  Every route but the creation of an account
keeps it, since no other makes a user name point to an account that it did not point to before. -/

/-- Ids and user names are unique, ids come from the counter, and a token that is still good names
no account but the one it was issued to. -/
structure State.Bound (s : State) : Prop where
  ids : (s.db.users.map User.id).Nodup
  usernames : (s.db.users.map User.username).Nodup
  idsBelow : ∀ u ∈ s.db.users, u.id < s.db.nextUser
  issuedBelow : ∀ e ∈ s.issued, e.2 < s.db.nextUser
  bound : ∀ e ∈ s.issued, s.now < e.1.exp → ∀ u ∈ s.db.users, u.username = e.1.sub → u.id = e.2

/-- Ids and user names are unique, and ids come from the counter. -/
structure Db.Keyed (db : Db) : Prop where
  ids : (db.users.map User.id).Nodup
  usernames : (db.users.map User.username).Nodup
  idsBelow : ∀ u ∈ db.users, u.id < db.nextUser

/-- Before any login nothing is bound. -/
theorem Db.Keyed.bound {s : State} (h : s.db.Keyed) (hnew : s.issued = []) : s.Bound := by
  refine ⟨h.ids, h.usernames, h.idsBelow, ?_, ?_⟩ <;> simp [hnew]

/-- A super admin creates an account under a free user name that a token which is still good
carries: the account that the token was issued to is gone. -/
def ReusesUsername (s : State) (e : Event) : Prop :=
  ∃ r body, e = .request r ∧ r.op = .createUser body ∧
    (s.requireSuperAdmin r.token).isOk = true ∧ body.accessLevel ∈ accessLevels ∧
    (s.db.findUsername body.username).isNone = true ∧
    ∃ i ∈ s.issued, s.now < i.1.exp ∧ i.1.sub = body.username

/-- Every token is accepted as the account it was issued to, as that account is now, or not at
all. -/
def State.Faithful (s : State) : Prop :=
  ∀ i ∈ s.issued,
    (∀ u, s.getCurrentUser (some i.1) = .ok u → u ∈ s.db.users ∧ u.id = i.2 ∧ u.isActive = true) ∧
    ((∀ u ∈ s.db.users, u.id ≠ i.2) → s.getCurrentUser (some i.1) = .error 401)

section Bound

variable {sec : Security} {s : State}

/-- Only the users, the clock, the id counter and the tokens matter. -/
theorem State.Bound.of_users_eq {s' : State} (h : s.Bound) (hu : s'.db.users = s.db.users)
    (hn : s'.db.nextUser = s.db.nextUser) (hi : s'.issued = s.issued) (ht : s.now ≤ s'.now) :
    s'.Bound := by
  constructor
  · rw [hu]; exact h.ids
  · rw [hu]; exact h.usernames
  · rw [hu, hn]; exact h.idsBelow
  · rw [hi, hn]; exact h.issuedBelow
  · rw [hi, hu]
    exact fun e he hlt => h.bound e he (lt_of_le_of_lt ht hlt)

/-- A login issues a token under the name of the account that logged in. -/
theorem State.Bound.login (h : s.Bound) {username password : Str} {token : Token} {id : ℤ}
    (hl : login sec s username password = .ok (token, id)) :
    { s with issued := s.issued ++ [(token, id)] }.Bound := by
  rw [Api.login] at hl
  split at hl
  · simp at hl
  · rename_i u hu
    obtain ⟨hfind, -⟩ := Option.filter_eq_some_iff.mp hu
    have hmem : u ∈ s.db.users := List.mem_of_find?_eq_some hfind
    obtain ⟨rfl, rfl⟩ := Prod.mk.inj (Except.ok.inj hl)
    refine ⟨h.ids, h.usernames, h.idsBelow, ?_, ?_⟩
    · intro e he
      rcases List.mem_append.mp he with he | he
      · exact h.issuedBelow e he
      · rw [List.mem_singleton.mp he]
        exact h.idsBelow u hmem
    · intro e he hlt v hv hname
      rcases List.mem_append.mp he with he | he
      · exact h.bound e he hlt v hv hname
      · rw [List.mem_singleton.mp he] at hname ⊢
        rw [List.inj_on_of_nodup_map h.usernames hv hmem hname]

/-- A new account has a new id and a user name that was free.  A token that is still good and
carries this name was issued to an account that is gone; that is what is excluded. -/
theorem State.Bound.createUser (h : s.Bound) {r : Request} {body : UserCreate} {db : Db}
    (hop : r.op = .createUser body) (hrole : (s.requireSuperAdmin r.token).isOk = true)
    (hreuse : ¬ReusesUsername s (.request r)) (hc : s.db.createUser sec body = .ok db) :
    { s with db := db }.Bound := by
  rw [Db.createUser] at hc
  split at hc
  · simp at hc
  · rename_i hlevel
    split at hc
    · simp at hc
    · rename_i hnew
      have hnone : s.db.findUsername body.username = none := by
        simpa using hnew
      rw [← Except.ok.inj hc]
      have hfresh : ∀ u ∈ s.db.users, u.username ≠ body.username := by
        intro u hu heq
        have := List.find?_eq_none.mp hnone u hu
        simp [heq] at this
      constructor
      · rw [List.map_append]
        refine List.nodup_append.mpr ⟨h.ids, by simp, ?_⟩
        intro a ha b hb
        obtain ⟨u, hu, rfl⟩ := List.mem_map.mp ha
        rw [List.map_singleton, List.mem_singleton] at hb
        rw [hb]
        exact (h.idsBelow u hu).ne
      · rw [List.map_append]
        refine List.nodup_append.mpr ⟨h.usernames, by simp, ?_⟩
        intro a ha b hb
        obtain ⟨u, hu, rfl⟩ := List.mem_map.mp ha
        rw [List.map_singleton, List.mem_singleton] at hb
        rw [hb]
        exact hfresh u hu
      · intro u hu
        rcases List.mem_append.mp hu with hu | hu
        · exact (h.idsBelow u hu).trans (by simp)
        · rw [List.mem_singleton.mp hu]
          simp
      · intro e he
        exact (h.issuedBelow e he).trans (by simp)
      · intro e he hlt u hu hname
        rcases List.mem_append.mp hu with hu | hu
        · exact h.bound e he hlt u hu hname
        · rw [List.mem_singleton.mp hu] at hname
          exact absurd ⟨r, body, rfl, hop, hrole, not_not.mp hlevel, by rw [hnone]; rfl, e, he,
            hlt, hname.symm⟩ hreuse

/-- A patch keeps the id and the user name. -/
theorem Db.patchUser_id {body : UserUpdate} {u u' : User} (h : Db.patchUser sec body u = some u') :
    u'.id = u.id ∧ u'.username = u.username := by
  rw [Db.patchUser] at h
  split at h
  · rw [← Option.some.inj h]
    exact ⟨rfl, rfl⟩
  · simp at h

theorem State.Bound.updateUser (h : s.Bound) {userId : ℤ} {body : UserUpdate} {db : Db}
    (hc : s.db.updateUser sec userId body = .ok db) : { s with db := db }.Bound := by
  rw [Db.updateUser] at hc
  split at hc
  · simp at hc
  · split at hc
    · simp at hc
    · rename_i u hf
      split at hc
      · simp at hc
      · rename_i u' hpatch
        obtain ⟨hid, hname⟩ := Db.patchUser_id hpatch
        have hmem : u ∈ s.db.users := List.mem_of_find?_eq_some hf
        have huid : u.id = userId := by simpa using List.find?_some hf
        -- every row keeps its id and its user name
        have hsame : ∀ v ∈ s.db.users, (if v.id = userId then u' else v).id = v.id ∧
            (if v.id = userId then u' else v).username = v.username := by
          intro v hv
          split
          · rename_i hvid
            have hvu : v = u := List.inj_on_of_nodup_map h.ids hv hmem (hvid.trans huid.symm)
            rw [hvu]
            exact ⟨hid, hname⟩
          · exact ⟨rfl, rfl⟩
        have hids : (s.db.users.map fun v => if v.id = userId then u' else v).map User.id =
            s.db.users.map User.id := by
          rw [List.map_map]
          exact List.map_congr_left fun v hv => (hsame v hv).1
        have hnames : (s.db.users.map fun v => if v.id = userId then u' else v).map User.username =
            s.db.users.map User.username := by
          rw [List.map_map]
          exact List.map_congr_left fun v hv => (hsame v hv).2
        rw [← Except.ok.inj hc]
        constructor
        · exact hids ▸ h.ids
        · exact hnames ▸ h.usernames
        · intro v hv
          obtain ⟨w, hw, rfl⟩ := List.mem_map.mp hv
          rw [(hsame w hw).1]
          exact h.idsBelow w hw
        · exact h.issuedBelow
        · intro e he hlt v hv heq
          obtain ⟨w, hw, rfl⟩ := List.mem_map.mp hv
          rw [(hsame w hw).2] at heq
          rw [(hsame w hw).1]
          exact h.bound e he hlt w hw heq

/-- A deletion leaves a token without an account at worst. -/
theorem State.Bound.deleteUser (h : s.Bound) {userId : ℤ} {db : Db}
    (hc : s.db.deleteUser userId = .ok db) : { s with db := db }.Bound := by
  rw [Db.deleteUser] at hc
  split at hc
  · simp at hc
  · split at hc
    · simp at hc
    · rw [← Except.ok.inj hc]
      constructor
      · exact h.ids.sublist ((List.filter_sublist (l := s.db.users)).map _)
      · exact h.usernames.sublist ((List.filter_sublist (l := s.db.users)).map _)
      · exact fun u hu => h.idsBelow u (List.mem_filter.mp hu).1
      · exact h.issuedBelow
      · exact fun e he hlt u hu => h.bound e he hlt u (List.mem_filter.mp hu).1

/-- The other routes keep the users and their counter. -/
theorem State.Bound.commit (h : s.Bound) {result : Except Status Db}
    (hr : ∀ db, result = .ok db → db.users = s.db.users ∧ db.nextUser = s.db.nextUser) :
    (s.commit result).1.Bound := by
  cases result with
  | error e => exact h
  | ok db =>
    obtain ⟨hu, hn⟩ := hr db rfl
    exact h.of_users_eq hu hn rfl le_rfl

/-- What a role check lets through keeps the tokens bound if the route does. -/
theorem State.Bound.guarded (h : s.Bound) {role : Except Status User} {result : Except Status Db}
    (hr : ∀ db, role.isOk = true → result = .ok db → { s with db := db }.Bound) :
    (s.guarded role result).1.Bound := by
  cases role with
  | error e => exact h
  | ok u =>
    cases result with
    | error e => exact h
    | ok db => exact hr db rfl rfl

theorem Db.insertGrants_users {userId : ℤ} : ∀ {ids : List ℤ} {db db' : Db},
    Db.insertGrants userId ids db = .ok db' →
      db'.users = db.users ∧ db'.nextUser = db.nextUser := by
  intro ids
  induction ids with
  | nil =>
    intro db db' h
    rw [insertGrants, Except.ok.injEq] at h
    rw [h]
    exact ⟨rfl, rfl⟩
  | cons pageId ids ih =>
    intro db db' h
    rw [insertGrants] at h
    split at h
    · simp at h
    · obtain ⟨hu, hn⟩ := ih h
      exact ⟨hu, hn⟩

theorem Db.setUserPages_users {db db' : Db} {userId : ℤ} {pageIds ids : List ℤ}
    (h : db.setUserPages userId pageIds = .ok (db', ids)) :
    db'.users = db.users ∧ db'.nextUser = db.nextUser := by
  rw [setUserPages] at h
  split at h
  · simp at h
  · split at h
    · split at h
      · simp at h
      · rename_i inserted hins
        obtain ⟨rfl, -⟩ := Prod.mk.inj (Except.ok.inj h)
        obtain ⟨hu, hn⟩ := Db.insertGrants_users hins
        exact ⟨hu, hn⟩
    · simp at h

end Bound

/-- **A step that does not reuse a user name keeps the tokens bound.** -/
theorem State.Bound.next {sec : Security} {s s' : State} {e : Event} (h : s.Bound)
    (hreuse : ¬ReusesUsername s e) (hnext : next sec s e = some s') : s'.Bound := by
  cases e with
  | wait seconds =>
    rw [Api.next, Option.some.injEq] at hnext
    rw [← hnext]
    exact h.of_users_eq rfl rfl rfl (Nat.le_add_right _ _)
  | request r =>
    rw [Api.next, Option.some.injEq] at hnext
    rw [← hnext]
    cases hop : r.op with
    | login username password =>
      cases hl : Api.login sec s username password with
      | error e =>
        simp only [handle, hop, hl]
        exact h
      | ok entry =>
        simp only [handle, hop, hl]
        exact h.login hl
    | createUser body =>
      rw [handle, hop]
      exact h.guarded fun db hrole hdb => h.createUser hop hrole hreuse hdb
    | updateUser userId body =>
      rw [handle, hop]
      exact h.guarded fun db _ hdb => h.updateUser hdb
    | deleteUser userId =>
      rw [handle, hop]
      exact h.guarded fun db _ hdb => h.deleteUser hdb
    | setUserPages userId pageIds =>
      cases hrole : s.requireSuperAdmin r.token with
      | error e =>
        simp only [handle, hop, hrole]
        exact h
      | ok u =>
        cases hset : s.db.setUserPages userId pageIds with
        | error e =>
          simp only [handle, hop, hrole, hset]
          exact h
        | ok written =>
          simp only [handle, hop, hrole, hset]
          obtain ⟨hu, hn⟩ := Db.setUserPages_users hset
          exact h.of_users_eq hu hn rfl le_rfl
    | createPage body =>
      rw [handle, hop]
      exact h.commit fun db hdb => by
        obtain ⟨pages, n, rfl⟩ := Db.createPage_eq hdb
        exact ⟨rfl, rfl⟩
    | updatePage pageId body =>
      rw [handle, hop]
      exact h.commit fun db hdb => by
        obtain ⟨pages, n, rfl⟩ := Db.updatePage_eq hdb
        exact ⟨rfl, rfl⟩
    | duplicatePage pageId name =>
      rw [handle, hop]
      exact h.commit fun db hdb => by
        obtain ⟨pages, n, rfl⟩ := Db.duplicatePage_eq hdb
        exact ⟨rfl, rfl⟩
    | deletePage pageId =>
      rw [handle, hop]
      exact h.commit fun db hdb => by
        obtain ⟨-, pages, rfl⟩ := Db.deletePage_eq hdb
        exact ⟨rfl, rfl⟩
    | createServer body =>
      rw [handle, hop]
      exact h.guarded fun db _ hdb => by
        obtain ⟨servers, n, rfl⟩ := Db.createServer_eq hdb
        exact h.of_users_eq rfl rfl rfl le_rfl
    | updateServer serverId body =>
      rw [handle, hop]
      exact h.guarded fun db _ hdb => by
        obtain ⟨servers, n, rfl⟩ := Db.updateServer_eq hdb
        exact h.of_users_eq rfl rfl rfl le_rfl
    | deleteServer serverId =>
      rw [handle, hop]
      exact h.guarded fun db _ hdb => by
        obtain ⟨servers, n, rfl⟩ := Db.deleteServer_eq hdb
        exact h.of_users_eq rfl rfl rfl le_rfl
    | otherWrite other =>
      rw [handle, hop]
      exact h.of_users_eq rfl rfl rfl le_rfl
    | read =>
      rw [handle, hop]
      exact h

/-- While tokens are bound they stand for their accounts. -/
theorem State.Bound.faithful {s : State} (h : s.Bound) : s.Faithful := by
  intro i hi
  have haccept : ∀ u, s.getCurrentUser (some i.1) = .ok u →
      u ∈ s.db.users ∧ u.id = i.2 ∧ u.isActive = true := by
    intro u hu
    obtain ⟨t, ht, hdec, hmem, hname, hact⟩ := State.mem_of_getCurrentUser hu
    obtain rfl := Option.some.inj ht
    rw [State.decodes, decide_eq_true_eq] at hdec
    exact ⟨hmem, h.bound i hi hdec.2 u hmem hname, hact⟩
  refine ⟨haccept, fun hgone => ?_⟩
  cases hrun : s.getCurrentUser (some i.1) with
  | ok u =>
    obtain ⟨hmem, hid, -⟩ := haccept u hrun
    exact absurd hid (hgone u hmem)
  | error e =>
    simp only [State.getCurrentUser] at hrun
    split at hrun
    · split at hrun
      · simp at hrun
      · rw [← hrun]
    · rw [← hrun]

/-- **While no account is created under the user name of a token that is still good, a token is
accepted as the account that it was issued to, or not at all.**

"As that account is now": its level and whether it is active are read at each request, so a token
does not keep a level that its account has lost.  The condition is on the step that creates an
account, and says of it what the code could check: whether a token under this name may still be
about.  It needs the run to know, as the application keeps no record of tokens. -/
theorem token_bound {sec : Security} {s s' : State} {es : List Event} (hdb : s.db.Keyed)
    (hnew : s.issued = []) (hrun : Run (next sec) (fun s e => ¬ReusesUsername s e) s es s') :
    s'.Faithful := by
  refine State.Bound.faithful (hrun.invariant (I := State.Bound) ?_ (hdb.bound hnew))
  intro s e s' h hreuse hnext
  exact h.next hreuse hnext

/-! ## 4. A small installation

Two users and a page are enough for both exceptions. -/

/-- Hashing and encryption in the clear, and tokens good for a day. -/
def plainSecurity : Security := ⟨id, fun password hash => password == hash, id, 86400⟩

def superAdmin : User :=
  ⟨1, "root".toList, "pw".toList, {}, "super_admin".toList, true⟩

/-- A super admin, a page and a user who was granted it. -/
def smallState : State where
  db := {
    users := [superAdmin, ⟨2, "bob".toList, "pw".toList, {}, "normal".toList, true⟩]
    grants := [⟨1, 2, 1⟩]
    pages := [⟨1, none, "Page".toList, none, none, none, "{}".toList⟩]
    nextUser := 3, nextGrant := 2, nextPage := 2 }

/-- **Anybody can take a grant away**: a request without a token deletes the page. -/
theorem deletePage_without_token :
    (handle plainSecurity smallState ⟨none, .deletePage 1⟩).1.db.grants = [] ∧
      smallState.db.grants ≠ [] ∧
      ¬Guarded plainSecurity smallState (.request ⟨none, .deletePage 1⟩) := by
  refine ⟨by decide +kernel, by decide +kernel, fun h => ?_⟩
  obtain ⟨t, ht, -⟩ := (h _ rfl).1 (Or.inr (by decide +kernel))
  exact absurd ht (by simp [Event.token])

/-- What bob gets when he logs in. -/
def bobToken : Token := ⟨"bob".toList, "normal".toList, 0, 86400⟩

def rootToken : Token := ⟨"root".toList, "super_admin".toList, 0, 86400⟩

/-- Both users log in, and bob's account is deleted. -/
def deleteBob : List Event :=
  [.request ⟨none, .login "bob".toList "pw".toList⟩,
    .request ⟨none, .login "root".toList "pw".toList⟩,
    .request ⟨some rootToken, .deleteUser 2⟩]

/-- And bob's name is given to somebody else. -/
def recreateBob : List Event :=
  deleteBob ++
    [.request ⟨some rootToken, .createUser { username := "bob".toList, password := "new".toList }⟩]

theorem recreateBob_isSome :
    (replay (next plainSecurity) (fun _ _ => true) smallState recreateBob).isSome = true := by
  decide +kernel

def bobRecreated : State := Option.get _ recreateBob_isSome

/-- **A token outlives its account**: bob's old token is accepted as the new account. -/
theorem token_taken_over :
    Run (next plainSecurity) (fun _ _ => True) smallState recreateBob bobRecreated ∧
      (bobToken, 2) ∈ bobRecreated.issued ∧
      (bobRecreated.getCurrentUser (some bobToken)).toOption.map User.id = some 3 ∧
      ¬bobRecreated.Faithful := by
  refine ⟨Run.of_replay (fun _ _ _ => trivial) (Option.some_get recreateBob_isSome).symm,
    by decide +kernel, by decide +kernel, fun h => ?_⟩
  have hgone : bobRecreated.getCurrentUser (some bobToken) = .error 401 :=
    (h (bobToken, 2) (by decide +kernel)).2 (by decide +kernel)
  have haccept : (bobRecreated.getCurrentUser (some bobToken)).toOption.isSome = true := by
    decide +kernel
  rw [hgone] at haccept
  exact absurd haccept (by decide)

theorem not_reusesUsername {s : State} {r : Request} (h : ∀ body, r.op ≠ .createUser body) :
    ¬ReusesUsername s (.request r) := by
  rintro ⟨r', body, he, hop, -⟩
  obtain rfl : r = r' := Event.request.inj he
  exact h body hop

/-- While bob's name is not given away his token is refused. -/
theorem token_bound_deleteBob : ∃ s', Run (next plainSecurity)
    (fun s e => ¬ReusesUsername s e) smallState deleteBob s' ∧ s'.Faithful := by
  have hrun : Run (next plainSecurity) (fun s e => ¬ReusesUsername s e) smallState deleteBob _ :=
    Run.cons (not_reusesUsername (by simp)) rfl <| Run.cons (not_reusesUsername (by simp)) rfl <|
      Run.cons (not_reusesUsername (by simp)) rfl <| Run.nil _
  exact ⟨_, hrun, token_bound ⟨by decide +kernel, by decide +kernel, by decide +kernel⟩ rfl hrun⟩

end WitsmlViewer.Api
