/-
# Accounts, grants and server connections (`app.auth`, `app.api`)

The HTTP surface as far as it writes the tables that authorisation is about: users, page grants,
dashboard pages and server connections.  A request is an operation with an optional bearer token;
`handle` is what its route does to the state.  The routers not modelled one by one write other
tables, and of those only the columns that a foreign key makes matter here are kept
(`OtherTables`); they may change in any way.

A transaction that violates a constraint is rolled back and answered by 500.

Hashing, token signing and encryption are a parameter (`Security`).  A token decodes exactly
when the application issued it and it has not expired.

Whether a request may do something is decided in two places: by the dependencies of its route,
which look at the token and the account it names, and by the route's body.  Both are in `handle`,
so a route that has no dependency is seen to have none.
-/
import WitsmlViewer.Py.Str
import WitsmlViewer.Lib.Runs

namespace WitsmlViewer.Api

open Py Runs

/-! ## 1. Tables

The columns that the routes read or write.  JSON columns are texts here, since nobody looks into
them but the one route that copies a layout. -/

/-- The columns of a user that have no part in authorisation. -/
structure Profile where
  firstName : Option Str := none
  lastName : Option Str := none
  phone : Option Str := none
  address : Option Str := none
  position : Option Str := none
deriving DecidableEq

structure User where
  id : ℤ
  username : Str
  passwordHash : Str
  profile : Profile
  accessLevel : Str
  isActive : Bool
deriving DecidableEq

structure PageGrant where
  id : ℤ
  userId : ℤ
  pageId : ℤ
deriving DecidableEq

structure DashboardPage where
  id : ℤ
  ownerId : Option ℤ
  name : Str
  wellUid : Option Str
  wellName : Option Str
  region : Option Str
  layout : Str
deriving DecidableEq

structure ServerConnection where
  id : ℤ
  name : Str
  url : Str
  username : Str
  passwordEncrypted : Str
  verifySsl : Bool
  version : Option Str
deriving DecidableEq

/-- The columns of other tables that refer to users and to server connections:
`saved_searches.owner_id` and `well_meta.server_id`. -/
structure OtherTables where
  searchOwners : List (Option ℤ) := []
  wellMetaServers : List ℤ := []
deriving DecidableEq

/-- The database; every table takes its next id from a counter. -/
structure Db where
  users : List User := []
  grants : List PageGrant := []
  pages : List DashboardPage := []
  servers : List ServerConnection := []
  other : OtherTables := {}
  nextUser : ℤ := 1
  nextGrant : ℤ := 1
  nextPage : ℤ := 1
  nextServer : ℤ := 1
deriving DecidableEq

/-! ## 2. Authentication

A token carries a user name, a level, and an expiry.  Of the level the checks make no use: the
account is looked up by name at each request, and its level is the one that counts.  The record of
issued tokens is there for the statements; the application keeps none. -/

/-- The claims of a token. -/
structure Token where
  sub : Str
  lvl : Str
  iat : ℕ
  exp : ℕ
deriving DecidableEq

/-- The primitives of `app.auth.security` and the settings that they use. -/
structure Security where
  hashPassword : Str → Str
  verifyPassword : Str → Str → Bool
  encryptSecret : Str → Str
  jwtExpireSeconds : ℕ

/-- The state: the database, the clock, and every token with the account it was issued to. -/
structure State where
  db : Db
  now : ℕ := 0
  issued : List (Token × ℤ) := []

/-- HTTP status codes of the answers. -/
abbrev Status := ℕ

/-- `decode_token`. -/
def State.decodes (s : State) (token : Token) : Bool :=
  decide (token ∈ s.issued.map Prod.fst ∧ s.now < token.exp)

/-- The account of this user name. -/
def Db.findUsername (db : Db) (username : Str) : Option User :=
  db.users.find? fun u => decide (u.username = username)

/-- `authenticate_user`. -/
def authenticateUser (sec : Security) (db : Db) (username password : Str) : Option User :=
  (db.findUsername username).filter fun u =>
    u.isActive && sec.verifyPassword password u.passwordHash

/-- `get_current_user`. -/
def State.getCurrentUser (s : State) (token : Option Token) : Except Status User :=
  match token with
  | none => .error 401
  | some token =>
    if s.decodes token && decide (token.sub ≠ []) then
      match (s.db.findUsername token.sub).filter User.isActive with
      | some u => .ok u
      | none => .error 401
    else .error 401

/-- `_LEVEL_RANK.get(level, 0)`. -/
def levelRank (level : Str) : ℕ :=
  if level = "super_admin".toList then 2 else if level = "admin".toList then 1 else 0

/-- `require_level`. -/
def State.requireLevel (s : State) (minLevel : Str) (token : Option Token) : Except Status User :=
  match s.getCurrentUser token with
  | .error e => .error e
  | .ok u => if levelRank u.accessLevel < levelRank minLevel then .error 403 else .ok u

def State.requireAdmin (s : State) := s.requireLevel "admin".toList

def State.requireSuperAdmin (s : State) := s.requireLevel "super_admin".toList

/-- `ACCESS_LEVELS`. -/
def accessLevels : List Str := ["normal".toList, "admin".toList, "super_admin".toList]

/-! ## 3. Requests

Bodies of requests as their models declare them.  A field of an update that is left out is not the
same as one that is null, and a null in a column that has none is a violation at the commit. -/

/-- The body of a request for a new account. -/
structure UserCreate where
  username : Str
  password : Str
  profile : Profile := {}
  accessLevel : Str := "normal".toList
  isActive : Bool := true
deriving DecidableEq

/-- A field of a partial update: left out, or given, possibly as null. -/
abbrev Patch (α : Type) := Option (Option α)

/-- `setattr` on a nullable column. -/
def Patch.apply {α : Type} (p : Patch α) (old : Option α) : Option α := p.getD old

/-- `setattr` on a column that must not be null; `none` is the violation at commit. -/
def Patch.applyNotNull {α : Type} (p : Patch α) (old : α) : Option α := p.getD (some old)

/-- The body of a partial update of an account. -/
structure UserUpdate where
  password : Patch Str := none
  firstName : Patch Str := none
  lastName : Patch Str := none
  phone : Patch Str := none
  address : Patch Str := none
  position : Patch Str := none
  accessLevel : Patch Str := none
  isActive : Patch Bool := none
deriving DecidableEq

/-- The body of a request for a new page. -/
structure PageCreate where
  name : Str
  ownerId : Option ℤ := none
  wellUid : Option Str := none
  wellName : Option Str := none
  region : Option Str := none
  layout : Str := "{}".toList
deriving DecidableEq

/-- The body of a partial update of a page. -/
structure PageUpdate where
  name : Patch Str := none
  wellUid : Patch Str := none
  wellName : Patch Str := none
  region : Patch Str := none
  layout : Patch Str := none
deriving DecidableEq

/-- The body of a request for a new server connection. -/
structure ServerCreate where
  name : Str
  url : Str
  username : Str
  password : Str
  verifySsl : Bool := true
  version : Option Str := none
deriving DecidableEq

/-- The body of a partial update of a server connection. -/
structure ServerUpdate where
  name : Patch Str := none
  url : Patch Str := none
  username : Patch Str := none
  password : Patch Str := none
  verifySsl : Patch Bool := none
  version : Patch Str := none
deriving DecidableEq

/-- The routes that write; `read` is any route that only reads.

`otherWrite` stands for the writes of the other routers and of the scheduler, one by one: `POST` and
`DELETE /units` (`unit_defs`), `POST`, `PUT` and `DELETE /parameters` (`parameter_catalog`), `POST` and
`DELETE /reports/depths` (`depths_of_interest`), `POST` and `DELETE /reports/searches`
(`saved_searches`, whose `owner_id` refers to a user), and the ingestion (`curve_samples`,
`index_cache`).  Each adds to, changes or deletes from the one table named and no other, none of
which is `users`, `page_grants`, `dashboard_pages` or `server_connections`.  No code writes `well_meta`,
whose `server_id` refers to a server; its rows come from outside.  So of all these tables the two
columns of `OtherTables` are what the routes below can see, and they change in any way at all. -/
inductive Operation
  | login (username password : Str)
  | createUser (body : UserCreate)
  | updateUser (userId : ℤ) (body : UserUpdate)
  | deleteUser (userId : ℤ)
  | setUserPages (userId : ℤ) (pageIds : List ℤ)
  | createPage (body : PageCreate)
  | updatePage (pageId : ℤ) (body : PageUpdate)
  | deletePage (pageId : ℤ)
  | duplicatePage (pageId : ℤ) (name : Option Str)
  | createServer (body : ServerCreate)
  | updateServer (serverId : ℤ) (body : ServerUpdate)
  | deleteServer (serverId : ℤ)
  | otherWrite (other : OtherTables)
  | read
deriving DecidableEq

/-- An operation, and the token that comes with it. -/
structure Request where
  token : Option Token
  op : Operation
deriving DecidableEq

/-- The body of an answer, as far as it is looked at. -/
inductive Body
  | empty
  | token (t : Token)
  | pageIds (ids : List ℤ)
deriving DecidableEq

/-! ## 4. Routes

What each route makes of the database, after its checks; then the routes with their checks.  The
page routes have none.  A route that raises leaves the database as it was, as its transaction is
rolled back. -/

namespace Db

variable (sec : Security) (db : Db)

def findUser (userId : ℤ) : Option User := db.users.find? fun u => decide (u.id = userId)

def findPage (pageId : ℤ) : Option DashboardPage := db.pages.find? fun p => decide (p.id = pageId)

/-- The server connection with this id. -/
def findServer (serverId : ℤ) : Option ServerConnection :=
  db.servers.find? fun c => decide (c.id = serverId)

/-- `create_user`, after the role check. -/
def createUser (body : UserCreate) : Except Status Db :=
  if body.accessLevel ∉ accessLevels then .error 422
  else if (db.findUsername body.username).isSome then .error 409
  else .ok { db with
    users := db.users ++ [{
      id := db.nextUser
      username := body.username
      passwordHash := sec.hashPassword body.password
      profile := body.profile
      accessLevel := body.accessLevel
      isActive := body.isActive }]
    nextUser := db.nextUser + 1 }

/-- The row that `update_user` writes; `none` when a null reaches a column that has none. -/
def patchUser (body : UserUpdate) (u : User) : Option User :=
  match body.accessLevel.applyNotNull u.accessLevel, body.isActive.applyNotNull u.isActive with
  | some accessLevel, some isActive => some { u with
      passwordHash := match body.password with
        | some (some password) =>
          if password = [] then u.passwordHash else sec.hashPassword password
        | _ => u.passwordHash
      profile := {
        firstName := body.firstName.apply u.profile.firstName
        lastName := body.lastName.apply u.profile.lastName
        phone := body.phone.apply u.profile.phone
        address := body.address.apply u.profile.address
        position := body.position.apply u.profile.position }
      accessLevel := accessLevel
      isActive := isActive }
  | _, _ => none

/-- `update_user`, after the role check. -/
def updateUser (userId : ℤ) (body : UserUpdate) : Except Status Db :=
  if (body.accessLevel.join.all fun level => decide (level ∈ accessLevels)) = false then .error 422
  else match db.findUser userId with
    | none => .error 404
    | some u =>
      match patchUser sec body u with
      | none => .error 500
      | some u' =>
        .ok { db with users := db.users.map fun v => if v.id = userId then u' else v }

/-- `delete_user`, after the role check: the grants go with the user; pages and searches that
the user owns forbid it. -/
def deleteUser (userId : ℤ) : Except Status Db :=
  match db.findUser userId with
  | none => .error 404
  | some _ =>
    if (db.pages.any fun p => p.ownerId = some userId) || some userId ∈ db.other.searchOwners then
      .error 500
    else .ok { db with
      users := db.users.filter fun u => u.id ≠ userId
      grants := db.grants.filter fun g => g.userId ≠ userId }

/-- `sorted(set(ids))`. -/
def sortedIds (ids : List ℤ) : List ℤ := ids.dedup.insertionSort (· ≤ ·)

/-- Insert the grants of a user, one after the other; a grant that is there already violates
`uq_page_grant`. -/
def insertGrants (userId : ℤ) : List ℤ → Db → Except Status Db
  | [], db => .ok db
  | pageId :: ids, db =>
    if db.grants.any fun g => g.userId = userId ∧ g.pageId = pageId then .error 500
    else insertGrants userId ids { db with
      grants := db.grants ++ [⟨db.nextGrant, userId, pageId⟩]
      nextGrant := db.nextGrant + 1 }

/-- `set_user_pages`, after the role check.  A flush inserts before it deletes. -/
def setUserPages (userId : ℤ) (pageIds : List ℤ) : Except Status (Db × List ℤ) :=
  match db.findUser userId with
  | none => .error 404
  | some _ =>
    if (sortedIds pageIds).all fun pageId => (db.findPage pageId).isSome then
      match insertGrants userId (sortedIds pageIds) db with
      | .error e => .error e
      | .ok inserted => .ok ({ inserted with
          grants := inserted.grants.filter fun g => g ∉ db.grants.filter (·.userId = userId) },
        sortedIds pageIds)
    else .error 404

/-- `create_page`; an owner must exist. -/
def createPage (body : PageCreate) : Except Status Db :=
  if body.ownerId.all fun owner => (db.findUser owner).isSome then
    .ok { db with
      pages := db.pages ++ [⟨db.nextPage, body.ownerId, body.name, body.wellUid, body.wellName,
        body.region, body.layout⟩]
      nextPage := db.nextPage + 1 }
  else .error 500

/-- `update_page`. -/
def updatePage (pageId : ℤ) (body : PageUpdate) : Except Status Db :=
  match db.findPage pageId with
  | none => .error 404
  | some p =>
    match body.name.applyNotNull p.name with
    | none => .error 500
    | some name => .ok { db with
        pages := db.pages.map fun q => if q.id = pageId then { p with
          name := name
          wellUid := body.wellUid.apply p.wellUid
          wellName := body.wellName.apply p.wellName
          region := body.region.apply p.region
          -- a JSON column stores a null as the text `null`
          layout := (body.layout.map fun l => l.getD "null".toList).getD p.layout } else q }

/-- `delete_page`; the database deletes the page's grants with it. -/
def deletePage (pageId : ℤ) : Except Status Db :=
  match db.findPage pageId with
  | none => .error 404
  | some _ => .ok { db with
      pages := db.pages.filter fun p => p.id ≠ pageId
      grants := db.grants.filter fun g => g.pageId ≠ pageId }

/-- `dict(src.layout or {})` on the text of a JSON column: a null becomes an empty tree. -/
def copyLayout (layout : Str) : Str := if layout = "null".toList then "{}".toList else layout

/-- `duplicate_page`; an empty name is no name. -/
def duplicatePage (pageId : ℤ) (name : Option Str) : Except Status Db :=
  match db.findPage pageId with
  | none => .error 404
  | some p =>
    createPage db {
      name := (name.filter (· ≠ [])).getD (p.name ++ " (copy)".toList)
      ownerId := p.ownerId
      wellUid := p.wellUid
      wellName := p.wellName
      region := p.region
      layout := copyLayout p.layout }

/-- `create_server`, after the role check. -/
def createServer (body : ServerCreate) : Except Status Db :=
  if db.servers.any fun c => c.name = body.name then .error 409
  else .ok { db with
    servers := db.servers ++ [⟨db.nextServer, body.name, body.url, body.username,
      sec.encryptSecret body.password, body.verifySsl, body.version⟩]
    nextServer := db.nextServer + 1 }

/-- The row that `update_server` writes. -/
def patchServer (body : ServerUpdate) (c : ServerConnection) : Option ServerConnection :=
  match body.name.applyNotNull c.name, body.url.applyNotNull c.url,
    body.username.applyNotNull c.username, body.verifySsl.applyNotNull c.verifySsl with
  | some name, some url, some username, some verifySsl => some { c with
      name := name
      url := url
      username := username
      passwordEncrypted := match body.password with
        | some (some password) =>
          if password = [] then c.passwordEncrypted else sec.encryptSecret password
        | _ => c.passwordEncrypted
      verifySsl := verifySsl
      version := body.version.apply c.version }
  | _, _, _, _ => none

/-- `update_server`, after the role check; names are unique. -/
def updateServer (serverId : ℤ) (body : ServerUpdate) : Except Status Db :=
  match db.findServer serverId with
  | none => .error 404
  | some c =>
    match patchServer sec body c with
    | none => .error 500
    | some c' =>
      if db.servers.any fun d => d.id ≠ serverId ∧ d.name = c'.name then .error 500
      else .ok { db with
        servers := db.servers.map fun d => if d.id = serverId then c' else d }

/-- `delete_server`, after the role check; well metadata that refers to it forbids it. -/
def deleteServer (serverId : ℤ) : Except Status Db :=
  match db.findServer serverId with
  | none => .error 404
  | some _ =>
    if serverId ∈ db.other.wellMetaServers then .error 500
    else .ok { db with servers := db.servers.filter fun c => c.id ≠ serverId }

end Db

/-- `login`: the token names the account's user name and level. -/
def login (sec : Security) (s : State) (username password : Str) : Except Status (Token × ℤ) :=
  match authenticateUser sec s.db username password with
  | none => .error 401
  | some u => .ok (⟨u.username, u.accessLevel, s.now, s.now + sec.jwtExpireSeconds⟩, u.id)

/-- Commit what a route made of the database, if it did not raise. -/
def State.commit (s : State) (result : Except Status Db) : State × Except Status Body :=
  match result with
  | .error e => (s, .error e)
  | .ok db => ({ s with db := db }, .ok .empty)

/-- A route behind a role check. -/
def State.guarded (s : State) (role : Except Status User) (result : Except Status Db) :
    State × Except Status Body :=
  match role with
  | .error e => (s, .error e)
  | .ok _ => s.commit result

/-- A request through its route.  The dependency is the first argument of `guarded`; where `commit`
stands alone the route has none. -/
def handle (sec : Security) (s : State) (r : Request) : State × Except Status Body :=
  match r.op with
  | .login username password =>
    match login sec s username password with
    | .error e => (s, .error e)
    | .ok (token, id) => ({ s with issued := s.issued ++ [(token, id)] }, .ok (.token token))
  | .createUser body => s.guarded (s.requireSuperAdmin r.token) (s.db.createUser sec body)
  | .updateUser userId body =>
    s.guarded (s.requireSuperAdmin r.token) (s.db.updateUser sec userId body)
  | .deleteUser userId => s.guarded (s.requireSuperAdmin r.token) (s.db.deleteUser userId)
  | .setUserPages userId pageIds =>
    match s.requireSuperAdmin r.token with
    | .error e => (s, .error e)
    | .ok _ =>
      match s.db.setUserPages userId pageIds with
      | .error e => (s, .error e)
      | .ok (db, ids) => ({ s with db := db }, .ok (.pageIds ids))
  | .createPage body => s.commit (s.db.createPage body)
  | .updatePage pageId body => s.commit (s.db.updatePage pageId body)
  | .deletePage pageId => s.commit (s.db.deletePage pageId)
  | .duplicatePage pageId name => s.commit (s.db.duplicatePage pageId name)
  | .createServer body => s.guarded (s.requireAdmin r.token) (s.db.createServer sec body)
  | .updateServer serverId body =>
    s.guarded (s.requireAdmin r.token) (s.db.updateServer sec serverId body)
  | .deleteServer serverId => s.guarded (s.requireAdmin r.token) (s.db.deleteServer serverId)
  | .otherWrite other => ({ s with db := { s.db with other := other } }, .ok .empty)
  | .read => (s, .ok .empty)

/-- What happens to the application: a request, or time going by. -/
inductive Event
  | request (r : Request)
  | wait (seconds : ℕ)

/-- The state after an event. -/
def next (sec : Security) (s : State) : Event → Option State
  | .request r => some (handle sec s r).1
  | .wait seconds => some { s with now := s.now + seconds }

end WitsmlViewer.Api
