import Mathlib.Data.Nat.Bitwise
import Sepp.Config.Reload

/-!
# Admin sessions

`src/admin/auth.rs`: who a request to the admin plane comes from. A request is let through by an
admin key in its `Authorization` header or by the cookie of a session, which a login opens and a
logout ends. A session names the key that it was opened with and holds the hash of its secret, and
is worth as much as that key is in the running configuration.

The hash is a parameter. The clock and the tokens that a login draws come with the request, and so
does the order in which the source iterates over its hash map, which decides between sessions that
expire at the same time. A login matches the configuration that it loaded, which may have been
replaced by the time that it stores the session; a logout that reaches its handler has been let
through.

## Main definitions

* `constantTimeEq`, `matchKey`, `matchLogin`, `cookieToken`, `bearerKey`.
* `AdminState.require` — the middleware.
* `AdminState.login`, `AdminState.logout`, `AdminState.after` — the handlers, and a run of them.

## Main results

* `constantTimeEq_iff` — the comparison of secrets is equality.
* `Login.matched_isSome_iff` — when a login succeeds.
-/

open Std

namespace Sepp

/-! ### Comparing secrets -/

/-- `constant_time_eq`. The lengths are mixed in, and a byte past the end counts as zero. -/
def constantTimeEq (a b : Bytes) : Bool :=
  (List.range (max a.length b.length)).foldl
    (fun diff i => diff ||| (a[i]?.getD 0 ^^^ b[i]?.getD 0).toNat) (a.length ^^^ b.length) = 0

/-- The loop over the keys that keeps the last match. -/
def lastMatch (keys : List AdminKey) (matches_ : AdminKey → Bool) : Option AdminKey :=
  keys.foldl (fun found key => if matches_ key then some key else found) none

/-- `match_key`. -/
def matchKey (keys : List AdminKey) (presented : String) : Option AdminKey :=
  lastMatch keys fun key => constantTimeEq (asBytes key.key) (asBytes presented)

/-- `match_login`: the name and the secret have to be of one entry. -/
def matchLogin (keys : List AdminKey) (name presented : String) : Option AdminKey :=
  lastMatch keys fun key =>
    constantTimeEq (asBytes key.name) (asBytes name) &&
      constantTimeEq (asBytes key.key) (asBytes presented)

/-! ### Headers -/

/-- A request, with the headers that are read as text. -/
structure AdminRequest where
  method : String
  path : String
  authorization : Option String := none
  cookie : Option String := none
deriving DecidableEq, Repr

/-- `str::trim`; a header has no whitespace but spaces and tabs. -/
def trim (cs : List Char) : List Char :=
  ((cs.dropWhile Char.isWhitespace).reverse.dropWhile Char.isWhitespace).reverse

/-- `split_once('=')`. -/
def splitOnceEq (cs : List Char) : Option (List Char × List Char) :=
  match cs.dropWhile (· ≠ '=') with
  | [] => none
  | _ :: value => some (cs.takeWhile (· ≠ '='), value)

/-- `cookie_token`: the first pair that has the name of the cookie. -/
def cookieToken (req : AdminRequest) : Option String :=
  req.cookie.bind fun raw => (raw.toList.splitOn ';').findSome? fun pair =>
    (splitOnceEq (trim pair)).bind fun (name, value) =>
      if name = "sepp_admin".toList then some (String.ofList value) else none

/-- `bearer_key`. -/
def bearerKey (req : AdminRequest) : Option String :=
  req.authorization.bind fun raw =>
    if "Bearer ".toList.isPrefixOf raw.toList then some (String.ofList (raw.toList.drop 7)) else none

/-! ### Sessions -/

/-- `Session`: the admin key that signed in, by name and by hash, and when the session expires. -/
structure Session where
  keyName : String
  keySha256 : Bytes
  expiresMs : Int64
deriving DecidableEq, Repr

/-- `SessionStore`, by token. -/
abbrev SessionStore := ExtTreeMap String Session compare

/-- `MAX_SESSIONS`. -/
def maxSessions : ℕ := 1024

/-- An order in which a hash map is iterated over. -/
structure HashOrder where
  iter : List (String × Session) → List (String × Session)
  perm : ∀ entries, (iter entries).Perm entries

namespace SessionStore

/-- `sessions.retain(|_, s| s.expires_ms > now)`. -/
def retain (sessions : SessionStore) (now : Int64) : SessionStore :=
  sessions.filter fun _ s => now < s.expiresMs

/-- The session that a full store gives up: the first of those that expire soonest. -/
def oldest (sessions : SessionStore) (order : HashOrder) : Option String :=
  ((order.iter sessions.toList).minOn? fun entry => entry.2.expiresMs).map Prod.fst

/-- The session that a login evicts, once the expired ones are gone. -/
def evicted (sessions : SessionStore) (order : HashOrder) : Option String :=
  if maxSessions ≤ sessions.size then sessions.oldest order else none

/-- What a login does to the store: drop the expired sessions, make room, and add its own. -/
def addSession (sessions : SessionStore) (now : Int64) (order : HashOrder) (token : String)
    (session : Session) : SessionStore :=
  let live := sessions.retain now
  let room := match live.evicted order with
    | some token => live.erase token
    | none => live
  room.insert token session

end SessionStore

/-- `AuthCtx`: who a request comes from; no name when authentication is off. -/
structure AuthCtx where
  name : Option String
  role : Role
deriving DecidableEq, Repr

/-- What the middleware makes of a request. -/
inductive Access where
  /-- The login route, which goes through without an identity. -/
  | bypass
  | allowed (ctx : AuthCtx)
  | unauthorized (message : String)
deriving DecidableEq, Repr

/-- `AdminState`, as far as sessions are concerned. -/
structure AdminState where
  /-- The configuration the server booted with. -/
  boot : FullConfig
  reload : ReloadState
  sessions : SessionStore := ∅

/-- A login, with what its handler reads. -/
structure Login where
  name : String
  key : String
  /-- The configuration that the handler loaded. -/
  loaded : FullConfig
  /-- The token that is drawn on success. -/
  token : String
  /-- The clock when the expiry is computed, and when the store is locked. -/
  issuedMs : Int64
  nowMs : Int64
  order : HashOrder

/-- The key that a login matches. -/
def Login.matched (login : Login) : Option AdminKey :=
  login.loaded.admin.keys.bind fun keys => matchLogin keys login.name login.key

/-- When the session of a login expires. -/
def Login.expiresMs (login : Login) : Int64 :=
  saturatingAdd login.issuedMs (i64OfU64 login.loaded.admin.sessionTtlMs)

/-- What a login that succeeds answers: the cookie and the identity. -/
structure LoginGrant where
  token : String
  name : String
  role : Role
  expiresAtMs : Int64
deriving DecidableEq, Repr

/-- What happens to the admin plane. -/
inductive AdminEvent where
  | login (login : Login)
  | logout (req : AdminRequest)
  | reload (extracted : Except ConfigError FullConfig)

namespace AdminState

/-- The state that the server starts with. -/
def start (boot : FullConfig) : AdminState where
  boot := boot
  reload := .boot boot

/-- The running configuration. -/
def config (state : AdminState) : FullConfig := state.reload.config

section Handlers

variable (sha256 : Bytes → Bytes)

/-- The identity behind a session token. -/
def sessionCtx (state : AdminState) (keys : List AdminKey) (now : Int64) (token : String) :
    Option AuthCtx :=
  ((state.sessions[token]?.filter fun s => now < s.expiresMs).bind fun s =>
    keys.find? fun k => k.name = s.keyName && sha256 (asBytes k.key) = s.keySha256).map fun k =>
      { name := some k.name, role := k.role }

/-- `require`. -/
def require (state : AdminState) (req : AdminRequest) (now : Int64) : Access :=
  if req.method = "POST" ∧ req.path = "/admin/api/v1/session" then .bypass
  else
    match state.config.admin.keys with
    | none =>
      -- Without keys authentication is off, which is only safe on a loopback bind.
      if state.boot.admin.listenAddr.isLoopback then .allowed { name := none, role := .admin }
      else .unauthorized "admin keys were removed at runtime; restart required"
    | some keys =>
      match (bearerKey req).bind (matchKey keys) with
      | some matched => .allowed { name := some matched.name, role := matched.role }
      | none =>
        match (cookieToken req).bind (state.sessionCtx sha256 keys now) with
        | some ctx => .allowed ctx
        | none => .unauthorized "authentication required"

/-- `login`. Without a match the state stays as it is. -/
def login (state : AdminState) (login : Login) : AdminState × Except String LoginGrant :=
  match login.matched with
  | none => (state, .error "invalid name or key")
  | some matched =>
    ({ state with
        sessions := state.sessions.addSession login.nowMs login.order login.token
          { keyName := matched.name
            keySha256 := sha256 (asBytes matched.key)
            expiresMs := login.expiresMs } },
      .ok
        { token := login.token
          name := matched.name
          role := matched.role
          expiresAtMs := login.expiresMs })

/-- `logout`. -/
def logout (state : AdminState) (req : AdminRequest) : AdminState :=
  match cookieToken req with
  | some token => { state with sessions := state.sessions.erase token }
  | none => state

/-- One event. -/
def step (state : AdminState) : AdminEvent → AdminState
  | .login login => (state.login sha256 login).1
  | .logout req => state.logout req
  | .reload extracted => { state with reload := (state.reload.applyReload extracted).1 }

/-- The state after some events. -/
def after (state : AdminState) (events : List AdminEvent) : AdminState :=
  events.foldl (step sha256) state

end Handlers

end AdminState

/-! ### Comparisons are exact -/

theorem foldl_or_eq_zero_iff {α : Type} (f : α → ℕ) (l : List α) (diff : ℕ) :
    l.foldl (fun diff x => diff ||| f x) diff = 0 ↔ diff = 0 ∧ ∀ x ∈ l, f x = 0 := by
  induction l generalizing diff with
  | nil => simp
  | cons x l ih => rw [List.foldl_cons, ih, Nat.or_eq_zero_iff, List.forall_mem_cons, and_assoc]

/-- The comparison is equality, whatever the lengths. -/
theorem constantTimeEq_iff {a b : Bytes} : constantTimeEq a b = true ↔ a = b := by
  rw [constantTimeEq, decide_eq_true_iff, foldl_or_eq_zero_iff]
  constructor
  · rintro ⟨hlen, hbytes⟩
    refine List.ext_getElem (Nat.eq_of_xor_eq_zero hlen) fun i hi hi' => ?_
    have hbyte := hbytes i (List.mem_range.mpr (lt_max_of_lt_left hi))
    rw [List.getElem?_eq_getElem hi, List.getElem?_eq_getElem hi', Option.getD_some,
      Option.getD_some, ← UInt8.toNat_zero, UInt8.toNat_inj, UInt8.xor_eq_zero_iff] at hbyte
    exact hbyte
  · rintro rfl
    exact ⟨Nat.xor_self _, fun i _ => by rw [UInt8.xor_self, UInt8.toNat_zero]⟩

/-- The loop finds an entry that matches, if there is one. -/
theorem lastMatch_spec (keys : List AdminKey) (p : AdminKey → Bool) :
    (∀ k, lastMatch keys p = some k → k ∈ keys ∧ p k = true) ∧
      ((lastMatch keys p).isSome = true ↔ ∃ k ∈ keys, p k = true) := by
  induction keys using List.reverseRecOn with
  | nil => simp [lastMatch]
  | append_singleton keys key ih =>
    obtain ⟨hfound, hsome⟩ := ih
    have hlast : lastMatch (keys ++ [key]) p = if p key then some key else lastMatch keys p := by
      rw [lastMatch, List.foldl_append]
      rfl
    rw [hlast]
    split_ifs with hkey
    · refine ⟨fun k hk => ?_, iff_of_true rfl ⟨key, by simp, hkey⟩⟩
      obtain rfl := Option.some.inj hk
      exact ⟨by simp, hkey⟩
    · refine ⟨fun k hk => ⟨List.mem_append_left _ (hfound k hk).1, (hfound k hk).2⟩, ?_⟩
      rw [hsome]
      constructor
      · rintro ⟨k, hk, hp⟩
        exact ⟨k, List.mem_append_left _ hk, hp⟩
      · rintro ⟨k, hk, hp⟩
        rcases List.mem_append.mp hk with hk | hk
        · exact ⟨k, hk, hp⟩
        · exact absurd (List.mem_singleton.mp hk ▸ hp) hkey

theorem loginMatches_iff {key : AdminKey} {name presented : String} :
    (constantTimeEq (asBytes key.name) (asBytes name) &&
      constantTimeEq (asBytes key.key) (asBytes presented)) = true ↔
        key.name = name ∧ key.key = presented := by
  rw [Bool.and_eq_true, constantTimeEq_iff, constantTimeEq_iff, asBytes_injective.eq_iff,
    asBytes_injective.eq_iff]

/-- A login that matches has found an entry with the name and the secret. -/
theorem Login.matched_eq_some {login : Login} {k : AdminKey} (h : login.matched = some k) :
    k ∈ login.loaded.admin.keys.getD [] ∧ k.name = login.name ∧ k.key = login.key := by
  obtain ⟨keys, hkeys, hmatch⟩ := Option.bind_eq_some_iff.mp h
  obtain ⟨hk, hfields⟩ := (lastMatch_spec keys _).1 k hmatch
  rw [hkeys]
  exact ⟨hk, loginMatches_iff.mp hfields⟩

/-- A login matches when some entry has exactly the name and the secret. -/
theorem Login.matched_isSome_iff {login : Login} :
    login.matched.isSome = true ↔ ∃ keys ∈ login.loaded.admin.keys, ∃ k ∈ keys,
      k.name = login.name ∧ k.key = login.key := by
  rw [matched]
  cases login.loaded.admin.keys with
  | none => simp
  | some keys =>
    rw [Option.bind_some, matchLogin, (lastMatch_spec keys _).2]
    simp only [loginMatches_iff, Option.mem_some_iff, exists_eq_left']

end Sepp
