import Sepp.Admin.Auth

/-!
# What a session is worth

Over every run of logins, logouts and reloads of the admin plane, a session token is worth what the
key of its login is worth in the running configuration, until it expires, is logged out or is
dropped by a later login. A login drops the sessions that have expired by its clock, and one more
when the store is full. The clock may step back, so a session that was dropped as expired is gone
even for a request that comes before its expiry.

## Main definitions

* `AdminState.Ends`, `AdminState.Kept` — the events that take a session out of the store.

## Main results

* `AdminState.getElem?_after_iff` — what the store holds after a run.
* `AdminState.session_validity`.
-/

open Std

namespace Sepp

/-! ### The store -/

namespace SessionStore

variable {sessions : SessionStore} {now : Int64} {order : HashOrder} {token : String}

theorem getElem?_retain (sessions : SessionStore) (now : Int64) (token : String) :
    (sessions.retain now)[token]? = sessions[token]?.filter fun s => now < s.expiresMs := by
  rw [retain, ExtTreeMap.getElem?_filter']

/-- The session that is given up is one of those that expire soonest. -/
theorem oldest_eq_some {t : String} (h : sessions.oldest order = some t) :
    ∃ s : Session, sessions[t]? = some s ∧
      ∀ (t' : String) (s' : Session), sessions[t']? = some s' → s.expiresMs ≤ s'.expiresMs := by
  obtain ⟨⟨t, s⟩, hmin, rfl⟩ := Option.map_eq_some_iff.mp h
  have hmem : (t, s) ∈ order.iter sessions.toList := List.minOn?_mem hmin
  have hstored := (order.perm _).mem_iff.mp hmem
  refine ⟨s, ExtTreeMap.mem_toList_iff_getElem?_eq_some.mp hstored, fun t' s' hs' => ?_⟩
  have hmem' := (order.perm _).mem_iff.mpr (ExtTreeMap.mem_toList_iff_getElem?_eq_some.mpr hs')
  have hle := List.apply_get_minOn?_le_of_mem (f := fun entry : String × Session =>
    entry.2.expiresMs) hmem'
  simpa only [hmin, Option.get_some] using hle

theorem oldest_isSome (order : HashOrder) (h : 0 < sessions.size) :
    ∃ t, sessions.oldest order = some t := by
  have hne : order.iter sessions.toList ≠ [] := by
    intro hnil
    have hlen := (order.perm sessions.toList).length_eq
    rw [hnil, ExtTreeMap.length_toList, List.length_nil] at hlen
    omega
  have hsome : ((order.iter sessions.toList).minOn? fun entry => entry.2.expiresMs).isSome = true :=
    List.isSome_minOn?_iff.mpr hne
  obtain ⟨entry, hentry⟩ := Option.isSome_iff_exists.mp hsome
  exact ⟨entry.1, by rw [oldest, hentry, Option.map_some]⟩

/-- A login leaves another session alone unless it has expired or is the one to go. -/
theorem getElem?_addSession_of_ne {session : Session} {t : String} (hne : token ≠ t) :
    (sessions.addSession now order token session)[t]? =
      if (sessions.retain now).evicted order = some t then none
      else sessions[t]?.filter fun s => now < s.expiresMs := by
  rw [addSession, ExtTreeMap.getElem?_insert, if_neg (mt Std.compare_eq_iff_eq.mp hne)]
  cases hevicted : (sessions.retain now).evicted order with
  | none => rw [if_neg (by simp), getElem?_retain]
  | some victim =>
    simp only [Option.some.injEq, ExtTreeMap.getElem?_erase, Std.compare_eq_iff_eq, getElem?_retain]

@[simp]
theorem getElem?_addSession_self (session : Session) :
    (sessions.addSession now order token session)[token]? = some session := by
  rw [addSession, ExtTreeMap.getElem?_insert_self]

/-- The store never holds more than its share. -/
theorem size_addSession_le (session : Session) (h : sessions.size ≤ maxSessions) :
    (sessions.addSession now order token session).size ≤ maxSessions := by
  have hretain : (sessions.retain now).size ≤ maxSessions :=
    (ExtTreeMap.size_filter_le_size).trans h
  have hpos : 0 < maxSessions := by decide
  rw [addSession]
  refine (ExtTreeMap.size_insert_le).trans ?_
  rw [evicted]
  split_ifs with hfull
  · obtain ⟨t, ht⟩ := oldest_isSome order (hpos.trans_le hfull)
    obtain ⟨s, hs, -⟩ := oldest_eq_some ht
    have hmem : t ∈ sessions.retain now := ExtTreeMap.mem_iff_isSome_getElem?.mpr (by rw [hs]; rfl)
    simp only [ht, ExtTreeMap.size_erase, if_pos (ExtTreeMap.mem_iff_contains.mp hmem)]
    omega
  · exact Nat.lt_of_not_le hfull

end SessionStore

/-! ### Events that end a session -/

namespace AdminState

variable (sha256 : Bytes → Bytes)

/-- The event takes the session of a token, which expires at `expiresMs`, out of the store: it is
logged out, or a login that succeeds drops it because it has expired by then, or because the store
is full and no session expires sooner. -/
def Ends (state : AdminState) (token : String) (expiresMs : Int64) : AdminEvent → Prop
  | .logout req => cookieToken req = some token
  | .login login => login.matched.isSome = true ∧
      (expiresMs ≤ login.nowMs ∨
        (state.sessions.retain login.nowMs).evicted login.order = some token)
  | .reload _ => False

/-- No event ends the session. -/
def Kept (state : AdminState) (token : String) (expiresMs : Int64) : List AdminEvent → Prop
  | [] => True
  | event :: events => ¬ state.Ends token expiresMs event ∧
      (state.step sha256 event).Kept token expiresMs events

end AdminState

/-- The token that an event issues. -/
def AdminEvent.issues : AdminEvent → Option String
  | login attempt => attempt.matched.map fun _ => attempt.token
  | _ => none

/-- The session that a login opens with the key that it matched. -/
def Login.session (login : Login) (sha256 : Bytes → Bytes) (matched : AdminKey) : Session where
  keyName := matched.name
  keySha256 := sha256 (asBytes matched.key)
  expiresMs := login.expiresMs

namespace AdminState

variable {sha256 : Bytes → Bytes} {state : AdminState} {token : String}

theorem login_of_matched {login : Login} {matched : AdminKey} (h : login.matched = some matched) :
    (state.login sha256 login).1.sessions = state.sessions.addSession login.nowMs login.order
      login.token (login.session sha256 matched) := by
  rw [AdminState.login, h]
  rfl

theorem login_of_unmatched {login : Login} (h : login.matched = none) :
    (state.login sha256 login).1 = state := by
  rw [AdminState.login, h]

theorem issues_login_ne {login : Login} {matched : AdminKey} (h : login.matched = some matched)
    (hnew : (AdminEvent.login login).issues ≠ some token) : login.token ≠ token := by
  intro heq
  rw [AdminEvent.issues, h, Option.map_some, heq] at hnew
  exact hnew rfl

/-- One event: a session that is not issued again stays, unless the event ends it. -/
theorem getElem?_step (sha256 : Bytes → Bytes) {session : Session}
    (h : state.sessions[token]? = some session)
    {event : AdminEvent} (hnew : event.issues ≠ some token) :
    (¬ state.Ends token session.expiresMs event →
      (state.step sha256 event).sessions[token]? = some session) ∧
    (state.Ends token session.expiresMs event →
      (state.step sha256 event).sessions[token]? = none) := by
  cases event with
  | reload extracted => exact ⟨fun _ => h, False.elim⟩
  | logout req =>
    rw [step, logout, Ends]
    cases htoken : cookieToken req with
    | none => exact ⟨fun _ => h, fun hends => by cases hends⟩
    | some other =>
      simp only [Option.some.injEq, ExtTreeMap.getElem?_erase, Std.compare_eq_iff_eq]
      exact ⟨fun hne => by rw [if_neg hne, h], fun heq => by rw [if_pos heq]⟩
  | login login =>
    rw [step, Ends]
    cases hmatched : login.matched with
    | none =>
      rw [login_of_unmatched hmatched]
      exact ⟨fun _ => h, fun hends => by cases hends.1⟩
    | some matched =>
      rw [login_of_matched hmatched,
        SessionStore.getElem?_addSession_of_ne (issues_login_ne hmatched hnew), h]
      constructor
      · intro hends
        simp only [Option.isSome_some, true_and, not_or, Int64.not_le] at hends
        rw [if_neg hends.2, Option.filter_some, if_pos (decide_eq_true hends.1)]
      · rintro ⟨-, hexpired | hevicted⟩
        · split_ifs
          · rfl
          · rw [Option.filter_some, if_neg (by simpa using hexpired)]
        · rw [if_pos hevicted]

/-- One event: a token that is not in the store comes into it only when it is issued. -/
theorem getElem?_step_none (sha256 : Bytes → Bytes) (h : state.sessions[token]? = none)
    {event : AdminEvent}
    (hnew : event.issues ≠ some token) : (state.step sha256 event).sessions[token]? = none := by
  cases event with
  | reload extracted => exact h
  | logout req =>
    rw [step, logout]
    cases cookieToken req with
    | none => exact h
    | some other =>
      simp only [ExtTreeMap.getElem?_erase, h, ite_self]
  | login login =>
    rw [step]
    cases hmatched : login.matched with
    | none =>
      rw [login_of_unmatched hmatched]
      exact h
    | some matched =>
      rw [login_of_matched hmatched,
        SessionStore.getElem?_addSession_of_ne (issues_login_ne hmatched hnew), h, Option.filter_none,
        ite_self]

/-! ### Runs -/

theorem after_append (events later : List AdminEvent) :
    state.after sha256 (events ++ later) = (state.after sha256 events).after sha256 later :=
  List.foldl_append

/-- A run that does not issue a token does not bring it into the store. -/
theorem getElem?_after_of_none (sha256 : Bytes → Bytes) {events : List AdminEvent}
    (h : state.sessions[token]? = none)
    (hnew : ∀ e ∈ events, e.issues ≠ some token) :
    (state.after sha256 events).sessions[token]? = none := by
  induction events generalizing state with
  | nil => exact h
  | cons event events ih =>
    obtain ⟨hfirst, hlater⟩ := List.forall_mem_cons.mp hnew
    exact ih (getElem?_step_none sha256 h hfirst) hlater

/-- A run that does not issue the token again keeps its session exactly when no event ends it. -/
theorem getElem?_after_of_some (sha256 : Bytes → Bytes) {session : Session}
    {events : List AdminEvent} (h : state.sessions[token]? = some session)
    (hnew : ∀ e ∈ events, e.issues ≠ some token) :
    (state.Kept sha256 token session.expiresMs events →
      (state.after sha256 events).sessions[token]? = some session) ∧
    (¬ state.Kept sha256 token session.expiresMs events →
      (state.after sha256 events).sessions[token]? = none) := by
  induction events generalizing state with
  | nil => exact ⟨fun _ => h, fun hnot => absurd trivial hnot⟩
  | cons event events ih =>
    obtain ⟨hfirst, hlater⟩ := List.forall_mem_cons.mp hnew
    obtain ⟨hkeeps, hends⟩ := getElem?_step sha256 h hfirst
    by_cases hend : state.Ends token session.expiresMs event
    · have hgone := getElem?_after_of_none sha256 (hends hend) hlater
      exact ⟨fun hkept => absurd hend hkept.1, fun _ => hgone⟩
    · obtain ⟨hkept, hlost⟩ := ih (hkeeps hend) hlater
      exact ⟨fun h => hkept h.2, fun h => hlost fun hrest => h ⟨hend, hrest⟩⟩

/-- What the store holds after a run that repeats no token: the sessions that a login has opened
and no later event has ended. -/
theorem getElem?_after_iff {boot : FullConfig} {events : List AdminEvent}
    (htokens : (events.filterMap AdminEvent.issues).Nodup) {session : Session} :
    ((start boot).after sha256 events).sessions[token]? = some session ↔
      ∃ before login later matched, events = before ++ .login login :: later ∧
        login.token = token ∧ login.matched = some matched ∧
        session = login.session sha256 matched ∧
        ((start boot).after sha256 (before ++ [.login login])).Kept sha256 token login.expiresMs
          later := by
  -- what becomes of the session of a login of the run
  have hopened (before later : List AdminEvent) (login : Login) (matched : AdminKey)
      (hevents : events = before ++ .login login :: later) (htoken : login.token = token)
      (hmatched : login.matched = some matched) :
      (((start boot).after sha256 (before ++ [.login login])).Kept sha256 token login.expiresMs
          later → ((start boot).after sha256 events).sessions[token]? =
            some (login.session sha256 matched)) ∧
        (¬ ((start boot).after sha256 (before ++ [.login login])).Kept sha256 token
          login.expiresMs later → ((start boot).after sha256 events).sessions[token]? = none) := by
    have hissues : (AdminEvent.login login).issues = some token := by
      rw [AdminEvent.issues, hmatched, Option.map_some, htoken]
    have hnew : ∀ e ∈ later, e.issues ≠ some token := by
      intro e he heq
      rw [hevents, List.filterMap_append, List.filterMap_cons_some hissues] at htokens
      have hother := (List.nodup_cons.mp (List.nodup_append.mp htokens).2.1).1
      exact hother (List.mem_filterMap.mpr ⟨e, he, heq⟩)
    have hopen : ((start boot).after sha256 (before ++ [.login login])).sessions[token]? =
        some (login.session sha256 matched) := by
      rw [after_append]
      change (((start boot).after sha256 before).login sha256 login).1.sessions[token]? = _
      rw [login_of_matched hmatched, htoken, SessionStore.getElem?_addSession_self]
    have hafter : (start boot).after sha256 events =
        ((start boot).after sha256 (before ++ [.login login])).after sha256 later := by
      rw [hevents, List.append_cons, after_append]
    rw [hafter]
    exact getElem?_after_of_some sha256 hopen hnew
  constructor
  · intro h
    have hissued : ∃ e ∈ events, e.issues = some token := by
      by_contra hnone
      have hstart : (start boot).sessions[token]? = none := ExtTreeMap.getElem?_empty
      have habsent := getElem?_after_of_none sha256 hstart fun e he heq => hnone ⟨e, he, heq⟩
      cases habsent.symm.trans h
    obtain ⟨e, he, hissues⟩ := hissued
    cases e with
    | logout | reload => cases hissues
    | login login =>
      obtain ⟨matched, hmatched, htoken⟩ := Option.map_eq_some_iff.mp hissues
      obtain ⟨before, later, hevents⟩ := List.append_of_mem he
      obtain ⟨hkept, hlost⟩ := hopened before later login matched hevents htoken hmatched
      by_cases hk : ((start boot).after sha256 (before ++ [.login login])).Kept sha256 token
          login.expiresMs later
      · refine ⟨before, login, later, matched, hevents, htoken, hmatched, ?_, hk⟩
        exact Option.some.inj (h.symm.trans (hkept hk))
      · cases (hlost hk).symm.trans h
  · rintro ⟨before, login, later, matched, hevents, htoken, hmatched, rfl, hk⟩
    exact (hopened before later login matched hevents htoken hmatched).1 hk

/-- A run keeps the configuration that the server booted with, runs a valid one, and never holds
more sessions than allowed. -/
structure Sound (state : AdminState) (boot : FullConfig) : Prop where
  boot : state.boot = boot
  valid : state.reload.Sound
  size : state.sessions.size ≤ maxSessions

theorem Sound.step {boot : FullConfig} (h : state.Sound boot) (event : AdminEvent) :
    (state.step sha256 event).Sound boot := by
  cases event with
  | reload extracted => exact ⟨h.boot, (h.valid.applyReload extracted).1, h.size⟩
  | logout req =>
    rw [AdminState.step, logout]
    cases cookieToken req with
    | none => exact h
    | some token => exact ⟨h.boot, h.valid, (ExtTreeMap.size_erase_le).trans h.size⟩
  | login login =>
    rw [AdminState.step, AdminState.login]
    cases login.matched with
    | none => exact h
    | some matched => exact ⟨h.boot, h.valid, SessionStore.size_addSession_le _ h.size⟩

theorem Sound.after (sha256 : Bytes → Bytes) {boot : FullConfig} (h : state.Sound boot)
    (events : List AdminEvent) : (state.after sha256 events).Sound boot := by
  induction events generalizing state with
  | nil => exact h
  | cons event events ih => exact ih (h.step event)

theorem sound_start {boot : FullConfig} (h : boot.validate = .ok ()) : (start boot).Sound boot :=
  ⟨rfl, ⟨h, rfl⟩, Nat.zero_le _⟩

/-! ### Secrets -/

end AdminState

/-- The secrets of the admin keys of a configuration. -/
def FullConfig.adminSecrets (cfg : FullConfig) : List String :=
  (cfg.admin.keys.getD []).map AdminKey.key

/-- The secrets that an event brings with it. -/
def AdminEvent.secrets : AdminEvent → List String
  | login attempt => attempt.loaded.adminSecrets
  | reload (.ok cfg) => cfg.adminSecrets
  | _ => []

/-- The secrets of a run. -/
def secretsOf (boot : FullConfig) (events : List AdminEvent) : List String :=
  boot.adminSecrets ++ events.flatMap AdminEvent.secrets

/-- No two of the secrets have the same hash. -/
def CollisionFree (sha256 : Bytes → Bytes) (secrets : List String) : Prop :=
  ∀ a ∈ secrets, ∀ b ∈ secrets, sha256 (asBytes a) = sha256 (asBytes b) → a = b

namespace AdminState

variable {sha256 : Bytes → Bytes} {state : AdminState} {token : String}

/-- The secrets of the running configuration are those of the run. -/
theorem adminSecrets_subset (sha256 : Bytes → Bytes) (boot : FullConfig) (events : List AdminEvent) :
    ((start boot).after sha256 events).config.adminSecrets ⊆ secretsOf boot events := by
  induction events using List.reverseRecOn with
  | nil => exact List.subset_append_left _ _
  | append_singleton events event ih =>
    have hmore : secretsOf boot events ⊆ secretsOf boot (events ++ [event]) := by
      rw [secretsOf, secretsOf, List.flatMap_append, ← List.append_assoc]
      exact List.subset_append_left _ _
    have hkept := List.Subset.trans ih hmore
    rw [after_append]
    change (((start boot).after sha256 events).step sha256 event).config.adminSecrets ⊆ _
    cases event with
    | logout req =>
      rw [AdminState.step, logout]
      cases cookieToken req <;> exact hkept
    | login login =>
      rw [AdminState.step, AdminState.login]
      cases login.matched <;> exact hkept
    | reload extracted =>
      rw [AdminState.step, config, ReloadState.applyReload]
      cases hload : FullConfig.load extracted with
      | error e => exact hkept
      | ok cfg =>
        dsimp only
        split_ifs
        · exact hkept
        · obtain ⟨rfl, -⟩ := FullConfig.load_eq_ok_iff.mp hload
          intro secret hsecret
          rw [secretsOf, List.flatMap_append]
          exact List.mem_append_right _ (List.mem_append_right _ (by simpa [AdminEvent.secrets]))

/-! ### Requests -/

end AdminState

/-- The request is not a login, and its cookie is all that it has to show. -/
structure AdminRequest.CarriesOnly (req : AdminRequest) (token : String) : Prop where
  route : ¬ (req.method = "POST" ∧ req.path = "/admin/api/v1/session")
  authorization : req.authorization = none
  cookie : cookieToken req = some token

namespace AdminState

variable {sha256 : Bytes → Bytes} {state : AdminState} {token : String}

/-- The identity behind a token: the session is live, and a key of its name has its hash. -/
theorem sessionCtx_eq_some_iff {keys : List AdminKey} (hnames : (keys.map AdminKey.name).Nodup)
    {now : Int64} {ctx : AuthCtx} :
    state.sessionCtx sha256 keys now token = some ctx ↔
      ∃ s, state.sessions[token]? = some s ∧ now < s.expiresMs ∧
        ∃ k ∈ keys, k.name = s.keyName ∧ sha256 (asBytes k.key) = s.keySha256 ∧
          ctx = { name := some k.name, role := k.role } := by
  rw [sessionCtx, Option.map_eq_some_iff]
  constructor
  · rintro ⟨k, hk, rfl⟩
    obtain ⟨s, hs, hfind⟩ := Option.bind_eq_some_iff.mp hk
    obtain ⟨hstored, hlive⟩ := Option.filter_eq_some_iff.mp hs
    have hmatch := List.find?_some hfind
    rw [Bool.and_eq_true, decide_eq_true_iff, decide_eq_true_iff] at hmatch
    exact ⟨s, hstored, of_decide_eq_true hlive, k, List.mem_of_find?_eq_some hfind, hmatch.1,
      hmatch.2, rfl⟩
  · rintro ⟨s, hstored, hlive, k, hk, hname, hhash, rfl⟩
    refine ⟨k, Option.bind_eq_some_iff.mpr ⟨s, ?_, ?_⟩, rfl⟩
    · exact Option.filter_eq_some_iff.mpr ⟨hstored, decide_eq_true hlive⟩
    · have hsome : (keys.find? fun k => k.name = s.keyName &&
          sha256 (asBytes k.key) = s.keySha256).isSome = true :=
        List.find?_isSome.mpr ⟨k, hk, by simp [hname, hhash]⟩
      obtain ⟨k', hfind⟩ := Option.isSome_iff_exists.mp hsome
      have hmatch := List.find?_some hfind
      rw [Bool.and_eq_true, decide_eq_true_iff, decide_eq_true_iff] at hmatch
      rw [hfind, List.inj_on_of_nodup_map hnames (List.mem_of_find?_eq_some hfind) hk
        (hmatch.1.trans hname.symm)]

/-- With keys configured, the cookie decides. -/
theorem require_of_keys {req : AdminRequest} (h : req.CarriesOnly token) {keys : List AdminKey}
    (hkeys : state.config.admin.keys = some keys) {now : Int64} {ctx : AuthCtx} :
    state.require sha256 req now = .allowed ctx ↔
      state.sessionCtx sha256 keys now token = some ctx := by
  have hbearer : bearerKey req = none := by rw [bearerKey, h.authorization, Option.bind_none]
  rw [require, if_neg h.route, hkeys]
  simp only [hbearer, Option.bind_none, h.cookie, Option.bind_some]
  cases state.sessionCtx sha256 keys now token with
  | none => simp
  | some ctx' => simp

/-- Without keys everyone is the local administrator, on a loopback address only. -/
theorem require_of_no_keys {req : AdminRequest}
    (h : ¬ (req.method = "POST" ∧ req.path = "/admin/api/v1/session"))
    (hkeys : state.config.admin.keys = none) {now : Int64} {ctx : AuthCtx} :
    state.require sha256 req now = .allowed ctx ↔
      state.boot.admin.listenAddr.isLoopback = true ∧ ctx = { name := none, role := .admin } := by
  rw [require, if_neg h, hkeys]
  dsimp only
  split_ifs with hloop
  · simp [hloop, eq_comm]
  · simp [hloop]

/-- A login takes a live session of another token out of the store only when the live sessions fill
it, and then one that expires soonest. -/
theorem full_of_lost {login : Login} {s : Session} (hsize : state.sessions.size ≤ maxSessions)
    (hs : state.sessions[token]? = some s) (hlive : login.nowMs < s.expiresMs)
    (hne : login.token ≠ token)
    (hlost : (state.login sha256 login).1.sessions[token]? = none) :
    (state.sessions.retain login.nowMs).size = maxSessions ∧
      ∀ (token' : String) (s' : Session), state.sessions[token']? = some s' →
        login.nowMs < s'.expiresMs → s.expiresMs ≤ s'.expiresMs := by
  have hretained (t : String) (s : Session) (hs : state.sessions[t]? = some s)
      (hlive : login.nowMs < s.expiresMs) :
      (state.sessions.retain login.nowMs)[t]? = some s := by
    rw [SessionStore.getElem?_retain, hs, Option.filter_some, if_pos (decide_eq_true hlive)]
  cases hmatched : login.matched with
  | none =>
    rw [login_of_unmatched hmatched, hs] at hlost
    cases hlost
  | some matched =>
    rw [login_of_matched hmatched, SessionStore.getElem?_addSession_of_ne hne,
      ← SessionStore.getElem?_retain, hretained token s hs hlive] at hlost
    split_ifs at hlost with hevicted
    rw [SessionStore.evicted] at hevicted
    split_ifs at hevicted with hfull
    obtain ⟨s₁, hs₁, hleast⟩ := SessionStore.oldest_eq_some hevicted
    obtain rfl := Option.some.inj (hs₁.symm.trans (hretained token s hs hlive))
    refine ⟨Nat.le_antisymm ((ExtTreeMap.size_filter_le_size).trans hsize) hfull, ?_⟩
    exact fun t' s' hs' hlive' => hleast t' s' (hretained t' s' hs' hlive')

theorem login_isOk_iff {login : Login} :
    (state.login sha256 login).2.isOk = true ↔ login.matched.isSome = true := by
  rw [AdminState.login]
  cases login.matched <;> simp [Except.isOk, Except.toBool]

/-- What a session is worth, when a login succeeds, and what the store holds, after every run of
the admin plane. -/
theorem session_validity (sha256 : Bytes → Bytes) {boot : FullConfig}
    (hboot : boot.validate = .ok ()) {events : List AdminEvent}
    (htokens : (events.filterMap AdminEvent.issues).Nodup)
    (hsha : CollisionFree sha256 (secretsOf boot events)) :
    (∀ keys, ((start boot).after sha256 events).config.admin.keys = some keys →
      ∀ (req : AdminRequest) (token : String) (now : Int64) (ctx : AuthCtx),
        req.CarriesOnly token →
        (((start boot).after sha256 events).require sha256 req now = .allowed ctx ↔
          ∃ before login later matched, events = before ++ .login login :: later ∧
            login.token = token ∧ login.matched = some matched ∧
            ((start boot).after sha256 (before ++ [.login login])).Kept sha256 token
              login.expiresMs later ∧
            now < login.expiresMs ∧
            ∃ k ∈ keys, k.name = matched.name ∧ k.key = matched.key ∧
              ctx = { name := some k.name, role := k.role })) ∧
    (((start boot).after sha256 events).config.admin.keys = none →
      ∀ (req : AdminRequest) (now : Int64) (ctx : AuthCtx),
        ¬ (req.method = "POST" ∧ req.path = "/admin/api/v1/session") →
        (((start boot).after sha256 events).require sha256 req now = .allowed ctx ↔
          boot.admin.listenAddr.isLoopback = true ∧ ctx = { name := none, role := .admin })) ∧
    (∀ login : Login,
      (((start boot).after sha256 events).login sha256 login).2.isOk = true ↔
        ∃ keys ∈ login.loaded.admin.keys, ∃ k ∈ keys,
          k.name = login.name ∧ k.key = login.key) ∧
    ((start boot).after sha256 events).sessions.size ≤ 1024 ∧
    ∀ (login : Login) (token : String) (s : Session),
      ((start boot).after sha256 events).sessions[token]? = some s →
      login.nowMs < s.expiresMs → login.token ≠ token →
      (((start boot).after sha256 events).login sha256 login).1.sessions[token]? = none →
      (((start boot).after sha256 events).sessions.retain login.nowMs).size = 1024 ∧
        ∀ (token' : String) (s' : Session),
          ((start boot).after sha256 events).sessions[token']? = some s' →
          login.nowMs < s'.expiresMs → s.expiresMs ≤ s'.expiresMs := by
  have hsound := (sound_start hboot).after sha256 events
  refine ⟨fun keys hkeys req token now ctx hreq => ?_, fun hkeys req now ctx hroute => ?_,
    fun login => ?_, hsound.size, fun login token s hs hlive hne hlost =>
      full_of_lost hsound.size hs hlive hne hlost⟩
  · have hvalid := (FullConfig.validate_ok hsound.valid.valid).2
    -- a secret of the running configuration and one that was matched are told apart by the hash
    have hsecret (k matched : AdminKey) (login : Login) (hk : k ∈ keys)
        (hlogin : .login login ∈ events) (hmatched : login.matched = some matched)
        (hhash : sha256 (asBytes k.key) = sha256 (asBytes matched.key)) :
        k.key = matched.key := by
      obtain ⟨hloaded, -⟩ := Login.matched_eq_some hmatched
      refine hsha k.key (adminSecrets_subset sha256 boot events ?_) matched.key ?_ hhash
      · rw [FullConfig.adminSecrets, hkeys]
        exact List.mem_map_of_mem hk
      · refine List.mem_append_right _ (List.mem_flatMap.mpr ⟨_, hlogin, ?_⟩)
        exact List.mem_map_of_mem hloaded
    rw [require_of_keys hreq hkeys, sessionCtx_eq_some_iff (hvalid.names keys hkeys)]
    constructor
    · rintro ⟨s, hs, hlive, k, hk, hname, hhash, rfl⟩
      obtain ⟨before, login, later, matched, hevents, htoken, hmatched, rfl, hkept⟩ :=
        (getElem?_after_iff htokens).mp hs
      refine ⟨before, login, later, matched, hevents, htoken, hmatched, hkept, hlive, k, hk, hname,
        hsecret k matched login hk ?_ hmatched hhash, rfl⟩
      rw [hevents]
      exact List.mem_append_right _ List.mem_cons_self
    · rintro ⟨before, login, later, matched, hevents, htoken, hmatched, hkept, hlive, k, hk, hname,
        hkey, rfl⟩
      refine ⟨login.session sha256 matched, ?_, hlive, k, hk, hname, ?_, rfl⟩
      · exact (getElem?_after_iff htokens).mpr
          ⟨before, login, later, matched, hevents, htoken, hmatched, rfl, hkept⟩
      · rw [hkey]
        rfl
  · rw [require_of_no_keys hroute hkeys, hsound.boot]
  · rw [login_isOk_iff, Login.matched_isSome_iff]

end AdminState

/-- The hash of the two secrets below. -/
def sha256Of (bytes : Bytes) : Bytes :=
  if bytes = asBytes "alpha" then
    [0x8E, 0xD3, 0xF6, 0xAD, 0x68, 0x5B, 0x95, 0x9E, 0xAD, 0x70, 0x22, 0x51, 0x8E, 0x1A, 0xF7,
    0x6C, 0xD8, 0x16, 0xF8, 0xE8, 0xEC, 0x7C, 0xCD, 0xDA, 0x1E, 0xD4, 0x01, 0x8E, 0x8F, 0x22,
    0x23, 0xF8]
  else if bytes = asBytes "beta" then
    [0xF4, 0x4E, 0x64, 0xE7, 0x5F, 0x39, 0x48, 0xE9, 0xF7, 0x3F, 0x8D, 0xFA, 0x94, 0x72, 0x1C,
    0x4C, 0xE8, 0xCB, 0xB4, 0xF2, 0x65, 0xC4, 0x79, 0x0C, 0x70, 0x2B, 0x2D, 0x41, 0xCF, 0xBF,
    0x27, 0x53]
  else []

/-- The keys of an operator and of a viewer. -/
def twoKeys : FullConfig where
  admin := { keys := some [{ name := "ops", key := "alpha", role := .operator },
    { name := "eye", key := "beta", role := .viewer }] }

/-- The operator is made a viewer. -/
def demoted : FullConfig where
  admin := { keys := some [{ name := "eye", key := "beta", role := .viewer },
    { name := "ops", key := "alpha", role := .viewer }] }

/-- A login with one of the two keys. -/
def loginAt (name key token : String) (now : Int64) : Login where
  name := name
  key := key
  loaded := twoKeys
  token := token
  issuedMs := now
  nowMs := now
  order := { iter := id, perm := fun _ => .refl _ }

/-- Two logins and a reload. -/
def demotedRun : List AdminEvent :=
  [.login (loginAt "ops" "alpha" "t1" 1000), .reload (.ok demoted),
    .login (loginAt "eye" "beta" "t2" 2000)]

/-- A request with a cookie. -/
def cookieRequest : AdminRequest where
  method := "GET"
  path := "/admin/api/v1/queues"
  cookie := some "theme=dark; sepp_admin=t1"

theorem cookieRequest_carriesOnly : cookieRequest.CarriesOnly "t1" :=
  ⟨by decide, rfl, by decide⟩

/-- The session of the operator goes on with the new role. -/
theorem session_validity_demotedRun :
    ((AdminState.start twoKeys).after sha256Of demotedRun).require sha256Of cookieRequest 3000 =
        .allowed { name := some "ops", role := .viewer } ∧
      ∃ before login later matched, demotedRun = before ++ .login login :: later ∧
        login.token = "t1" ∧ login.matched = some matched ∧ matched.name = "ops" := by
  have hallowed : ((AdminState.start twoKeys).after sha256Of demotedRun).require sha256Of
      cookieRequest 3000 = .allowed { name := some "ops", role := .viewer } := by decide +kernel
  have hboot : twoKeys.validate = .ok () := by decide +kernel
  have htokens : (demotedRun.filterMap AdminEvent.issues).Nodup := by decide +kernel
  have hsha : CollisionFree sha256Of (secretsOf twoKeys demotedRun) := by
    unfold CollisionFree
    decide +kernel
  obtain ⟨hsessions, -⟩ := AdminState.session_validity sha256Of hboot htokens hsha
  obtain ⟨before, login, later, matched, hevents, htoken, hmatched, -, -, k, -, hname, -, hctx⟩ :=
    (hsessions _ rfl cookieRequest "t1" 3000 _ cookieRequest_carriesOnly).mp hallowed
  refine ⟨hallowed, before, login, later, matched, hevents, htoken, hmatched, ?_⟩
  rw [← hname]
  exact (Option.some.inj (congrArg AuthCtx.name hctx)).symm

/-- A login, and another one after the first session has expired. -/
def purgedRun : List AdminEvent :=
  [.login (loginAt "ops" "alpha" "t1" 1000), .login (loginAt "eye" "beta" "t2" 50000000)]

/-- Without keys a request is let through although no login has issued its token. And a session
that a later login has dropped as expired is not worth anything when the clock steps back, although
it was neither logged out nor evicted, and its key is still configured. -/
theorem session_without_keys_or_purged :
    ((AdminState.start {}).after sha256Of []).require sha256Of cookieRequest 3000 =
        .allowed { name := none, role := .admin } ∧
      ((AdminState.start twoKeys).after sha256Of purgedRun).require sha256Of cookieRequest 3000 =
        .unauthorized "authentication required" ∧
      (3000 : Int64) < (loginAt "ops" "alpha" "t1" 1000).expiresMs ∧
      (loginAt "ops" "alpha" "t1" 1000).matched =
        some { name := "ops", key := "alpha", role := .operator } ∧
      ((AdminState.start twoKeys).after sha256Of purgedRun).config.admin.keys =
        twoKeys.admin.keys ∧
      (((AdminState.start twoKeys).after sha256Of (purgedRun.take 1)).sessions.retain
        50000000).evicted (loginAt "eye" "beta" "t2" 50000000).order = none := by
  decide +kernel

end Sepp
