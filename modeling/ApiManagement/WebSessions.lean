import ApiManagement.TransactionRuns
import ApiManagement.UserOperations

/-! # Sessions in the browser

A tab keeps the access token in the storage of all tabs and the user in its own, for an hour, and
both of them once more in memory. Requests are sent with the token that is stored, and it may be
dropped by any of them, or by another tab. -/
namespace WebSessions

open TransactionRuns UserOperations

def USER_STORE_TTL : ℤ := 60 * 60 * 1000

/-- `localStorage` holds the token, `sessionStorage` the rest. An entry for the user that holds
none is read like no entry. -/
structure Storage where
  accessToken : Option String
  userStore : Option UserInfo
  userStoreTtl : Option ℤ

structure Tab where
  storage : Storage
  token : Option String
  user : Option UserInfo
  loading : Bool

/-- How a request ends: well, with a status other than 200, with the HTTP status 401 or without a
connection, or by another error. -/
inductive Reply (α : Type) where
  | ok (a : α)
  | refused
  | dropped
  | failed

def isFalsy (token : Option String) : Bool := token.all (fun t => t == "")

def loadPage (now : ℤ) (storage : Storage) : Tab :=
  let storage := if isFalsy storage.accessToken then { storage with userStore := none } else storage
  let storage := if storage.userStoreTtl.any (fun ttl => ttl < now)
    then { storage with userStore := none } else storage
  ⟨storage, storage.accessToken, storage.userStore, false⟩

namespace Tab

def set (tab : Tab) (user : Option UserInfo) (loading : Bool) : Tab :=
  { tab with storage := { tab.storage with userStore := user }, user := user, loading := loading }

def removeToken (tab : Tab) : Tab :=
  { tab with storage := { tab.storage with accessToken := none } }

def removeUserStore (tab : Tab) : Tab :=
  { tab with storage := { tab.storage with userStore := none } }

def drop (now : ℤ) (tab : Tab) : Tab := loadPage now tab.removeToken.removeUserStore.storage

def fetchUser (now : ℤ) (getMyInfo : Reply UserInfo) (tab : Tab) : Tab :=
  if isFalsy tab.token then tab
  else if tab.user.isSome && !tab.loading then tab
  else
    let tab := tab.set tab.user true
    match getMyInfo with
    | .ok user =>
      let tab := tab.set (some user) false
      { tab with storage := { tab.storage with userStoreTtl := some (now + USER_STORE_TTL) } }
    | .refused => (tab.set none false).removeToken.removeUserStore
    | .dropped => tab.drop now
    | .failed => (tab.set none false).removeToken

def login (now : ℤ) (userLogin : Reply String) (getMyInfo : Reply UserInfo) (tab : Tab) : Tab :=
  match userLogin with
  | .ok accessToken =>
    fetchUser now getMyInfo { tab with
      token := some accessToken
      storage := { tab.storage with accessToken := some accessToken } }
  | .dropped => tab.drop now
  | _ => tab

def logout (tab : Tab) : Tab :=
  { tab.removeToken.removeUserStore with token := some "" }.set none tab.loading

def request (now : ℤ) (reply : Reply Unit) (tab : Tab) : Tab :=
  match reply with
  | .dropped => tab.drop now
  | _ => tab

end Tab

/-- What happens to a tab; another tab may log in or out. A request and its answer are one event. -/
inductive Event where
  | loaded (now : ℤ)
  | fetched (now : ℤ) (getMyInfo : Reply UserInfo)
  | loggedIn (now : ℤ) (userLogin : Reply String) (getMyInfo : Reply UserInfo)
  | loggedOut
  | requested (now : ℤ) (reply : Reply Unit)
  | otherTab (accessToken : Option String)

def happen (tab : Tab) : Event → Except Unit Tab
  | .loaded now => .ok (loadPage now tab.storage)
  | .fetched now getMyInfo => .ok (tab.fetchUser now getMyInfo)
  | .loggedIn now userLogin getMyInfo => .ok (tab.login now userLogin getMyInfo)
  | .loggedOut => .ok tab.logout
  | .requested now reply => .ok (tab.request now reply)
  | .otherTab accessToken =>
    .ok { tab with storage := { tab.storage with accessToken := accessToken } }

def openTab (now : ℤ) (accessToken : Option String) : Tab := loadPage now ⟨accessToken, none, none⟩

section Load

variable {now : ℤ} {storage : Storage} {u : UserInfo}

theorem loadPage_accessToken (now : ℤ) (storage : Storage) :
    (loadPage now storage).storage.accessToken = storage.accessToken := by
  unfold loadPage
  dsimp only
  split <;> split <;> rfl

theorem loadPage_userStoreTtl (now : ℤ) (storage : Storage) :
    (loadPage now storage).storage.userStoreTtl = storage.userStoreTtl := by
  unfold loadPage
  dsimp only
  split <;> split <;> rfl

theorem loadPage_userStore (now : ℤ) (storage : Storage) :
    (loadPage now storage).storage.userStore = (loadPage now storage).user := rfl

/-- The user is the one who was stored, and the hour is not over. -/
theorem stored_of_loadPage (h : (loadPage now storage).user = some u) :
    storage.userStore = some u ∧ ∀ ttl, storage.userStoreTtl = some ttl → now ≤ ttl := by
  unfold loadPage at h
  dsimp only at h
  by_cases htoken : isFalsy storage.accessToken = true
  · rw [if_pos htoken] at h
    dsimp only at h
    split at h <;> cases h
  · rw [if_neg htoken] at h
    by_cases hold : storage.userStoreTtl.any (fun ttl => decide (ttl < now)) = true
    · rw [if_pos hold] at h
      cases h
    · rw [if_neg hold] at h
      refine ⟨h, ?_⟩
      intro ttl httl
      rw [httl] at hold
      simpa using hold

theorem user_drop (now : ℤ) (tab : Tab) : (tab.drop now).user = none := by
  cases h : (tab.drop now).user with
  | none => rfl
  | some u => cases (stored_of_loadPage h).1

end Load

/-- The user a fetch leaves: nobody, the one before, or the one who was answered, in which case he
is stored for an hour. -/
theorem fetchUser_cases (now : ℤ) (getMyInfo : Reply UserInfo) (tab : Tab) :
    tab.fetchUser now getMyInfo = tab ∨
    ((tab.fetchUser now getMyInfo).user = none ∧
      (tab.fetchUser now getMyInfo).storage.userStore = none) ∨
    ∃ u, getMyInfo = .ok u ∧ (tab.fetchUser now getMyInfo).user = some u ∧
      (tab.fetchUser now getMyInfo).storage =
        ⟨tab.storage.accessToken, some u, some (now + USER_STORE_TTL)⟩ := by
  unfold Tab.fetchUser
  split
  · exact Or.inl rfl
  · split
    · exact Or.inl rfl
    · refine Or.inr ?_
      cases getMyInfo with
      | ok u => exact Or.inr ⟨u, rfl, rfl, rfl⟩
      | refused => exact Or.inl ⟨rfl, rfl⟩
      | dropped =>
        have hnone := user_drop now (tab.set tab.user true)
        exact Or.inl ⟨hnone, (loadPage_userStore now _).trans hnone⟩
      | failed => exact Or.inl ⟨rfl, rfl⟩

def Answers (now : ℤ) (u : UserInfo) : Event → Prop
  | .fetched now' getMyInfo => now' = now ∧ getMyInfo = .ok u
  | .loggedIn now' userLogin getMyInfo =>
    now' = now ∧ getMyInfo = .ok u ∧ ∃ accessToken, userLogin = .ok accessToken
  | _ => False

def nextToken (tab : Tab) : Event → Option String
  | .loggedIn _ (.ok accessToken) _ => some accessToken
  | .otherTab accessToken => accessToken
  | _ => tab.storage.accessToken

inductive Outcome (tab : Tab) (e : Event) (tab' : Tab) : Prop where
  | nobody : tab'.user = none → tab'.storage.userStore = none → Outcome tab e tab'
  | answered {now : ℤ} {u : UserInfo} : Answers now u e → tab'.user = some u →
      tab'.storage = ⟨nextToken tab e, some u, some (now + USER_STORE_TTL)⟩ → Outcome tab e tab'
  | kept : tab'.user = tab.user →
      tab'.storage = { tab.storage with accessToken := nextToken tab e } → Outcome tab e tab'
  | loaded {now : ℤ} : nextToken tab e = tab.storage.accessToken →
      tab' = loadPage now tab.storage → Outcome tab e tab'

theorem outcome_drop (now : ℤ) (tab : Tab) (e : Event) : Outcome tab e (tab.drop now) :=
  .nobody (user_drop now tab) ((loadPage_userStore now _).trans (user_drop now tab))

theorem outcome_step {tab tab' : Tab} {e : Event} (h : happen tab e = .ok tab') :
    Outcome tab e tab' := by
  cases e with
  | loaded now =>
    cases h
    exact .loaded rfl rfl
  | fetched now getMyInfo =>
    cases h
    rcases fetchUser_cases now getMyInfo tab with heq | ⟨hu, hs⟩ | ⟨u, hok, hu, hs⟩
    · rw [heq]
      exact .kept rfl rfl
    · exact .nobody hu hs
    · exact .answered ⟨rfl, hok⟩ hu hs
  | loggedIn now userLogin getMyInfo =>
    cases h
    cases userLogin with
    | ok accessToken =>
      rw [Tab.login]
      rcases fetchUser_cases now getMyInfo { tab with
          token := some accessToken
          storage := { tab.storage with accessToken := some accessToken } } with
        heq | ⟨hu, hs⟩ | ⟨u, hok, hu, hs⟩
      · rw [heq]
        exact .kept rfl rfl
      · exact .nobody hu hs
      · exact .answered ⟨rfl, hok, accessToken, rfl⟩ hu hs
    | refused => exact .kept rfl rfl
    | dropped => exact outcome_drop now tab _
    | failed => exact .kept rfl rfl
  | loggedOut =>
    cases h
    exact .nobody rfl rfl
  | requested now reply =>
    cases h
    cases reply with
    | dropped => exact outcome_drop now tab _
    | _ => exact .kept rfl rfl
  | otherTab accessToken =>
    cases h
    exact .kept rfl rfl

/-- Who is stored is shown, and has a property that depends on what else is stored. -/
structure Known (P : Storage → UserInfo → Prop) (tab : Tab) : Prop where
  stored : ∀ u, tab.storage.userStore = some u → tab.user = some u
  shown : ∀ u, tab.user = some u → P tab.storage u

theorem known_of_nobody {P : Storage → UserInfo → Prop} {tab : Tab} (hu : tab.user = none)
    (hs : tab.storage.userStore = none) : Known P tab := by
  constructor
  · intro u h
    rw [hs] at h
    cases h
  · intro u h
    rw [hu] at h
    cases h

theorem known_openTab (P : Storage → UserInfo → Prop) (now : ℤ) (accessToken : Option String) :
    Known P (openTab now accessToken) := by
  have hu : (openTab now accessToken).user = none := by
    cases h : (openTab now accessToken).user with
    | none => rfl
    | some u => cases (stored_of_loadPage h).1
  exact known_of_nobody hu ((loadPage_userStore now _).trans hu)

section Owner

variable (owner : String → ℕ)

/-- The backend answers with the owner of the token that is sent, a login is offered while no user
is shown, and no other tab logs in as another user than the one shown here. -/
def Fair (tab : Tab) (e : Event) : Prop :=
  (∀ now u, Answers now u e → ∀ t, nextToken tab e = some t → u.id = owner t) ∧
  (∀ now accessToken getMyInfo, e = .loggedIn now (.ok accessToken) getMyInfo → tab.user = none) ∧
  ∀ t, e = .otherTab (some t) → ∀ u, tab.user = some u → u.id = owner t

def Owned (storage : Storage) (u : UserInfo) : Prop :=
  ∀ t, storage.accessToken = some t → u.id = owner t

variable {owner}

theorem nextToken_owned {tab : Tab} {e : Event} (hk : Known (Owned owner) tab)
    (hfair : Fair owner tab e) {u : UserInfo} (hu : tab.user = some u) {t : String}
    (ht : nextToken tab e = some t) : u.id = owner t := by
  obtain ⟨_, hlogin, hother⟩ := hfair
  cases e with
  | loggedIn now userLogin getMyInfo =>
    cases userLogin with
    | ok accessToken =>
      rw [hlogin now accessToken getMyInfo rfl] at hu
      cases hu
    | _ => exact hk.shown u hu t ht
  | otherTab accessToken => exact hother t (congrArg _ ht) u hu
  | _ => exact hk.shown u hu t ht

theorem known_step {tab tab' : Tab} {e : Event} (hk : Known (Owned owner) tab)
    (hfair : Fair owner tab e) (h : happen tab e = .ok tab') : Known (Owned owner) tab' := by
  cases outcome_step h with
  | nobody hu hs => exact known_of_nobody hu hs
  | answered ha hu hs =>
    constructor
    · intro v hv
      rw [hs] at hv
      rw [hu, ← hv]
    · intro v hv t ht
      rw [hu, Option.some_inj] at hv
      rw [hs] at ht
      exact hv ▸ hfair.1 _ _ ha t ht
  | kept hu hs =>
    constructor
    · intro v hv
      rw [hs] at hv
      rw [hu]
      exact hk.stored v hv
    · intro v hv t ht
      rw [hu] at hv
      rw [hs] at ht
      exact nextToken_owned hk hfair hv ht
  | loaded _ heq =>
    subst heq
    constructor
    · exact fun v hv => hv
    · intro v hv t ht
      rw [loadPage_accessToken] at ht
      exact hk.shown v (hk.stored v (stored_of_loadPage hv).1) t ht

/-- Whoever is shown in a tab is the user whose token the next request is sent with, if it is
sent with one. -/
theorem shown_user_owns_token {now : ℤ} {accessToken : Option String} {tab : Tab}
    (hrun : Runs happen (Fair owner) (openTab now accessToken) tab) {u : UserInfo}
    (hu : tab.user = some u) {t : String} (ht : tab.storage.accessToken = some t) :
    u.id = owner t :=
  (hrun.preserves (fun _ _ _ hk hg hstep => known_step hk hg hstep)
    (known_openTab (Owned owner) now accessToken)).shown u hu t ht

end Owner

section Age

variable (Said : ℤ → UserInfo → Prop)

def AnswersSaid (_ : Tab) (e : Event) : Prop := ∀ now u, Answers now u e → Said now u

def Dated (storage : Storage) (u : UserInfo) : Prop :=
  ∃ now, Said now u ∧ storage.userStoreTtl = some (now + USER_STORE_TTL)

variable {Said}

theorem dated_step {tab tab' : Tab} {e : Event} (hk : Known (Dated Said) tab)
    (hsaid : AnswersSaid Said tab e) (h : happen tab e = .ok tab') : Known (Dated Said) tab' := by
  cases outcome_step h with
  | nobody hu hs => exact known_of_nobody hu hs
  | @answered now u ha hu hs =>
    constructor
    · intro v hv
      rw [hs] at hv
      rw [hu, ← hv]
    · intro v hv
      rw [hu, Option.some_inj] at hv
      rw [hs, ← hv]
      exact ⟨now, hsaid now u ha, rfl⟩
  | kept hu hs =>
    constructor
    · intro v hv
      rw [hs] at hv
      rw [hu]
      exact hk.stored v hv
    · intro v hv
      rw [hu] at hv
      rw [hs]
      exact hk.shown v hv
  | loaded _ heq =>
    subst heq
    constructor
    · exact fun v hv => hv
    · intro v hv
      rw [Dated, loadPage_userStoreTtl]
      exact hk.shown v (hk.stored v (stored_of_loadPage hv).1)

/-- Whoever is shown when a page is loaded was answered by the backend in the hour before. -/
theorem loaded_user_is_fresh {start : ℤ} {accessToken : Option String} {tab : Tab}
    (hrun : Runs happen (AnswersSaid Said) (openTab start accessToken) tab) {now : ℤ}
    {u : UserInfo} (hu : (loadPage now tab.storage).user = some u) :
    ∃ before, Said before u ∧ now ≤ before + USER_STORE_TTL := by
  have hk := hrun.preserves (fun _ _ _ hk hg hstep => dated_step hk hg hstep)
    (known_openTab (Dated Said) start accessToken)
  obtain ⟨hstored, hage⟩ := stored_of_loadPage hu
  obtain ⟨before, hsaid, httl⟩ := hk.shown u (hk.stored u hstored)
  exact ⟨before, hsaid, hage _ httl⟩

end Age

theorem ann_fits : "ann".length ≤ 64 := by decide

def ann : UserInfo := ⟨1, ⟨"ann", ann_fits⟩, none, none, .guest, .l4⟩

def annsLogin : Event := .loggedIn 0 (.ok "t1") (.ok ann)

def annsTab : Tab := loadPage 1800000 ((openTab 0 none).login 0 (.ok "t1") (.ok ann)).storage

def tokenOwner (t : String) : ℕ := if t = "t1" then 1 else 2

theorem annsTab_run {guard : Tab → Event → Prop} (hlogin : guard (openTab 0 none) annsLogin)
    (hload : ∀ tab, guard tab (.loaded 1800000)) :
    Runs happen guard (openTab 0 none) annsTab := by
  have hrun : Runs happen guard (openTab 0 none) ((openTab 0 none).login 0 (.ok "t1") (.ok ann)) :=
    (Runs.refl _).tail hlogin
  exact hrun.tail (hload _)

theorem ann_owns_token : annsTab.user = some ann ∧ annsTab.storage.accessToken = some "t1" ∧
    ann.id = tokenOwner "t1" := by
  have hrun : Runs happen (Fair tokenOwner) (openTab 0 none) annsTab := by
    refine annsTab_run ⟨?_, ?_, ?_⟩ ?_
    · rintro now u ⟨_, hu, _⟩ t ht
      cases hu
      cases ht
      decide
    · intro now accessToken getMyInfo h
      rfl
    · intro t h
      cases h
    · intro tab
      refine ⟨fun now u h => False.elim h, ?_, ?_⟩
      · intro now accessToken getMyInfo h
        cases h
      · intro t h
        cases h
  have hu : annsTab.user = some ann := by decide +kernel
  have ht : annsTab.storage.accessToken = some "t1" := by decide +kernel
  exact ⟨hu, ht, shown_user_owns_token hrun hu ht⟩

theorem ann_is_fresh : ∃ before : ℤ, (before = 0 ∧ ann.id = 1) ∧
    3600000 ≤ before + USER_STORE_TTL := by
  have hrun : Runs happen (AnswersSaid (fun now u => now = 0 ∧ u.id = 1)) (openTab 0 none)
      annsTab := by
    refine annsTab_run ?_ (fun tab now u h => False.elim h)
    rintro now u ⟨hnow, hu, _⟩
    cases hu
    exact ⟨hnow.symm, rfl⟩
  have hu : (loadPage 3600000 annsTab.storage).user = some ann := by decide +kernel
  exact loaded_user_is_fresh hrun hu

end WebSessions
