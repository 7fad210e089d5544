import ApiManagement.CommandRuns

/-! # Sessions of the command line

The file in the home directory keeps an access token and the profile of a user, and they are
written by two requests, one after the other. A request that is answered with status 401 drops
both, whichever command made it. -/
namespace LoginSessions

open FileSystem FailingScripts ScriptObjects OwnOutput CommandLine TransactionRuns CommandRuns
open ServiceCommands hiding perform removeService pullAllApisInAllServices

variable {setting : Setting} {camrc : CamrcConfig}

@[simp] theorem getToken_setUser (camrc : CamrcConfig) (user : UserProfile) :
    (camrc.setUser user).getToken = camrc.getToken := rfl

@[simp] theorem getToken_setToken_empty (camrc : CamrcConfig) :
    (camrc.setToken "").getToken = none := by
  simp [CamrcConfig.setToken, CamrcConfig.getToken]

@[simp] theorem getToken_expire (camrc : CamrcConfig) : camrc.expire.getToken = none := by
  unfold CamrcConfig.expire
  cases h : camrc.getToken with
  | none => exact h
  | some token => simp

theorem expire_expire (camrc : CamrcConfig) : camrc.expire.expire = camrc.expire := by
  have h := getToken_expire camrc
  generalize camrc.expire = expired at h
  rw [CamrcConfig.expire, h]

def Later (camrc camrc' : CamrcConfig) : Prop := camrc' = camrc ∨ camrc' = camrc.expire

theorem Later.trans {a b c : CamrcConfig} (h : Later a b) (k : Later b c) : Later a c := by
  rcases h with rfl | rfl
  · exact k
  · rcases k with rfl | rfl
    · exact Or.inr rfl
    · exact Or.inr (expire_expire a)

theorem later_answered {α : Type} (answer : Answer α) : Later camrc (camrc.answered answer) := by
  cases answer with
  | unauthorized => exact Or.inr rfl
  | failed => exact Or.inl rfl
  | refused => exact Or.inl rfl
  | ok a => exact Or.inl rfl

theorem later_apisAsked (answers : List (Answer CodeGenerator.FetchedApi)) :
    Later camrc (apisAsked answers camrc) := by
  induction answers with
  | nil => exact Or.inl rfl
  | cons answer answers ih =>
    cases answer with
    | unauthorized => exact Or.inr rfl
    | failed => exact Or.inl rfl
    | refused => exact ih
    | ok a => exact ih

theorem later_serviceAsked (answer : ServiceAnswer) :
    Later camrc (serviceAsked answer camrc) := by
  cases answer with
  | ok answers => exact later_apisAsked answers
  | unauthorized => exact Or.inr rfl
  | failed => exact Or.inl rfl
  | refused => exact Or.inl rfl

theorem later_servicesAsked {outDir : String} {answers : Answers}
    (services : List (String × PythonRuntime.JsonValue)) (d : Disk Content)
    (camrc : CamrcConfig) :
    Later camrc (servicesAsked setting outDir answers services d camrc) := by
  induction services generalizing d camrc with
  | nil => exact Or.inl rfl
  | cons service services ih =>
    have hasked : Later camrc (if asks setting outDir d service
        then serviceAsked (answers service.1) camrc else camrc) := by
      split
      · exact later_serviceAsked _
      · exact Or.inl rfl
    rw [servicesAsked]
    split
    · exact hasked
    · exact hasked.trans (ih _ _)

theorem later_pullAsked (answers : Answers) (d : Disk Content) :
    Later camrc (pullAsked setting answers d camrc) := by
  unfold pullAsked
  split
  · exact Or.inl rfl
  · split
    · exact Or.inl rfl
    · split
      · exact Or.inl rfl
      · split
        · exact Or.inl rfl
        · exact later_servicesAsked _ _ _

theorem later_saveAsked (config : Config) (answers : Answers) (d : Disk Content) :
    Later camrc (saveAsked setting config answers d camrc) := by
  unfold saveAsked
  split
  · exact Or.inl rfl
  · exact later_pullAsked _ _

theorem later_storeAsked (service : ServiceIdentifier) (serviceAnswer : Answer Unit)
    (answers : Answers) (d : Disk Content) :
    Later camrc (storeAsked setting service serviceAnswer answers d camrc) := by
  unfold storeAsked
  split
  · exact Or.inl rfl
  · split
    · exact Or.inl rfl
    · split
      · exact later_saveAsked _ _ _
      · exact later_answered _
      · exact Or.inl rfl

theorem later_removeAsked (name : String) (answers : Answers) (d : Disk Content) :
    Later camrc (removeAsked setting name answers d camrc) := by
  unfold removeAsked
  split
  · exact Or.inl rfl
  · split
    · exact later_saveAsked _ _ _
    · exact Or.inl rfl

def loginOf : Invocation → Option LoginAnswers
  | .init login => some login
  | .login login => some login
  | .add _ login _ _ => some login
  | .remove _ login _ => some login
  | .update login _ => some login
  | _ => none

/-- The profile that is kept is that of the user whose token is kept. -/
def Consistent (profile : String → UserProfile) (camrc : CamrcConfig) : Prop :=
  ∀ token, camrc.getToken = some token → camrc.getUser = some (profile token)

variable {profile : String → UserProfile}

theorem consistent_of_none (h : camrc.getToken = none) : Consistent profile camrc := by
  intro token htoken
  rw [h] at htoken
  cases htoken

theorem Later.consistent {camrc' : CamrcConfig} (h : Later camrc camrc')
    (hc : Consistent profile camrc) : Consistent profile camrc' := by
  rcases h with rfl | rfl
  · exact hc
  · exact consistent_of_none (getToken_expire camrc)

/-- A login that is answered with a token is told whose it is. -/
def Told (profile : String → UserProfile) (answers : LoginAnswers) : Prop :=
  ∀ token, answers.userLogin = .ok token → answers.getMyInfo = .ok (profile token)

theorem consistent_login {answers : LoginAnswers} (ht : Told profile answers)
    (hc : Consistent profile camrc) : Consistent profile (login answers camrc).1 := by
  unfold login
  cases hlogin : answers.userLogin with
  | ok token =>
    rw [ht token hlogin]
    intro token' htoken
    obtain ⟨heq, _⟩ := Option.filter_eq_some_iff.mp htoken
    cases heq
    rfl
  | refused => exact hc
  | unauthorized => exact consistent_of_none (getToken_expire camrc)
  | failed => exact hc

theorem consistent_required {answers : LoginAnswers} {fn : Machine → Finished} {m : Machine}
    (ht : Told profile answers) (hc : Consistent profile m.camrc)
    (hfn : ∀ m, Consistent profile m.camrc → Consistent profile (fn m).machine.camrc) :
    Consistent profile (loginRequired answers fn m).machine.camrc := by
  have hlogin := consistent_login ht hc
  unfold loginRequired
  split
  · exact hfn m hc
  · split
    · rename_i camrc heq
      rwa [heq] at hlogin
    · rename_i camrc _ _ heq
      rw [heq] at hlogin
      split
      · exact hfn _ hlogin
      · exact hlogin

theorem consistent_perform {m : Machine} {i : Invocation}
    (ht : ∀ answers, loginOf i = some answers → Told profile answers)
    (hc : Consistent profile m.camrc) : Consistent profile (perform setting m i).machine.camrc := by
  cases i with
  | init answers =>
    refine consistent_required (ht answers rfl) hc (fun m hm => ?_)
    unfold init
    split
    · exact hm
    · split
      · exact hm
      · exact hm
  | login answers => exact consistent_login (ht answers rfl) hc
  | logout =>
    apply consistent_of_none
    change (logout m.camrc).getToken = none
    unfold logout
    cases h : m.camrc.getToken with
    | none => exact h
    | some token => simp
  | whoami => exact hc
  | add text answers serviceAnswer replies =>
    refine consistent_required (ht answers rfl) hc (fun m hm => ?_)
    unfold addService
    split
    · exact hm
    · exact (later_storeAsked _ _ _ _).consistent hm
  | remove name answers replies =>
    exact consistent_required (ht answers rfl) hc
      (fun m hm => (later_removeAsked _ _ _).consistent hm)
  | update answers replies =>
    exact consistent_required (ht answers rfl) hc
      (fun m hm => (later_pullAsked _ _).consistent hm)

/-- No login is left between its two requests. -/
def CompleteLogins (profile : String → UserProfile) (_ : Machine) : Event → Prop
  | .typed i => ∀ answers, loginOf i = some answers → Told profile answers
  | .edited _ => True

/-- Whatever was typed, `cam whoami` shows the user whose token the next request is sent with,
and nobody when it is sent without. -/
theorem whoami_owns_token {m m' : Machine} (hm : m.camrc.getToken = none)
    (hrun : Runs (happen setting) (CompleteLogins profile) m m') : whoami m'.camrc =
      (m'.camrc.getToken.map profile).filter
        (fun user => user.username.any (fun s => s ≠ "")) := by
  have hc : Consistent profile m'.camrc := by
    refine hrun.preserves (I := fun m => Consistent profile m.camrc) ?_ (consistent_of_none hm)
    intro m₁ e m₂ hc hg hstep
    cases e with
    | typed i =>
      cases hstep
      exact consistent_perform hg hc
    | edited d =>
      cases hstep
      exact hc
  unfold whoami
  cases htoken : m'.camrc.getToken with
  | none => rfl
  | some token =>
    dsimp only
    rw [hc token htoken]
    rfl

def takenOver : List Invocation :=
  [.init developerLogin, adding "users:4f1d@1.0.0",
    .update developerLogin (fun _ => .unauthorized),
    .login ⟨.ok "t2", .ok { developer with username := some "colleague" }⟩]

def userOf (token : String) : UserProfile :=
  if token = "t1" then developer else { developer with username := some "colleague" }

theorem colleague_shown : whoami (type projectSetting sources takenOver).camrc =
    ((type projectSetting sources takenOver).camrc.getToken.map userOf).filter
      (fun user => user.username.any (fun s => s ≠ "")) := by
  refine whoami_owns_token rfl (runs_type ?_ sources)
  have hdeveloper : Told userOf developerLogin := by
    intro token h
    cases h
    rfl
  intro m i hi answers hlogin
  simp only [takenOver, List.mem_cons, List.not_mem_nil, or_false] at hi
  rcases hi with rfl | rfl | rfl | rfl
  · exact Option.some.inj hlogin ▸ hdeveloper
  · exact Option.some.inj hlogin ▸ hdeveloper
  · exact Option.some.inj hlogin ▸ hdeveloper
  · intro token h
    cases hlogin
    cases h
    rfl

end LoginSessions
