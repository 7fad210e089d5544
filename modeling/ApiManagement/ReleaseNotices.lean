import ApiManagement.IterationCopies

/-! # The mail after a release

`send_email` and the notification that a commit ends with. The database is committed before the
mail is composed, so what the composition raises reaches a client whose release has succeeded. -/
namespace ReleaseNotices

open TransactionRuns KeyedTables PythonRuntime ServiceSchema UserOperations ServiceOperations
  OperationRuns StateInvariant IterationCopies

structure MailSettings where
  server : Option String
  user : Option String
  password : Option String
  sender : Option String

def MailSettings.configured (settings : MailSettings) : Bool :=
  [settings.server, settings.user, settings.password].all (fun v => v.any (fun s => s != ""))

structure Mail where
  sender : Option String
  recipientLine : String
  subject : String
  content : String

structure MailResult where
  status : ℤ
  message : String
  deriving DecidableEq

/-- `", ".join(to_email)` raises for an element that is no string. -/
def joinAddresses (toEmail : List (Option String)) : Except Raised (List String × String) := do
  let addresses ← orAbort (toEmail.mapM id) .typeError
  pure (addresses, ", ".intercalate addresses)

/-- An exception of `aiosmtplib.send` is caught, and its text returned. -/
def MailResult.ofSend : Except String Unit → MailResult
  | .ok _ => ⟨200, "Email sent successfully"⟩
  | .error text => ⟨-2, "Failed to send email: " ++ text⟩

def sendEmail (settings : MailSettings) (send : Mail → List String → Except String Unit)
    (toEmail : List (Option String)) (subject content : String) : Except Raised MailResult :=
  if !settings.configured then pure ⟨-1, "SMTP config missing"⟩
  else if toEmail.isEmpty then pure ⟨-1, "No recipients provided"⟩
  else do
    let (addresses, recipientLine) ← joinAddresses toEmail
    pure (.ofSend (send ⟨settings.sender, recipientLine, subject, content⟩ addresses))

theorem mapM_id_eq_none {α : Type} {l : List (Option α)} : l.mapM id = none ↔ none ∈ l := by
  induction l with
  | nil => simp
  | cons a l ih =>
    cases a with
    | none => simp
    | some a =>
      rw [List.mapM_cons]
      cases h : l.mapM id with
      | none => simp [← ih, h]
      | some bs => simp [← ih, h]

/-- A configured mailer fails on a missing address, and on nothing that the server does. -/
theorem sendEmail_outcome (settings : MailSettings)
    (send : Mail → List String → Except String Unit) (toEmail : List (Option String))
    (subject content : String) :
    (fun _ => ()) <$> sendEmail settings send toEmail subject content =
      require (!(settings.configured && toEmail.contains none)) .typeError := by
  rw [sendEmail]
  by_cases hc : settings.configured = true
  · cases toEmail with
    | nil => simp [hc, require, pure, Except.pure, Functor.map, Except.map]
    | cons a l =>
      simp only [hc, Bool.not_true, Bool.false_eq_true, if_false, List.isEmpty_cons, joinAddresses,
        Bool.true_and]
      cases hm : (a :: l).mapM id with
      | none =>
        have hnone : (a :: l).contains none = true :=
          List.contains_iff_mem.mpr (mapM_id_eq_none.mp hm)
        rw [hnone]
        rfl
      | some addresses =>
        have hall : (a :: l).contains none = false := by
          rw [← Bool.not_eq_true, List.contains_iff_mem, ← mapM_id_eq_none, hm]
          exact Option.some_ne_none _
        rw [hall]
        rfl
  · simp [hc, require, pure, Except.pure, Functor.map, Except.map]

/-- What a formatted string shows of a nullable column. -/
def shown {n : ℕ} (v : Option (VarChar n)) : String := (v.map VarChar.val).getD "None"

/-- The set of the recipients, in any order. -/
def recipients (env : Environment) (db : Database) (service : Service) (owner : User) :
    List (Option String) :=
  (env.fetch (owner.email :: ((maintainers db service.id).map User.email).filter
    (fun e => e.any (fun v => v.val != ""))).dedup).map (Option.map VarChar.val)

def noticeSubject (service : Service) : String :=
  "服务 " ++ service.serviceUuid.val ++ " 版本更新"

def noticeContent (service : Service) (user : User) (newVersion : String) : String :=
  "您好！您负责 / 维护的服务 " ++ service.serviceUuid.val ++ " 已更新到版本 " ++ newVersion ++ "。\n" ++
  "可通过 https://cam-api.com/service?uuid=" ++ service.serviceUuid.val ++ " 查看详情。\n\n" ++
  "操作人：" ++ shown user.nickname ++ " (" ++ user.username.val ++ ") - " ++ shown user.email ++ "\n"

def sendNotice (env : Environment) (settings : MailSettings)
    (send : Mail → List String → Except String Unit) (db : Database) (service : Service)
    (user : Option User) (newVersion : String) : Except Raised MailResult := do
  let owner ← orAbort (db.users.find? service.ownerId) .attributeError
  let user ← orAbort user .attributeError
  sendEmail settings send (recipients env db service owner) (noticeSubject service)
    (noticeContent service user newVersion)

/-- Only the owner's address is not checked, so only that may be missing. -/
theorem contains_none (e : Option (VarChar 128)) (l : List (Option (VarChar 128))) :
    (e :: l.filter (fun v => v.any (fun w => w.val != ""))).contains none = e.isNone := by
  cases e with
  | none => simp
  | some v =>
    rw [Option.isNone_some, ← Bool.not_eq_true, List.contains_iff_mem, List.mem_cons,
      List.mem_filter]
    rintro (h | ⟨_, h⟩)
    · cases h
    · cases h

theorem recipients_contains_none {env : Environment} {db : Database} {service : Service}
    {owner : User} : (recipients env db service owner).contains none = owner.email.isNone := by
  have hset := contains_none owner.email ((maintainers db service.id).map User.email)
  rw [Bool.eq_iff_iff, List.contains_iff_mem] at hset ⊢
  rw [← hset, recipients, List.mem_map]
  constructor
  · rintro ⟨e, he, hnone⟩
    rw [env.mem_fetch, List.mem_dedup] at he
    rwa [Option.map_eq_none_iff.mp hnone] at he
  · intro h
    exact ⟨none, env.mem_fetch.mpr (List.mem_dedup.mpr h), rfl⟩

/-- The mail server's part is what `notifyMaintainers` leaves out. -/
theorem sendNotice_eq (env : Environment) (settings : MailSettings)
    (send : Mail → List String → Except String Unit) (db : Database) (service : Service)
    (user : Option User) (newVersion : String) :
    (fun _ => ()) <$> sendNotice env settings send db service user newVersion =
      notifyMaintainers { env with mailConfigured := settings.configured } db service user := by
  rw [sendNotice, notifyMaintainers]
  cases db.users.find? service.ownerId with
  | none => rfl
  | some owner =>
    cases user with
    | none => rfl
    | some user =>
      have hsend := sendEmail_outcome settings send (recipients env db service owner)
        (noticeSubject service) (noticeContent service user newVersion)
      rw [recipients_contains_none, ← contains_none] at hsend
      exact hsend

/-- `serviceCommitIteration` with the mail spelled out; only its status is looked at, to log a
failure. -/
def commitWithMail (env : Environment) (settings : MailSettings)
    (send : Mail → List String → Except String Unit) (iterationId : ℕ) (newVersion : String)
    (userId : ℕ) (db : Database) : Tx (Database × Except Raised (Reply CommitInfo)) := do
  let (iteration, user) ← asCheckResult (checkServiceIterationPermission db iterationId userId)
  let service ← orAbort (db.services.find? iteration.serviceId) (.raised .attributeError)
  require (newVersion != service.version.val)
    (.reply (-1) "New version is the same as current version")
  let db' ← commitDatabase env iteration service newVersion db
  pure (db', do
    let _ ← sendNotice env settings send db' service user newVersion
    pure ⟨200, "Commit service iteration success", ⟨service.id, iteration.id, newVersion⟩⟩)

section Commit

variable {env : Environment} {settings : MailSettings}
  {send : Mail → List String → Except String Unit} {db : Database} {iterationId userId : ℕ}
  {i : ServiceIteration} {s : Service} {newVersion : String}

/-- A step whose result is not used is as good as the step without it. -/
theorem bind_unit_map {ε α β : Type} (x : Except ε α) (y : Except ε β) :
    (x >>= fun _ => y) = ((fun _ => ()) <$> x) >>= fun _ => y := by
  cases x with
  | ok a => rfl
  | error e => rfl

/-- The operation sees of the mailer whether it is configured. -/
theorem commitWithMail_eq : commitWithMail env settings send iterationId newVersion userId db =
    serviceCommitIteration { env with mailConfigured := settings.configured } iterationId newVersion
      userId db := by
  simp only [commitWithMail, serviceCommitIteration, bind_unit_map (sendNotice ..), sendNotice_eq]
  rfl

/-- An owner without an email makes the notification raise, if the mailer is configured. -/
theorem notifyMaintainers_outcome {owner user : User} (ho : owner ∈ db.users.rows)
    (hid : owner.id = s.ownerId) :
    notifyMaintainers env db s (some user) =
      require (!(env.mailConfigured && owner.email.isNone)) .typeError := by
  have hfind : db.users.find? s.ownerId = some owner := Table.find?_eq_some.mpr ⟨ho, hid⟩
  rw [notifyMaintainers, hfind, ← contains_none _ ((maintainers db s.id).map User.email)]
  rfl

/-- Whatever the mail does, the commit is done before it. -/
theorem commit_then_mail (env : Environment) (settings : MailSettings)
    (send : Mail → List String → Except String Unit) (hreach : Reachable db)
    (hw : WorkRight db iterationId userId i) (hs : s ∈ db.services.rows)
    (hsid : s.id = i.serviceId) (hne : newVersion ≠ s.version.val)
    (hlen : newVersion.length ≤ 32) :
    ∃ owner ∈ db.users.rows, owner.id = s.ownerId ∧ ∃ db',
      (∃ j ∈ db'.iterations.rows, j.id = iterationId ∧ j.isCommitted = true) ∧
      commitWithMail env settings send iterationId newVersion userId db = .ok (db', do
        require (!(settings.configured && owner.email.isNone)) .typeError
        pure ⟨200, "Commit service iteration success", ⟨s.id, iterationId, newVersion⟩⟩) := by
  have hi := reachable_invariant hreach
  obtain ⟨owner, ho, hoid⟩ := Table.contains_iff.mp (hi.service_owner s hs)
  obtain ⟨user, hu, huid⟩ := Table.contains_iff.mp (contains_of_workRight hi hw)
  have huser : db.users.find? userId = some user := Table.find?_eq_some.mpr ⟨hu, huid⟩
  have hcheck := checkServiceIterationPermission_eq_ok.mpr ⟨hw, huser.symm⟩
  obtain ⟨db', hcommit, _⟩ := commit_completes { env with mailConfigured := settings.configured }
    hreach hcheck hs hsid hne hlen
  refine ⟨owner, ho, hoid, db', ?_, ?_⟩
  · simp only [commitDatabase, bind_eq_ok, pure_eq_ok] at hcommit
    obtain ⟨version, _, live, _, rfl⟩ := hcommit
    exact ⟨markCommitted version i, List.mem_map.mpr ⟨i, hw.mem, if_pos rfl⟩, hw.id, rfl⟩
  · have husers : db'.users = db.users := by
      simp only [commitDatabase, bind_eq_ok, pure_eq_ok] at hcommit
      obtain ⟨_, _, _, _, rfl⟩ := hcommit
      rfl
    have hsent : ∀ env : Environment, notifyMaintainers env db' s (some user) =
        require (!(env.mailConfigured && owner.email.isNone)) .typeError :=
      fun env => notifyMaintainers_outcome (husers ▸ ho) hoid
    have hversion : (newVersion != s.version.val) = true := bne_iff_ne.mpr hne
    have hfound : db.services.find? i.serviceId = some s := Table.find?_eq_some.mpr ⟨hs, hsid⟩
    rw [commitWithMail_eq, serviceCommitIteration, hcheck]
    simp only [asCheckResult, ok_bind, hfound, orAbort, hversion, require, if_true, hcommit,
      hsent, hw.id]
    rfl

/-- The operation reports its success unless the mailer is configured and the owner of the
service has no email; the iteration is committed either way. -/
theorem release_reported_iff (hreach : Reachable db) (hw : WorkRight db iterationId userId i)
    (hs : s ∈ db.services.rows) (hsid : s.id = i.serviceId) (hne : newVersion ≠ s.version.val)
    (hlen : newVersion.length ≤ 32) (env : Environment) (settings : MailSettings)
    (send : Mail → List String → Except String Unit) :
    ∃ db' result, commitWithMail env settings send iterationId newVersion userId db =
        .ok (db', result) ∧
      (∃ j ∈ db'.iterations.rows, j.id = iterationId ∧ j.isCommitted = true) ∧
      (result = .ok ⟨200, "Commit service iteration success", ⟨s.id, iterationId, newVersion⟩⟩ ↔
        ¬(settings.configured = true ∧
          ∃ owner ∈ db.users.rows, owner.id = s.ownerId ∧ owner.email = none)) := by
  obtain ⟨owner, ho, hoid, db', hdone, hcommit⟩ :=
    commit_then_mail env settings send hreach hw hs hsid hne hlen
  refine ⟨db', _, hcommit, hdone, ?_⟩
  have howner : (∃ u ∈ db.users.rows, u.id = s.ownerId ∧ u.email = none) ↔
      owner.email = none := by
    constructor
    · rintro ⟨u, hu, hid, he⟩
      rw [db.users.eq_of_key_eq ho hu (hoid.trans hid.symm)]
      exact he
    · intro he
      exact ⟨owner, ho, hoid, he⟩
  rw [howner, ← Option.isNone_iff_eq_none, ← Bool.and_eq_true]
  cases settings.configured && owner.email.isNone with
  | false => simp [require, ok_bind, pure, Except.pure]
  | true => simp [require]

end Commit

def smtpSettings : MailSettings :=
  ⟨some "smtp.example.org", some "cam", some "secret", some "cam@example.org"⟩

def mailed : Database :=
  play twoUsers [.userRegister "ann" "secret" none (some "ann@example.org") "guest",
    .serviceCreateNewService "team/mail" 3 none, .serviceStartIteration 1 3]

def mailedService : Service :=
  ⟨1, 3, ⟨"team/mail", by decide⟩, ⟨"0.0.1", by decide⟩, none, false, none⟩

def mailedIteration : ServiceIteration := ⟨1, 1, some 3, none, none, false⟩

theorem mailedService_mem : mailedService ∈ mailed.services.rows := by decide +kernel

theorem mailed_right : WorkRight mailed 1 3 mailedIteration :=
  ⟨by decide +kernel, rfl, rfl, mailedService, mailedService_mem, rfl, Or.inl rfl⟩

/-- The owner has an email: the release is done and reported. -/
theorem mailed_release_reported :
    ∃ db', commitWithMail plainEnvironment smtpSettings (fun _ _ => .ok ()) 1 "0.0.2" 3 mailed =
        .ok (db', .ok ⟨200, "Commit service iteration success", ⟨1, 1, "0.0.2"⟩⟩) ∧
      ∃ j ∈ db'.iterations.rows, j.id = 1 ∧ j.isCommitted = true := by
  obtain ⟨db', result, hcommit, hdone, hiff⟩ :=
    release_reported_iff (Reachable.play twoUsers_reachable _) mailed_right mailedService_mem rfl
      (show ("0.0.2" : String) ≠ mailedService.version.val by decide)
      (show ("0.0.2" : String).length ≤ 32 by decide) plainEnvironment smtpSettings
      (fun _ _ => .ok ())
  have hemail : ∀ u ∈ mailed.users.rows, u.id = 3 → u.email ≠ none := by decide +kernel
  have hresult := hiff.mpr (fun ⟨_, u, hu, hid, hnone⟩ => hemail u hu hid hnone)
  exact ⟨db', hresult ▸ hcommit, hdone⟩

theorem publishedService_still : publishedService ∈ opened.services.rows := by decide +kernel

/-- The owner registered without an email: the release is done and the client sees an error. -/
theorem released_with_error :
    Reachable opened ∧ WorkRight opened 2 1 secondIteration ∧
      ∃ db', commitWithMail plainEnvironment smtpSettings (fun _ _ => .ok ()) 2 "0.0.3" 1 opened =
          .ok (db', .error .typeError) ∧
        ∃ j ∈ db'.iterations.rows, j.id = 2 ∧ j.isCommitted = true := by
  obtain ⟨owner, ho, _, db', hdone, hcommit⟩ :=
    commit_then_mail plainEnvironment smtpSettings (fun _ _ => .ok ()) opened_reachable opened_right
      publishedService_still rfl (show ("0.0.3" : String) ≠ publishedService.version.val by decide)
      (show ("0.0.3" : String).length ≤ 32 by decide)
  have hnone : ∀ u ∈ opened.users.rows, u.email = none := by decide +kernel
  refine ⟨opened_reachable, opened_right, db', ?_, hdone⟩
  rw [hcommit, hnone owner ho]
  rfl

end ReleaseNotices
