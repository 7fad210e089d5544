import ApiManagement.CategoryTrees
import ApiManagement.ReadOperations

/-! # The page of a service

What the browser holds of one service, and what its hooks do with the replies of the backend. The
categories of a service are written by the page itself: after an update it changes its own copy
and does not read the service again. Drafts are read again after every update. -/
namespace ServiceTabs

open TransactionRuns PythonRuntime ServiceSchema UserOperations ServiceOperations ApiOperations
  ReadOperations OperationRuns CategoryTrees

structure Visit where
  userId : ℕ
  serviceUuid : String

/-- The states of `useThisService` and `useServiceIteration`; a service detail `{}` is `none`. -/
structure ServiceTab where
  versions : List VersionEntry
  currentVersion : String
  isLatest : Bool
  serviceDetail : Option VersionDetail
  apiCategories : List ApiCategory
  apis : List ApiRow
  inIteration : Bool
  iterationId : ℤ
  apiDrafts : List ApiRow

def blank : ServiceTab := ⟨[], "", true, none, [], [], false, -1, []⟩

def detailId : VersionDetail → ℕ
  | .latest d => d.service.id
  | .earlier d => d.iteration.id

def serviceUuidOf : VersionDetail → String
  | .latest d => d.service.serviceUuid.val
  | .earlier d => (d.service.map (fun s => s.serviceUuid.val)).getD ""

def ServiceTab.displayed (tab : ServiceTab) : Bool :=
  tab.serviceDetail.any (fun d => serviceUuidOf d != "")

def ServiceTab.tree (tab : ServiceTab) : Option (List TreeGroup) :=
  if tab.displayed then
    some (treeData tab.apiCategories (if tab.inIteration then tab.apiDrafts else tab.apis))
  else none

section Hooks

variable (visit : Visit) (env : Environment) (db : Database)

/-- Only the latest version comes with categories. -/
def ServiceTab.withDetail (tab : ServiceTab) (d : VersionDetail) : ServiceTab :=
  { tab with
    serviceDetail := some d
    isLatest := d.isLatest
    apiCategories :=
      match d with
      | .latest detail => detail.apiCategories
      | .earlier _ => tab.apiCategories
    apis := d.apis }

def fetchServiceDetail (version : String) (tab : ServiceTab) : ServiceTab :=
  match serviceGetServiceByUuidAndVersion env visit.serviceUuid version visit.userId db with
  | .ok reply => tab.withDetail reply.data
  | .error (.raised _) => tab
  | .error _ => { tab with serviceDetail := none }

/-- The page is opened; without the versions of the service it is left again. -/
def fetchAllVersions : ServiceTab :=
  match serviceGetAllVersionsByUuid env visit.serviceUuid visit.userId db with
  | .ok reply =>
    let currentVersion := (reply.data.head?.bind VersionEntry.version).getD ""
    let tab := { blank with
      versions := reply.data.filter (fun v => v.version.any (fun s => s != ""))
      currentVersion := currentVersion
      isLatest := reply.data.head?.any VersionEntry.isLatest }
    if currentVersion = "" then tab else fetchServiceDetail visit env db currentVersion tab
  | .error _ => blank

def fetchIterationDetail (tab : ServiceTab) : ServiceTab :=
  if tab.iterationId ≤ 0 then tab
  else
    match serviceGetServiceIterationById env tab.iterationId.toNat visit.userId db with
    | .ok reply => { tab with apiDrafts := reply.data.apiDrafts }
    | .error _ => tab

def setIterationId (id : ℤ) (tab : ServiceTab) : ServiceTab :=
  if id = tab.iterationId then tab
  else fetchIterationDetail visit env db { tab with iterationId := id }

def handleAddCategory (categoryName description : String) (tab : ServiceTab) :
    Database × ServiceTab :=
  match tab.serviceDetail with
  | none => (db, tab)
  | some d =>
    match apiAddCategoryByServiceId (detailId d) visit.userId categoryName (some description)
      db with
    | .ok (db', reply) => (db', { tab with apiCategories := tab.apiCategories ++ [reply.data] })
    | .error _ => (db, tab)

def movedTo (apiId : ℕ) (categoryId : ℤ) (api : ApiRow) : ApiRow :=
  if api.id = apiId then
    { api with fields := { api.fields with
      categoryId := if 0 ≤ categoryId then some categoryId.toNat else none } }
  else api

def handleUpdateApiCategory (apiId : ℕ) (categoryId : ℤ) (tab : ServiceTab) :
    Database × ServiceTab :=
  match apiUpdateApiCategory apiId categoryId visit.userId db with
  | .ok (db', _) => (db', { tab with apis := tab.apis.map (movedTo apiId categoryId) })
  | .error _ => (db, tab)

def handleDeleteCategory (categoryId : ℕ) (tab : ServiceTab) : Database × ServiceTab :=
  match apiDeleteCategoryById categoryId visit.userId db with
  | .ok (db', _) =>
    (db', { tab with apiCategories := tab.apiCategories.filter (fun cat => cat.id != categoryId) })
  | .error _ => (db, tab)

def handleStartIteration (tab : ServiceTab) : Database × ServiceTab :=
  match tab.serviceDetail with
  | none => (db, tab)
  | some d =>
    match serviceStartIteration env (detailId d) visit.userId db with
    | .ok (db', reply) =>
      (db', setIterationId visit env db' reply.data { tab with inIteration := true })
    | .error _ => (db, tab)

def exitIteration (tab : ServiceTab) : ServiceTab :=
  setIterationId visit env db (-1) { tab with inIteration := false }

/-- After a release the page is loaded anew, but not when sending the mail raised. -/
def handleCompleteIteration (newVersion : String) (tab : ServiceTab) : Database × ServiceTab :=
  match serviceCommitIteration env tab.iterationId.toNat newVersion visit.userId db with
  | .ok (db', .ok _) => (db', fetchAllVersions visit env db')
  | .ok (db', .error _) => (db', tab)
  | .error _ => (db, tab)

def thenFetch {α : Type} (written : Tx (Database × α)) (tab : ServiceTab) :
    Database × ServiceTab :=
  match written with
  | .ok (db', _) => (db', fetchIterationDetail visit env db' tab)
  | .error _ => (db, tab)

def handleAddApi (name method path description level : String) (categoryId : Option ℕ)
    (tab : ServiceTab) : Database × ServiceTab :=
  thenFetch visit env db (apiAddApi tab.iterationId.toNat visit.userId name method path
    (some description) level categoryId db) tab

def handleCopyApi (apiDraftId : ℕ) (tab : ServiceTab) : Database × ServiceTab :=
  thenFetch visit env db
    (apiCopyApiByApiDraftId env tab.iterationId.toNat apiDraftId visit.userId db) tab

def handleDeleteApi (apiDraftId : ℕ) (tab : ServiceTab) : Database × ServiceTab :=
  thenFetch visit env db
    (apiDeleteApiByApiDraftId tab.iterationId.toNat apiDraftId visit.userId db) tab

def handleSaveApiDraft (apiDraftId : ℕ) (name method path : String) (description : Option String)
    (level : String) (reqParams respParams : JsonValue) (tab : ServiceTab) :
    Database × ServiceTab :=
  thenFetch visit env db (apiUpdateApiByApiDraftId env tab.iterationId.toNat apiDraftId
    visit.userId name method path description level reqParams respParams db) tab

structure DraggedNode where
  key : NodeKey
  parentKey : Option NodeKey

def categoryOfKey : NodeKey → Option ℤ
  | .category k => some k
  | .uncategorised => some (-1)
  | .api _ => none

def dropCategory (dropNode : DraggedNode) : Option ℤ :=
  match dropNode.key with
  | .api _ => dropNode.parentKey.bind categoryOfKey
  | key => categoryOfKey key

def dragged (dragNode dropNode : DraggedNode) : Option (ℕ × ℤ) :=
  match dragNode.key, dropCategory dropNode with
  | .api apiId, some categoryId =>
    if apiId = 0 ∨ dragNode.parentKey = some dropNode.key ∨
      dragNode.parentKey = dropNode.parentKey then none
    else some (apiId, categoryId)
  | _, _ => none

/-- Apis are dragged outside of iterations and in the latest version only. -/
def handleDrag (dragNode dropNode : DraggedNode) (tab : ServiceTab) : Database × ServiceTab :=
  if tab.inIteration || !tab.isLatest then (db, tab)
  else
    match dragged dragNode dropNode with
    | some (apiId, categoryId) => handleUpdateApiCategory visit db apiId categoryId tab
    | none => (db, tab)

def deletable (tree : List TreeGroup) (categoryId : ℕ) : Bool :=
  tree.any (fun g => g.key == .category categoryId && g.children.isEmpty)

inductive Action where
  | reload
  | setCurrentVersion (version : String)
  | addCategory (categoryName description : String)
  | drag (dragNode dropNode : DraggedNode)
  | deleteCategory (categoryId : ℕ)
  | startIteration
  | exitIteration
  | completeIteration (newVersion : String)
  | addApi (name method path description level : String) (categoryId : Option ℕ)
  | copyApi (apiDraftId : ℕ)
  | deleteApi (apiDraftId : ℕ)
  | saveApiDraft (apiDraftId : ℕ) (name method path : String) (description : Option String)
    (level : String) (reqParams respParams : JsonValue)

/-- Whether the page has what the action needs: a menu, a button, a form. -/
def offered (tab : ServiceTab) : Action → Bool
  | .reload => true
  | .setCurrentVersion version => tab.displayed && !tab.inIteration &&
      version != tab.currentVersion && tab.versions.any (fun v => v.version == some version)
  | .addCategory _ _ => tab.displayed && !tab.inIteration && tab.isLatest
  | .drag _ _ => tab.displayed
  | .deleteCategory categoryId => tab.tree.any (fun tree => deletable tree categoryId)
  | .startIteration => tab.displayed && !tab.inIteration && tab.isLatest
  | .exitIteration => tab.displayed && tab.inIteration
  | .completeIteration _ => tab.displayed && tab.inIteration
  | .addApi _ _ _ _ _ _ => tab.displayed && tab.inIteration
  | .copyApi _ => tab.displayed && tab.inIteration
  | .deleteApi _ => tab.displayed && tab.inIteration
  | .saveApiDraft _ _ _ _ _ _ _ _ => tab.displayed && tab.inIteration

def handle (tab : ServiceTab) : Action → Database × ServiceTab
  | .reload => (db, fetchAllVersions visit env db)
  | .setCurrentVersion version =>
    (db, fetchServiceDetail visit env db version { tab with currentVersion := version })
  | .addCategory categoryName description =>
    handleAddCategory visit db categoryName description tab
  | .drag dragNode dropNode => handleDrag visit db dragNode dropNode tab
  | .deleteCategory categoryId => handleDeleteCategory visit db categoryId tab
  | .startIteration => handleStartIteration visit env db tab
  | .exitIteration => (db, ServiceTabs.exitIteration visit env db tab)
  | .completeIteration newVersion => handleCompleteIteration visit env db newVersion tab
  | .addApi name method path description level categoryId =>
    handleAddApi visit env db name method path description level categoryId tab
  | .copyApi apiDraftId => handleCopyApi visit env db apiDraftId tab
  | .deleteApi apiDraftId => handleDeleteApi visit env db apiDraftId tab
  | .saveApiDraft apiDraftId name method path description level reqParams respParams =>
    handleSaveApiDraft visit env db apiDraftId name method path description level reqParams
      respParams tab

def perform (tab : ServiceTab) (action : Action) : Database × ServiceTab :=
  if offered tab action then handle visit env db tab action else (db, tab)

end Hooks

inductive TabEvent where
  | used (env : Environment) (action : Action)
  | other (request : Request)

def tabStep (visit : Visit) (state : Database × ServiceTab) :
    TabEvent → Except Abort (Database × ServiceTab)
  | .used env action => .ok (perform visit env state.1 state.2 action)
  | .other request => (fun db => (db, state.2)) <$> transaction state.1 request

end ServiceTabs
