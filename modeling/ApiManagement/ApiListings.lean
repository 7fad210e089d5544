import ApiManagement.ReadOperations
import ApiManagement.VersionFidelity

/-! # Two listings of apis

The apis of a service are listed by `apiGetAllApisByServiceId`, and as part of the service by
`serviceGetServiceByUuidAndVersion`. The first filters on a column that the class `Api` does not
have. -/
namespace ApiListings

open TransactionRuns KeyedTables PythonRuntime ServiceSchema ApiStores ServiceOperations
  ReadOperations OperationRuns StateInvariant IterationCopies VersionFidelity

def apiAttributes : List String :=
  ["id", "service_id", "service", "owner_id", "owner", "category_id", "category", "name", "method",
    "path", "description", "level", "is_enabled", "created_at", "updated_at", "request_params",
    "response_params"]

def queried : List String := ["service_id", "is_deleted", "category_id", "id"]

def inCategory (categoryId : Option ℕ) (a : Api) : Bool :=
  match categoryId with
  | none => true
  | some k => a.fields.categoryId == some k

/-- The rows of the query, when no api is marked as deleted. -/
def listed (db : Database) (serviceId : ℕ) (categoryId : Option ℕ) : List Api :=
  ((db.live.apisOf serviceId).filter (inCategory categoryId)).mergeSort (fun a b => b.id ≤ a.id)

def listing (attributes : List String) (serviceId userId : ℕ) (categoryId : Option ℕ)
    (db : Database) : Tx (Reply (List Api)) := do
  let service ← orAbort (db.services.find? serviceId) (.reply (-1) "Service not found")
  requireLevelZeroIf (service.ownerId != userId) (db.users.find? userId)
    (.reply (-2) "You are not the owner of this service")
  require (queried.all (fun name => attributes.contains name)) (.raised .attributeError)
  pure ⟨200, "Get all apis success", listed db serviceId categoryId⟩

/-- The first listing gives the apis of the category in the second, the latest first. -/
def Agrees (categoryId : Option ℕ) (first : Tx (Reply (List Api)))
    (second : Tx (Reply VersionDetail)) : Prop :=
  ∃ apis detail, first = .ok apis ∧ second = .ok detail ∧
    apis.data.Pairwise (fun a b => b.id < a.id) ∧
    ∀ a, a ∈ apis.data ↔ a ∈ detail.data.apis ∧ inCategory categoryId a = true

variable {env : Environment} {db : Database} {s : Service} {userId : ℕ} {categoryId : Option ℕ}
  {serviceUuid : String}

theorem apiGetAllApisByServiceId_eq_listing (serviceId : ℕ) :
    apiGetAllApisByServiceId serviceId userId categoryId db =
      listing apiAttributes serviceId userId categoryId db := by
  have hmissing : queried.all (fun name => apiAttributes.contains name) = false := by decide
  unfold apiGetAllApisByServiceId listing
  rw [hmissing]
  rfl

theorem mem_listed {a : Api} : a ∈ listed db s.id categoryId ↔
    a ∈ db.live.apisOf s.id ∧ inCategory categoryId a = true := by
  rw [listed, (List.mergeSort_perm _ _).mem_iff, List.mem_filter]

theorem listed_descending (db : Database) (serviceId : ℕ) (categoryId : Option ℕ) :
    (listed db serviceId categoryId).Pairwise (fun a b => b.id < a.id) := by
  have hsorted : (listed db serviceId categoryId).Pairwise
      (fun a b => decide (b.id ≤ a.id) = true) := by
    apply List.pairwise_mergeSort
    · intro a b c hab hbc
      simp only [decide_eq_true_eq] at hab hbc ⊢
      omega
    · intro a b
      simp only [Bool.or_eq_true, decide_eq_true_eq]
      omega
  have hdistinct : (listed db serviceId categoryId).Pairwise (fun a b => a.id ≠ b.id) := by
    rw [← List.pairwise_map (f := ApiRow.id) (R := fun i j => i ≠ j)]
    refine List.Nodup.perm ?_ ((List.mergeSort_perm _ _).symm.map ApiRow.id)
    exact db.live.apis.nodup.sublist
      ((List.filter_sublist.trans List.filter_sublist).map ApiRow.id)
  refine (hsorted.and hdistinct).imp ?_
  rintro a b ⟨hle, hne⟩
  have hle := of_decide_eq_true hle
  omega

theorem listing_of_owner (hs : s ∈ db.services.rows) (hright : OwnerRight db s userId)
    (attributes : List String) : listing attributes s.id userId categoryId db =
      if queried.all (fun name => attributes.contains name) then
        .ok ⟨200, "Get all apis success", listed db s.id categoryId⟩
      else .error (.raised .attributeError) := by
  have hfind : db.services.find? s.id = some s := Table.find?_eq_some.mpr ⟨hs, rfl⟩
  have hlevel : requireLevelZeroIf (s.ownerId != userId) (db.users.find? userId)
      (.reply (-2) "You are not the owner of this service") = .ok () :=
    requireOwner_eq_ok.mpr hright
  simp only [listing, hfind, orAbort, hlevel, require, bind, Except.bind]
  cases queried.all (fun name => attributes.contains name) <;> rfl

/-- The listings would agree for a class that has the attributes, and for no other. -/
theorem listing_agrees_iff (hreach : Reachable db) (hs : s ∈ db.services.rows)
    (halive : s.isDeleted = false) (huuid : strip (unquote serviceUuid) = s.serviceUuid.val)
    (hright : OwnerRight db s userId) (attributes : List String) :
    Agrees categoryId (listing attributes s.id userId categoryId db)
        (serviceGetServiceByUuidAndVersion env serviceUuid "latest" userId db) ↔
      ∀ name ∈ queried, name ∈ attributes := by
  have hi := reachable_invariant hreach
  obtain ⟨u, hu⟩ := Table.find?_of_contains (contains_of_maintainerRight hi hs hright.maintainer)
  rw [listing_of_owner hs hright, latest_version_read hi hu hs halive huuid (Or.inr rfl)
    hright.maintainer env]
  have hall : queried.all (fun name => attributes.contains name) = true ↔
      ∀ name ∈ queried, name ∈ attributes := by
    simp only [List.all_eq_true, List.contains_iff_mem]
  rw [← hall]
  by_cases hnames : queried.all (fun name => attributes.contains name) = true
  · rw [if_pos hnames]
    refine iff_of_true ⟨_, _, rfl, rfl, listed_descending db s.id categoryId, ?_⟩ hnames
    intro a
    rw [mem_listed]
    exact and_congr_left' env.mem_fetch.symm
  · rw [if_neg hnames]
    refine iff_of_false ?_ hnames
    rintro ⟨_, _, h, _⟩
    cases h

/-- As the class is, the first listing raises for everyone who may read the service. -/
theorem listings_disagree (hreach : Reachable db) (hs : s ∈ db.services.rows)
    (halive : s.isDeleted = false) (huuid : strip (unquote serviceUuid) = s.serviceUuid.val)
    (hright : OwnerRight db s userId) (categoryId : Option ℕ) (env : Environment) :
    apiGetAllApisByServiceId s.id userId categoryId db = .error (.raised .attributeError) ∧
      ¬ Agrees categoryId (apiGetAllApisByServiceId s.id userId categoryId db)
        (serviceGetServiceByUuidAndVersion env serviceUuid "latest" userId db) := by
  rw [apiGetAllApisByServiceId_eq_listing]
  refine ⟨?_, ?_⟩
  · rw [listing_of_owner hs hright, if_neg (by decide)]
  · rw [listing_agrees_iff hreach hs halive huuid hright]
    decide

/-- The owner lists all apis of the published service. -/
theorem core_listing_raises :
    apiGetAllApisByServiceId publishedService.id 1 none published =
        .error (.raised .attributeError) ∧
      ¬ Agrees none (apiGetAllApisByServiceId publishedService.id 1 none published)
        (serviceGetServiceByUuidAndVersion plainEnvironment "team/core" "latest" 1 published) :=
  listings_disagree published_reachable (by decide +kernel) rfl (by decide +kernel) (Or.inl rfl)
    none plainEnvironment

/-- Those of one category cannot be listed either. -/
theorem category_listing_raises :
    (Reachable published ∧ publishedService ∈ published.services.rows ∧
      publishedService.isDeleted = false ∧ OwnerRight published publishedService 1) ∧
    ¬ Agrees (some 1) (apiGetAllApisByServiceId publishedService.id 1 (some 1) published)
      (serviceGetServiceByUuidAndVersion plainEnvironment "team/core" "latest" 1 published) := by
  refine ⟨⟨published_reachable, by decide +kernel, rfl, Or.inl rfl⟩, ?_⟩
  rintro ⟨_, _, h, _⟩
  have hraised : (apiGetAllApisByServiceId publishedService.id 1 (some 1) published).isOk =
      false := by decide +kernel
  rw [h] at hraised
  cases hraised

end ApiListings
