import ApiManagement.PagedLists
import ApiManagement.ReadOperations
import Mathlib.Algebra.Group.Nat.Defs

/-! # Pages of services

Four handlers return services in pages, each page by a query of its own. Three of them sort by
the id. The list of deleted services is sorted by the time of deletion alone, so services that
were deleted at the same time may be on two pages, or on none. -/
namespace ServicePages

open TransactionRuns KeyedTables PythonRuntime ServiceSchema OperationRuns ReadOperations
  PagedLists

/-- The deleted services are those of the caller. -/
inductive Listing where
  | all
  | newestOf (ownerId : ℕ)
  | maintainedBy (userId : ℕ)
  | deleted

namespace Listing

variable (db : Database) (caller : ℕ)

def fetchPage (env : Environment) (pageSize currentPage : ℤ) : Listing → Tx (Reply ServicePage)
  | .all => serviceGetAllServices caller pageSize currentPage db
  | .newestOf ownerId =>
    serviceGetHisNewestServicesByOwnerId ownerId caller pageSize currentPage db
  | .maintainedBy userId =>
    serviceGetHisMaintainedServicesByUserId userId caller pageSize currentPage db
  | .deleted => serviceGetAllDeletedServicesByUserId env caller pageSize currentPage db

def matching : Listing → List Service
  | .all => db.services.rows
  | .newestOf ownerId => db.services.rows.filter (fun s => !s.isDeleted && s.ownerId == ownerId)
  | .maintainedBy userId => db.services.rows.filter (fun s =>
      !s.isDeleted && (maintainers db s.id).any (fun u => u.id == userId))
  | .deleted => db.services.rows.filter (fun s => s.isDeleted && s.ownerId == caller)

def precedes : Listing → Service → Service → Bool
  | .deleted => deletedLater
  | _ => fun s t => t.id ≤ s.id

def entry : Listing → Service → ServiceEntry
  | .all => serviceEntry true true db
  | .newestOf ownerId => serviceEntry (ownerId != caller) false db
  | .maintainedBy _ => serviceEntry true false db
  | .deleted => serviceEntry false true db

def message : Listing → String
  | .deleted => "Get deleted services success"
  | _ => "Get services success"

/-- All services are for users at level zero; the lists of another user as well. -/
def Admissible : Listing → Prop
  | .all => AtLevelZero db caller
  | .newestOf userId => AtLevelZero db caller ∨
      db.users.contains caller = true ∧ userId = caller
  | .maintainedBy userId => AtLevelZero db caller ∨
      db.users.contains caller = true ∧ userId = caller
  | .deleted => True

def answer (env : Environment) (listing : Listing) : List Service :=
  match listing with
  | .deleted => (env.fetch (matching db caller .deleted)).mergeSort deletedLater
  | listing => newestFirst (matching db caller listing)

end Listing

open Listing

/-- A page for each number, from queries that may each see rows in another order: the pages that
are needed hold every service that matches once, those after them none. -/
def PagesPartition (db : Database) (caller : ℕ) (listing : Listing) (size later : ℕ) : Prop :=
  ∀ queries : ℕ → Environment, ∃ pages : ℕ → List ServiceEntry,
    (∀ index < pageCount (matching db caller listing).length size + later,
      fetchPage db caller (queries index) size (index + 1 : ℕ) listing = .ok ⟨200, message listing,
        ⟨pages index, (matching db caller listing).length⟩⟩) ∧
    ((List.range (pageCount (matching db caller listing).length size)).flatMap pages).Perm
      ((matching db caller listing).map (entry db caller listing)) ∧
    ∀ index, pageCount (matching db caller listing).length size ≤ index →
      index < pageCount (matching db caller listing).length size + later → pages index = []

structure Fits (total size later : ℕ) : Prop where
  limit : size < 2 ^ 63
  offset : (pageCount total size + later - 1) * size < 2 ^ 63

/-- No services that were deleted at the same time are on two pages. -/
def NoTies (db : Database) (caller size : ℕ) : Prop :=
  ∀ index, ¬ Splits deletedLater (matching db caller .deleted) (index * size)

theorem page_eq {α : Type} (size index : ℕ) (rows : List α) :
    page (size : ℤ) (index + 1 : ℕ) rows =
      if size < 2 ^ 63 ∧ index * size < 2 ^ 63 then .ok (window size index rows)
      else .error (.raised .dataError) := by
  have hoffset : (((index + 1 : ℕ) : ℤ) - 1) * (size : ℤ) = ((index * size : ℕ) : ℤ) := by
    have hindex : ((index + 1 : ℕ) : ℤ) - 1 = index := by omega
    rw [hindex, Int.natCast_mul]
  have hrequire : (decide (0 ≤ (size : ℤ)) && decide ((size : ℤ) < 2 ^ 63) &&
      decide (0 ≤ ((index * size : ℕ) : ℤ)) && decide (((index * size : ℕ) : ℤ) < 2 ^ 63)) =
        decide (size < 2 ^ 63 ∧ index * size < 2 ^ 63) := by
    generalize index * size = offset
    rw [Bool.eq_iff_iff]
    simp only [Bool.and_eq_true, decide_eq_true_eq]
    omega
  unfold page
  dsimp only
  rw [hoffset, hrequire]
  by_cases hfits : size < 2 ^ 63 ∧ index * size < 2 ^ 63
  · rw [if_pos hfits, decide_eq_true hfits]
    rfl
  · rw [if_neg hfits, decide_eq_false hfits]
    rfl

theorem level_required {db : Database} {caller : ℕ} (h : AtLevelZero db caller)
    (failure : Abort) : requireLevelZeroIf true (db.users.find? caller) failure = .ok () := by
  obtain ⟨u, hu, rfl, hlevel⟩ := h
  exact requireLevelZeroIf_eq_ok.mpr (fun _ => ⟨u, Table.find?_eq_some.mpr ⟨hu, rfl⟩, hlevel⟩)

theorem self_required {db : Database} {caller userId : ℕ}
    (h : AtLevelZero db caller ∨ db.users.contains caller = true ∧ userId = caller)
    (failure : Abort) : requireSelfOrLevelZero db userId caller failure = .ok () := by
  unfold requireSelfOrLevelZero
  rcases h with ⟨u, hu, rfl, hlevel⟩ | ⟨hcaller, rfl⟩
  · have hfind : db.users.find? u.id = some u := Table.find?_eq_some.mpr ⟨hu, rfl⟩
    rw [hfind, bind_eq_ok]
    exact ⟨u, rfl, by simp [hlevel]⟩
  · obtain ⟨u, hfind⟩ := Table.find?_of_contains hcaller
    rw [hfind, bind_eq_ok]
    exact ⟨u, rfl, by simp⟩

/-- An admissible caller gets the page. -/
theorem fetchPage_eq_page {db : Database} {caller : ℕ} {listing : Listing}
    (h : Admissible db caller listing) (env : Environment) (pageSize currentPage : ℤ) :
    fetchPage db caller env pageSize currentPage listing = (do
      let services ← page pageSize currentPage (answer db caller env listing)
      pure ⟨200, message listing,
        ⟨services.map (entry db caller listing), (matching db caller listing).length⟩⟩) := by
  cases listing with
  | all =>
    rw [fetchPage, serviceGetAllServices, level_required h]
    rfl
  | newestOf ownerId =>
    rw [fetchPage, serviceGetHisNewestServicesByOwnerId, self_required h]
    rfl
  | maintainedBy userId =>
    rw [fetchPage, serviceGetHisMaintainedServicesByUserId, self_required h]
    rfl
  | deleted => rfl

theorem fetchPage_eq {db : Database} {caller : ℕ} {listing : Listing}
    (h : Admissible db caller listing) (env : Environment) (size index : ℕ) :
    fetchPage db caller env size (index + 1 : ℕ) listing =
      if size < 2 ^ 63 ∧ index * size < 2 ^ 63 then
        .ok ⟨200, message listing, ⟨(window size index (answer db caller env listing)).map
          (entry db caller listing), (matching db caller listing).length⟩⟩
      else .error (.raised .dataError) := by
  rw [fetchPage_eq_page h, page_eq]
  by_cases hfits : size < 2 ^ 63 ∧ index * size < 2 ^ 63
  · rw [if_pos hfits, if_pos hfits]
    rfl
  · rw [if_neg hfits, if_neg hfits]
    rfl

theorem precedes_preorders (listing : Listing) : Preorders (precedes listing) := by
  cases listing with
  | deleted =>
    constructor
    · intro s t
      show deletedLater s t = true ∨ deletedLater t s = true
      unfold deletedLater
      cases s.deletedAt with
      | none => exact Or.inl rfl
      | some a =>
        cases t.deletedAt with
        | none => exact Or.inr rfl
        | some b =>
          simp only [decide_eq_true_eq]
          omega
    · intro s t u
      show deletedLater s t = true → deletedLater t u = true → deletedLater s u = true
      unfold deletedLater
      cases s.deletedAt with
      | none => exact fun _ _ => rfl
      | some a =>
        cases t.deletedAt with
        | none => exact fun h => nomatch h
        | some b =>
          cases u.deletedAt with
          | none => exact fun _ h => nomatch h
          | some c =>
            simp only [decide_eq_true_eq]
            omega
  | _ =>
    constructor
    · intro s t
      simp only [precedes, decide_eq_true_eq]
      omega
    · intro s t u
      simp only [precedes, decide_eq_true_eq]
      omega

theorem matching_sublist (db : Database) (caller : ℕ) (listing : Listing) :
    (matching db caller listing).Sublist db.services.rows := by
  cases listing with
  | all => exact List.Sublist.refl _
  | _ => exact List.filter_sublist

theorem matching_nodup (db : Database) (caller : ℕ) (listing : Listing) :
    ((matching db caller listing).map Service.id).Nodup :=
  db.services.nodup.sublist ((matching_sublist db caller listing).map _)

theorem answer_arranged (db : Database) (caller : ℕ) (env : Environment) (listing : Listing) :
    Arranged (precedes listing) (matching db caller listing) (answer db caller env listing) := by
  have hsorted := arranged_mergeSort (precedes_preorders listing)
  cases listing with
  | deleted =>
    have h := hsorted (env.fetch (matching db caller .deleted))
    exact ⟨h.perm.trans (env.fetch_perm _), h.sorted⟩
  | _ => exact hsorted _

/-- The ids tell the services apart, so only the order by the time of deletion has ties. -/
theorem splits_deleted {db : Database} {caller : ℕ} {listing : Listing} {position : ℕ}
    (h : Splits (precedes listing) (matching db caller listing) position) :
    listing = .deleted := by
  have hids := matching_nodup db caller listing
  by_contra hlisting
  refine not_splits_of_antisymm (precedes_preorders listing) hids.of_map ?_ position h
  intro s hs t ht hst hts
  apply List.inj_on_of_nodup_map hids hs ht
  cases listing with
  | deleted => exact absurd rfl hlisting
  | _ =>
    simp only [precedes, decide_eq_true_eq] at hst hts
    omega

/-- Every sorted arrangement of the deleted services is the answer of some query. -/
theorem exists_environment {db : Database} {caller : ℕ} {services : List Service}
    (h : Arranged deletedLater (matching db caller .deleted) services) :
    ∃ env : Environment, answer db caller env .deleted = services := by
  obtain ⟨positions, hperm, hservices⟩ := exists_positions h.perm
  refine ⟨{ plainEnvironment with
    fetch := rearrange positions, fetch_perm := rearrange_perm hperm }, ?_⟩
  show (rearrange positions _).mergeSort deletedLater = services
  rw [hservices]
  exact List.mergeSort_of_pairwise h.sorted

section Pages

variable {db : Database} {caller size later : ℕ} {listing : Listing} {queries : ℕ → Environment}
  {pages : ℕ → List ServiceEntry}

/-- The replies of all pages, as the pages of the answers. -/
theorem pages_eq (hadm : Admissible db caller listing) {count : ℕ}
    (hpages : ∀ index < count, fetchPage db caller (queries index) size (index + 1 : ℕ) listing =
      .ok ⟨200, message listing, ⟨pages index, (matching db caller listing).length⟩⟩) :
    ∀ index < count, (size < 2 ^ 63 ∧ index * size < 2 ^ 63) ∧
      pages index = (window size index (answer db caller (queries index) listing)).map
        (entry db caller listing) := by
  intro index hindex
  have hpage := hpages index hindex
  rw [fetchPage_eq hadm] at hpage
  by_cases hfits : size < 2 ^ 63 ∧ index * size < 2 ^ 63
  · rw [if_pos hfits] at hpage
    injection hpage with hreply
    injection hreply with _ _ hdata
    injection hdata with hservices _
    exact ⟨hfits, hservices.symm⟩
  · rw [if_neg hfits] at hpage
    cases hpage

theorem entries_eq {count : ℕ} {answers : ℕ → List Service}
    (hpages : ∀ index < count, pages index =
      (window size index (answers index)).map (entry db caller listing)) :
    (List.range count).flatMap pages =
      (windows size count answers).map (entry db caller listing) := by
  rw [windows, List.map_flatMap]
  exact List.flatMap_congr (fun index hindex => hpages index (List.mem_range.mp hindex))

theorem entry_id (db : Database) (caller : ℕ) (listing : Listing) (s : Service) :
    (entry db caller listing s).id = s.id := by
  cases listing <;> rfl

/-- The entries hold the ids, which tell the services apart. -/
theorem perm_of_entries {services : List Service}
    (hsub : ∀ s ∈ services, s ∈ matching db caller listing)
    (h : (services.map (entry db caller listing)).Perm
      ((matching db caller listing).map (entry db caller listing))) :
    services.Perm (matching db caller listing) := by
  have hids : (services.map Service.id).Perm ((matching db caller listing).map Service.id) := by
    have hmap := h.map ServiceEntry.id
    rw [List.map_map, List.map_map] at hmap
    have hcomp : ServiceEntry.id ∘ entry db caller listing = Service.id :=
      funext (entry_id db caller listing)
    rw [hcomp] at hmap
    exact hmap
  have hnodup : services.Nodup :=
    (hids.nodup_iff.mpr (matching_nodup db caller listing)).of_map
  have hlength := hids.length_eq
  rw [List.length_map, List.length_map] at hlength
  exact (hnodup.subperm hsub).perm_of_length_le hlength.ge

theorem mem_windows_matching {count : ℕ} {answers : ℕ → List Service} {s : Service}
    (harranged : ∀ index, Arranged (precedes listing) (matching db caller listing) (answers index))
    (hs : s ∈ windows size count answers) : s ∈ matching db caller listing := by
  obtain ⟨index, -, hs⟩ := List.mem_flatMap.mp hs
  exact (harranged index).perm.mem_iff.mp (List.mem_of_mem_drop (List.mem_of_mem_take hs))

/-- A service at the end of a page can change places with its successor in the next query. -/
theorem no_ties_of_partition (hsize : 1 ≤ size)
    (h : PagesPartition db caller .deleted size later) : NoTies db caller size := by
  have hcount := le_pageCount hsize (matching db caller .deleted).length
  have hnodup := (matching_nodup db caller .deleted).of_map
  apply (windows_perm_iff (precedes_preorders .deleted) hnodup hsize hcount).mp
  intro answers hanswers
  choose queries hqueries using fun index => exists_environment (hanswers index)
  obtain ⟨pages, hpages, hperm, -⟩ := h queries
  have hadm : Admissible db caller .deleted := trivial
  have heq := pages_eq hadm hpages
  rw [entries_eq (fun index hindex => hqueries index ▸ (heq index (by omega)).2)] at hperm
  exact perm_of_entries (fun s hs => mem_windows_matching hanswers hs) hperm

theorem fits_of_partition (hadm : Admissible db caller listing) (hlater : 1 ≤ later)
    (h : PagesPartition db caller listing size later) :
    Fits (matching db caller listing).length size later := by
  obtain ⟨pages, hpages, -, -⟩ := h (fun _ => plainEnvironment)
  obtain ⟨⟨hlimit, hoffset⟩, -⟩ := pages_eq hadm hpages
    (pageCount (matching db caller listing).length size + later - 1) (by omega)
  exact ⟨hlimit, hoffset⟩

/-- The pages partition the list just when `LIMIT` and `OFFSET` are 64-bit and, of the deleted
services, no two that were deleted at the same time are on the two sides of a page end. -/
theorem pages_partition_iff (hadm : Admissible db caller listing) (hsize : 1 ≤ size)
    (hlater : 1 ≤ later) :
    PagesPartition db caller listing size later ↔
      Fits (matching db caller listing).length size later ∧
        (listing = .deleted → NoTies db caller size) := by
  constructor
  · intro h
    refine ⟨fits_of_partition hadm hlater h, ?_⟩
    rintro rfl
    exact no_ties_of_partition hsize h
  · rintro ⟨hfits, hties⟩ queries
    have hpage : ∀ index < pageCount (matching db caller listing).length size + later,
        size < 2 ^ 63 ∧ index * size < 2 ^ 63 := by
      intro index hindex
      refine ⟨hfits.limit, lt_of_le_of_lt ?_ hfits.offset⟩
      exact Nat.mul_le_mul_right size (by omega)
    have hnone : ∀ index,
        ¬ Splits (precedes listing) (matching db caller listing) (index * size) := by
      intro index hsplit
      obtain rfl := splits_deleted hsplit
      exact hties rfl index hsplit
    have harranged := fun index => answer_arranged db caller (queries index) listing
    refine ⟨fun index => (window size index (answer db caller (queries index) listing)).map
      (entry db caller listing), ?_, ?_, ?_⟩
    · intro index hindex
      rw [fetchPage_eq hadm, if_pos (hpage index hindex)]
    · have hcount := le_pageCount hsize (matching db caller listing).length
      have hnodup := (matching_nodup db caller listing).of_map
      have hwindows := (windows_perm_iff (precedes_preorders listing) hnodup hsize hcount).mpr
        hnone _ harranged
      rw [entries_eq (fun index _ => rfl)]
      exact hwindows.map _
    · intro index hlarge _
      have hlength := (harranged index).perm.length_eq
      beta_reduce
      rw [window_eq_nil (hlength ▸ le_of_pageCount_le hsize hlarge), List.map_nil]

end Pages

def bothDeleted : Database :=
  play twoUsers [.serviceCreateNewService "team/core" 1 none,
    .serviceCreateNewService "team/web" 1 none, .serviceDeleteServiceById 1 1,
    .serviceDeleteServiceById 2 1]

def deletedInTurn : Database :=
  runEvents transaction
    (play twoUsers [.serviceCreateNewService "team/core" 1 none,
      .serviceCreateNewService "team/web" 1 none, .serviceDeleteServiceById 1 1])
    [⟨{ plainEnvironment with now := 1700000001 }, .serviceDeleteServiceById 2 1⟩]

/-- Two pages of one service, and an empty one. -/
theorem one_on_each_page : PagesPartition deletedInTurn 1 .deleted 1 1 ∧
    pageCount (matching deletedInTurn 1 .deleted).length 1 = 2 := by
  have hadm : Admissible deletedInTurn 1 .deleted := trivial
  refine ⟨(pages_partition_iff hadm le_rfl le_rfl).mpr ⟨⟨by decide, by decide +kernel⟩, ?_⟩,
    by decide +kernel⟩
  intro _ index
  have hapart : ∀ s ∈ matching deletedInTurn 1 .deleted,
      (matching deletedInTurn 1 .deleted).countP (fun t => deletedLater t s) ≤
        (matching deletedInTurn 1 .deleted).countP (fun t => !deletedLater s t) + 1 := by
    decide +kernel
  rintro ⟨s, hs, hbefore, hupTo⟩
  have hle := hapart s hs
  omega

theorem same_time_on_two_pages :
    Reachable bothDeleted ∧ ¬ PagesPartition bothDeleted 1 .deleted 1 1 := by
  refine ⟨Reachable.play twoUsers_reachable _, fun h => ?_⟩
  apply no_ties_of_partition le_rfl h 1
  exact ⟨⟨1, 1, ⟨"team/core", by decide⟩, ⟨"0.0.1", by decide⟩, none, true,
    some 1700000000⟩,
    by decide +kernel, by decide +kernel, by decide +kernel⟩

end ServicePages
