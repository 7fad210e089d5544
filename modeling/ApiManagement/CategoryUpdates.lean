import ApiManagement.IterationCopies

/-! # Updates of categories

An update may give a new name, a new description or both. The handler looks for the given name
among all categories of the service, the one that is updated included, and writes both columns,
given or not. -/
namespace CategoryUpdates

open TransactionRuns KeyedTables PythonRuntime ServiceSchema ApiStores ServiceOperations
  ApiOperations OperationRuns StateInvariant IterationCopies

variable {db : Database} {category : ApiCategory} {userId : ℕ}
  {categoryName description : Option String}

def MayUpdate (db : Database) (category : ApiCategory) (userId : ℕ) : Prop :=
  ∃ s ∈ db.services.rows, s.id = category.serviceId ∧ OwnerRight db s userId

def Conflict (db : Database) (category : ApiCategory) (categoryName : Option String) : Prop :=
  ∃ c ∈ db.categories.rows, c.id ≠ category.id ∧ c.serviceId = category.serviceId ∧
    categoryName = some c.name.val

def Changes (category : ApiCategory) (categoryName description : Option String) : Prop :=
  ¬ (categoryName = none ∧ description = none) ∧
    ¬ (categoryName = some category.name.val ∧ description = category.description)

/-- Only a conflict is refused; else what is given is written, and nothing else. -/
def Exact (db : Database) (category : ApiCategory) (categoryName description : Option String)
    (outcome : Tx (Database × Reply ApiCategory)) : Prop :=
  (outcome = .error (.reply (-6) "Category name already exists") ↔
      Conflict db category categoryName) ∧
    (¬ Conflict db category categoryName → ∃ name : VarChar 64,
      name.val = categoryName.getD category.name.val ∧
      outcome = .ok ({ db with
        categories := db.categories.update category.id
          (renameCategory name (description.or category.description)) (fun _ => rfl) },
        ⟨200, "Update category success",
          renameCategory name (description.or category.description) category⟩))

theorem renameCategory_id (name : VarChar 64) (description : Option String) (c : ApiCategory) :
    (renameCategory name description c).id = c.id := rfl

def write (db : Database) (category : ApiCategory) (categoryName description : Option String) :
    Tx (Database × Reply ApiCategory) := do
  require (!db.categories.rows.any (fun c =>
    c.serviceId == category.serviceId && categoryName == some c.name.val))
    (.reply (-6) "Category name already exists")
  let newName ← notNull categoryName
  let name ← bound (VarChar.ofString 64 newName)
  pure ({ db with
    categories := db.categories.update category.id (renameCategory name description)
      (renameCategory_id name description) },
    ⟨200, "Update category success", renameCategory name description category⟩)

theorem update_eq_write (hreach : Reachable db) (hcategory : category ∈ db.categories.rows)
    (hmay : MayUpdate db category userId) (hchanges : Changes category categoryName description) :
    apiUpdateCategoryById category.id userId categoryName description db =
      write db category categoryName description := by
  obtain ⟨s, hs, hsid, hright⟩ := hmay
  obtain ⟨u, hu⟩ := Table.find?_of_contains
    (contains_of_maintainerRight (reachable_invariant hreach) hs hright.maintainer)
  have hcategory : db.categories.find? category.id = some category :=
    Table.find?_eq_some.mpr ⟨hcategory, rfl⟩
  have hs : db.services.find? category.serviceId = some s := Table.find?_eq_some.mpr ⟨hs, hsid⟩
  have hlevel : requireLevelZeroIf (s.ownerId != userId) (some u)
      (.reply (-3) "You are not the owner of this service") = .ok () := by
    rw [← hu]
    exact requireOwner_eq_ok.mpr hright
  have hgiven : (!(categoryName.isNone && description.isNone)) = true := by
    have hne := hchanges.1
    cases categoryName <;> cases description <;> simp_all
  have hchanged : (!(categoryName == some category.name.val &&
      description == category.description)) = true := by
    rw [Bool.not_eq_true', Bool.and_eq_false_iff, beq_eq_false_iff_ne, beq_eq_false_iff_ne]
    exact not_and_or.mp hchanges.2
  simp only [apiUpdateCategoryById, hcategory, hu, hs, hlevel, hgiven, hchanged, orAbort, require,
    if_true, bind, Except.bind]
  rfl

/-- The name is found among all categories of the service. -/
theorem found_iff : db.categories.rows.any (fun c =>
      c.serviceId == category.serviceId && categoryName == some c.name.val) = true ↔
    ∃ c ∈ db.categories.rows, c.serviceId = category.serviceId ∧
      categoryName = some c.name.val := by
  simp only [List.any_eq_true, Bool.and_eq_true, beq_iff_eq]

theorem write_of_found (h : ∃ c ∈ db.categories.rows, c.serviceId = category.serviceId ∧
      categoryName = some c.name.val) : write db category categoryName description =
    .error (.reply (-6) "Category name already exists") := by
  unfold write
  rw [found_iff.mpr h]
  rfl

theorem write_of_free (h : ¬ ∃ c ∈ db.categories.rows, c.serviceId = category.serviceId ∧
      categoryName = some c.name.val) : write db category categoryName description = (do
    let newName ← notNull categoryName
    let name ← bound (VarChar.ofString 64 newName)
    pure ({ db with
      categories := db.categories.update category.id (renameCategory name description)
        (fun _ => rfl) },
      ⟨200, "Update category success", renameCategory name description category⟩)) := by
  unfold write
  rw [← found_iff, Bool.not_eq_true] at h
  rw [h]
  rfl

theorem write_none : write db category none description = .error (.raised .integrityError) := by
  rw [write_of_free (by rintro ⟨_, _, _, h⟩; cases h)]
  rfl

theorem write_own (hcategory : category ∈ db.categories.rows) :
    write db category (some category.name.val) description =
      .error (.reply (-6) "Category name already exists") :=
  write_of_found ⟨category, hcategory, rfl, rfl⟩

variable (description) in
/-- A name that no category of the service has. -/
theorem write_some {newName : String} (h : ¬ ∃ c ∈ db.categories.rows,
      c.serviceId = category.serviceId ∧ some newName = some c.name.val) :
    (∀ name : VarChar 64, name.val = newName → write db category (some newName) description =
      .ok ({ db with
        categories := db.categories.update category.id (renameCategory name description)
          (fun _ => rfl) },
        ⟨200, "Update category success", renameCategory name description category⟩)) ∧
    (64 < newName.length → write db category (some newName) description =
      .error (.raised .dataError)) := by
  rw [write_of_free h]
  constructor
  · intro name hname
    change (bound (VarChar.ofString 64 newName) >>= _) = _
    rw [VarChar.ofString_eq_some.mpr hname]
    rfl
  · intro hlong
    change (bound (VarChar.ofString 64 newName) >>= _) = _
    have hnone : VarChar.ofString 64 newName = none := dif_neg (by omega)
    rw [hnone]
    rfl

/-- A name that no category has must fit, and a description that is not given is lost. -/
theorem exact_of_free {newName : String} (hconflict : ¬ Conflict db category (some newName))
    (hfree : ¬ ∃ c ∈ db.categories.rows, c.serviceId = category.serviceId ∧
      some newName = some c.name.val) :
    Exact db category (some newName) description
        (write db category (some newName) description) ↔
      newName.length ≤ 64 ∧ (description ≠ none ∨ category.description = none) := by
  obtain ⟨hfits, hlong⟩ := write_some description hfree
  by_cases hlength : newName.length ≤ 64
  · have hwrite := hfits ⟨newName, hlength⟩ rfl
    rw [hwrite]
    constructor
    · rintro ⟨_, hok⟩
      obtain ⟨name, _, heq⟩ := hok hconflict
      refine ⟨hlength, ?_⟩
      have hreply := congrArg (fun outcome => outcome.toOption.map (fun r => r.2.data.description))
        heq
      have hdescription : description = description.or category.description :=
        Option.some.inj hreply
      cases description with
      | none => exact Or.inr hdescription.symm
      | some text => exact Or.inl (fun h => nomatch h)
    · rintro ⟨_, hkept⟩
      refine ⟨iff_of_false (fun h => nomatch h) hconflict, ?_⟩
      intro _
      have hdescription : description.or category.description = description := by
        cases description with
        | none => exact hkept.resolve_left (fun h => h rfl)
        | some text => rfl
      rw [hdescription]
      exact ⟨⟨newName, hlength⟩, rfl, rfl⟩
  · rw [hlong (by omega)]
    refine iff_of_false ?_ (fun h => hlength h.1)
    rintro ⟨_, hok⟩
    obtain ⟨_, _, heq⟩ := hok hconflict
    cases heq

/-- An update is exact just when another category has the name, or the name is given, fits, is
not that of the category, and no description is lost. -/
theorem update_exact_iff (hreach : Reachable db) (hcategory : category ∈ db.categories.rows)
    (hmay : MayUpdate db category userId) (hchanges : Changes category categoryName description) :
    Exact db category categoryName description
        (apiUpdateCategoryById category.id userId categoryName description db) ↔
      Conflict db category categoryName ∨ ∃ newName, categoryName = some newName ∧
        newName ≠ category.name.val ∧ newName.length ≤ 64 ∧
          (description ≠ none ∨ category.description = none) := by
  rw [update_eq_write hreach hcategory hmay hchanges]
  by_cases hconflict : Conflict db category categoryName
  · refine iff_of_true ?_ (Or.inl hconflict)
    have hfound : ∃ c ∈ db.categories.rows, c.serviceId = category.serviceId ∧
        categoryName = some c.name.val := by
      obtain ⟨c, hc, _, hservice, hname⟩ := hconflict
      exact ⟨c, hc, hservice, hname⟩
    exact ⟨iff_of_true (write_of_found hfound) hconflict, fun h => absurd hconflict h⟩
  · rw [or_iff_right hconflict]
    cases categoryName with
    | none =>
      rw [write_none]
      refine iff_of_false ?_ (by rintro ⟨_, h, _⟩; cases h)
      rintro ⟨_, hok⟩
      obtain ⟨_, _, heq⟩ := hok hconflict
      cases heq
    | some newName =>
      by_cases hown : newName = category.name.val
      · subst hown
        rw [write_own hcategory]
        refine iff_of_false ?_ ?_
        · exact fun h => hconflict (h.1.mp rfl)
        · rintro ⟨_, h, hne, _⟩
          exact hne (Option.some.inj h).symm
      · have hfree : ¬ ∃ c ∈ db.categories.rows, c.serviceId = category.serviceId ∧
            some newName = some c.name.val := by
          rintro ⟨c, hc, hservice, hname⟩
          by_cases hid : c.id = category.id
          · have hsame : c = category := db.categories.eq_of_key_eq hc hcategory hid
            rw [hsame] at hname
            exact hown (Option.some.inj hname)
          · exact hconflict ⟨c, hc, hid, hservice, hname⟩
        rw [exact_of_free hconflict hfree]
        constructor
        · exact fun h => ⟨newName, rfl, hown, h⟩
        · rintro ⟨_, h, _, hrest⟩
          cases h
          exact hrest

def categorised : Database := play published [.apiAddCategoryByServiceId 1 1 "users" none]

def usersCategory : ApiCategory := ⟨1, 1, ⟨"users", by decide⟩, none⟩

theorem categorised_reachable : Reachable categorised := published_reachable.play _

theorem users_listed : usersCategory ∈ categorised.categories.rows := by decide +kernel

theorem owner_may_update : MayUpdate categorised usersCategory 1 := by
  have howned : ∃ s ∈ categorised.services.rows, s.id = 1 ∧ s.ownerId = 1 := by decide +kernel
  obtain ⟨s, hs, hsid, howner⟩ := howned
  exact ⟨s, hs, hsid, Or.inl howner⟩

/-- It gets another name. -/
theorem renaming_exact : Exact categorised usersCategory (some "people") none
    (apiUpdateCategoryById 1 1 (some "people") none categorised) :=
  (update_exact_iff categorised_reachable users_listed owner_may_update
    (by unfold Changes; decide)).mpr
      (Or.inr ⟨"people", rfl, by decide, by decide, Or.inr rfl⟩)

/-- It is given a description alone, and the name is written as NULL. -/
theorem description_refused :
    (Reachable categorised ∧ usersCategory ∈ categorised.categories.rows ∧
      MayUpdate categorised usersCategory 1 ∧
      Changes usersCategory none (some "All about users.")) ∧
    apiUpdateCategoryById 1 1 none (some "All about users.") categorised =
      .error (.raised .integrityError) ∧
    ¬ Exact categorised usersCategory none (some "All about users.")
      (apiUpdateCategoryById 1 1 none (some "All about users.") categorised) := by
  have hchanges : Changes usersCategory none (some "All about users.") := by
    unfold Changes
    decide
  have herror : apiUpdateCategoryById 1 1 none (some "All about users.") categorised =
      .error (.raised .integrityError) :=
    (update_eq_write categorised_reachable users_listed owner_may_update hchanges).trans write_none
  refine ⟨⟨categorised_reachable, users_listed, owner_may_update, hchanges⟩, herror, ?_⟩
  rw [herror]
  rintro ⟨_, hok⟩
  obtain ⟨_, _, heq⟩ := hok (by rintro ⟨_, _, _, _, h⟩; cases h)
  cases heq

end CategoryUpdates
