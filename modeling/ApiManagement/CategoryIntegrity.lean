import ApiManagement.StateInvariant

/-! # Categories

An api refers to a category of its own service or to none, in the live tables and in the
drafts of every iteration, and the categories of one service have distinct names. The foreign
keys only ask that the category exists; that it is one of the service is checked by the writers
of references, and deletion clears them. The names are declared unique in a service, but
requests that are served one after the other never meet this constraint: both writers of names
look for an equal one first. -/
namespace CategoryIntegrity

open TransactionRuns KeyedTables ServiceSchema ApiOperations OperationRuns OperationEffects
  StateInvariant

def NamesDistinct (categories : List ApiCategory) : Prop :=
  ∀ c ∈ categories, ∀ d ∈ categories, c.serviceId = d.serviceId → c.name = d.name → c = d

/-- The reference is empty, or to a category of the service. -/
def CategoryOf (db : Database) (serviceId : ℕ) (categoryId : Option ℕ) : Prop :=
  categoryId = none ∨
    ∃ c ∈ db.categories.rows, categoryId = some c.id ∧ c.serviceId = serviceId

structure CategoriesSound (db : Database) : Prop where
  live : ∀ a ∈ db.live.apis.rows, CategoryOf db a.container a.fields.categoryId
  drafts : ∀ a ∈ db.drafts.apis.rows, ∃ i ∈ db.iterations.rows, i.id = a.container ∧
    CategoryOf db i.serviceId a.fields.categoryId
  names : NamesDistinct db.categories.rows

theorem NamesDistinct.snoc {categories : List ApiCategory} {c : ApiCategory}
    (h : NamesDistinct categories)
    (hfree : ∀ d ∈ categories, d.serviceId = c.serviceId → d.name ≠ c.name) :
    NamesDistinct (categories ++ [c]) := by
  intro d hd e he hs hn
  rw [List.mem_append, List.mem_singleton] at hd he
  rcases hd with hd | rfl <;> rcases he with he | rfl
  · exact h d hd e he hs hn
  · exact absurd hn (hfree d hd hs)
  · exact absurd hn.symm (hfree e he hs.symm)
  · rfl

theorem NamesDistinct.rename {t : Table ApiCategory} {c : ApiCategory} (hc : c ∈ t.rows)
    {name : VarChar 64} {description : Option String} (h : NamesDistinct t.rows)
    (hfree : ∀ d ∈ t.rows, d.serviceId = c.serviceId → d.name ≠ name) :
    NamesDistinct (t.update c.id (renameCategory name description) (fun _ => rfl)).rows := by
  intro x hx y hy hs hn
  obtain ⟨d, hd, _, hdx⟩ :=
    t.update_origin (f := renameCategory name description) (fun _ => rfl) hx
  obtain ⟨e, he, _, hey⟩ :=
    t.update_origin (f := renameCategory name description) (fun _ => rfl) hy
  rcases hdx with ⟨hdc, rfl⟩ | ⟨_, rfl⟩ <;> rcases hey with ⟨hec, rfl⟩ | ⟨_, rfl⟩
  · rw [t.eq_of_key_eq hd he (hdc.trans hec.symm)]
  · rw [t.eq_of_key_eq hd hc hdc] at hs
    exact absurd hn.symm (hfree y he hs.symm)
  · rw [t.eq_of_key_eq he hc hec] at hs
    exact absurd hn (hfree x hd hs)
  · exact h x hd y he hs hn

theorem effect_preserves_names {env : PythonRuntime.Environment} {db db' : Database}
    {operation : Operation} (he : Effect env db operation db')
    (h : NamesDistinct db.categories.rows) : NamesDistinct db'.categories.rows := by
  cases he with
  | categoryAdded _ _ _ hs hname hfree =>
    apply h.snoc
    intro d hd hds hn
    exact hfree d hd (hds.trans hs) ((congrArg VarChar.val hn).trans hname)
  | categoryDeleted _ _ _ _ _ =>
    intro c hc d hd
    exact h c (List.mem_of_mem_filter hc) d (List.mem_of_mem_filter hd)
  | categoryUpdated hc _ _ _ _ hfree => exact h.rename hc hfree
  | _ => exact h

theorem reachable_names {db : Database} (h : Reachable db) :
    NamesDistinct db.categories.rows := by
  obtain ⟨db₀, h₀, hr⟩ := h
  refine hr.preserves (I := fun d => NamesDistinct d.categories.rows) ?_ ?_
  · intro s e t hs _ ht
    exact effect_preserves_names (transaction_effect ht) hs
  · rw [h₀.categories]
    intro c hc
    cases hc

theorem categoryOf_of_refers {db : Database} {serviceId : ℕ} {f : ApiFields}
    (h : Refers db serviceId f) : CategoryOf db serviceId f.categoryId := by
  cases hk : f.categoryId with
  | none => exact Or.inl rfl
  | some k =>
    obtain ⟨c, hc, hid, hs⟩ := h.2 k hk
    exact Or.inr ⟨c, hc, by rw [hid], hs⟩

/-- In every reachable database, whatever categories were deleted or copied back since. -/
theorem categories_sound {db : Database} (h : Reachable db) : CategoriesSound db := by
  have hi := reachable_invariant h
  constructor
  · intro a ha
    exact categoryOf_of_refers (hi.live_refers a ha).2
  · intro a ha
    obtain ⟨i, hm, hid, hr⟩ := hi.draft_refers a ha
    exact ⟨i, hm, hid, categoryOf_of_refers hr⟩
  · exact reachable_names h

def recategorised : Database :=
  play published [.apiAddCategoryByServiceId 1 1 "users" none, .apiUpdateApiCategory 1 1 1,
    .serviceStartIteration 1 1, .apiDeleteCategoryById 1 1,
    .apiAddCategoryByServiceId 1 1 "people" none,
    .apiUpdateCategoryById 2 1 (some "users") none,
    .apiAddApi 2 1 "find" "GET" "/user" none "P2" (some 2)]

theorem recategorised_sound : CategoriesSound recategorised :=
  categories_sound (published_reachable.play _)

end CategoryIntegrity
