import ApiManagement.RowForests
import ApiManagement.ServiceSchema

/-! # Writing apis and their params

The live tables and the draft tables undergo the same writes: checked insertion and update
of an api, deletion with cascades, and the copy of apis with both of their param forests
into another container. Each write comes with the rows it leaves alone. -/
namespace ApiStores

open TransactionRuns KeyedTables ParentLinkedRows RowForests PythonRuntime ServiceSchema

structure References where
  container : ℕ → Bool
  user : ℕ → Bool
  category : ℕ → Bool

def liveReferences (db : Database) : References :=
  ⟨db.services.contains, db.users.contains, db.categories.contains⟩

def draftReferences (db : Database) : References :=
  ⟨db.iterations.contains, db.users.contains, db.categories.contains⟩

def References.Allow (refs : References) (c : ℕ) (f : ApiFields) : Prop :=
  refs.container c = true ∧ refs.user f.ownerId = true ∧
    ∀ k, f.categoryId = some k → refs.category k = true

/-- The one unique constraint in force. Each class assigns `__table_args__` twice, and the
second assignment, `(container, method, name)`, replaces `(container, method, path)`. -/
def SameKey (a : ApiRow) (c : ℕ) (f : ApiFields) : Bool :=
  a.container == c && a.fields.method == f.method && a.fields.name == f.name

def insertApi (refs : References) (c : ℕ) (f : ApiFields) (st : ApiStore) : Tx ApiStore := do
  require (refs.container c && refs.user f.ownerId && f.categoryId.all refs.category)
    (.raised .integrityError)
  require (!st.apis.rows.any (fun a => SameKey a c f)) (.raised .integrityError)
  pure { st with apis := st.apis.insert ⟨0, c, f⟩ }

def setFields (i : ℕ) (f : ApiFields) (b : ApiRow) : ApiRow :=
  if b.id = i then { b with fields := f } else b

@[simp] theorem setFields_id (i : ℕ) (f : ApiFields) (b : ApiRow) :
    (setFields i f b).id = b.id := by
  unfold setFields
  split <;> rfl

@[simp] theorem setFields_container (i : ℕ) (f : ApiFields) (b : ApiRow) :
    (setFields i f b).container = b.container := by
  unfold setFields
  split <;> rfl

def rewriteApi (a : ApiRow) (f : ApiFields) (st : ApiStore) : Tx ApiStore := do
  require (!st.apis.rows.any (fun b => b.id != a.id && SameKey b a.container f))
    (.raised .integrityError)
  pure { st with apis := st.apis.mapRows (setFields a.id f) (setFields_id a.id f) }

def setCategory (g : ApiRow → Option ℕ) (a : ApiRow) : ApiRow :=
  { a with fields := { a.fields with categoryId := g a } }

def setCategories (g : ApiRow → Option ℕ) (st : ApiStore) : ApiStore :=
  { st with apis := st.apis.mapRows (setCategory g) (fun _ => rfl) }

def deleteParamsOf (gone : ℕ → Bool) (st : ApiStore) : ApiStore :=
  { st with
    requestParams := deleteCascade st.requestParams (fun r => gone r.holder)
    responseParams := deleteCascade st.responseParams (fun r => gone r.holder) }

/-- `DELETE` of apis; the foreign keys of both param tables cascade. -/
def deleteApis (p : ApiRow → Bool) (st : ApiStore) : ApiStore :=
  let gone := (st.apis.rows.filter p).map ApiRow.id
  { deleteParamsOf gone.contains st with apis := st.apis.restrict (fun a => !p a) }

def copiedFields (a : ApiRow) : ApiFields where
  ownerId := a.fields.ownerId
  categoryId := a.fields.categoryId
  name := a.fields.name
  method := a.fields.method
  path := a.fields.path
  description := a.fields.description
  level := a.fields.level
  isEnabled := a.fields.isEnabled

@[simp] theorem copiedFields_eq (a : ApiRow) : copiedFields a = a.fields := rfl

/-- One turn of the copy loop: the api, then its request params and its response params,
each list fetched once and gone through in two passes. -/
def copyApi (env : Environment) (refs : References) (source : ApiStore) (c : ℕ) (st : ApiStore)
    (a : ApiRow) : Tx ApiStore := do
  let st' ← insertApi refs c (copiedFields a) st
  let requests ← liftRows (copyRows st'.apis.contains st.apis.next
    (env.fetch (source.requestParamsOf a.id)) st'.requestParams)
  let responses ← liftRows (copyRows st'.apis.contains st.apis.next
    (env.fetch (source.responseParamsOf a.id)) st'.responseParams)
  pure { st' with requestParams := requests, responseParams := responses }

def copyApis (env : Environment) (refs : References) (source : ApiStore) (apis : List ApiRow)
    (c : ℕ) (st : ApiStore) : Tx ApiStore :=
  apis.foldlM (copyApi env refs source c) st

/-- The copy loop where the params of each api were read from a store of their own. -/
def copyEach (env : Environment) (refs : References) (source : ApiRow → ApiStore)
    (apis : List ApiRow) (c : ℕ) (st : ApiStore) : Tx ApiStore :=
  apis.foldlM (fun st a => copyApi env refs (source a) c st a) st

theorem copyApis_eq (env : Environment) (refs : References) (source : ApiStore)
    (apis : List ApiRow) (c : ℕ) (st : ApiStore) :
    copyApis env refs source apis c st = copyEach env refs (fun _ => source) apis c st := rfl

/-- `link` relates the fields of a request param to those of its children. -/
structure WellFormed (link : RequestFields → RequestFields → Prop) (st : ApiStore) : Prop where
  key_unique : ∀ a ∈ st.apis.rows, ∀ b ∈ st.apis.rows, a.container = b.container →
    a.fields.method = b.fields.method → a.fields.name = b.fields.name → a = b
  request_held : ∀ r ∈ st.requestParams.rows, ∃ a ∈ st.apis.rows, a.id = r.holder
  response_held : ∀ r ∈ st.responseParams.rows, ∃ a ∈ st.apis.rows, a.id = r.holder
  request_linked : WellLinked link st.requestParams.rows
  response_linked : WellLinked Nests st.responseParams.rows

theorem not_held_next {F : Type} {rows : List (LinkedRow F)} {apis : Table ApiRow}
    (h : ∀ r ∈ rows, ∃ a ∈ apis.rows, a.id = r.holder) : ∀ r ∈ rows, r.holder ≠ apis.next := by
  intro r hr
  obtain ⟨a, ha, hid⟩ := h r hr
  rw [← hid]
  exact Table.key_ne_next ha

theorem empty_wellFormed (link : RequestFields → RequestFields → Prop) :
    WellFormed link ApiStore.empty := by
  constructor
  · intro a ha; cases ha
  · intro r hr; cases hr
  · intro r hr; cases hr
  · exact wellLinked_nil
  · exact wellLinked_nil

def owns (st : ApiStore) (c h : ℕ) : Bool :=
  st.apis.rows.any (fun a => a.container == c && a.id == h)

theorem owns_iff {st : ApiStore} {c h : ℕ} :
    owns st c h = true ↔ ∃ a ∈ st.apis.rows, a.container = c ∧ a.id = h := by
  simp [owns]

structure SameOutside (c : ℕ) (st st' : ApiStore) : Prop where
  apis : st'.apis.rows.filter (fun a => a.container != c) =
    st.apis.rows.filter (fun a => a.container != c)
  requests : st'.requestParams.rows.filter (fun r => !owns st' c r.holder) =
    st.requestParams.rows.filter (fun r => !owns st c r.holder)
  responses : st'.responseParams.rows.filter (fun r => !owns st' c r.holder) =
    st.responseParams.rows.filter (fun r => !owns st c r.holder)

theorem SameOutside.refl (c : ℕ) (st : ApiStore) : SameOutside c st st := ⟨rfl, rfl, rfl⟩

theorem SameOutside.trans {c : ℕ} {st u v : ApiStore} (h : SameOutside c st u)
    (k : SameOutside c u v) : SameOutside c st v :=
  ⟨k.apis.trans h.apis, k.requests.trans h.requests, k.responses.trans h.responses⟩

theorem SameOutside.apisOf {c d : ℕ} {st st' : ApiStore} (h : SameOutside c st st')
    (hd : d ≠ c) : st'.apisOf d = st.apisOf d := by
  have weaker : ∀ a : ApiRow, (a.container == d) = true → (a.container != c) = true := by
    intro a ha
    rw [beq_iff_eq] at ha
    rw [bne_iff_ne, ha]
    exact hd
  rw [ApiStore.apisOf, ApiStore.apisOf, ← filter_filter_of_imp (fun a _ => weaker a), h.apis,
    filter_filter_of_imp (fun a _ => weaker a)]

theorem filter_not_of_holder {F : Type} {p : ℕ → Bool} (l : List (LinkedRow F)) {a : ℕ}
    (hp : p a = false) :
    (l.filter (fun r => !p r.holder)).filter (fun r => r.holder == a) =
      l.filter (fun r => r.holder == a) := by
  apply filter_filter_of_imp
  intro r _ hr
  rw [beq_iff_eq.mp hr, hp]
  rfl

private theorem filter_by_holder {F : Type} {f g : ℕ → Bool} {l m : List (LinkedRow F)}
    (h : l.filter (fun r => !f r.holder) = m.filter (fun r => !g r.holder)) {a : ℕ}
    (hf : f a = false) (hg : g a = false) :
    l.filter (fun r => r.holder == a) = m.filter (fun r => r.holder == a) := by
  rw [← filter_not_of_holder l hf, h, filter_not_of_holder m hg]

theorem not_owns_of_mem {st : ApiStore} {c d : ℕ} (hd : d ≠ c) {a : ApiRow}
    (ha : a ∈ st.apisOf d) : owns st c a.id = false := by
  rw [← Bool.not_eq_true, owns_iff]
  rintro ⟨b, hb, hbc, hid⟩
  obtain ⟨ha, had⟩ := ApiStore.mem_apisOf.mp ha
  have hab := st.apis.eq_of_key_eq hb ha hid
  subst hab
  exact hd (had.symm.trans hbc)

theorem SameOutside.requestParamsOf {c d : ℕ} {st st' : ApiStore} (h : SameOutside c st st')
    (hd : d ≠ c) {a : ApiRow} (ha : a ∈ st.apisOf d) :
    st'.requestParamsOf a.id = st.requestParamsOf a.id :=
  filter_by_holder h.requests (not_owns_of_mem hd (by rwa [h.apisOf hd]))
    (not_owns_of_mem hd ha)

theorem SameOutside.responseParamsOf {c d : ℕ} {st st' : ApiStore} (h : SameOutside c st st')
    (hd : d ≠ c) {a : ApiRow} (ha : a ∈ st.apisOf d) :
    st'.responseParamsOf a.id = st.responseParamsOf a.id :=
  filter_by_holder h.responses (not_owns_of_mem hd (by rwa [h.apisOf hd]))
    (not_owns_of_mem hd ha)

section OneApi

variable {link : RequestFields → RequestFields → Prop} {refs : References} {c : ℕ}
  {f : ApiFields} {st st' : ApiStore}

theorem insertApi_eq_ok :
    insertApi refs c f st = .ok st' ↔ refs.Allow c f ∧
      (∀ a ∈ st.apis.rows, a.container = c → a.fields.method = f.method →
        a.fields.name ≠ f.name) ∧
      st' = { st with apis := st.apis.insert ⟨0, c, f⟩ } := by
  simp only [insertApi, bind_eq_ok, require_eq_ok, pure_eq_ok, References.Allow, SameKey,
    Bool.and_eq_true, Bool.not_eq_true', List.any_eq_false, beq_iff_eq, not_and,
    Option.all_eq_true_iff_get]
  constructor
  · rintro ⟨_, ⟨⟨hc, hu⟩, hk⟩, _, hn, rfl⟩
    refine ⟨⟨hc, hu, ?_⟩, fun a ha h₁ h₂ => hn a ha ⟨h₁, h₂⟩, rfl⟩
    intro k he
    have := hk (by simp [he])
    simpa [he] using this
  · rintro ⟨⟨hc, hu, hk⟩, hn, rfl⟩
    exact ⟨(), ⟨⟨hc, hu⟩, fun hs => hk _ (Option.some_get hs).symm⟩, (),
      fun a ha h => hn a ha h.1 h.2, rfl⟩

theorem insertApi_wellFormed (h : insertApi refs c f st = .ok st') (hw : WellFormed link st) :
    WellFormed link st' := by
  obtain ⟨_, hn, rfl⟩ := insertApi_eq_ok.mp h
  refine ⟨?_, ?_, ?_, hw.request_linked, hw.response_linked⟩
  · intro a ha b hb hc hm hname
    simp only [Table.insert_rows, List.mem_append, List.mem_singleton] at ha hb
    rcases ha with ha | rfl <;> rcases hb with hb | rfl
    · exact hw.key_unique a ha b hb hc hm hname
    · exact absurd hname (hn a ha hc hm)
    · exact absurd hname.symm (hn b hb hc.symm hm.symm)
    · rfl
  · intro r hr
    obtain ⟨a, ha, hid⟩ := hw.request_held r hr
    exact ⟨a, List.mem_append_left _ ha, hid⟩
  · intro r hr
    obtain ⟨a, ha, hid⟩ := hw.response_held r hr
    exact ⟨a, List.mem_append_left _ ha, hid⟩

theorem insertApi_sameOutside (h : insertApi refs c f st = .ok st') (hw : WellFormed link st) :
    SameOutside c st st' := by
  obtain ⟨_, _, rfl⟩ := insertApi_eq_ok.mp h
  have old : ∀ i, (∃ a ∈ st.apis.rows, a.id = i) →
      owns { st with apis := st.apis.insert ⟨0, c, f⟩ } c i = owns st c i := by
    rintro i ⟨a, ha, rfl⟩
    have hne : a.id ≠ st.apis.next := Table.key_ne_next ha
    simp [owns, hne.symm]
  refine ⟨by simp, ?_, ?_⟩
  · exact List.filter_congr (fun r hr => by rw [old _ (hw.request_held r hr)])
  · exact List.filter_congr (fun r hr => by rw [old _ (hw.response_held r hr)])

theorem rewriteApi_eq_ok {a : ApiRow} :
    rewriteApi a f st = .ok st' ↔
      (∀ b ∈ st.apis.rows, b.id ≠ a.id → b.container = a.container →
        b.fields.method = f.method → b.fields.name ≠ f.name) ∧
      st' = { st with apis := st.apis.mapRows (setFields a.id f) (setFields_id a.id f) } := by
  simp only [rewriteApi, bind_eq_ok, require_eq_ok, pure_eq_ok, SameKey, Bool.and_eq_true,
    Bool.not_eq_true', List.any_eq_false, beq_iff_eq, bne_iff_ne, not_and]
  constructor
  · rintro ⟨_, hn, rfl⟩
    exact ⟨fun b hb h₁ h₂ h₃ => hn b hb h₁ ⟨h₂, h₃⟩, rfl⟩
  · rintro ⟨hn, rfl⟩
    exact ⟨(), fun b hb h₁ h₂ => hn b hb h₁ h₂.1 h₂.2, rfl⟩

/-- An update that keeps ids and containers keeps who owns what. -/
theorem owns_mapRows (g : ApiRow → ApiRow) (hk : ∀ a, key (g a) = key a)
    (hc : ∀ a, (g a).container = a.container) (i : ℕ) :
    owns { st with apis := st.apis.mapRows g hk } c i = owns st c i := by
  have hid : ∀ a : ApiRow, (g a).id = a.id := hk
  simp [owns, List.any_map, Function.comp_def, hc, hid]

theorem held_mapRows (g : ApiRow → ApiRow) (hk : ∀ a, key (g a) = key a) {i : ℕ}
    (h : ∃ a ∈ st.apis.rows, a.id = i) : ∃ a ∈ (st.apis.mapRows g hk).rows, a.id = i := by
  obtain ⟨a, ha, hid⟩ := h
  exact ⟨g a, List.mem_map_of_mem ha, (hk a).trans hid⟩

theorem rewriteApi_wellFormed {a : ApiRow} (ha : a ∈ st.apis.rows)
    (h : rewriteApi a f st = .ok st') (hw : WellFormed link st) : WellFormed link st' := by
  obtain ⟨hn, rfl⟩ := rewriteApi_eq_ok.mp h
  refine ⟨?_, fun r hr => held_mapRows _ (setFields_id a.id f) (hw.request_held r hr),
    fun r hr => held_mapRows _ (setFields_id a.id f) (hw.response_held r hr),
    hw.request_linked, hw.response_linked⟩
  intro x hx y hy hc hm hname
  obtain ⟨b, hb, rfl⟩ := List.mem_map.mp hx
  obtain ⟨d, hd, rfl⟩ := List.mem_map.mp hy
  simp only [setFields_container] at hc
  by_cases hba : b.id = a.id <;> by_cases hda : d.id = a.id
  · rw [st.apis.eq_of_key_eq hb hd (hba.trans hda.symm)]
  · have hb' := st.apis.eq_of_key_eq hb ha hba
    simp only [setFields, if_pos hba, if_neg hda] at hm hname
    exact absurd hname.symm (hn d hd hda (by rw [← hc, hb']) hm.symm)
  · have hd' := st.apis.eq_of_key_eq hd ha hda
    simp only [setFields, if_neg hba, if_pos hda] at hm hname
    exact absurd hname (hn b hb hba (by rw [hc, hd']) hm)
  · simp only [setFields, if_neg hba, if_neg hda] at hm hname ⊢
    exact hw.key_unique b hb d hd hc hm hname

theorem rewriteApi_sameOutside {a : ApiRow} (ha : a ∈ st.apis.rows)
    (h : rewriteApi a f st = .ok st') : SameOutside a.container st st' := by
  obtain ⟨_, rfl⟩ := rewriteApi_eq_ok.mp h
  have hown : ∀ i, owns { st with
      apis := st.apis.mapRows (setFields a.id f) (setFields_id a.id f) } a.container i =
        owns st a.container i :=
    owns_mapRows _ (setFields_id a.id f) (setFields_container a.id f)
  refine ⟨?_, by simp only [hown], by simp only [hown]⟩
  have keep : ∀ b ∈ st.apis.rows.filter (fun b => b.container != a.container),
      setFields a.id f b = b := by
    intro b hb
    obtain ⟨hb, hc⟩ := List.mem_filter.mp hb
    unfold setFields
    rw [if_neg]
    intro hid
    rw [st.apis.eq_of_key_eq hb ha hid] at hc
    simp at hc
  have swap : (fun b : ApiRow => b.container != a.container) ∘ setFields a.id f =
      fun b => b.container != a.container := by
    funext b
    simp
  rw [Table.mapRows_rows, List.filter_map, swap, List.map_congr_left keep, List.map_id']

theorem setCategories_rows (g : ApiRow → Option ℕ) :
    (setCategories g st).apis.rows = st.apis.rows.map (setCategory g) := rfl

theorem setCategories_wellFormed (g : ApiRow → Option ℕ) (hw : WellFormed link st) :
    WellFormed link (setCategories g st) := by
  refine ⟨?_, fun r hr => held_mapRows (setCategory g) (fun _ => rfl) (hw.request_held r hr),
    fun r hr => held_mapRows (setCategory g) (fun _ => rfl) (hw.response_held r hr),
    hw.request_linked, hw.response_linked⟩
  intro x hx y hy hc hm hname
  obtain ⟨a, ha, rfl⟩ := List.mem_map.mp hx
  obtain ⟨b, hb, rfl⟩ := List.mem_map.mp hy
  rw [hw.key_unique a ha b hb hc hm hname]

end OneApi

section Deletion

variable {link : RequestFields → RequestFields → Prop} {st : ApiStore}

/-- With well-linked rows the cascades over parents find nothing more to delete. -/
theorem deleteParamsOf_eq (hw : WellFormed link st) (gone : ℕ → Bool) :
    deleteParamsOf gone st = { st with
      requestParams := st.requestParams.restrict (fun r => !gone r.holder)
      responseParams := st.responseParams.restrict (fun r => !gone r.holder) } := by
  rw [deleteParamsOf, deleteCascade_by_holder hw.request_linked,
    deleteCascade_by_holder hw.response_linked]

theorem deleteParamsOf_wellFormed (hw : WellFormed link st) (gone : ℕ → Bool) :
    WellFormed link (deleteParamsOf gone st) := by
  rw [deleteParamsOf_eq hw]
  exact ⟨hw.key_unique, fun r hr => hw.request_held r (List.mem_of_mem_filter hr),
    fun r hr => hw.response_held r (List.mem_of_mem_filter hr),
    hw.request_linked.filter (fun h => !gone h), hw.response_linked.filter (fun h => !gone h)⟩

theorem deleteParamsOf_sameOutside (hw : WellFormed link st) {gone : ℕ → Bool} {c : ℕ}
    (hg : ∀ i, gone i = true → owns st c i = true) :
    SameOutside c st (deleteParamsOf gone st) := by
  rw [deleteParamsOf_eq hw]
  have pick : ∀ i, (!owns st c i && !gone i) = !owns st c i := by
    intro i
    cases hi : gone i with
    | false => simp
    | true => simp [hg i hi]
  have hown : ∀ i, owns { st with
      requestParams := st.requestParams.restrict (fun r => !gone r.holder)
      responseParams := st.responseParams.restrict (fun r => !gone r.holder) } c i =
        owns st c i := fun _ => rfl
  refine ⟨rfl, ?_, ?_⟩
  · simp only [hown, Table.restrict_rows, List.filter_filter, pick]
  · simp only [hown, Table.restrict_rows, List.filter_filter, pick]

/-- Params of other apis stay. -/
theorem deleteParamsOf_other (hw : WellFormed link st) (gone : ℕ → Bool) {x : ℕ}
    (hx : gone x = false) :
    (deleteParamsOf gone st).requestParamsOf x = st.requestParamsOf x ∧
      (deleteParamsOf gone st).responseParamsOf x = st.responseParamsOf x := by
  rw [deleteParamsOf_eq hw]
  exact ⟨filter_not_of_holder _ hx, filter_not_of_holder _ hx⟩

private theorem gone_iff {p : ApiRow → Bool} {i : ℕ} :
    ((st.apis.rows.filter p).map ApiRow.id).contains i = true ↔
      ∃ a ∈ st.apis.rows, p a = true ∧ a.id = i := by
  rw [List.contains_iff_mem, List.mem_map]
  simp only [List.mem_filter, and_assoc]

theorem deleteApis_wellFormed (hw : WellFormed link st) (p : ApiRow → Bool) :
    WellFormed link (deleteApis p st) := by
  have hd := deleteParamsOf_wellFormed hw ((st.apis.rows.filter p).map ApiRow.id).contains
  have stay : ∀ {F : Type} (l : List (LinkedRow F)),
      (∀ r ∈ l, ∃ a ∈ st.apis.rows, a.id = r.holder) →
      ∀ r ∈ l.filter (fun r => !((st.apis.rows.filter p).map ApiRow.id).contains r.holder),
        ∃ a ∈ (st.apis.restrict (fun a => !p a)).rows, a.id = r.holder := by
    intro F l hl r hr
    obtain ⟨hr, hg⟩ := List.mem_filter.mp hr
    obtain ⟨a, ha, hid⟩ := hl r hr
    refine ⟨a, List.mem_filter.mpr ⟨ha, ?_⟩, hid⟩
    cases hp : p a with
    | false => rfl
    | true => rw [gone_iff.mpr ⟨a, ha, hp, hid⟩] at hg; cases hg
  refine ⟨?_, ?_, ?_, hd.request_linked, hd.response_linked⟩
  · intro a ha b hb
    exact hw.key_unique a (List.mem_of_mem_filter ha) b (List.mem_of_mem_filter hb)
  · intro r hr
    simp only [deleteApis, deleteParamsOf_eq hw] at hr
    exact stay _ hw.request_held r hr
  · intro r hr
    simp only [deleteApis, deleteParamsOf_eq hw] at hr
    exact stay _ hw.response_held r hr

theorem deleteApis_sameOutside (hw : WellFormed link st) {p : ApiRow → Bool} {c : ℕ}
    (hp : ∀ a ∈ st.apis.rows, p a = true → a.container = c) :
    SameOutside c st (deleteApis p st) := by
  let gone := ((st.apis.rows.filter p).map ApiRow.id).contains
  have hsub : ∀ i, gone i = true → owns st c i = true := by
    intro i hi
    obtain ⟨a, ha, hpa, hid⟩ := gone_iff.mp hi
    exact owns_iff.mpr ⟨a, ha, hp a ha hpa, hid⟩
  have pick : ∀ i, (!owns (deleteApis p st) c i && !gone i) = !owns st c i := by
    intro i
    rw [Bool.eq_iff_iff]
    simp only [Bool.and_eq_true, Bool.not_eq_true', ← Bool.not_eq_true]
    constructor
    · rintro ⟨hn, hg⟩ ho
      obtain ⟨a, ha, hac, hid⟩ := owns_iff.mp ho
      refine hn (owns_iff.mpr ⟨a, List.mem_filter.mpr ⟨ha, ?_⟩, hac, hid⟩)
      cases hpa : p a with
      | false => rfl
      | true => exact absurd (gone_iff.mpr ⟨a, ha, hpa, hid⟩) hg
    · intro hn
      refine ⟨fun ho => hn ?_, fun hg => hn (hsub i hg)⟩
      obtain ⟨a, ha, hac, hid⟩ := owns_iff.mp ho
      exact owns_iff.mpr ⟨a, List.mem_of_mem_filter ha, hac, hid⟩
  refine ⟨?_, ?_, ?_⟩
  · simp only [deleteApis, Table.restrict_rows, List.filter_filter]
    apply List.filter_congr
    intro a ha
    cases hpa : p a with
    | false => simp
    | true => simp [hp a ha hpa]
  · have hr : (deleteApis p st).requestParams.rows =
        st.requestParams.rows.filter (fun r => !gone r.holder) := by
      simp only [deleteApis, gone, deleteParamsOf_eq hw, Table.restrict_rows]
    rw [hr, List.filter_filter]
    exact List.filter_congr (fun r _ => pick r.holder)
  · have hr : (deleteApis p st).responseParams.rows =
        st.responseParams.rows.filter (fun r => !gone r.holder) := by
      simp only [deleteApis, gone, deleteParamsOf_eq hw, Table.restrict_rows]
    rw [hr, List.filter_filter]
    exact List.filter_congr (fun r _ => pick r.holder)

theorem deleteApis_rows (p : ApiRow → Bool) :
    (deleteApis p st).apis.rows = st.apis.rows.filter (fun a => !p a) := rfl

theorem deleteApis_congr {p q : ApiRow → Bool} (h : ∀ a ∈ st.apis.rows, p a = q a) :
    deleteApis p st = deleteApis q st := by
  have hgone : st.apis.rows.filter p = st.apis.rows.filter q := List.filter_congr h
  have hkept : st.apis.restrict (fun a => !p a) = st.apis.restrict (fun a => !q a) := by
    refine Table.ext' (List.filter_congr ?_) rfl
    intro a ha
    rw [h a ha]
  simp only [deleteApis, hgone, hkept]

/-- The copies of a loop get ids that are new. -/
theorem copyEach_adds {env : Environment} {refs : References} {source : ApiRow → ApiStore}
    {apis : List ApiRow} {c : ℕ} {st st' : ApiStore}
    (h : copyEach env refs source apis c st = .ok st') :
    st.apis.next ≤ st'.apis.next ∧
      ∀ a ∈ st'.apis.rows, a.id < st.apis.next → a ∈ st.apis.rows := by
  refine foldlM_preserves (I := fun u : ApiStore => st.apis.next ≤ u.apis.next ∧
    ∀ a ∈ u.apis.rows, a.id < st.apis.next → a ∈ st.apis.rows) ?_ ⟨le_rfl, fun _ ha _ => ha⟩ h
  rintro u a u' - ⟨hnext, hrows⟩ hu
  simp only [copyApi, bind_eq_ok, pure_eq_ok] at hu
  obtain ⟨u₁, hins, _, _, _, _, rfl⟩ := hu
  obtain ⟨_, _, rfl⟩ := insertApi_eq_ok.mp hins
  refine ⟨hnext.trans (Nat.le_succ _), ?_⟩
  intro b hb hlt
  rcases List.mem_append.mp hb with hb | hb
  · exact hrows b hb hlt
  · rw [List.mem_singleton.mp hb] at hlt
    exact absurd hlt (Nat.not_lt.mpr hnext)

end Deletion

end ApiStores
