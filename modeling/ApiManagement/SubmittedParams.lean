import ApiManagement.ParamTables

/-! # Params that the editor submits

One flag says whether the editor may submit, and each table overwrites it with the verdict on its
own rows. What is submitted is legal just when no other table has an error. -/
namespace SubmittedParams

open PythonRuntime ServiceSchema DraftEditor ParamTables

mutual

def LegalParam : JsonValue → Prop
  | .obj kvs =>
    (isLegalValue (kvs.lookup "name") && isLegalValue (kvs.lookup "type") &&
      isLegalValue (kvs.lookup "required")) = true ∧ LegalMembers kvs
  | _ => False

def LegalParams : List JsonValue → Prop
  | [] => True
  | param :: params => LegalParam param ∧ LegalParams params

def LegalMembers : Members → Prop
  | [] => True
  | (k, .arr xs) :: kvs => (k = "children" → LegalParams xs) ∧ LegalMembers kvs
  | _ :: kvs => LegalMembers kvs

end

def LegalPayload (payload : Payload) : Prop :=
  LegalParams payload.reqParams ∧ LegalParams payload.respParams

theorem legalParams_iff {params : List JsonValue} :
    LegalParams params ↔ ∀ param ∈ params, LegalParam param := by
  induction params with
  | nil => exact iff_of_true trivial (fun param hparam => nomatch hparam)
  | cons param params ih => rw [LegalParams, ih, List.forall_mem_cons]

theorem legalParams_flatMap {α : Type} {f : α → List JsonValue} {xs : List α} :
    LegalParams (xs.flatMap f) ↔ ∀ x ∈ xs, LegalParams (f x) := by
  simp only [legalParams_iff, List.mem_flatMap]
  constructor
  · intro h x hx param hparam
    exact h param ⟨x, hx, hparam⟩
  · rintro h param ⟨x, hx, hparam⟩
    exact h x hx param hparam

theorem legalMembers_append {kvs : Members} (h : "children" ∉ kvs.map Prod.fst)
    (rest : Members) : LegalMembers (kvs ++ rest) ↔ LegalMembers rest := by
  induction kvs with
  | nil => rfl
  | cons m kvs ih =>
    obtain ⟨k, v⟩ := m
    rw [List.map_cons, List.mem_cons, not_or] at h
    have ih := ih h.2
    cases v with
    | arr xs =>
      rw [List.cons_append, LegalMembers, ih]
      exact and_iff_right (fun hk => absurd hk.symm h.1)
    | _ => exact ih

mutual

def tablesOf : Row → List (List Row)
  | .leaf _ _ => []
  | .branch _ _ childrenParams => childrenParams :: tablesBelow childrenParams

def tablesBelow : List Row → List (List Row)
  | [] => []
  | row :: rows => tablesOf row ++ tablesBelow rows

end

def WithoutError (rows : List Row) : Prop :=
  hasError rows = false ∧ ∀ table ∈ tablesBelow rows, hasError table = false

theorem withoutError_nil : WithoutError [] := ⟨rfl, fun _ h => nomatch h⟩

theorem hasError_cons {row : Row} {rows : List Row} : hasError (row :: rows) = false ↔
    hasLegalFields row.entry = true ∧ hasError rows = false := by
  simp [hasError]

theorem withoutError_cons {row : Row} {rows : List Row} : WithoutError (row :: rows) ↔
    (hasLegalFields row.entry = true ∧ ∀ table ∈ tablesOf row, hasError table = false) ∧
      WithoutError rows := by
  rw [WithoutError, hasError_cons, tablesBelow, List.forall_mem_append]
  exact and_and_and_comm

theorem tables_of_branch {id : RowId} {entry : ItemEntry} {childrenParams : List Row} :
    (∀ table ∈ tablesOf (.branch id entry childrenParams), hasError table = false) ↔
      WithoutError childrenParams := by
  rw [tablesOf, List.forall_mem_cons, WithoutError]

theorem lookup_stringify {members : List (String × Option JsonValue)}
    (h : (members.map Prod.fst).Nodup) (key : String) :
    (stringify members).lookup key = (members.lookup key).join := by
  induction members with
  | nil => rfl
  | cons m members ih =>
    obtain ⟨k, v⟩ := m
    rw [List.map_cons, List.nodup_cons] at h
    have ih := ih h.2
    rw [OrderedDictionaries.lookup_cons_eq]
    by_cases hk : key = k
    · subst hk
      rw [if_pos rfl]
      cases v with
      | some v =>
        show List.lookup key ((key, v) :: stringify members) = _
        rw [OrderedDictionaries.lookup_cons_eq, if_pos rfl]
        rfl
      | none =>
        -- the key does not come again
        have hnone : members.lookup key = none := by
          rw [List.lookup_eq_none_iff]
          intro e he
          rw [bne_iff_ne]
          exact fun hke => h.1 (List.mem_map.mpr ⟨e, he, hke.symm⟩)
        show (stringify members).lookup key = _
        rw [ih, hnone]
        rfl
    · rw [if_neg hk, ← ih]
      cases v with
      | some v =>
        show List.lookup key ((k, v) :: stringify members) = _
        rw [OrderedDictionaries.lookup_cons_eq, if_neg hk]
      | none => rfl

/-- What a param says of an item is what the item says, and nothing else is called children. -/
structure KeepsFields (members : ItemEntry → List (String × Option JsonValue)) : Prop where
  name : ∀ entry, (stringify (members entry)).lookup "name" = entry.name
  type : ∀ entry, (stringify (members entry)).lookup "type" = entry.type
  required : ∀ entry, (stringify (members entry)).lookup "required" = entry.required
  children : ∀ entry, "children" ∉ (stringify (members entry)).map Prod.fst

theorem request_keepsFields (location : String) : KeepsFields (reqMembers location) := by
  have hkeys : ∀ entry, ((reqMembers location entry).map Prod.fst).Nodup := by
    intro entry
    show ["name", "type", "location", "required", "default_value", "description", "example",
      "array_child_type"].Nodup
    decide
  refine ⟨?_, ?_, ?_, (plainKeys_request location).members⟩ <;>
    exact fun entry => lookup_stringify (hkeys entry) _

theorem response_keepsFields (statusCode : Option ℤ) :
    KeepsFields (respItemMembers statusCode) := by
  have hkeys : ∀ entry, (respItemMembers statusCode entry).map Prod.fst =
      ["name", "type", "status_code", "required", "description", "example",
        "array_child_type"] := fun entry => rfl
  have hnodup : ∀ entry, ((respItemMembers statusCode entry).map Prod.fst).Nodup := by
    intro entry
    rw [hkeys]
    decide
  refine ⟨?_, ?_, ?_, ?_⟩
  · exact fun entry => lookup_stringify (hnodup entry) _
  · exact fun entry => lookup_stringify (hnodup entry) _
  · exact fun entry => lookup_stringify (hnodup entry) _
  · intro entry hmem
    obtain ⟨m, hm, hkey⟩ := List.mem_map.mp hmem
    obtain ⟨x, hx, hxm⟩ := List.mem_filterMap.mp hm
    obtain ⟨v, _, rfl⟩ := Option.map_eq_some_iff.mp hxm
    have hchildren : "children" ∈ (respItemMembers statusCode entry).map Prod.fst :=
      hkey ▸ List.mem_map_of_mem hx
    rw [hkeys] at hchildren
    exact absurd hchildren (by decide)

section Params

variable {members : ItemEntry → List (String × Option JsonValue)} (hk : KeepsFields members)
include hk

theorem legalParam_obj (rest : Members) (entry : ItemEntry)
    (hrest : ∀ key ∈ ["name", "type", "required"], rest.lookup key = none) :
    LegalParam (.obj (stringify (members entry) ++ rest)) ↔
      hasLegalFields entry = true ∧ LegalMembers rest := by
  have hname := hrest "name" (by decide)
  have htype := hrest "type" (by decide)
  have hrequired := hrest "required" (by decide)
  rw [LegalParam, List.lookup_append, List.lookup_append, List.lookup_append, hname, htype,
    hrequired, hk.name, hk.type, hk.required, legalMembers_append (hk.children entry)]
  simp only [Option.or_none]
  rfl

theorem legalParam_leaf (entry : ItemEntry) :
    LegalParam (processItem members (.leaf entry)) ↔ hasLegalFields entry = true := by
  have h := legalParam_obj hk [] entry (fun key _ => rfl)
  rw [List.append_nil] at h
  rw [processItem, h]
  exact and_iff_left trivial

theorem legalParam_branch (entry : ItemEntry) (nested : List ParamItem) :
    LegalParam (processItem members (.branch entry nested)) ↔
      hasLegalFields entry = true ∧ LegalParams (processItems members nested) := by
  have hrest : ∀ key ∈ ["name", "type", "required"],
      List.lookup key [("children", JsonValue.arr (processItems members nested))] = none := by
    intro key hkey
    rw [OrderedDictionaries.lookup_cons_eq, if_neg]
    · rfl
    · rintro rfl
      exact absurd hkey (by decide)
  rw [processItem, legalParam_obj hk _ entry hrest, LegalMembers, LegalMembers]
  simp

end Params

mutual

theorem legalParam_toItem {members : ItemEntry → List (String × Option JsonValue)}
    (hk : KeepsFields members) : ∀ row : Row, LegalParam (processItem members row.toItem) ↔
      hasLegalFields row.entry = true ∧ ∀ table ∈ tablesOf row, hasError table = false
  | .leaf id entry => by
    rw [Row.toItem, legalParam_leaf hk]
    exact (and_iff_left (fun table h => nomatch h)).symm
  | .branch id entry childrenParams => by
    rw [Row.toItem, legalParam_branch hk, legalParams_toItems hk childrenParams,
      tables_of_branch]
    rfl

theorem legalParams_toItems {members : ItemEntry → List (String × Option JsonValue)}
    (hk : KeepsFields members) : ∀ rows : List Row,
      LegalParams (processItems members (Row.toItems rows)) ↔ WithoutError rows
  | [] => iff_of_true trivial withoutError_nil
  | row :: rows => by
    rw [Row.toItems, processItems, LegalParams, legalParam_toItem hk row,
      legalParams_toItems hk rows, withoutError_cons]

end

theorem legal_reqParams (form : Form) : LegalParams form.reqParams ↔
    ∀ location, WithoutError (form.rows (.request location)) := by
  rw [Form.reqParams, transformReqParamsToApiInput, legalParams_flatMap, List.forall_mem_map]
  constructor
  · intro h location
    have hmem : location ∈ DraftEditor.locations := by cases location <;> decide
    exact (legalParams_toItems (request_keepsFields _) _).mp (h location hmem)
  · intro h location _
    exact (legalParams_toItems (request_keepsFields _) _).mpr (h location)

theorem legal_respParams (form : Form) : LegalParams form.respParams ↔
    ∀ statusCode, WithoutError (form.rows (.response statusCode)) := by
  rw [Form.respParams, legalParams_flatMap]
  constructor
  · intro h statusCode
    cases hrows : form.response.lookup statusCode with
    | none =>
      have hnil : form.rows (.response statusCode) = [] := by rw [Form.rows, hrows]; rfl
      exact hnil ▸ withoutError_nil
    | some rows =>
      have heq : form.rows (.response statusCode) = rows := by rw [Form.rows, hrows]; rfl
      have hmem := ScriptObjects.mem_objectOrder.mpr (OrderedDictionaries.mem_of_lookup hrows)
      rw [heq]
      exact (legalParams_toItems (response_keepsFields _) _).mp (h (statusCode, rows) hmem)
  · rintro h ⟨statusCode, rows⟩ hmem
    have hlookup := OrderedDictionaries.lookup_of_nodup form.distinct
      (ScriptObjects.mem_objectOrder.mp hmem)
    have heq : form.rows (.response statusCode) = rows := by rw [Form.rows, hlookup]; rfl
    exact (legalParams_toItems (response_keepsFields _) _).mpr (heq ▸ h statusCode)

theorem legalPayload_iff {text : Option JsonValue → String} {valid : Bool} {s : Editor}
    {payload : Payload} (h : s.handleSubmit text valid = some payload) :
    LegalPayload payload ↔ ∀ table, WithoutError (s.form.rows table) := by
  obtain ⟨_, hreq, hresp⟩ := handleSubmit_eq_some h
  rw [LegalPayload, hreq, hresp, legal_reqParams, legal_respParams]
  constructor
  · rintro ⟨hreq, hresp⟩ (location | statusCode)
    · exact hreq location
    · exact hresp statusCode
  · intro h
    exact ⟨fun location => h (.request location), fun statusCode => h (.response statusCode)⟩

structure Session where
  editor : Editor
  lastEdited : Option TableName

namespace Session

def opened (apiDetailId : ℕ) (form : Form) : Session := ⟨⟨apiDetailId, form, false⟩, none⟩

section Runs

variable (numberKey : String → String)

def step (s : Session) (event : Event) : Session where
  editor := s.editor.step numberKey event
  lastEdited :=
    match event with
    | .load _ _ => none
    | .editTable table edit =>
      if (s.editor.form.edited numberKey table edit).isSome then some table else s.lastEdited
    | _ => s.lastEdited

def run (s : Session) (events : List Event) : Session := events.foldl (step numberKey) s

end Runs

/-- The flag speaks of the table edited last. -/
def FlagRight (s : Session) : Prop :=
  s.editor.rejectSubmit = false → ∀ table, s.lastEdited = some table →
    hasError (s.editor.form.rows table) = false

theorem opened_flagRight (apiDetailId : ℕ) (form : Form) :
    (opened apiDetailId form).FlagRight := by
  intro _ table h
  cases h

/-- A step forgets the table edited last, edits one and takes its verdict for the flag, or keeps
the flag and empties a table at most. -/
theorem step_cases (numberKey : String → String) (s : Session) (event : Event) :
    (s.step numberKey event).lastEdited = none ∨
      (∃ table newData, s.step numberKey event =
        ⟨{ s.editor with
            form := s.editor.form.withRows table newData, rejectSubmit := hasError newData },
          some table⟩) ∨
      ((s.step numberKey event).editor.rejectSubmit = s.editor.rejectSubmit ∧
        (s.step numberKey event).lastEdited = s.lastEdited ∧
        ∀ table, (s.step numberKey event).editor.form.rows table = s.editor.form.rows table ∨
          (s.step numberKey event).editor.form.rows table = []) := by
  cases event with
  | load apiDetailId form => exact Or.inl rfl
  | editBrief brief =>
    right
    right
    exact ⟨rfl, rfl, fun table => Or.inl (by cases table <;> rfl)⟩
  | editTable table edit =>
    right
    unfold step Editor.step Editor.editTable
    cases hedit : s.editor.form.edited numberKey table edit with
    | none =>
      right
      simp [hedit]
    | some newData => exact Or.inl ⟨table, newData, by simp [hedit]⟩
  | addStatusCode input =>
    right
    right
    unfold step Editor.step
    rcases s.editor.addStatusCode_cases numberKey input with h | ⟨code, h⟩
    · simp [h]
    · simp only [h, true_and]
      intro table
      rw [Form.rows_withRows]
      by_cases ht : table = .response code
      · exact Or.inr (if_pos ht)
      · exact Or.inl (if_neg ht)
  | deleteStatusCode statusCode =>
    right
    right
    unfold step Editor.step
    by_cases hshown : statusCode ∈ s.editor.form.statusCodes numberKey
    · simp only [if_pos hshown, true_and]
      intro table
      rw [Form.rows_withoutCode]
      by_cases ht : table = .response statusCode
      · exact Or.inr (if_pos ht)
      · exact Or.inl (if_neg ht)
    · simp [hshown]

theorem step_flagRight {numberKey : String → String} {s : Session} (hs : s.FlagRight)
    (event : Event) : (s.step numberKey event).FlagRight := by
  intro hflag table hlast
  rcases step_cases numberKey s event with h | ⟨table', newData, h⟩ | ⟨hsame, hkept, hrows⟩
  · rw [h] at hlast
    cases hlast
  · rw [h] at hflag hlast ⊢
    cases hlast
    rw [Form.rows_withRows, if_pos rfl]
    exact hflag
  · rcases hrows table with h | h
    · rw [h]
      exact hs (hsame ▸ hflag) table (hkept ▸ hlast)
    · rw [h]
      rfl

theorem run_flagRight (numberKey : String → String) {s : Session} (hs : s.FlagRight)
    (events : List Event) : (s.run numberKey events).FlagRight := by
  induction events generalizing s with
  | nil => exact hs
  | cons event events ih => exact ih (step_flagRight hs event)

end Session

/-- No table has an error but perhaps the one edited last. -/
structure OtherTablesRight (s : Session) : Prop where
  top : ∀ table, s.lastEdited ≠ some table → hasError (s.editor.form.rows table) = false
  below : ∀ table, ∀ rows ∈ tablesBelow (s.editor.form.rows table), hasError rows = false

theorem withoutError_iff_others {s : Session} (hs : s.FlagRight)
    (hflag : s.editor.rejectSubmit = false) :
    (∀ table, WithoutError (s.editor.form.rows table)) ↔ OtherTablesRight s := by
  constructor
  · intro h
    exact ⟨fun table _ => (h table).1, fun table => (h table).2⟩
  · intro h table
    refine ⟨?_, h.below table⟩
    by_cases hlast : s.lastEdited = some table
    · exact hs hflag table hlast
    · exact h.top table hlast

/-- Whatever was edited before, what is submitted is legal exactly if the tables that the flag
does not speak of have no error. -/
theorem submission_legal_iff (numberKey : String → String) (text : Option JsonValue → String)
    (valid : Bool) (apiDetailId : ℕ) (form : Form) (events : List Event) (payload : Payload)
    (h : ((Session.opened apiDetailId form).run numberKey events).editor.handleSubmit text valid =
      some payload) :
    LegalPayload payload ↔
      OtherTablesRight ((Session.opened apiDetailId form).run numberKey events) := by
  obtain ⟨hflag, _, _⟩ := handleSubmit_eq_some h
  have hright :=
    Session.run_flagRight numberKey (Session.opened_flagRight apiDetailId form) events
  exact (legalPayload_iff h).trans (withoutError_iff_others hright hflag)

def emptyForm : Form where
  brief := ⟨"search", "POST", "/search", none, some "P1"⟩
  request _ := []
  response := []
  distinct := List.nodup_nil

def nameText : Option JsonValue → String
  | some (.str s) => s
  | _ => "undefined"

def filterEdits : List Event :=
  [.editTable (.request .body) (.add (.generated "a")),
    .editTable (.request .body) (.change 0 .name (some (.str "filter"))),
    .editTable (.request .body) (.change 0 .type (some (.str "object"))),
    .editTable (.request .body) (.nested 0 (.add (.generated "b")))]

def namedEdits : List Event :=
  filterEdits ++
    [.editTable (.request .body) (.nested 0 (.change 0 .name (some (.str "limit"))))]

theorem named_others_right :
    OtherTablesRight ((Session.opened 1 emptyForm).run id namedEdits) := by
  constructor
  · rintro (location | statusCode) _
    · cases location <;> decide +kernel
    · rfl
  · rintro (location | statusCode)
    · cases location <;> decide +kernel
    · exact fun rows hrows => nomatch hrows

theorem named_submission_legal : ∃ payload,
    ((Session.opened 1 emptyForm).run id namedEdits).editor.handleSubmit nameText true =
      some payload ∧ LegalPayload payload := by
  have hsome : (((Session.opened 1 emptyForm).run id namedEdits).editor.handleSubmit
      nameText true).isSome := by decide +kernel
  obtain ⟨payload, h⟩ := Option.isSome_iff_exists.mp hsome
  exact ⟨payload, h, (submission_legal_iff id nameText true 1 emptyForm namedEdits payload
    h).mpr named_others_right⟩

/-- The new child has an empty name, and the table of the body finds no error in its own rows. -/
theorem unnamed_child_submitted :
    ¬ ∀ (numberKey : String → String) (text : Option JsonValue → String) (valid : Bool)
        (apiDetailId : ℕ) (form : Form) (events : List Event) (payload : Payload),
      ((Session.opened apiDetailId form).run numberKey events).editor.handleSubmit text valid =
        some payload → LegalPayload payload := by
  intro hall
  have hsome : (((Session.opened 1 emptyForm).run id filterEdits).editor.handleSubmit
      nameText true).isSome := by decide +kernel
  obtain ⟨payload, h⟩ := Option.isSome_iff_exists.mp hsome
  have hlegal := (legalPayload_iff h).mp (hall id nameText true 1 emptyForm filterEdits
    payload h) (.request .body)
  have herror : ¬ ∀ table ∈ tablesBelow (((Session.opened 1 emptyForm).run id
      filterEdits).editor.form.rows (.request .body)), hasError table = false := by
    decide +kernel
  exact herror hlegal.2

end SubmittedParams
