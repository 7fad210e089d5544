import ApiManagement.CopiedNames
import ApiManagement.ParamRoundTrip

/-! # Status codes of nested response params

A root of a payload names its status code, and the params below it name none. They are stored
under 200 instead of the code of their root, so only roots under 200 may have children. What is
once stored with one code keeps it through every copy. -/
namespace ResponseCodes

open TransactionRuns KeyedTables ParentLinkedRows RowForests PythonRuntime ServiceSchema ApiStores
  StoreCopies ServiceOperations ApiOperations DraftWrites OperationRuns OperationEffects
  StateInvariant IterationCopies ParamEncoding ParamRoundTrip DraftCopies

mutual

def Uncoded : ParamInput → Prop
  | .other => True
  | .dict entry children => entry.statusCode = none ∧ UncodedAll children

def UncodedAll : List ParamInput → Prop
  | [] => True
  | p :: ps => Uncoded p ∧ UncodedAll ps

end

/-- The documented format: roots carry a status code, children carry none. -/
def Documented (respParams : JsonValue) : Prop :=
  ∀ entry children, .dict entry children ∈ paramsOf respParams →
    entry.statusCode ≠ none ∧ UncodedAll children

def storesChildren (entry : ParamEntry) (children : List ParamInput) : Prop :=
  children ≠ [] ∧ ∃ type, entry.type = some type ∧
    takesChildren (storedType type) (storedChildType entry) = true

/-- Roots with children are stored under 200. -/
def NestsUnder200 (env : Environment) (respParams : JsonValue) : Prop :=
  ∀ entry children, .dict entry children ∈ paramsOf respParams → storesChildren entry children →
    env.bindInteger (entry.statusCode.getD (.num 200)) = some (some 200)

def CodesOfRoots (rows : List ResponseParam) : Prop :=
  ∀ root ∈ rows, root.parent = none → ∀ r ∈ rows,
    Relation.ReflTransGen (ParentOf rows) root.id r.id →
      r.fields.statusCode = root.fields.statusCode

section Written

variable {env : Environment}

theorem recorded_statusCode {raw : JsonValue} {entry : ParamEntry} {f : ResponseFields}
    (h : Recorded env raw entry f) :
    env.bindInteger (entry.statusCode.getD (.num 200)) = some (some f.statusCode) := by
  obtain ⟨name, type, _, _, h⟩ := h
  simp only [ParamModel.record, responseRecord, bind_eq_ok, bound_eq_ok, notNull_eq_ok,
    pure_eq_ok] at h
  obtain ⟨code, hcode, n, rfl, _, _, _, _, _, _, _, _, _, _, rfl⟩ := h
  exact hcode

mutual

/-- What is written for params without a status code has the code 200. -/
theorem written_uncoded (hd : env.bindInteger (.num 200) = some (some 200)) :
    ∀ (p : ParamInput) {raw : JsonValue} {t : RoseTree ResponseFields}, Written env raw p t →
      Uncoded p → ∀ v ∈ t.values, v.statusCode = 200
  | .other, _, _, h, _ => by
    rw [Written] at h
    exact h.elim
  | .dict entry children, raw, .node f ts, h, hu => by
    obtain ⟨hrecorded, hmay, hnot⟩ := h
    have hcode := recorded_statusCode hrecorded
    rw [hu.1, Option.getD_none, hd] at hcode
    intro v hv
    rw [RoseTree.values] at hv
    rcases List.mem_cons.mp hv with rfl | hv
    · exact (Option.some.inj (Option.some.inj hcode)).symm
    · cases hm : mayHaveChildren f with
      | true => exact writtenAll_uncoded hd children (hmay hm) hu.2 v hv
      | false =>
        rw [hnot hm, forestValues] at hv
        cases hv

theorem writtenAll_uncoded (hd : env.bindInteger (.num 200) = some (some 200)) :
    ∀ (ps : List ParamInput) {raw : JsonValue} {ts : List (RoseTree ResponseFields)},
      WrittenAll env raw ps ts → UncodedAll ps → ∀ v ∈ forestValues ts, v.statusCode = 200
  | [], _, [], _, _ => by
    intro v hv
    rw [forestValues] at hv
    cases hv
  | [], _, _ :: _, h, _ => by
    rw [WrittenAll] at h
    exact h.elim
  | _ :: _, _, [], h, _ => by
    rw [WrittenAll] at h
    exact h.elim
  | p :: ps, raw, t :: ts, h, hu => by
    intro v hv
    rw [forestValues] at hv
    rcases List.mem_append.mp hv with hv | hv
    · exact written_uncoded hd p h.1 hu.1 v hv
    · exact writtenAll_uncoded hd ps h.2 hu.2 v hv

end

variable (hd : env.bindInteger (.num 200) = some (some 200))

include hd

/-- The tree of a root has one code exactly if the root stores no children or has the code 200. -/
theorem root_uniform_iff {raw : JsonValue} {entry : ParamEntry} {children : List ParamInput}
    {t : RoseTree ResponseFields} (h : Written env raw (.dict entry children) t)
    (hu : UncodedAll children) :
    (∀ v ∈ t.values, v.statusCode = t.value.statusCode) ↔
      (storesChildren entry children →
        env.bindInteger (entry.statusCode.getD (.num 200)) = some (some 200)) := by
  obtain ⟨f, ts⟩ := t
  obtain ⟨hrecorded, hmay, hnot⟩ := h
  obtain ⟨name, type, hname, htype, hf⟩ := hrecorded
  obtain ⟨ht, hchild⟩ := ParamModel.record_type hf
  have htakes : mayHaveChildren f = takesChildren (storedType type) (storedChildType entry) := by
    rw [mayHaveChildren, ht, hchild]
  have hstores : storesChildren entry children ↔ mayHaveChildren f = true ∧ children ≠ [] := by
    rw [storesChildren, htype, htakes]
    simp [and_comm]
  rw [recorded_statusCode ⟨name, type, hname, htype, hf⟩, hstores, RoseTree.value,
    Option.some_inj, Option.some_inj]
  constructor
  · rintro h ⟨hm, hne⟩
    have hts := hmay hm
    cases children with
    | nil => exact absurd rfl hne
    | cons p ps =>
      cases ts with
      | nil => exact hts.elim
      | cons t ts =>
        have hv : t.value ∈ forestValues (t :: ts) := by
          rw [forestValues]
          exact List.mem_append_left _ (by cases t; exact List.mem_cons_self)
        rw [← h t.value (by rw [RoseTree.values]; exact List.mem_cons_of_mem _ hv)]
        exact writtenAll_uncoded hd (p :: ps) hts hu t.value hv
  · intro h v hv
    rw [RoseTree.values] at hv
    rcases List.mem_cons.mp hv with rfl | hv
    · rfl
    · cases hm : mayHaveChildren f with
      | false =>
        rw [hnot hm, forestValues] at hv
        cases hv
      | true =>
        have hts := hmay hm
        have hne : children ≠ [] := by
          rintro rfl
          cases ts with
          | nil => cases hv
          | cons t ts => exact hts.elim
        rw [h ⟨hm, hne⟩]
        exact writtenAll_uncoded hd children hts hu v hv

theorem roots_uniform_iff : ∀ {ps : List ParamInput} {raw : JsonValue}
    {ts : List (RoseTree ResponseFields)}, WrittenAll env raw ps ts →
    (∀ entry children, .dict entry children ∈ ps → UncodedAll children) →
    ((∀ t ∈ ts, ∀ v ∈ t.values, v.statusCode = t.value.statusCode) ↔
      ∀ entry children, .dict entry children ∈ ps → storesChildren entry children →
        env.bindInteger (entry.statusCode.getD (.num 200)) = some (some 200)) := by
  intro ps
  induction ps with
  | nil =>
    intro raw ts h _
    cases ts with
    | nil => simp
    | cons t ts => exact h.elim
  | cons p ps ih =>
    intro raw ts h hu
    cases ts with
    | nil => exact h.elim
    | cons t ts =>
      have rest := ih h.2 (fun e cs hm => hu e cs (List.mem_cons_of_mem _ hm))
      cases p with
      | other => exact h.1.elim
      | dict entry children =>
        have first := root_uniform_iff hd h.1 (hu entry children List.mem_cons_self)
        rw [List.forall_mem_cons, first, rest]
        constructor
        · rintro ⟨h₁, h₂⟩ e cs hm
          rcases List.mem_cons.mp hm with he | hm
          · cases he
            exact h₁
          · exact h₂ e cs hm
        · intro h
          exact ⟨h entry children List.mem_cons_self,
            fun e cs hm => h e cs (List.mem_cons_of_mem _ hm)⟩

end Written

theorem codesOfRoots_iff {rows : List ResponseParam} (hl : WellLinked Nests rows)
    (hn : (rows.map LinkedRow.id).Nodup) :
    CodesOfRoots rows ↔ Inherited ResponseFields.statusCode rows :=
  (inherited_iff_roots hl hn).symm

section Stores

variable {link : RequestFields → RequestFields → Prop} {env : Environment} {st st' : ApiStore}

theorem responses_linked (hw : WellFormed link st) (a : ℕ) :
    WellLinked Nests (st.responseParamsOf a) ∧
      ((st.responseParamsOf a).map LinkedRow.id).Nodup :=
  ⟨hw.response_linked.filter (fun h => h == a),
    st.responseParams.nodup.sublist (List.filter_sublist.map LinkedRow.id)⟩

theorem rewriteDraft_codes (hd : env.bindInteger (.num 200) = some (some 200))
    (hw : WellFormed link st) (hw' : WellFormed link st') {d : ApiDraft} {f : ApiFields}
    {reqParams respParams : JsonValue} (hdoc : Documented respParams)
    (h : rewriteDraft env d f reqParams respParams st = .ok st') :
    CodesOfRoots (st'.responseParamsOf d.id) ↔ NestsUnder200 env respParams := by
  obtain ⟨reqs, resps, _, hresps, hholds⟩ := rewriteDraft_writes hw h
  obtain ⟨hl, hn⟩ := responses_linked hw' d.id
  obtain ⟨n, _, hrows⟩ := hholds.responses
  rw [codesOfRoots_iff hl hn]
  rw [hrows] at hl hn ⊢
  rw [inherited_layForest hl hn]
  exact roots_uniform_iff hd hresps (fun entry children hm => (hdoc entry children hm).2)

def CodesAgree (st : ApiStore) : Prop :=
  ∀ a ∈ st.apis.rows, Inherited ResponseFields.statusCode (st.responseParamsOf a.id)

theorem codesAgree_rows (hw : WellFormed link st) (h : CodesAgree st) :
    Inherited ResponseFields.statusCode st.responseParams.rows := by
  intro r hr q hq hp
  obtain ⟨a, ha, hid⟩ := hw.response_held r hr
  obtain ⟨q', hq', hqid, hheld, _⟩ := hw.response_linked.parent hr hp
  obtain rfl := st.responseParams.eq_of_key_eq hq' hq hqid
  exact h a ha r (ApiStore.mem_responseParamsOf.mpr ⟨hr, hid.symm⟩) q'
    (ApiStore.mem_responseParamsOf.mpr ⟨hq', hheld.trans hid.symm⟩) hp

theorem codes_copied (hw : WellFormed link st) {a holder : ℕ} {ρ : ℕ → ℕ}
    (h : Inherited ResponseFields.statusCode (st.responseParamsOf a))
    (hi : Set.InjOn ρ { i | i ∈ (st.responseParamsOf a).map LinkedRow.id })
    {copies : List ResponseParam}
    (hc : copies.Perm ((st.responseParamsOf a).map (graft ρ holder))) :
    Inherited ResponseFields.statusCode copies :=
  h.graft hi (hw.response_linked.parents_within (fun _ => ApiStore.mem_responseParamsOf)) hc

/-- A store whose apis are old ones or copies. -/
theorem CodesAgree.replica {source : ApiStore} (hw : WellFormed link source) {c d : ℕ}
    (hs : CodesAgree source) (h : CodesAgree st) (ho : SameOutside d st st')
    {ν : ℕ → ℕ} {μ ρ : ℕ → ℕ → ℕ} (hr : Replica id source c st' d ν μ ρ) : CodesAgree st' := by
  intro a ha
  by_cases hd : a.container = d
  · obtain ⟨b, hb, hid, _⟩ := hr.preimage (ApiStore.mem_apisOf.mpr ⟨ha, hd⟩)
    rw [hid]
    exact codes_copied hw (hs b (ApiStore.mem_apisOf.mp hb).1) (hr.response_inj b hb)
      (hr.responses b hb)
  · have hm : a ∈ st.apisOf a.container := by
      rw [← ho.apisOf hd]
      exact ApiStore.mem_apisOf.mpr ⟨ha, rfl⟩
    rw [ho.responseParamsOf hd hm]
    exact h a (ApiStore.mem_apisOf.mp hm).1

theorem CodesAgree.setCategories (h : CodesAgree st) (g : ApiRow → Option ℕ) :
    CodesAgree (setCategories g st) := by
  intro a ha
  obtain ⟨b, hb, rfl⟩ := List.mem_map.mp ha
  exact h b hb

end Stores

section Runs

variable {env : Environment} {db db' : Database}

/-- An update brings documented response params whose roots with children have the code 200. -/
def CodesGiven (_ : Database) (request : Request) : Prop :=
  match request.operation with
  | .apiUpdateApiByApiDraftId _ _ _ _ _ _ _ _ _ respParams =>
    request.env.bindInteger (.num 200) = some (some 200) ∧ Documented respParams ∧
      NestsUnder200 request.env respParams
  | _ => True

theorem codesAgree_inserted {st st' : ApiStore} {refs : References} {c : ℕ} {f : ApiFields}
    (hw : WellFormed Nests st) (h : insertApi refs c f st = .ok st') (hst : CodesAgree st) :
    CodesAgree st' := by
  obtain ⟨_, _, rfl⟩ := insertApi_eq_ok.mp h
  intro a ha
  rcases List.mem_append.mp ha with ha | ha
  · exact hst a ha
  · rw [List.mem_singleton.mp ha]
    intro r hr
    obtain ⟨hr, hheld⟩ := ApiStore.mem_responseParamsOf.mp hr
    exact absurd hheld (not_held_next hw.response_held r hr)

theorem codesAgree_duplicated {st st' : ApiStore} {d : ApiDraft} (hw : WellFormed Nests st)
    (hd : d ∈ st.apis.rows) (h : Duplicated d st st') (hst : CodesAgree st) : CodesAgree st' := by
  obtain ⟨c, f, hrows⟩ := h.drafts
  obtain ⟨ρ, hinj, hperm⟩ := h.responses
  intro a ha
  rw [hrows] at ha
  rcases List.mem_append.mp ha with ha | ha
  · rw [(h.others a.id (Table.key_ne_next ha)).2]
    exact hst a ha
  · rw [List.mem_singleton.mp ha]
    exact codes_copied hw (hst d hd) hinj hperm

theorem codesAgree_removed {st : ApiStore} {d : ApiDraft} (hw : WellFormed Nests st)
    (hd : d ∈ st.apis.rows) (hst : CodesAgree st) : CodesAgree (removeDraft d.id st) := by
  intro a ha
  rw [(removeDraft_spec hw hd).2.2] at ha
  obtain ⟨ha, hne⟩ := List.mem_filter.mp ha
  have hid : a.id ≠ d.id := by simpa using hne
  rw [(removeDraft_other hw hid).2]
  exact hst a ha

theorem codesAgree_rewritten {st st' : ApiStore} {d : ApiDraft} {f : ApiFields}
    {reqParams respParams : JsonValue} (hd : env.bindInteger (.num 200) = some (some 200))
    (hw : WellFormed Nests st) (hm : d ∈ st.apis.rows) (hdoc : Documented respParams)
    (hcodes : NestsUnder200 env respParams)
    (h : rewriteDraft env d f reqParams respParams st = .ok st') (hst : CodesAgree st) :
    CodesAgree st' := by
  obtain ⟨hw', _, hapis⟩ := rewriteDraft_spec (nests_joint env) hw hm
    (fun p _ => paramRespects_true p) h
  intro a ha
  rw [hapis] at ha
  obtain ⟨b, hb, rfl⟩ := List.mem_map.mp ha
  rw [setFields_id]
  by_cases hid : b.id = d.id
  · rw [hid]
    obtain ⟨hl, hn⟩ := responses_linked hw' d.id
    exact (codesOfRoots_iff hl hn).mp ((rewriteDraft_codes hd hw hw' hdoc h).mpr hcodes)
  · rw [(rewriteDraft_other hw hid h).2]
    exact hst b hb

theorem effect_codes (hi : Invariant Nests db) {operation : Operation}
    (he : Effect env db operation db') (hg : CodesGiven db ⟨env, operation⟩)
    (h : CodesAgree db.live ∧ CodesAgree db.drafts) :
    CodesAgree db'.live ∧ CodesAgree db'.drafts := by
  obtain ⟨hlive, hdrafts⟩ := h
  cases he with
  | iterationStarted _ _ _ _ _ hcopy =>
    obtain ⟨ν, μ, ρ, hc, _, ho⟩ := started_copies hi hcopy
    exact ⟨hlive, CodesAgree.replica hi.live hlive hdrafts ho (started_replica hi hc)⟩
  | iterationCommitted hw _ hsid _ _ hcopy =>
    rw [hsid] at hcopy
    obtain ⟨ν, μ, ρ, hc, _, ho⟩ := committed_copies hi hw.mem hcopy
    exact ⟨CodesAgree.replica hi.drafts hdrafts hlive ho (committed_replica hc), hdrafts⟩
  | categoryDeleted _ _ _ _ _ => exact ⟨hlive.setCategories _, hdrafts.setCategories _⟩
  | apiCategoryUpdated _ _ _ _ _ _ => exact ⟨hlive.setCategories _, hdrafts⟩
  | draftAdded _ _ _ _ _ _ _ _ hinsert =>
    exact ⟨hlive, codesAgree_inserted hi.drafts hinsert hdrafts⟩
  | draftCopied _ hd _ _ _ _ _ _ hcopy =>
    exact ⟨hlive, codesAgree_duplicated hi.drafts hd (copyDraft_duplicated hi.drafts hcopy) hdrafts⟩
  | draftDeleted _ hd _ _ => exact ⟨hlive, codesAgree_removed hi.drafts hd hdrafts⟩
  | draftUpdated _ hd _ _ _ _ _ _ hrw =>
    obtain ⟨h200, hdoc, hcodes⟩ := hg
    exact ⟨hlive, codesAgree_rewritten h200 hi.drafts hd hdoc hcodes hrw hdrafts⟩
  | _ => exact ⟨hlive, hdrafts⟩

/-- What one update stores below its roots has their codes exactly if the roots with children
have the code 200; and where all updates do so, every param has the code of its parent, in the
live tables and the draft tables. -/
theorem nested_codes (db : Database) :
    (Reachable db → ∀ env : Environment, env.bindInteger (.num 200) = some (some 200) →
      ∀ iterationId apiDraftId userId name method path description level reqParams respParams,
        Documented respParams → ∀ db' r,
          apiUpdateApiByApiDraftId env iterationId apiDraftId userId name method path description
            level reqParams respParams db = .ok (db', r) →
          (CodesOfRoots (db'.drafts.responseParamsOf apiDraftId) ↔
            NestsUnder200 env respParams)) ∧
    (ReachableUnder CodesGiven db →
      Inherited ResponseFields.statusCode db.live.responseParams.rows ∧
        Inherited ResponseFields.statusCode db.drafts.responseParams.rows) := by
  constructor
  · intro hreach env h200 iterationId apiDraftId userId name method path description level
      reqParams respParams hdoc db' r h
    have hi := reachable_invariant hreach
    have hi' : Invariant Nests db' := effect_preserves nests_joint
      (apiUpdateApiByApiDraftId_effect h) (payloadGuard_true _) hi
    simp only [apiUpdateApiByApiDraftId, bind_eq_ok, draftOfIteration_eq_ok, pure_eq_ok,
      Prod.mk.injEq] at h
    obtain ⟨d, ⟨_, hd, rfl, _⟩, _, _, _, _, drafts, hrw, rfl, _⟩ := h
    exact rewriteDraft_codes h200 hi.drafts hi'.drafts hdoc hrw
  · intro h
    have hi := reachable_invariant h.reachable
    obtain ⟨db₀, h₀, hrun⟩ := h
    have hcodes : Invariant Nests db ∧ CodesAgree db.live ∧ CodesAgree db.drafts := by
      refine hrun.preserves (I := fun d => Invariant Nests d ∧ CodesAgree d.live ∧
        CodesAgree d.drafts) ?_ ⟨initial_invariant h₀, ?_, ?_⟩
      · intro u e v hu hg hv
        have he := transaction_effect hv
        exact ⟨effect_preserves nests_joint he (payloadGuard_true _) hu.1,
          effect_codes hu.1 he hg hu.2⟩
      · rw [h₀.live]
        intro a ha
        cases ha
      · rw [h₀.drafts]
        intro a ha
        cases ha
    exact ⟨codesAgree_rows hi.live hcodes.2.1, codesAgree_rows hi.drafts hcodes.2.2⟩

end Runs

def messagePayload : JsonValue :=
  .arr [.obj [("name", .str "user"), ("type", .str "object"), ("status_code", .num 200),
      ("children", .arr [.obj [("name", .str "age"), ("type", .str "int")]])],
    .obj [("name", .str "message"), ("type", .str "string"), ("status_code", .num 404)]]

def reasonPayload : JsonValue :=
  .arr [.obj [("name", .str "error"), ("type", .str "object"), ("status_code", .num 404),
    ("children", .arr [.obj [("name", .str "reason"), ("type", .str "string")]])]]

def updating (respParams : JsonValue) : Operation :=
  .apiUpdateApiByApiDraftId 2 2 1 "list" "GET" "/users" none "P1" .null respParams

def reasonStored : Database := play opened [updating reasonPayload]

theorem plainEnvironment_binds : plainEnvironment.bindInteger (.num 200) = some (some 200) := by
  decide +kernel

theorem reasonPayload_documented : Documented reasonPayload := by
  intro entry children hm
  simp only [reasonPayload, paramsOf, elementsOf, paramOf, List.mem_singleton] at hm
  cases hm
  refine ⟨by decide, ?_⟩
  simp [childrenIn, paramsOf, elementsOf, paramOf, UncodedAll, Uncoded, entryOf, List.lookup]

theorem reason_update : ∃ r, apiUpdateApiByApiDraftId plainEnvironment 2 2 1 "list" "GET" "/users"
    none "P1" .null reasonPayload opened = .ok (reasonStored, r) :=
  played (updating reasonPayload) rfl (by decide +kernel)

/-- The reason is stored under 200, the error under 404. -/
theorem reason_under_200 : ¬ ∀ db, Reachable db → ∀ env : Environment,
    env.bindInteger (.num 200) = some (some 200) →
      ∀ iterationId apiDraftId userId name method path description level reqParams respParams,
        Documented respParams → ∀ db' r,
          apiUpdateApiByApiDraftId env iterationId apiDraftId userId name method path description
            level reqParams respParams db = .ok (db', r) →
          CodesOfRoots (db'.drafts.responseParamsOf apiDraftId) := by
  intro hall
  obtain ⟨r, hr⟩ := reason_update
  have hcodes := hall opened opened_reachable plainEnvironment plainEnvironment_binds 2 2 1 "list"
    "GET" "/users" none "P1" .null reasonPayload reasonPayload_documented reasonStored r hr
  obtain ⟨root, hroot, hnone, c, hc, hp, hne⟩ :
      ∃ root ∈ reasonStored.drafts.responseParamsOf 2, root.parent = none ∧
        ∃ c ∈ reasonStored.drafts.responseParamsOf 2, c.parent = some root.id ∧
          c.fields.statusCode ≠ root.fields.statusCode := by decide +kernel
  exact hne (hcodes root hroot hnone c hc (.single ⟨c, hc, rfl, hp⟩))

theorem messagePayload_given : Documented messagePayload ∧
    NestsUnder200 plainEnvironment messagePayload := by
  constructor
  · intro entry children hm
    simp only [messagePayload, paramsOf, elementsOf, paramOf, List.mem_cons, List.not_mem_nil,
      or_false] at hm
    rcases hm with hm | hm
    · cases hm
      refine ⟨by decide, ?_⟩
      simp [childrenIn, paramsOf, elementsOf, paramOf, UncodedAll, Uncoded, entryOf, List.lookup]
    · cases hm
      refine ⟨by decide, ?_⟩
      simp [childrenIn, UncodedAll]
  · intro entry children hm hstores
    simp only [messagePayload, paramsOf, elementsOf, paramOf, List.mem_cons, List.not_mem_nil,
      or_false] at hm
    rcases hm with hm | hm
    · cases hm
      decide +kernel
    · cases hm
      exact absurd (by simp [childrenIn]) hstores.1

def messageStored : Database := play opened [updating messagePayload]

theorem message_codes_inherited :
    (CodesOfRoots (reasonStored.drafts.responseParamsOf 2) ↔
      NestsUnder200 plainEnvironment reasonPayload) ∧
    Inherited ResponseFields.statusCode messageStored.live.responseParams.rows ∧
      Inherited ResponseFields.statusCode messageStored.drafts.responseParams.rows := by
  constructor
  · obtain ⟨r, hr⟩ := reason_update
    exact (nested_codes opened).1 opened_reachable plainEnvironment plainEnvironment_binds 2 2 1
      "list" "GET" "/users" none "P1" .null reasonPayload reasonPayload_documented reasonStored r hr
  · refine (nested_codes messageStored).2 ?_
    have plain : ∀ {respParams : JsonValue}, Documented respParams →
        NestsUnder200 plainEnvironment respParams → ∀ d iterationId apiDraftId userId name method
        path description level reqParams, CodesGiven d ⟨plainEnvironment,
          .apiUpdateApiByApiDraftId iterationId apiDraftId userId name method path description level
            reqParams respParams⟩ :=
      fun hdoc hcodes _ _ _ _ _ _ _ _ _ _ => ⟨plainEnvironment_binds, hdoc, hcodes⟩
    have hpublished : ReachableUnder CodesGiven published := by
      refine twoUsers_reachable.play publishing ?_
      intro operation ho d
      simp only [publishing, List.mem_cons, List.not_mem_nil, or_false] at ho
      rcases ho with rfl | rfl | rfl | rfl | rfl | rfl
      case inr.inr.inr.inl =>
        exact plain (fun entry children hm => by cases hm) (fun entry children hm => by cases hm) d
          _ _ _ _ _ _ _ _ _
      all_goals trivial
    refine (hpublished.play [.serviceStartIteration 1 1] ?_).play [updating messagePayload] ?_
    · intro operation ho d
      rw [List.mem_singleton.mp ho]
      trivial
    · intro operation ho d
      rw [List.mem_singleton.mp ho]
      exact plain messagePayload_given.1 messagePayload_given.2 d _ _ _ _ _ _ _ _ _

end ResponseCodes
