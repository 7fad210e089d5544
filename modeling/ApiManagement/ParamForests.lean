import ApiManagement.StateInvariant

/-! # Param forests

In every reachable database each param is linked to a parent of the same api that may have
children, without cycles. That a request param also has its parent's location is true only
of runs whose payloads hand a usable location down: a root whose location is falsy is stored
in the body, while its children are stored where they say themselves. -/
namespace ParamForests

open TransactionRuns KeyedTables ParentLinkedRows RowForests PythonRuntime ServiceSchema ApiStores
  ServiceOperations ApiOperations DraftWrites OperationRuns OperationEffects StateInvariant

/-- Parents exist below the same api, take children and satisfy `located`; there is no cycle. -/
structure Forest {F : Type} [ParamFields F] (located : F → F → Prop)
    (rows : List (LinkedRow F)) : Prop where
  parents : ∀ r ∈ rows, ∀ p, r.parent = some p → ∃ q ∈ rows, q.id = p ∧ q.holder = r.holder ∧
    mayHaveChildren q.fields = true ∧ located q.fields r.fields
  acyclic : ∀ i, ¬ Relation.TransGen (ParentOf rows) i i

theorem forest_of_wellLinked {F : Type} [ParamFields F] {located : F → F → Prop}
    {t : Table (LinkedRow F)}
    (h : WellLinked (fun f g => Nests f g ∧ located f g) t.rows) : Forest located t.rows := by
  refine ⟨?_, h.acyclic t.nodup⟩
  intro r hr p hp
  obtain ⟨q, hq, hid, hh, hn, hl⟩ := h.parent hr hp
  exact ⟨q, hq, hid, hh, hn, hl⟩

def SameLocation (parent child : RequestFields) : Prop := parent.location = child.location

structure ParamForest (db : Database) : Prop where
  requests : Forest SameLocation db.live.requestParams.rows
  responses : Forest (fun _ _ => True) db.live.responseParams.rows
  request_drafts : Forest SameLocation db.drafts.requestParams.rows
  response_drafts : Forest (fun _ _ => True) db.drafts.responseParams.rows

def StoredAlike (parentLocation childLocation : JsonValue) : Prop :=
  storedLocation parentLocation = storedLocation childLocation

/-- If an update brings request params, every param below another one is stored at the
location of that one. -/
def LocationsAgree (_ : Database) (request : Request) : Prop :=
  PayloadGuard StoredAlike request.operation

/-- A truthy location is handed down unchanged, so only falsy ones can disagree. -/
theorem storedAlike_of_truthy {location : JsonValue} (h : location.truthy = true)
    (entry : ParamEntry) : StoredAlike location (rawLocation location entry) := by
  unfold StoredAlike rawLocation
  rw [if_pos h]

theorem sameLocation_joint (env : Environment) :
    JointLinks env StoredAlike (fun f g => Nests f g ∧ SameLocation f g) := by
  rintro l m f g ⟨_, _, _, _, hf⟩ hmay ⟨_, _, _, _, hg⟩ hj
  refine ⟨hmay, ?_⟩
  exact (requestRecord_eq_ok hf).1.trans (hj.trans (requestRecord_eq_ok hg).1.symm)

/-- In every run whose payloads agree on locations, all four tables are forests. -/
theorem params_form_forests {db : Database} (h : ReachableUnder LocationsAgree db) :
    ParamForest db := by
  have hi := reachableUnder_invariant sameLocation_joint (fun _ _ hg => hg) h
  have plain : ∀ {t : Table ResponseParam}, WellLinked Nests t.rows →
      Forest (fun _ _ => True) t.rows :=
    fun h => forest_of_wellLinked (h.weaken (fun _ _ hn => ⟨hn, trivial⟩))
  exact ⟨forest_of_wellLinked hi.live.request_linked, plain hi.live.response_linked,
    forest_of_wellLinked hi.drafts.request_linked, plain hi.drafts.response_linked⟩

theorem userPayload_agrees : PayloadRespects StoredAlike userPayload := by
  intro p hp
  simp only [userPayload, paramsOf, elementsOf, paramOf, List.mem_singleton] at hp
  subst p
  rw [ParamRespects]
  intro type _ _
  have htruthy : (rawLocation .null (entryOf [("name", .str "user"), ("type", .str "object"),
      ("location", .str "body"), ("children", .arr [.obj [("name", .str "age"),
        ("type", .str "int")]])])).truthy = true := by decide +kernel
  simpa [childrenIn, paramsOf, elementsOf, paramOf, ChildrenRespect, ParamRespects]
    using storedAlike_of_truthy htruthy _

theorem published_params_form_forests : ParamForest published := by
  refine params_form_forests (twoUsers_reachable.play publishing ?_)
  intro operation ho d
  simp only [publishing, List.mem_cons, List.not_mem_nil, or_false] at ho
  rcases ho with rfl | rfl | rfl | rfl | rfl | rfl
  all_goals first | trivial | exact userPayload_agrees

/-- Whatever the payloads, only the locations can go wrong. -/
theorem params_form_forests_but_for_locations {db : Database} (h : Reachable db) :
    Forest (fun _ _ => True) db.live.requestParams.rows ∧
      Forest (fun _ _ => True) db.drafts.requestParams.rows := by
  have hi := reachable_invariant h
  exact ⟨forest_of_wellLinked (hi.live.request_linked.weaken (fun _ _ hn => ⟨hn, trivial⟩)),
    forest_of_wellLinked (hi.drafts.request_linked.weaken (fun _ _ hn => ⟨hn, trivial⟩))⟩

def unlocatedPayload : JsonValue :=
  .arr [.obj [("name", .str "user"), ("type", .str "object"), ("location", .null),
    ("children", .arr [.obj [("name", .str "age"), ("type", .str "int"),
      ("location", .str "query")]])]]

def misplaced : Database :=
  play opened [.apiUpdateApiByApiDraftId 2 2 1 "list" "GET" "/users" none "P1" unlocatedPayload
    .null]

theorem unlocated_parent_splits_locations : ¬ ∀ db, Reachable db → ParamForest db := by
  intro h
  have hforest := (h misplaced (opened_reachable.play _)).request_drafts.parents
  have hchild : ∃ r ∈ misplaced.drafts.requestParams.rows,
      r.parent = some 5 ∧ r.fields.location = .query := by decide +kernel
  have hparent : ∀ q ∈ misplaced.drafts.requestParams.rows, q.id = 5 →
      q.fields.location = .body := by decide +kernel
  obtain ⟨r, hr, hp, hquery⟩ := hchild
  obtain ⟨q, hq, hid, _, _, hl⟩ := hforest r hr 5 hp
  have hsame : q.fields.location = r.fields.location := hl
  rw [hparent q hq hid, hquery] at hsame
  cases hsame

end ParamForests
