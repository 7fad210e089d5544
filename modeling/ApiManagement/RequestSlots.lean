import ApiManagement.InterfaceDeclarations
import ApiManagement.PathSubstitution

/-! # Slots of the request

The params of a request travel in the slots of one object: the body in `data`, the query in
`params`, headers in `headers`, path params in the url. There is no slot for cookies, and nothing
puts them elsewhere. -/
namespace RequestSlots

open ServiceSchema OpenapiExport CodeGenerator ScriptLexer TemplateHoles GeneratedClient
  PathSubstitution

section Slots

variable {V : Type} (vals : Values V) (base : BaseURL) (req : String → V) (option : ApiOption)

/-- The slot has the value of each field and nothing else. -/
structure CarriesIn (fields : List String) (slot : Option (List (String × V))) : Prop where
  all : ∀ f ∈ fields, (f, req f) ∈ slot.getD []
  only : ∀ e ∈ slot.getD [], e.1 ∈ fields ∧ e.2 = req e.1

def valuedFields : List String :=
  (option.reqFields .path).filter (fun f => !vals.isNullish (req f))

/-- Cookies may travel with the headers. -/
structure Carries (sent : SentRequest V) : Prop where
  body : CarriesIn req (option.reqFields .body) sent.data
  query : CarriesIn req (option.reqFields .query) sent.params
  headers : CarriesIn req (option.reqFields .header ++ option.reqFields .cookie) sent.headers
  url : sent.url = simultaneousUrl vals base req option.apiPath (valuedFields vals req option)
  holes : ∀ f ∈ valuedFields vals req option,
    .hole f ∈ parse (valuedFields vals req option) (pathPart base option.apiPath)

/-- The method is one, hands on all declared params, and looks at nothing else. -/
structure Carried : Prop where
  sent : ∃ sent, sentRequest vals base req option = some sent ∧ Carries vals base req option sent
  only : ∀ req' : String → V, (∀ l, ∀ f ∈ option.reqFields l, req' f = req f) →
    sentRequest vals base req' option = sentRequest vals base req option

/-- What every method needs that drops nothing. -/
structure Transmittable : Prop where
  cookies : option.reqFields .cookie = []
  names : ∀ l, l = .body ∨ l = .query ∨ l = .header → ∀ f ∈ option.reqFields l,
    Plain f ∧ f ≠ "__proto__"
  holes : ∀ f ∈ valuedFields vals req option,
    .hole f ∈ parse (valuedFields vals req option) (pathPart base option.apiPath)

structure PlainPath : Prop where
  path : ∀ c ∈ option.apiPath.toList, c ≠ '\'' ∧ c ≠ '\\' ∧ c ≠ '\n' ∧ c ≠ '\r'
  names : ∀ f ∈ option.reqFields .path, Plain f

end Slots

section Literals

theorem literalValue_plain {quote : Char} (hq : quote = '"' ∨ quote = '\'') {s : String}
    (h : Plain s) : literalValue quote s = some s := by
  have hchars : ∀ c ∈ s.toList, c ≠ quote ∧ c ≠ '\\' ∧ c ≠ '\n' ∧ c ≠ '\r' := by
    intro c hc
    obtain ⟨hdouble, hsingle, hback, hline, hreturn⟩ := h c hc
    rcases hq with rfl | rfl
    · exact ⟨hdouble, hback, hline, hreturn⟩
    · exact ⟨hsingle, hback, hline, hreturn⟩
  rw [literalValue, cook_of_plain hchars, Option.map_some, String.ofList_toList]

theorem entryOf_plain {f : String} (h : Plain f) : entryOf f = some (f, f) := by
  rw [entryOf, literalValue_plain (Or.inr rfl) h, literalValue_plain (Or.inl rfl) h]
  rfl

theorem replacedOf_plain {f : String} (h : Plain f) :
    replacedOf f = some ("\x7b" ++ f ++ "\x7d", f) := by
  have hbraces : Plain ("\x7b" ++ f ++ "\x7d") :=
    (Plain.append (by decide) h).append (by decide)
  rw [replacedOf, literalValue_plain (Or.inr rfl) hbraces, literalValue_plain (Or.inl rfl) h]
  rfl

theorem literalValue_length {quote : Char} {s v : String} (h : literalValue quote s = some v) :
    (v.length < s.length ∧ '\\' ∈ s.toList) ∨
      v = s ∧ ∀ c ∈ s.toList, c ≠ quote ∧ c ≠ '\\' ∧ c ≠ '\n' ∧ c ≠ '\r' := by
  obtain ⟨cs, hcs, rfl⟩ := Option.map_eq_some_iff.mp h
  rcases cook_eq_self hcs with ⟨hshort, hmem⟩ | ⟨rfl, hall⟩
  · refine Or.inl ⟨?_, hmem⟩
    rwa [String.length_ofList, ← String.length_toList]
  · exact Or.inr ⟨String.ofList_toList, hall⟩

/-- A key is the name itself or shorter. -/
theorem entryOf_cases {f : String} {e : String × String} (h : entryOf f = some e) :
    e.1.length < f.length ∨ e = (f, f) ∧ Plain f := by
  obtain ⟨key, hkey, h⟩ := Option.bind_eq_some_iff.mp h
  obtain ⟨property, hproperty, h⟩ := Option.bind_eq_some_iff.mp h
  cases h
  rcases literalValue_length hkey with ⟨hshort, _⟩ | ⟨rfl, hsingle⟩
  · exact Or.inl hshort
  · rcases literalValue_length hproperty with ⟨_, hback⟩ | ⟨rfl, hdouble⟩
    · exact absurd rfl (hsingle _ hback).2.1
    · refine Or.inr ⟨rfl, ?_⟩
      intro c hc
      obtain ⟨hone, hslash, hline, hreturn⟩ := hsingle c hc
      exact ⟨(hdouble c hc).1, hone, hslash, hline, hreturn⟩

/-- The keys of a literal are the names, or they are shorter altogether. -/
theorem entries_cases {fields : List String} {entries : List (String × String)}
    (h : fields.mapM entryOf = some entries) :
    (entries.map (fun e => e.1.length)).sum < (fields.map String.length).sum ∨
      entries = fields.map (fun f => (f, f)) ∧ ∀ f ∈ fields, Plain f := by
  induction fields generalizing entries with
  | nil =>
    cases h
    exact Or.inr ⟨rfl, fun f hf => nomatch hf⟩
  | cons f fields ih =>
    rw [List.mapM_cons] at h
    obtain ⟨e, he, h⟩ := Option.bind_eq_some_iff.mp h
    obtain ⟨es, hes, h⟩ := Option.bind_eq_some_iff.mp h
    cases h
    simp only [List.map_cons, List.sum_cons]
    rcases entryOf_cases he with hshort | ⟨rfl, hf⟩
    · rcases ih hes with hrest | ⟨rfl, _⟩
      · exact Or.inl (by omega)
      · refine Or.inl ?_
        rw [List.map_map]
        exact Nat.add_lt_add_right hshort _
    · rcases ih hes with hrest | ⟨rfl, hall⟩
      · exact Or.inl (Nat.add_lt_add_left hrest _)
      · refine Or.inr ⟨rfl, ?_⟩
        intro g hg
        rcases List.mem_cons.mp hg with rfl | hg
        · exact hf
        · exact hall g hg

theorem mapM_length {α β : Type} {g : α → Option β} {l : List α} {r : List β}
    (h : l.mapM g = some r) : r.length = l.length := by
  induction l generalizing r with
  | nil =>
    cases h
    rfl
  | cons a l ih =>
    rw [List.mapM_cons] at h
    obtain ⟨b, _, h⟩ := Option.bind_eq_some_iff.mp h
    obtain ⟨bs, hbs, h⟩ := Option.bind_eq_some_iff.mp h
    cases h
    rw [List.length_cons, List.length_cons, ih hbs]

theorem mapM_entryOf {fields : List String} (h : ∀ f ∈ fields, Plain f) :
    fields.mapM entryOf = some (fields.map (fun f => (f, f))) :=
  InterfaceDeclarations.mapM_some (fun f hf => entryOf_plain (h f hf))

end Literals

section Slot

variable {V : Type} {req : String → V} {emitted extra : List String}
  {entries : List (String × String)}

theorem objectOf_getD : (objectOf req entries).getD [] =
    (entries.filter (fun entry => entry.1 != "__proto__")).map
      (fun entry => (entry.1, req entry.2)) := by
  cases entries with
  | nil => rfl
  | cons e es => rfl

theorem carriesIn_of_plain (h : ∀ f ∈ emitted, f ≠ "__proto__") :
    CarriesIn req emitted (objectOf req (emitted.map (fun f => (f, f)))) := by
  constructor
  · intro f hf
    rw [objectOf_getD]
    refine List.mem_map.mpr ⟨(f, f), ?_, rfl⟩
    exact List.mem_filter.mpr ⟨List.mem_map_of_mem hf, by simpa using h f hf⟩
  · intro e he
    rw [objectOf_getD] at he
    obtain ⟨entry, hentry, rfl⟩ := List.mem_map.mp he
    obtain ⟨f, hf, rfl⟩ := List.mem_map.mp (List.mem_filter.mp hentry).1
    exact ⟨hf, rfl⟩

/-- There are no more keys than names that are written, and none of them is longer. -/
theorem plain_of_carriesIn (hentries : emitted.mapM entryOf = some entries)
    (hfields : (emitted ++ extra).Nodup)
    (h : CarriesIn req (emitted ++ extra) (objectOf req entries)) :
    extra = [] ∧ ∀ f ∈ emitted, Plain f ∧ f ≠ "__proto__" := by
  have hkeys : ∀ f ∈ emitted ++ extra, f ∈ entries.map Prod.fst ∧ f ≠ "__proto__" := by
    intro f hf
    have hmem := h.all f hf
    rw [objectOf_getD] at hmem
    obtain ⟨e, he, heq⟩ := List.mem_map.mp hmem
    obtain ⟨hin, hne⟩ := List.mem_filter.mp he
    obtain ⟨rfl, _⟩ := Prod.mk.inj heq
    exact ⟨List.mem_map_of_mem hin, by simpa using hne⟩
  have hsub : (emitted ++ extra).Subperm (entries.map Prod.fst) :=
    hfields.subperm (fun f hf => (hkeys f hf).1)
  have hlength : entries.length = emitted.length := mapM_length hentries
  have hextra : extra = [] := by
    have hle := hsub.length_le
    rw [List.length_append, List.length_map, hlength] at hle
    exact List.eq_nil_of_length_eq_zero (by omega)
  subst hextra
  rw [List.append_nil] at hsub hkeys
  have hperm : emitted.Perm (entries.map Prod.fst) :=
    hsub.perm_of_length_le (by rw [List.length_map, hlength])
  have hsum : (emitted.map String.length).sum = (entries.map (fun e => e.1.length)).sum := by
    rw [(hperm.map String.length).sum_eq, List.map_map]
    rfl
  refine ⟨rfl, ?_⟩
  rcases entries_cases hentries with hshort | ⟨_, hplain⟩
  · omega
  · exact fun f hf => ⟨hplain f hf, (hkeys f hf).2⟩

end Slot

section Request

variable {V : Type} {vals : Values V} {base : BaseURL} {req : String → V} {option : ApiOption}

theorem replaced_plain {fields : List String} (h : ∀ f ∈ fields, Plain f) :
    fields.mapM replacedOf = some (replacedFields fields) :=
  InterfaceDeclarations.mapM_some (fun f hf => replacedOf_plain (h f hf))

theorem path_plain {s : String}
    (h : ∀ c ∈ s.toList, c ≠ '\'' ∧ c ≠ '\\' ∧ c ≠ '\n' ∧ c ≠ '\r') :
    literalValue '\'' s = some s := by
  rw [literalValue, cook_of_plain h, Option.map_some, String.ofList_toList]

/-- Fields without a value are passed over. -/
theorem computedUrl_valued (path : String) (fields : List String) :
    computedUrl vals base req path (replacedFields fields) =
      computedUrl vals base req path
        (replacedFields (fields.filter (fun f => !vals.isNullish (req f)))) := by
  have hfold : ∀ (l : List String) (u : List Char),
      (replacedFields l).foldl (fun url field => if vals.isNullish (req field.2) then url
        else ScriptStrings.replace url field.1.toList (vals.text (req field.2)).toList) u =
      (replacedFields (l.filter (fun f => !vals.isNullish (req f)))).foldl
        (fun url field => if vals.isNullish (req field.2) then url
          else ScriptStrings.replace url field.1.toList (vals.text (req field.2)).toList) u := by
    intro l
    induction l with
    | nil => exact fun _ => rfl
    | cons f l ih =>
      intro u
      by_cases hf : vals.isNullish (req f) = true
      · simp only [replacedFields, List.map_cons, List.foldl_cons, List.filter_cons, hf,
          Bool.not_true, if_true] at ih ⊢
        exact ih u
      · rw [Bool.not_eq_true] at hf
        simp only [replacedFields, List.map_cons, List.foldl_cons, List.filter_cons, hf,
          Bool.not_false, if_true, Bool.false_eq_true, if_false] at ih ⊢
        exact ih _
  exact hfold fields _

variable (vals base req) in
theorem sentRequest_plain (hnames : ∀ l, l = .body ∨ l = .query ∨ l = .header →
    ∀ f ∈ option.reqFields l, Plain f) (hpath : PlainPath option) :
    sentRequest vals base req option = some {
      url := computedUrl vals base req option.apiPath (replacedFields (option.reqFields .path))
      method := option.apiMethod
      data := objectOf req ((option.reqFields .body).map (fun f => (f, f)))
      params := objectOf req ((option.reqFields .query).map (fun f => (f, f)))
      headers := objectOf req ((option.reqFields .header).map (fun f => (f, f))) } := by
  rw [sentRequest, path_plain hpath.path, replaced_plain hpath.names,
    mapM_entryOf (hnames .body (Or.inl rfl)), mapM_entryOf (hnames .query (Or.inr (Or.inl rfl))),
    mapM_entryOf (hnames .header (Or.inr (Or.inr rfl)))]
  rfl

theorem objectOf_congr {req' : String → V} {fields : List String}
    (h : ∀ f ∈ fields, req' f = req f) :
    objectOf req' (fields.map (fun f => (f, f))) = objectOf req (fields.map (fun f => (f, f))) := by
  rw [objectOf, objectOf]
  split
  · rfl
  · refine congrArg some (List.map_congr_left ?_)
    intro e he
    obtain ⟨f, hf, rfl⟩ := List.mem_map.mp (List.mem_filter.mp he).1
    exact congrArg (Prod.mk f) (h f hf)

theorem computedUrl_congr {req' : String → V} {path : String} {fields : List String}
    (h : ∀ f ∈ fields, req' f = req f) :
    computedUrl vals base req' path (replacedFields fields) =
      computedUrl vals base req path (replacedFields fields) := by
  rw [computedUrl, computedUrl]
  refine List.foldl_ext _ _ _ ?_
  intro url e he
  obtain ⟨f, hf, rfl⟩ := List.mem_map.mp he
  dsimp only
  rw [h f hf]

/-- With plain names the slots carry what they should, and the rest is up to the url. -/
theorem carried_iff_url (h : Transmittable vals base req option) (hpath : PlainPath option) :
    Carried vals base req option ↔
      computedUrl vals base req option.apiPath (replacedFields (valuedFields vals req option)) =
        simultaneousUrl vals base req option.apiPath (valuedFields vals req option) := by
  have hnames : ∀ l, l = .body ∨ l = .query ∨ l = .header → ∀ f ∈ option.reqFields l, Plain f :=
    fun l hl f hf => (h.names l hl f hf).1
  have hslot : ∀ l, l = .body ∨ l = .query ∨ l = .header →
      CarriesIn req (option.reqFields l)
        (objectOf req ((option.reqFields l).map (fun f => (f, f)))) :=
    fun l hl => carriesIn_of_plain (fun f hf => (h.names l hl f hf).2)
  have hsent := sentRequest_plain vals base req hnames hpath
  rw [computedUrl_valued] at hsent
  constructor
  · rintro ⟨⟨sent, hs, hcarries⟩, _⟩
    rw [hsent] at hs
    cases hs
    exact hcarries.url
  · intro hurl
    refine ⟨⟨_, hsent, hslot .body (Or.inl rfl), hslot .query (Or.inr (Or.inl rfl)), ?_, hurl,
      h.holes⟩, ?_⟩
    · rw [h.cookies, List.append_nil]
      exact hslot .header (Or.inr (Or.inr rfl))
    · intro req' hreq'
      rw [sentRequest_plain _ _ _ hnames hpath, sentRequest_plain _ _ _ hnames hpath,
        objectOf_congr (hreq' .body), objectOf_congr (hreq' .query),
        objectOf_congr (hreq' .header), computedUrl_congr (hreq' .path)]

/-- A method that drops nothing has no cookies, plain names and a hole for each path param. -/
theorem transmittable_of_carried (hnodup : ∀ l, (option.reqFields l).Nodup)
    (hheaders : (option.reqFields .header ++ option.reqFields .cookie).Nodup)
    (h : Carried vals base req option) : Transmittable vals base req option := by
  obtain ⟨⟨sent, hs, hcarries⟩, _⟩ := h
  obtain ⟨path, _, hs⟩ := Option.bind_eq_some_iff.mp hs
  obtain ⟨replaced, _, hs⟩ := Option.bind_eq_some_iff.mp hs
  obtain ⟨body, hbody, hs⟩ := Option.bind_eq_some_iff.mp hs
  obtain ⟨query, hquery, hs⟩ := Option.bind_eq_some_iff.mp hs
  obtain ⟨header, hheader, hs⟩ := Option.bind_eq_some_iff.mp hs
  cases hs
  have hbodySlot : CarriesIn req (option.reqFields .body ++ []) (objectOf req body) := by
    rw [List.append_nil]
    exact hcarries.body
  have hquerySlot : CarriesIn req (option.reqFields .query ++ []) (objectOf req query) := by
    rw [List.append_nil]
    exact hcarries.query
  have hheaderNames := plain_of_carriesIn hheader hheaders hcarries.headers
  refine ⟨hheaderNames.1, ?_, hcarries.holes⟩
  rintro l (rfl | rfl | rfl)
  · exact (plain_of_carriesIn hbody (by rw [List.append_nil]; exact hnodup _) hbodySlot).2
  · exact (plain_of_carriesIn hquery (by rw [List.append_nil]; exact hnodup _) hquerySlot).2
  · exact hheaderNames.2

end Request

def DistinctRoots (api : FetchedApi) : Prop :=
  (locations.flatMap (fun l => (api.requestParams l).map (fun t => name t.value))).Nodup

/-- A request carries all params just when there are no cookies, names mean themselves, each path
param has its hole, and the url comes out right. -/
theorem request_carries {V : Type} (up : Uppercase) (vals : Values V) (base : BaseURL)
    (req : String → V) (api : FetchedApi) (hdistinct : DistinctRoots api) :
    (Carried vals base req (generateTSCode up api).apiOption →
      Transmittable vals base req (generateTSCode up api).apiOption) ∧
    (PlainPath (generateTSCode up api).apiOption →
      (Transmittable vals base req (generateTSCode up api).apiOption →
        Clean vals base req api.path (valuedFields vals req (generateTSCode up api).apiOption) →
          Carried vals base req (generateTSCode up api).apiOption) ∧
      (Tame vals base req api.path (valuedFields vals req (generateTSCode up api).apiOption) →
        (Carried vals base req (generateTSCode up api).apiOption ↔
          Transmittable vals base req (generateTSCode up api).apiOption ∧
            Once (valuedFields vals req (generateTSCode up api).apiOption)
              (segments base api.path
                (valuedFields vals req (generateTSCode up api).apiOption))))) := by
  have hnodup : ∀ l, ((generateTSCode up api).apiOption.reqFields l).Nodup := by
    intro l
    have hmem : l ∈ locations := by cases l <;> decide
    rw [DistinctRoots, List.flatMap_def] at hdistinct
    exact hdistinct.sublist (List.sublist_flatten_of_mem (List.mem_map_of_mem hmem))
  have hheaders : ((generateTSCode up api).apiOption.reqFields .header ++
      (generateTSCode up api).apiOption.reqFields .cookie).Nodup := by
    rw [DistinctRoots, locations, List.flatMap_cons, List.flatMap_cons, List.flatMap_cons,
      List.flatMap_cons, ← List.append_assoc (List.map _ (api.requestParams .header))] at hdistinct
    exact (List.nodup_append'.mp
      (List.nodup_append'.mp (List.nodup_append'.mp hdistinct).2.1).2.1).1
  have hvalued : (valuedFields vals req (generateTSCode up api).apiOption).Nodup :=
    (hnodup .path).filter _
  have hreq : ∀ f ∈ valuedFields vals req (generateTSCode up api).apiOption,
      vals.isNullish (req f) = false := by
    intro f hf
    simpa using (List.mem_filter.mp hf).2
  refine ⟨transmittable_of_carried hnodup hheaders, ?_⟩
  intro hpath
  constructor
  · intro h hclean
    exact (carried_iff_url h hpath).mpr (computedUrl_of_clean hvalued hreq hclean)
  · intro htame
    have hurl := computedUrl_iff_of_tame hvalued hreq htame
    constructor
    · intro hcarried
      have h := transmittable_of_carried hnodup hheaders hcarried
      exact ⟨h, hurl.mp ((carried_iff_url h hpath).mp hcarried)⟩
    · rintro ⟨h, honce⟩
      exact (carried_iff_url h hpath).mpr (hurl.mpr honce)

theorem id_fits : "id".length ≤ 64 := by decide

theorem token_fits : "token".length ≤ 64 := by decide

def tokenApi (location : ParamLocation) : FetchedApi where
  name := "session"
  method := .get
  path := "/sessions/{id}"
  description := none
  requestParams l :=
    (if l = .path then
      [.node ⟨⟨"id", id_fits⟩, .path, .string, some true, none, none, none, none⟩ []] else []) ++
    (if l = location then
      [.node ⟨⟨"token", token_fits⟩, location, .string, some true, none, none, none, none⟩ []]
      else [])
  statusCodes := []
  statusCodes_nodup := List.nodup_nil
  responseParams _ := []

/-- A token in a header arrives. -/
theorem header_carried : Carried textValues (.text "https://api.test") (fun f => f)
    (generateTSCode InterfaceNames.plainUppercase (tokenApi .header)).apiOption := by
  have hpath : PlainPath
      (generateTSCode InterfaceNames.plainUppercase (tokenApi .header)).apiOption := by
    have hall : "/sessions/\x7bid\x7d".toList.all
        (fun c => c != '\'' && (c != '\\' && (c != '\n' && c != '\r'))) = true := by decide +kernel
    refine ⟨?_, by decide +kernel⟩
    intro c hc
    have hc := List.all_eq_true.mp hall c hc
    simpa using hc
  have htransmittable : Transmittable textValues (.text "https://api.test") (fun f => f)
      (generateTSCode InterfaceNames.plainUppercase (tokenApi .header)).apiOption := by
    refine ⟨rfl, ?_, by decide +kernel⟩
    rintro l (rfl | rfl | rfl)
    · exact fun f hf => nomatch hf
    · exact fun f hf => nomatch hf
    · decide +kernel
  have hplain : ∀ f ∈ valuedFields textValues (fun f => f)
      (generateTSCode InterfaceNames.plainUppercase (tokenApi .header)).apiOption,
      '\x7b' ∉ texts textValues (fun f => f) f ∧
        ScriptStrings.hasDollarMark (texts textValues (fun f => f) f) = false := by decide +kernel
  have htame : Tame textValues (.text "https://api.test") (fun f => f) (tokenApi .header).path
      (valuedFields textValues (fun f => f)
        (generateTSCode InterfaceNames.plainUppercase (tokenApi .header)).apiOption) :=
    ⟨braced_iff.mpr (by decide +kernel), by decide +kernel, fun f hf => hplain f (mem_of_hole hf)⟩
  have hdistinct : DistinctRoots (tokenApi .header) := by
    unfold DistinctRoots
    decide +kernel
  exact (((request_carries InterfaceNames.plainUppercase textValues (.text "https://api.test")
    (fun f => f) (tokenApi .header) hdistinct).2 hpath).2 htame).mpr
      ⟨htransmittable, by decide +kernel⟩

/-- A token in a cookie does not. -/
theorem cookie_dropped :
    DistinctRoots (tokenApi .cookie) ∧
      ¬ Carried textValues (.text "https://api.test") (fun f => f)
        (generateTSCode InterfaceNames.plainUppercase (tokenApi .cookie)).apiOption := by
  refine ⟨by unfold DistinctRoots; decide +kernel, ?_⟩
  rintro ⟨⟨sent, hsent, hcarries⟩, _⟩
  have hheaders : sent.headers = none := by
    have hlist := congrArg (Option.map SentRequest.headers) hsent
    have hnone : (sentRequest textValues (.text "https://api.test") (fun f => f)
        (generateTSCode InterfaceNames.plainUppercase (tokenApi .cookie)).apiOption).map
          SentRequest.headers = some none := by decide +kernel
    rw [hnone] at hlist
    exact (Option.some.inj hlist).symm
  have hmem := hcarries.headers.all "token" (by decide +kernel)
  rw [hheaders] at hmem
  cases hmem

end RequestSlots
