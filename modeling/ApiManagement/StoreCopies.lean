import ApiManagement.ApiStores

/-! # Copies between stores

The loop that starts an iteration and the loop that commits one are the same copy with
source and destination exchanged. It succeeds from any well-formed source into any
container that holds no api with the same key, and its result is a replica: the rows of
the source container under injective renamings of ids. -/
namespace StoreCopies

open TransactionRuns KeyedTables ParentLinkedRows RowForests PythonRuntime ServiceSchema ApiStores

variable {link : RequestFields → RequestFields → Prop}

section Params

variable {st : ApiStore} {c h : ℕ}

theorem extendRequests_wellFormed (hw : WellFormed link st) {t : Table RequestParam}
    (he : Extends h st.requestParams t) (hl : WellLinked link t.rows)
    (hh : st.apis.contains h = true) : WellFormed link { st with requestParams := t } := by
  refine ⟨hw.key_unique, ?_, hw.response_held, hl, hw.response_linked⟩
  intro r hr
  obtain ⟨new, hrows, hnew, _⟩ := he
  rw [hrows] at hr
  rcases List.mem_append.mp hr with hr | hr
  · exact hw.request_held r hr
  · rw [(hnew r hr).1]
    exact Table.contains_iff.mp hh

theorem extendResponses_wellFormed (hw : WellFormed link st) {t : Table ResponseParam}
    (he : Extends h st.responseParams t) (hl : WellLinked Nests t.rows)
    (hh : st.apis.contains h = true) : WellFormed link { st with responseParams := t } := by
  refine ⟨hw.key_unique, hw.request_held, ?_, hw.request_linked, hl⟩
  intro r hr
  obtain ⟨new, hrows, hnew, _⟩ := he
  rw [hrows] at hr
  rcases List.mem_append.mp hr with hr | hr
  · exact hw.response_held r hr
  · rw [(hnew r hr).1]
    exact Table.contains_iff.mp hh

theorem extendRequests_sameOutside {t : Table RequestParam} (he : Extends h st.requestParams t)
    (ho : owns st c h = true) : SameOutside c st { st with requestParams := t } := by
  refine ⟨rfl, ?_, rfl⟩
  exact he.filter_eq (fun i => !owns st c i) (by simp [ho])

theorem extendResponses_sameOutside {t : Table ResponseParam}
    (he : Extends h st.responseParams t) (ho : owns st c h = true) :
    SameOutside c st { st with responseParams := t } := by
  refine ⟨rfl, rfl, ?_⟩
  exact he.filter_eq (fun i => !owns st c i) (by simp [ho])

end Params

structure CopiedRows {F : Type} (source : List (LinkedRow F)) (h : ℕ)
    (t t' : Table (LinkedRow F)) (μ : ℕ → ℕ) : Prop where
  rows : ∃ fetched : List (LinkedRow F), fetched.Perm source ∧
    t'.rows = t.rows ++ fetched.map (graft μ h)
  extended : Extends h t t'
  inj : Set.InjOn μ { i | i ∈ source.map LinkedRow.id }

theorem copyRows_copied {F : Type} {bond : F → F → Prop} {rows : Table (LinkedRow F)}
    (hl : WellLinked bond rows.rows) (a : ℕ) (env : Environment) {held : ℕ → Bool} {h : ℕ}
    (hh : held h = true) (t : Table (LinkedRow F)) (ht : WellLinked bond t.rows) :
    ∃ t' μ, copyRows held h (env.fetch (rows.rows.filter (fun r => r.holder == a))) t = .ok t' ∧
      CopiedRows (rows.rows.filter (fun r => r.holder == a)) h t t' μ ∧
      WellLinked bond t'.rows := by
  have hp := env.fetch_perm (rows.rows.filter (fun r => r.holder == a))
  have hs : ∀ r, r ∈ env.fetch (rows.rows.filter (fun r => r.holder == a)) ↔
      r ∈ rows.rows ∧ r.holder = a := by
    intro r
    rw [env.mem_fetch]
    simp
  have hn : ((env.fetch (rows.rows.filter (fun r => r.holder == a))).map LinkedRow.id).Nodup :=
    ((hp.map _).nodup_iff).mpr (rows.nodup.sublist (List.filter_sublist.map LinkedRow.id))
  obtain ⟨t', μ, he, hrows, hnext, hfresh, hinj⟩ :=
    copyRows_spec hh hn (hl.parents_within hs) t
  refine ⟨t', μ, he, ⟨⟨_, hp, hrows⟩, ⟨_, hrows, ?_, hnext⟩, ?_⟩, ?_⟩
  · intro r hr
    obtain ⟨q, hq, rfl⟩ := List.mem_map.mp hr
    exact ⟨rfl, hfresh q hq⟩
  · intro i hi j hj
    exact hinj ((hp.map _).mem_iff.mpr hi) ((hp.map _).mem_iff.mpr hj)
  · rw [hrows]
    apply ht.append
    intro r hr
    obtain ⟨q, hq, rfl⟩ := List.mem_map.mp hr
    obtain ⟨hm, hq⟩ := (hs q).mp hq
    exact (graft_rooted hs (hl q hm) hq).mono (List.subset_append_right _ _)

/-- Below a holder that had no rows, exactly the copies are found. -/
theorem CopiedRows.below {F : Type} {source : List (LinkedRow F)} {h : ℕ}
    {t t' : Table (LinkedRow F)} {μ : ℕ → ℕ} (hc : CopiedRows source h t t' μ)
    (hnone : ∀ r ∈ t.rows, r.holder ≠ h) :
    (t'.rows.filter (fun r => r.holder == h)).Perm (source.map (graft μ h)) := by
  obtain ⟨fetched, hp, hrows⟩ := hc.rows
  have hold : t.rows.filter (fun r => r.holder == h) = [] := by
    rw [List.filter_eq_nil_iff]
    intro r hr
    simpa using hnone r hr
  have hnew : (fetched.map (graft μ h)).filter (fun r => r.holder == h) =
      fetched.map (graft μ h) := by
    rw [List.filter_eq_self]
    intro r hr
    obtain ⟨q, _, rfl⟩ := List.mem_map.mp hr
    simp
  rw [hrows, List.filter_append, hold, hnew, List.nil_append]
  exact hp.map _

structure CopiedApi (source : ApiStore) (c : ℕ) (a : ApiRow) (st st' : ApiStore)
    (μ ρ : ℕ → ℕ) : Prop where
  apis : st'.apis = st.apis.insert ⟨0, c, a.fields⟩
  requests : CopiedRows (source.requestParamsOf a.id) st.apis.next st.requestParams
    st'.requestParams μ
  responses : CopiedRows (source.responseParamsOf a.id) st.apis.next st.responseParams
    st'.responseParams ρ

theorem copyApi_spec {source st : ApiStore} (hreq : WellLinked link source.requestParams.rows)
    (hresp : WellLinked Nests source.responseParams.rows) (hst : WellFormed link st)
    (env : Environment) {refs : References} {c : ℕ} {a : ApiRow}
    (hallow : refs.Allow c a.fields)
    (hkey : ∀ b ∈ st.apis.rows, b.container = c → b.fields.method = a.fields.method →
      b.fields.name ≠ a.fields.name) :
    ∃ st' μ ρ, copyApi env refs source c st a = .ok st' ∧
      CopiedApi source c a st st' μ ρ ∧ WellFormed link st' ∧ SameOutside c st st' := by
  let st₁ : ApiStore := { st with apis := st.apis.insert ⟨0, c, a.fields⟩ }
  have h₁ : insertApi refs c (copiedFields a) st = .ok st₁ :=
    insertApi_eq_ok.mpr ⟨hallow, hkey, rfl⟩
  have hw₁ := insertApi_wellFormed h₁ hst
  have hheld : st₁.apis.contains st.apis.next = true :=
    Table.contains_iff.mpr ⟨⟨st.apis.next, c, a.fields⟩, by simp [st₁], rfl⟩
  have hown : owns st₁ c st.apis.next = true :=
    owns_iff.mpr ⟨⟨st.apis.next, c, a.fields⟩, by simp [st₁], rfl, rfl⟩
  obtain ⟨t, μ, ht, hct, hlt⟩ := copyRows_copied hreq a.id env hheld
    st₁.requestParams hw₁.request_linked
  obtain ⟨u, ρ, hu, hcu, hlu⟩ := copyRows_copied hresp a.id env hheld
    st₁.responseParams hw₁.response_linked
  have hw₂ := extendRequests_wellFormed hw₁ hct.extended hlt hheld
  have hw₃ := extendResponses_wellFormed hw₂ hcu.extended hlu hheld
  refine ⟨{ st₁ with requestParams := t, responseParams := u }, μ, ρ, ?_, ⟨rfl, hct, hcu⟩,
    hw₃, ?_⟩
  · simp only [copyApi, bind_eq_ok, liftRows_eq_ok, pure_eq_ok]
    exact ⟨st₁, h₁, t, ht, u, hu, rfl⟩
  · exact (insertApi_sameOutside h₁ hst).trans
      ((extendRequests_sameOutside hct.extended hown).trans
        (extendResponses_sameOutside hcu.extended hown))

/-- A copy that succeeds has met the constraints. -/
theorem copyApi_of_ok {source st st' : ApiStore}
    (hreq : WellLinked link source.requestParams.rows)
    (hresp : WellLinked Nests source.responseParams.rows) (hst : WellFormed link st)
    {env : Environment} {refs : References} {c : ℕ} {a : ApiRow}
    (h : copyApi env refs source c st a = .ok st') :
    refs.Allow c a.fields ∧
      ∃ μ ρ, CopiedApi source c a st st' μ ρ ∧ WellFormed link st' ∧ SameOutside c st st' := by
  have hinsert : ∃ st₁, insertApi refs c (copiedFields a) st = .ok st₁ := by
    simp only [copyApi, bind_eq_ok] at h
    obtain ⟨st₁, h₁, _⟩ := h
    exact ⟨st₁, h₁⟩
  obtain ⟨st₁, h₁⟩ := hinsert
  obtain ⟨hallow, hkey, _⟩ := insertApi_eq_ok.mp h₁
  obtain ⟨u, μ, ρ, hu, rest⟩ := copyApi_spec hreq hresp hst env hallow hkey
  have hsame : u = st' := Except.ok.inj (hu.symm.trans h)
  exact ⟨hallow, μ, ρ, hsame ▸ rest⟩

structure CopiedEach (source : ApiRow → ApiStore) (c : ℕ) (apis : List ApiRow)
    (st st' : ApiStore) (ν : ℕ → ℕ) (μ ρ : ℕ → ℕ → ℕ) : Prop where
  rows : st'.apis.rows = st.apis.rows ++ apis.map (fun a => ⟨ν a.id, c, a.fields⟩)
  fresh : ∀ a ∈ apis, st.apis.next ≤ ν a.id
  old_requests : ∃ new, st'.requestParams.rows = st.requestParams.rows ++ new ∧
    ∀ r ∈ new, st.apis.next ≤ r.holder
  old_responses : ∃ new, st'.responseParams.rows = st.responseParams.rows ++ new ∧
    ∀ r ∈ new, st.apis.next ≤ r.holder
  requests : ∀ a ∈ apis, (st'.requestParamsOf (ν a.id)).Perm
    (((source a).requestParamsOf a.id).map (graft (μ a.id) (ν a.id)))
  responses : ∀ a ∈ apis, (st'.responseParamsOf (ν a.id)).Perm
    (((source a).responseParamsOf a.id).map (graft (ρ a.id) (ν a.id)))
  request_inj : ∀ a ∈ apis,
    Set.InjOn (μ a.id) { i | i ∈ ((source a).requestParamsOf a.id).map LinkedRow.id }
  response_inj : ∀ a ∈ apis,
    Set.InjOn (ρ a.id) { i | i ∈ ((source a).responseParamsOf a.id).map LinkedRow.id }

abbrev CopiedApis (source : ApiStore) (c : ℕ) (apis : List ApiRow) (st st' : ApiStore)
    (ν : ℕ → ℕ) (μ ρ : ℕ → ℕ → ℕ) : Prop :=
  CopiedEach (fun _ => source) c apis st st' ν μ ρ

/-- Rows added below later holders are not seen below an earlier one. -/
private theorem below_unchanged {F : Type} {old new rows : List (LinkedRow F)} {i n : ℕ}
    (hrows : rows = old ++ new) (hnew : ∀ r ∈ new, n ≤ r.holder) (hi : i < n) :
    rows.filter (fun r => r.holder == i) = old.filter (fun r => r.holder == i) := by
  have hnil : new.filter (fun r => r.holder == i) = [] := by
    rw [List.filter_eq_nil_iff]
    intro r hr
    have := hnew r hr
    simp
    omega
  rw [hrows, List.filter_append, hnil, List.append_nil]

private theorem old_append {F : Type} {t u v : Table (LinkedRow F)} {h n m : ℕ} (hm : m ≤ n)
    (hh : m ≤ h) (he : Extends h t u)
    (hk : ∃ new, v.rows = u.rows ++ new ∧ ∀ r ∈ new, n ≤ r.holder) :
    ∃ new, v.rows = t.rows ++ new ∧ ∀ r ∈ new, m ≤ r.holder := by
  obtain ⟨a, ha, hna, _⟩ := he
  obtain ⟨b, hb, hnb⟩ := hk
  refine ⟨a ++ b, by rw [hb, ha, List.append_assoc], ?_⟩
  intro r hr
  rcases List.mem_append.mp hr with hr | hr
  · rw [(hna r hr).1]
    exact hh
  · exact hm.trans (hnb r hr)

/-- The rows below an api stay as they are while the later ones are copied. -/
theorem CopiedEach.cons {source : ApiRow → ApiStore} {st st₁ st' : ApiStore} {c : ℕ} {a : ApiRow}
    {as : List ApiRow} {μ₁ ρ₁ ν : ℕ → ℕ} {μ ρ : ℕ → ℕ → ℕ} (hst : WellFormed link st)
    (hne : ∀ b ∈ as, b.id ≠ a.id) (hc : CopiedApi (source a) c a st st₁ μ₁ ρ₁)
    (hcs : CopiedEach source c as st₁ st' ν μ ρ) :
    CopiedEach source c (a :: as) st st' (Function.update ν a.id st.apis.next)
      (Function.update μ a.id μ₁) (Function.update ρ a.id ρ₁) := by
  have hrows₁ : st₁.apis.rows = st.apis.rows ++ [⟨st.apis.next, c, a.fields⟩] := by
    rw [hc.apis]
    rfl
  have hlt : st.apis.next < st₁.apis.next := by
    rw [hc.apis]
    exact Nat.lt_succ_self _
  have oldReq : st'.requestParamsOf st.apis.next = st₁.requestParamsOf st.apis.next := by
    obtain ⟨new, hrows, hnew⟩ := hcs.old_requests
    exact below_unchanged hrows hnew hlt
  have oldResp : st'.responseParamsOf st.apis.next = st₁.responseParamsOf st.apis.next := by
    obtain ⟨new, hrows, hnew⟩ := hcs.old_responses
    exact below_unchanged hrows hnew hlt
  have hu : ∀ {β : Type} (f : ℕ → β) (x : β), ∀ b ∈ as, Function.update f a.id x b.id = f b.id :=
    fun f x b hb => Function.update_of_ne (hne b hb) x f
  refine ⟨?_, ?_, ?_, ?_, ?_, ?_, ?_, ?_⟩
  · rw [hcs.rows, hrows₁, List.append_assoc, List.map_cons, Function.update_self,
      List.singleton_append]
    congr 2
    apply List.map_congr_left
    intro b hb
    rw [hu ν _ b hb]
  · intro b hb
    rcases List.mem_cons.mp hb with rfl | hb
    · rw [Function.update_self]
    · rw [hu ν _ b hb]
      have := hcs.fresh b hb
      omega
  · exact old_append hlt.le le_rfl hc.requests.extended hcs.old_requests
  · exact old_append hlt.le le_rfl hc.responses.extended hcs.old_responses
  · intro b hb
    rcases List.mem_cons.mp hb with rfl | hb
    · rw [Function.update_self, Function.update_self, oldReq]
      exact hc.requests.below (not_held_next hst.request_held)
    · rw [hu ν _ b hb, hu μ _ b hb]
      exact hcs.requests b hb
  · intro b hb
    rcases List.mem_cons.mp hb with rfl | hb
    · rw [Function.update_self, Function.update_self, oldResp]
      exact hc.responses.below (not_held_next hst.response_held)
    · rw [hu ν _ b hb, hu ρ _ b hb]
      exact hcs.responses b hb
  · intro b hb
    rcases List.mem_cons.mp hb with rfl | hb
    · rw [Function.update_self]
      exact hc.requests.inj
    · rw [hu μ _ b hb]
      exact hcs.request_inj b hb
  · intro b hb
    rcases List.mem_cons.mp hb with rfl | hb
    · rw [Function.update_self]
      exact hc.responses.inj
    · rw [hu ρ _ b hb]
      exact hcs.response_inj b hb

theorem copyEach_of_ok {source : ApiRow → ApiStore} {env : Environment} {refs : References} {c : ℕ}
    {apis : List ApiRow} (hnd : (apis.map ApiRow.id).Nodup)
    (hreq : ∀ a ∈ apis, WellLinked link (source a).requestParams.rows)
    (hresp : ∀ a ∈ apis, WellLinked Nests (source a).responseParams.rows) :
    ∀ {st st' : ApiStore}, WellFormed link st → copyEach env refs source apis c st = .ok st' →
      (∀ a ∈ apis, refs.Allow c a.fields) ∧
        ∃ ν μ ρ, CopiedEach source c apis st st' ν μ ρ ∧ WellFormed link st' ∧
          SameOutside c st st' := by
  induction apis with
  | nil =>
    intro st st' hst h
    have hsame : st = st' := Except.ok.inj h
    subst hsame
    refine ⟨by simp, id, fun _ => id, fun _ => id, ?_, hst, SameOutside.refl c st⟩
    exact ⟨by simp, by simp, ⟨[], by simp, by simp⟩, ⟨[], by simp, by simp⟩, by simp, by simp,
      by simp, by simp⟩
  | cons a as ih =>
    intro st st' hst h
    rw [List.map_cons, List.nodup_cons] at hnd
    simp only [copyEach, List.foldlM_cons, bind_eq_ok] at h
    obtain ⟨st₁, h₁, h⟩ := h
    obtain ⟨hallow, μ₁, ρ₁, hc, hw₁, ho₁⟩ := copyApi_of_ok (hreq a List.mem_cons_self)
      (hresp a List.mem_cons_self) hst h₁
    obtain ⟨hallows, ν, μ, ρ, hcs, hw', ho'⟩ := ih hnd.2
      (fun b hb => hreq b (List.mem_cons_of_mem _ hb))
      (fun b hb => hresp b (List.mem_cons_of_mem _ hb)) hw₁ h
    have hne : ∀ b ∈ as, b.id ≠ a.id := by
      intro b hb he
      exact hnd.1 (he ▸ List.mem_map_of_mem hb)
    refine ⟨?_, _, _, _, hcs.cons hst hne hc, hw', ho₁.trans ho'⟩
    intro b hb
    rcases List.mem_cons.mp hb with rfl | hb
    · exact hallow
    · exact hallows b hb

theorem copyApis_succeeds {source : ApiStore} (hs : WellFormed link source) (env : Environment)
    {refs : References} {c : ℕ} (apis : List ApiRow) (hnd : (apis.map ApiRow.id).Nodup)
    (hallow : ∀ a ∈ apis, refs.Allow c a.fields)
    (hdistinct : ∀ a ∈ apis, ∀ b ∈ apis, a.fields.method = b.fields.method →
      a.fields.name = b.fields.name → a = b) :
    ∀ st : ApiStore, WellFormed link st →
      (∀ a ∈ apis, ∀ b ∈ st.apis.rows, b.container = c → b.fields.method = a.fields.method →
        b.fields.name ≠ a.fields.name) →
      ∃ st', copyApis env refs source apis c st = .ok st' := by
  induction apis with
  | nil => exact fun st _ _ => ⟨st, rfl⟩
  | cons a as ih =>
    intro st hst hkey
    rw [List.map_cons, List.nodup_cons] at hnd
    obtain ⟨st₁, μ₁, ρ₁, h₁, hc, hw₁, _⟩ := copyApi_spec hs.request_linked hs.response_linked hst
      env (hallow a List.mem_cons_self) (hkey a List.mem_cons_self)
    have hrows₁ : st₁.apis.rows = st.apis.rows ++ [⟨st.apis.next, c, a.fields⟩] := by
      rw [hc.apis]
      rfl
    have hkey₁ : ∀ b ∈ as, ∀ d ∈ st₁.apis.rows, d.container = c →
        d.fields.method = b.fields.method → d.fields.name ≠ b.fields.name := by
      intro b hb d hd hdc hm hname
      rw [hrows₁] at hd
      rcases List.mem_append.mp hd with hd | hd
      · exact hkey b (List.mem_cons_of_mem _ hb) d hd hdc hm hname
      · rw [List.mem_singleton] at hd
        subst d
        have := hdistinct a List.mem_cons_self b (List.mem_cons_of_mem _ hb) hm hname
        subst b
        exact hnd.1 (List.mem_map_of_mem hb)
    obtain ⟨st', h'⟩ := ih hnd.2
      (fun b hb => hallow b (List.mem_cons_of_mem _ hb))
      (fun b hb d hd => hdistinct b (List.mem_cons_of_mem _ hb) d (List.mem_cons_of_mem _ hd))
      st₁ hw₁ hkey₁
    refine ⟨st', ?_⟩
    simp only [copyApis, List.foldlM_cons, bind_eq_ok]
    exact ⟨st₁, h₁, h'⟩

theorem copyApis_spec {source : ApiStore} (hs : WellFormed link source) (env : Environment)
    {refs : References} {c : ℕ} (apis : List ApiRow) (hnd : (apis.map ApiRow.id).Nodup)
    (hallow : ∀ a ∈ apis, refs.Allow c a.fields)
    (hdistinct : ∀ a ∈ apis, ∀ b ∈ apis, a.fields.method = b.fields.method →
      a.fields.name = b.fields.name → a = b)
    (st : ApiStore) (hst : WellFormed link st)
    (hkey : ∀ a ∈ apis, ∀ b ∈ st.apis.rows, b.container = c →
      b.fields.method = a.fields.method → b.fields.name ≠ a.fields.name) :
    ∃ st' ν μ ρ, copyApis env refs source apis c st = .ok st' ∧
      CopiedApis source c apis st st' ν μ ρ ∧ WellFormed link st' ∧ SameOutside c st st' := by
  obtain ⟨st', h⟩ := copyApis_succeeds hs env apis hnd hallow hdistinct st hst hkey
  obtain ⟨_, ν, μ, ρ, rest⟩ := copyEach_of_ok hnd (fun _ _ => hs.request_linked)
    (fun _ _ => hs.response_linked) hst ((copyApis_eq env refs source apis c st).symm.trans h)
  exact ⟨st', ν, μ, ρ, h, rest⟩

def seen (view : ApiFields → ApiFields) (a : ApiRow) : ApiRow := { a with fields := view a.fields }

/-- The container `d` of `dest` holds the image of the container `c` of `source`: the apis
under the injective renaming `ν`, and below each api its params under injective renamings,
which carry parents to parents and roots to roots. -/
structure Replica (view : ApiFields → ApiFields) (source : ApiStore) (c : ℕ) (dest : ApiStore)
    (d : ℕ) (ν : ℕ → ℕ) (μ ρ : ℕ → ℕ → ℕ) : Prop where
  apis : ((dest.apisOf d).map (seen view)).Perm
    ((source.apisOf c).map (fun a => ⟨ν a.id, d, view a.fields⟩))
  requests : ∀ a ∈ source.apisOf c, (dest.requestParamsOf (ν a.id)).Perm
    ((source.requestParamsOf a.id).map (graft (μ a.id) (ν a.id)))
  responses : ∀ a ∈ source.apisOf c, (dest.responseParamsOf (ν a.id)).Perm
    ((source.responseParamsOf a.id).map (graft (ρ a.id) (ν a.id)))
  api_inj : Set.InjOn ν { i | i ∈ (source.apisOf c).map ApiRow.id }
  request_inj : ∀ a ∈ source.apisOf c,
    Set.InjOn (μ a.id) { i | i ∈ (source.requestParamsOf a.id).map LinkedRow.id }
  response_inj : ∀ a ∈ source.apisOf c,
    Set.InjOn (ρ a.id) { i | i ∈ (source.responseParamsOf a.id).map LinkedRow.id }

def Snapshot (view : ApiFields → ApiFields) (source : ApiStore) (c : ℕ) (dest : ApiStore)
    (d : ℕ) : Prop :=
  ∃ ν μ ρ, Replica view source c dest d ν μ ρ

/-- The copy loop turns a container without apis into a replica of every container that looks
like what was read. -/
theorem CopiedEach.replica {source : ApiRow → ApiStore} {s st st' : ApiStore} {c d : ℕ}
    {apis : List ApiRow} {ν : ℕ → ℕ} {μ ρ : ℕ → ℕ → ℕ} (h : CopiedEach source d apis st st' ν μ ρ)
    (hp : apis.Perm (s.apisOf c))
    (hq : ∀ a ∈ apis, (source a).requestParamsOf a.id = s.requestParamsOf a.id)
    (hr : ∀ a ∈ apis, (source a).responseParamsOf a.id = s.responseParamsOf a.id)
    (hempty : st.apisOf d = []) : Replica id s c st' d ν μ ρ := by
  have hnew : (apis.map (fun a => (⟨ν a.id, d, a.fields⟩ : ApiRow))).filter
      (fun a => a.container == d) = apis.map (fun a => ⟨ν a.id, d, a.fields⟩) := by
    rw [List.filter_eq_self]
    intro a ha
    obtain ⟨b, _, rfl⟩ := List.mem_map.mp ha
    simp
  have hold : st.apis.rows.filter (fun a => a.container == d) = [] := hempty
  have hof : st'.apisOf d = apis.map (fun a => ⟨ν a.id, d, a.fields⟩) := by
    rw [ApiStore.apisOf, h.rows, List.filter_append, hnew, hold, List.nil_append]
  refine ⟨?_, ?_, ?_, ?_, ?_, ?_⟩
  · rw [hof, List.map_map]
    exact hp.map _
  · intro a ha
    have ha := hp.mem_iff.mpr ha
    exact hq a ha ▸ h.requests a ha
  · intro a ha
    have ha := hp.mem_iff.mpr ha
    exact hr a ha ▸ h.responses a ha
  · have hnd := st'.apis.nodup
    rw [h.rows, List.map_append, List.nodup_append] at hnd
    have himg := hnd.2.1
    rw [List.map_map] at himg
    intro i hi j hj hij
    obtain ⟨a, ha, rfl⟩ := List.mem_map.mp hi
    obtain ⟨b, hb, rfl⟩ := List.mem_map.mp hj
    rw [List.inj_on_of_nodup_map himg (hp.mem_iff.mpr ha) (hp.mem_iff.mpr hb) hij]
  · intro a ha
    have ha := hp.mem_iff.mpr ha
    exact hq a ha ▸ h.request_inj a ha
  · intro a ha
    have ha := hp.mem_iff.mpr ha
    exact hr a ha ▸ h.response_inj a ha

theorem Replica.image_mem {view : ApiFields → ApiFields} {source dest : ApiStore} {c d : ℕ}
    {ν : ℕ → ℕ} {μ ρ : ℕ → ℕ → ℕ} (h : Replica view source c dest d ν μ ρ) {a : ApiRow}
    (ha : a ∈ source.apisOf c) :
    ∃ b ∈ dest.apisOf d, b.id = ν a.id ∧ view b.fields = view a.fields := by
  have hm := h.apis.mem_iff.mpr (List.mem_map_of_mem ha)
  obtain ⟨b, hb, he⟩ := List.mem_map.mp hm
  exact ⟨b, hb, congrArg ApiRow.id he, congrArg ApiRow.fields he⟩

theorem Replica.preimage {view : ApiFields → ApiFields} {source dest : ApiStore} {c d : ℕ}
    {ν : ℕ → ℕ} {μ ρ : ℕ → ℕ → ℕ} (h : Replica view source c dest d ν μ ρ) {b : ApiRow}
    (hb : b ∈ dest.apisOf d) :
    ∃ a ∈ source.apisOf c, b.id = ν a.id ∧ view b.fields = view a.fields := by
  have hm := h.apis.mem_iff.mp (List.mem_map_of_mem hb)
  obtain ⟨a, ha, he⟩ := List.mem_map.mp hm
  exact ⟨a, ha, (congrArg ApiRow.id he).symm, (congrArg ApiRow.fields he).symm⟩

@[simp] theorem graft_graft {F : Type} (μ μ' : ℕ → ℕ) (h h' : ℕ) (r : LinkedRow F) :
    graft μ' h' (graft μ h r) = graft (μ' ∘ μ) h' r := by
  simp [graft]

private theorem graft_perm_trans {F : Type} {k l m : List (LinkedRow F)} {μ μ' : ℕ → ℕ}
    {h h' : ℕ} (h₁ : l.Perm (k.map (graft μ h))) (h₂ : m.Perm (l.map (graft μ' h'))) :
    m.Perm (k.map (graft (μ' ∘ μ) h')) := by
  refine h₂.trans ((h₁.map _).trans (List.Perm.of_eq ?_))
  rw [List.map_map]
  exact List.map_congr_left (fun r _ => graft_graft μ μ' h h' r)

private theorem inj_comp {F : Type} {k l : List (LinkedRow F)} {μ μ' : ℕ → ℕ} {h : ℕ}
    (hl : l.Perm (k.map (graft μ h))) (h₁ : Set.InjOn μ { i | i ∈ k.map LinkedRow.id })
    (h₂ : Set.InjOn μ' { i | i ∈ l.map LinkedRow.id }) :
    Set.InjOn (μ' ∘ μ) { i | i ∈ k.map LinkedRow.id } := by
  refine h₂.comp h₁ ?_
  intro i hi
  obtain ⟨r, hr, rfl⟩ := List.mem_map.mp hi
  have hm : graft μ h r ∈ l := hl.mem_iff.mpr (List.mem_map_of_mem hr)
  exact List.mem_map_of_mem (f := LinkedRow.id) hm

theorem Snapshot.trans {view : ApiFields → ApiFields} {s t u : ApiStore} {c d e : ℕ}
    (h : Snapshot view s c t d) (k : Snapshot view t d u e) : Snapshot view s c u e := by
  obtain ⟨ν, μ, ρ, h⟩ := h
  obtain ⟨ν', μ', ρ', k⟩ := k
  refine ⟨ν' ∘ ν, fun i => μ' (ν i) ∘ μ i, fun i => ρ' (ν i) ∘ ρ i, ?_, ?_, ?_, ?_, ?_, ?_⟩
  · have h₁ := h.apis.map (fun b : ApiRow => (⟨ν' b.id, e, b.fields⟩ : ApiRow))
    rw [List.map_map, List.map_map] at h₁
    exact k.apis.trans h₁
  · intro a ha
    obtain ⟨b, hb, hid, _⟩ := h.image_mem ha
    have hk := k.requests b hb
    rw [hid] at hk
    exact graft_perm_trans (h.requests a ha) hk
  · intro a ha
    obtain ⟨b, hb, hid, _⟩ := h.image_mem ha
    have hk := k.responses b hb
    rw [hid] at hk
    exact graft_perm_trans (h.responses a ha) hk
  · apply k.api_inj.comp h.api_inj
    intro i hi
    obtain ⟨a, ha, rfl⟩ := List.mem_map.mp hi
    obtain ⟨b, hb, hid, _⟩ := h.image_mem ha
    exact hid ▸ List.mem_map_of_mem hb
  · intro a ha
    obtain ⟨b, hb, hid, _⟩ := h.image_mem ha
    have hk := k.request_inj b hb
    rw [hid] at hk
    exact inj_comp (h.requests a ha) (h.request_inj a ha) hk
  · intro a ha
    obtain ⟨b, hb, hid, _⟩ := h.image_mem ha
    have hk := k.response_inj b hb
    rw [hid] at hk
    exact inj_comp (h.responses a ha) (h.response_inj a ha) hk

/-- A coarser view of an exact snapshot. -/
theorem Snapshot.coarsen {s t : ApiStore} {c d : ℕ} (h : Snapshot id s c t d)
    (view : ApiFields → ApiFields) : Snapshot view s c t d := by
  obtain ⟨ν, μ, ρ, h⟩ := h
  refine ⟨ν, μ, ρ, ?_, h.requests, h.responses, h.api_inj, h.request_inj, h.response_inj⟩
  have := h.apis.map (seen view)
  rw [List.map_map, List.map_map] at this
  exact this

/-- A container that looks the same is the same replica. -/
theorem Snapshot.of_same {view : ApiFields → ApiFields} {s t u : ApiStore} {c d : ℕ}
    (h : Snapshot view s c t d)
    (ha : (u.apisOf d).map (seen view) = (t.apisOf d).map (seen view))
    (hq : ∀ a ∈ t.apisOf d, u.requestParamsOf a.id = t.requestParamsOf a.id)
    (hr : ∀ a ∈ t.apisOf d, u.responseParamsOf a.id = t.responseParamsOf a.id) :
    Snapshot view s c u d := by
  obtain ⟨ν, μ, ρ, h⟩ := h
  refine ⟨ν, μ, ρ, ha ▸ h.apis, ?_, ?_, h.api_inj, h.request_inj, h.response_inj⟩
  · intro a hm
    obtain ⟨b, hb, hid, _⟩ := h.image_mem hm
    rw [← hid, hq b hb, hid]
    exact h.requests a hm
  · intro a hm
    obtain ⟨b, hb, hid, _⟩ := h.image_mem hm
    rw [← hid, hr b hb, hid]
    exact h.responses a hm

/-- A replica of what looked the same is one of what there is now. -/
theorem Snapshot.of_same_source {view : ApiFields → ApiFields} {s t u : ApiStore} {c d : ℕ}
    (h : Snapshot view s c t d)
    (ha : (u.apisOf c).map (seen view) = (s.apisOf c).map (seen view))
    (hq : ∀ a ∈ s.apisOf c, u.requestParamsOf a.id = s.requestParamsOf a.id)
    (hr : ∀ a ∈ s.apisOf c, u.responseParamsOf a.id = s.responseParamsOf a.id) :
    Snapshot view u c t d := by
  obtain ⟨ν, μ, ρ, h⟩ := h
  have old : ∀ a ∈ u.apisOf c, ∃ b ∈ s.apisOf c, b.id = a.id := by
    intro a hm
    have hseen : seen view a ∈ (s.apisOf c).map (seen view) := ha ▸ List.mem_map_of_mem hm
    obtain ⟨b, hb, hba⟩ := List.mem_map.mp hseen
    have hid : (seen view b).id = (seen view a).id := congrArg ApiRow.id hba
    exact ⟨b, hb, hid⟩
  have hids : (u.apisOf c).map ApiRow.id = (s.apisOf c).map ApiRow.id := by
    have hmap := congrArg (List.map ApiRow.id) ha
    rwa [List.map_map, List.map_map] at hmap
  refine ⟨ν, μ, ρ, ?_, ?_, ?_, ?_, ?_, ?_⟩
  · have hmap := congrArg (List.map (fun a : ApiRow => (⟨ν a.id, d, a.fields⟩ : ApiRow))) ha
    rw [List.map_map, List.map_map] at hmap
    exact h.apis.trans (List.Perm.of_eq hmap.symm)
  · intro a hm
    obtain ⟨b, hb, hid⟩ := old a hm
    rw [← hid, hq b hb]
    exact h.requests b hb
  · intro a hm
    obtain ⟨b, hb, hid⟩ := old a hm
    rw [← hid, hr b hb]
    exact h.responses b hb
  · rw [hids]
    exact h.api_inj
  · intro a hm
    obtain ⟨b, hb, hid⟩ := old a hm
    rw [← hid, hq b hb]
    exact h.request_inj b hb
  · intro a hm
    obtain ⟨b, hb, hid⟩ := old a hm
    rw [← hid, hr b hb]
    exact h.response_inj b hb

end StoreCopies
