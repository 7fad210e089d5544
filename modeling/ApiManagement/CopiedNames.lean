import ApiManagement.ConcatenatedNames
import ApiManagement.DraftCopies

/-! # Names of copies

A copy is named after its source and the second in which it is made. So a second copy of the
same draft within one second fails, and a name or path too long for the suffix cannot be copied
at all; nothing else stands in the way of a copy but names given by hand. -/
namespace CopiedNames

open TransactionRuns KeyedTables ParentLinkedRows PythonRuntime ServiceSchema ApiStores
  ServiceOperations ApiOperations OperationRuns OperationEffects StateInvariant ConcatenatedNames
  DraftCopies

def suffixAt (t : ℕ) : String := "-copy-" ++ toString t

theorem copySuffix_eq (env : Environment) : copySuffix env = suffixAt env.now := rfl

/-- The suffix starts at the last but one dash, so the second and the name can be read off. -/
theorem append_suffixAt_inj {n m : String} {t u : ℕ} :
    n ++ suffixAt t = m ++ suffixAt u ↔ n = m ∧ t = u := by
  constructor
  · intro h
    have digits : ∀ k : ℕ, '-' ∉ (toString k).toList := by
      intro k hk
      have hk : '-' ∈ Nat.toDigits 10 k := by rwa [← Nat.toList_repr]
      exact absurd (Nat.isDigit_of_mem_toDigits (by decide) (by decide) hk) (by decide)
    have shape : ∀ (s : String) (k : ℕ), (s ++ suffixAt k).toList =
        (s.toList ++ "-copy".toList) ++ '-' :: (toString k).toList := by
      intro s k
      simp [suffixAt, String.toList_append]
    have hlists := congrArg String.toList h
    rw [shape, shape, cons_append_inj (digits t) (digits u)] at hlists
    obtain ⟨hstems, hnumbers⟩ := hlists
    refine ⟨String.toList_injective (List.append_cancel_right hstems), ?_⟩
    have hparsed := congrArg (fun digits => Nat.ofDigitChars 10 digits 0) hnumbers
    simpa using hparsed
  · rintro ⟨rfl, rfl⟩
    rfl

structure CopyCall where
  env : Environment
  iterationId : ℕ
  apiDraftId : ℕ
  userId : ℕ

def CopyCall.respond (call : CopyCall) (db : Database) : Tx (Database × Reply Unit) :=
  apiCopyApiByApiDraftId call.env call.iterationId call.apiDraftId call.userId db

structure Authorised (db : Database) (call : CopyCall) (d : ApiDraft) : Prop where
  right : ∃ i, WorkRight db call.iterationId call.userId i
  mem : d ∈ db.drafts.apis.rows
  id : d.id = call.apiDraftId
  container : d.container = call.iterationId

/-- Any sequence of requests for copies. The history lists the drafts copied, each with the
second of the copy. -/
inductive CopyRun (db₀ : Database) : List (ApiDraft × ℕ) → Database → Prop where
  | start : CopyRun db₀ [] db₀
  | copied {history db d db' r} {call : CopyCall} : CopyRun db₀ history db → Authorised db call d →
      call.respond db = .ok (db', r) → CopyRun db₀ ((d, call.env.now) :: history) db'
  | failed {history db e} {call : CopyCall} : CopyRun db₀ history db → call.respond db = .error e →
      CopyRun db₀ history db

/-- The call succeeds; the new draft has the source's name and path with the suffix, and no
other draft of the iteration with its method has either. -/
def CopiesFresh (db : Database) (call : CopyCall) (d : ApiDraft) : Prop :=
  ∃ db' r, call.respond db = .ok (db', r) ∧ r.status = 200 ∧
    ∃ a ∈ db'.drafts.apisOf call.iterationId, a.id = db.drafts.apis.next ∧
      a.fields.method = d.fields.method ∧
      a.fields.name.val = d.fields.name.val ++ copySuffix call.env ∧
      a.fields.path.val = d.fields.path.val ++ copySuffix call.env ∧
      ∀ b ∈ db'.drafts.apisOf call.iterationId, b.id ≠ a.id → b.fields.method = d.fields.method →
        b.fields.name ≠ a.fields.name ∧ b.fields.path ≠ a.fields.path

/-- Name and path leave room for the suffix. At the start no draft of the iteration with the
method had them with this suffix, and in this second neither this draft has been copied nor one
with its method and path. -/
structure CopyableNow (db₀ : Database) (history : List (ApiDraft × ℕ)) (call : CopyCall)
    (d : ApiDraft) : Prop where
  name_fits : d.fields.name.val.length + (copySuffix call.env).length ≤ 128
  path_fits : d.fields.path.val.length + (copySuffix call.env).length ≤ 256
  untaken : ∀ b ∈ db₀.drafts.apisOf d.container, b.fields.method = d.fields.method →
    b.fields.name.val ≠ d.fields.name.val ++ copySuffix call.env ∧
      b.fields.path.val ≠ d.fields.path.val ++ copySuffix call.env
  once : ∀ e ∈ history, e.2 = call.env.now → e.1.container = d.container →
    e.1.fields.method = d.fields.method → e.1.id ≠ d.id ∧ e.1.fields.path ≠ d.fields.path

theorem exists_ofString {n : ℕ} {s : String} :
    (∃ v, VarChar.ofString n s = some v) ↔ s.length ≤ n := by
  constructor
  · rintro ⟨v, hv⟩
    rw [← VarChar.ofString_eq_some.mp hv]
    exact v.fits
  · intro h
    exact ⟨⟨s, h⟩, VarChar.ofString_eq_some.mpr rfl⟩

section OneCall

variable {db db' : Database} {call : CopyCall} {d : ApiDraft} {r : Reply Unit}

theorem draftOfIteration_authorised (h : Authorised db call d) :
    draftOfIteration db call.iterationId call.apiDraftId call.userId = .ok d :=
  draftOfIteration_eq_ok.mpr ⟨h.right, h.mem, h.id, h.container⟩

structure CopyOf (e : ApiDraft × ℕ) (b : ApiDraft) : Prop where
  container : b.container = e.1.container
  method : b.fields.method = e.1.fields.method
  name : b.fields.name.val = e.1.fields.name.val ++ suffixAt e.2
  path : b.fields.path.val = e.1.fields.path.val ++ suffixAt e.2

theorem respond_adds (ha : Authorised db call d) (h : call.respond db = .ok (db', r)) :
    r.status = 200 ∧ ∃ b, db'.drafts.apis.rows = db.drafts.apis.rows ++ [b] ∧
      b.id = db.drafts.apis.next ∧ CopyOf (d, call.env.now) b ∧
      ∀ a ∈ db.drafts.apis.rows, a.container = d.container →
        a.fields.method = d.fields.method → a.fields.name ≠ b.fields.name := by
  simp only [CopyCall.respond, apiCopyApiByApiDraftId, draftOfIteration_authorised ha, ok_bind,
    bind_eq_ok, bound_eq_ok, VarChar.ofString_eq_some, pure_eq_ok, Prod.mk.injEq] at h
  obtain ⟨n, hn, p, hp, drafts, hcopy, rfl, rfl⟩ := h
  obtain ⟨u, hu, hrest⟩ := bind_eq_ok.mp hcopy
  obtain ⟨_, hfree, rfl⟩ := insertApi_eq_ok.mp hu
  simp only [bind_eq_ok, pure_eq_ok] at hrest
  obtain ⟨t, _, v, _, rfl⟩ := hrest
  refine ⟨rfl, _, rfl, rfl, ⟨ha.container.symm, rfl, hn, hp⟩, ?_⟩
  intro a hm hc hmethod
  exact hfree a hm (hc.trans ha.container) hmethod

/-- The call succeeds if name and path fit and the name is free. -/
theorem respond_succeeds (hi : Invariant Nests db) (ha : Authorised db call d)
    (hname : d.fields.name.val.length + (copySuffix call.env).length ≤ 128)
    (hpath : d.fields.path.val.length + (copySuffix call.env).length ≤ 256)
    (hfree : ∀ b ∈ db.drafts.apis.rows, b.container = d.container →
      b.fields.method = d.fields.method →
        b.fields.name.val ≠ d.fields.name.val ++ copySuffix call.env) :
    ∃ db' r, call.respond db = .ok (db', r) := by
  obtain ⟨n, hn⟩ : ∃ v, VarChar.ofString 128 (d.fields.name.val ++ copySuffix call.env) = some v :=
    exists_ofString.mpr (by rwa [String.length_append])
  obtain ⟨p, hp⟩ : ∃ v, VarChar.ofString 256 (d.fields.path.val ++ copySuffix call.env) = some v :=
    exists_ofString.mpr (by rwa [String.length_append])
  let f : ApiFields := ⟨call.userId, d.fields.categoryId, n, d.fields.method, p,
    d.fields.description, d.fields.level, d.fields.isEnabled⟩
  have hallow : (draftReferences db).Allow call.iterationId f := by
    obtain ⟨i, hw⟩ := ha.right
    obtain ⟨j, _, _, _, hcategory⟩ := hi.draft_refers d ha.mem
    refine ⟨Table.contains_iff.mpr ⟨i, hw.mem, hw.id⟩, contains_of_workRight hi hw, ?_⟩
    intro k hk
    obtain ⟨c, hc, hid, _⟩ := hcategory k hk
    exact Table.contains_iff.mpr ⟨c, hc, hid⟩
  have hinsert : insertApi (draftReferences db) call.iterationId f db.drafts =
      .ok { db.drafts with apis := db.drafts.apis.insert ⟨0, call.iterationId, f⟩ } := by
    refine insertApi_eq_ok.mpr ⟨hallow, ?_, rfl⟩
    intro b hb hc hm hsame
    refine hfree b hb (hc.trans ha.container.symm) hm ?_
    rw [hsame]
    exact VarChar.ofString_eq_some.mp hn
  obtain ⟨drafts, hcopy, _⟩ := copyDraft_duplicates hi.drafts hinsert
  refine ⟨{ db with drafts := drafts }, ⟨200, "Copy api success", ()⟩, ?_⟩
  simp only [CopyCall.respond, apiCopyApiByApiDraftId, draftOfIteration_authorised ha, ok_bind,
    bind_eq_ok, bound_eq_ok, pure_eq_ok]
  exact ⟨n, hn, p, hp, drafts, hcopy, rfl⟩

/-- Name and path leave room for the suffix, and with it no draft of the iteration with the
method has them. -/
structure Copyable (db : Database) (call : CopyCall) (d : ApiDraft) : Prop where
  name_fits : d.fields.name.val.length + (copySuffix call.env).length ≤ 128
  path_fits : d.fields.path.val.length + (copySuffix call.env).length ≤ 256
  free : ∀ b ∈ db.drafts.apis.rows, b.container = d.container →
    b.fields.method = d.fields.method →
      b.fields.name.val ≠ d.fields.name.val ++ copySuffix call.env ∧
        b.fields.path.val ≠ d.fields.path.val ++ copySuffix call.env

theorem copyable_of_fresh (ha : Authorised db call d) (h : CopiesFresh db call d) :
    Copyable db call d := by
  obtain ⟨db', r, hr, _, a, _, hid, _, hname, hpath, hothers⟩ := h
  obtain ⟨_, b, hrows, _, _, _⟩ := respond_adds ha hr
  have hfits := a.fields.name.fits
  have hpfits := a.fields.path.fits
  rw [hname, String.length_append] at hfits
  rw [hpath, String.length_append] at hpfits
  refine ⟨hfits, hpfits, ?_⟩
  -- every other draft of the iteration with the method is there when the copy is made
  intro x hx hc hxm
  have hx' : x ∈ db'.drafts.apisOf call.iterationId := by
    rw [ApiStore.mem_apisOf, hrows]
    exact ⟨List.mem_append_left _ hx, hc.trans ha.container⟩
  have hne : x.id ≠ a.id := by
    rw [hid]
    exact Table.key_ne_next hx
  obtain ⟨hn, hp⟩ := hothers x hx' hne hxm
  exact ⟨fun he => hn (VarChar.ext (he.trans hname.symm)),
    fun he => hp (VarChar.ext (he.trans hpath.symm))⟩

theorem fresh_of_copyable (hi : Invariant Nests db) (ha : Authorised db call d)
    (hc : Copyable db call d) : CopiesFresh db call d := by
  obtain ⟨db', r, hr⟩ := respond_succeeds hi ha hc.name_fits hc.path_fits
    (fun x hx hxc hxm => (hc.free x hx hxc hxm).1)
  obtain ⟨hstatus, b, hrows, hid, hcopy, _⟩ := respond_adds ha hr
  refine ⟨db', r, hr, hstatus, b, ?_, hid, hcopy.method, hcopy.name, hcopy.path, ?_⟩
  · rw [ApiStore.mem_apisOf, hrows]
    exact ⟨List.mem_append_right _ List.mem_cons_self, hcopy.container.trans ha.container⟩
  · intro x hx hne hxm
    obtain ⟨hx, hxc⟩ := ApiStore.mem_apisOf.mp hx
    rw [hrows] at hx
    rcases List.mem_append.mp hx with hx | hx
    · obtain ⟨hn, hp⟩ := hc.free x hx (hxc.trans ha.container.symm) hxm
      exact ⟨fun he => hn ((congrArg VarChar.val he).trans hcopy.name),
        fun he => hp ((congrArg VarChar.val he).trans hcopy.path)⟩
    · rw [List.mem_singleton] at hx
      exact absurd (congrArg ApiRow.id hx) hne

end OneCall

structure Grown (db₀ : Database) (history : List (ApiDraft × ℕ)) (db : Database) : Prop where
  reachable : Reachable db
  old : db₀.drafts.apis.rows ⊆ db.drafts.apis.rows
  sources : ∀ e ∈ history, e.1 ∈ db.drafts.apis.rows
  copies : ∀ e ∈ history, ∃ b ∈ db.drafts.apis.rows, CopyOf e b
  origin : ∀ b ∈ db.drafts.apis.rows, b ∈ db₀.drafts.apis.rows ∨ ∃ e ∈ history, CopyOf e b

theorem reachable_respond {db db' : Database} {call : CopyCall} {r : Reply Unit}
    (h : Reachable db) (hr : call.respond db = .ok (db', r)) : Reachable db' := by
  obtain ⟨db₀, h₀, hruns⟩ := h
  refine ⟨db₀, h₀, ?_⟩
  have hstep : transaction db
      ⟨call.env, .apiCopyApiByApiDraftId call.iterationId call.apiDraftId call.userId⟩ = .ok db' :=
    map_fst_eq_ok.mpr ⟨r, hr⟩
  have hlater := hruns.tail (e := ⟨call.env,
    .apiCopyApiByApiDraftId call.iterationId call.apiDraftId call.userId⟩) trivial
  rwa [hstep] at hlater

theorem grown_of_run {db₀ db : Database} {history : List (ApiDraft × ℕ)} (h₀ : Reachable db₀)
    (h : CopyRun db₀ history db) : Grown db₀ history db := by
  induction h with
  | start =>
    refine ⟨h₀, List.Subset.refl _, ?_, ?_, fun b hb => Or.inl hb⟩
    · intro e he
      cases he
    · intro e he
      cases he
  | failed _ _ ih => exact ih
  | @copied history db d db' r call _ ha hr ih =>
    obtain ⟨_, b, hrows, _, hcopy, _⟩ := respond_adds ha hr
    have hold : db.drafts.apis.rows ⊆ db'.drafts.apis.rows := by
      rw [hrows]
      exact List.subset_append_left _ _
    have hb : b ∈ db'.drafts.apis.rows := by
      rw [hrows]
      exact List.mem_append_right _ List.mem_cons_self
    refine ⟨reachable_respond ih.reachable hr, List.Subset.trans ih.old hold, ?_, ?_, ?_⟩
    · intro e he
      rcases List.mem_cons.mp he with rfl | he
      · exact hold ha.mem
      · exact hold (ih.sources e he)
    · intro e he
      rcases List.mem_cons.mp he with rfl | he
      · exact ⟨b, hb, hcopy⟩
      · obtain ⟨a, hm, hc⟩ := ih.copies e he
        exact ⟨a, hold hm, hc⟩
    · intro a hm
      rw [hrows] at hm
      rcases List.mem_append.mp hm with hm | hm
      · rcases ih.origin a hm with hm | ⟨e, he, hc⟩
        · exact Or.inl hm
        · exact Or.inr ⟨e, List.mem_cons_of_mem _ he, hc⟩
      · rw [List.mem_singleton] at hm
        exact Or.inr ⟨_, List.mem_cons_self, hm ▸ hcopy⟩

section AfterCopies

variable {db₀ db : Database} {history : List (ApiDraft × ℕ)} {call : CopyCall} {d : ApiDraft}

/-- The copies of this second are among the drafts, so none of them was of this draft or path. -/
theorem copyableNow_of_copyable (hg : Grown db₀ history db) (ha : Authorised db call d)
    (h : Copyable db call d) : CopyableNow db₀ history call d := by
  refine ⟨h.name_fits, h.path_fits, ?_, ?_⟩
  · intro x hx hxm
    obtain ⟨hx, hc⟩ := ApiStore.mem_apisOf.mp hx
    exact h.free x (hg.old hx) hc hxm
  · intro e he ht hc hm
    obtain ⟨x, hx, hcopy⟩ := hg.copies e he
    obtain ⟨hn, hp⟩ := h.free x hx (hcopy.container.trans hc) (hcopy.method.trans hm)
    have hsuffix : suffixAt e.2 = copySuffix call.env := by rw [copySuffix_eq, ht]
    refine ⟨?_, ?_⟩
    · intro hsame
      have hsource : e.1 = d := db.drafts.apis.eq_of_key_eq (hg.sources e he) ha.mem hsame
      apply hn
      rw [hcopy.name, hsuffix, hsource]
    · intro hsame
      apply hp
      rw [hcopy.path, hsuffix, hsame]

/-- A draft with the derived name or path would have to be a copy of this second. -/
theorem copyable_of_copyableNow (hg : Grown db₀ history db) (ha : Authorised db call d)
    (h : CopyableNow db₀ history call d) : Copyable db call d := by
  refine ⟨h.name_fits, h.path_fits, ?_⟩
  intro x hx hxc hxm
  rcases hg.origin x hx with hx | ⟨e, he, hcopy⟩
  · exact h.untaken x (ApiStore.mem_apisOf.mpr ⟨hx, hxc⟩) hxm
  have hec : e.1.container = d.container := hcopy.container.symm.trans hxc
  have hem : e.1.fields.method = d.fields.method := hcopy.method.symm.trans hxm
  rw [hcopy.name, hcopy.path, copySuffix_eq]
  refine ⟨?_, ?_⟩
  · intro hsame
    obtain ⟨hstem, ht⟩ := append_suffixAt_inj.mp hsame
    have hsource : e.1 = d := (reachable_invariant hg.reachable).drafts.key_unique _
      (hg.sources e he) d ha.mem hec hem (VarChar.ext hstem)
    exact (h.once e he ht hec hem).1 (congrArg ApiRow.id hsource)
  · intro hsame
    obtain ⟨hstem, ht⟩ := append_suffixAt_inj.mp hsame
    exact (h.once e he ht hec hem).2 (VarChar.ext hstem)

end AfterCopies

/-- Whatever copies were asked for before, and at whatever times, the next one is fresh exactly
if its name and path fit, were not taken at the start and are not those of a copy made in the
same second. -/
theorem copy_fresh_iff {db₀ db : Database} {history : List (ApiDraft × ℕ)} (h₀ : Reachable db₀)
    (hrun : CopyRun db₀ history db) {call : CopyCall} {d : ApiDraft}
    (ha : Authorised db call d) :
    CopiesFresh db call d ↔ CopyableNow db₀ history call d := by
  have hg := grown_of_run h₀ hrun
  constructor
  · intro h
    exact copyableNow_of_copyable hg ha (copyable_of_fresh ha h)
  · intro h
    exact fresh_of_copyable (reachable_invariant hg.reachable) ha (copyable_of_copyableNow hg ha h)

def copyAt (now : ℕ) : CopyCall := ⟨{ plainEnvironment with now := now }, 2, 2, 1⟩

def copiedOnce : Database := play opened [.apiCopyApiByApiDraftId 2 2 1]

theorem opened_copy : ∃ r, (copyAt 1700000000).respond opened = .ok (copiedOnce, r) :=
  played (.apiCopyApiByApiDraftId 2 2 1) rfl (by decide +kernel)

theorem opened_copy_authorised : ∃ d, Authorised opened (copyAt 1700000000) d ∧
    d.fields.name.val = "list" ∧ d.fields.path.val = "/users" := by
  obtain ⟨d, hd, hid, hc, hname, hpath⟩ : ∃ d ∈ opened.drafts.apis.rows, d.id = 2 ∧
      d.container = 2 ∧ d.fields.name.val = "list" ∧ d.fields.path.val = "/users" := by
    decide +kernel
  exact ⟨d, ⟨⟨_, IterationCopies.opened_right⟩, hd, hid, hc⟩, hname, hpath⟩

/-- The right and the draft are still there after the first copy. -/
theorem copiedOnce_authorised {d : ApiDraft} (h : Authorised opened (copyAt 1700000000) d)
    (now : ℕ) : Authorised copiedOnce (copyAt now) d := by
  obtain ⟨_, hr⟩ := opened_copy
  obtain ⟨_, b, hrows, _⟩ := respond_adds h hr
  refine ⟨⟨IterationCopies.secondIteration, ?_⟩, ?_, h.id, h.container⟩
  · exact ⟨by decide +kernel, rfl, rfl, publishedService, by decide +kernel, rfl, Or.inl rfl⟩
  · rw [hrows]
    exact List.mem_append_left _ h.mem

/-- A second later the draft can be copied again. -/
theorem copied_again_later : ∃ d, Authorised copiedOnce (copyAt 1700000001) d ∧
    CopiesFresh copiedOnce (copyAt 1700000001) d := by
  obtain ⟨d, ha, hname, hpath⟩ := opened_copy_authorised
  obtain ⟨_, hr⟩ := opened_copy
  have hrun : CopyRun opened [(d, 1700000000)] copiedOnce := .copied .start ha hr
  have ha' := copiedOnce_authorised ha 1700000001
  refine ⟨d, ha', (copy_fresh_iff opened_reachable hrun ha').mpr ⟨?_, ?_, ?_, ?_⟩⟩
  · rw [hname]
    decide +kernel
  · rw [hpath]
    decide +kernel
  · rw [hname, hpath]
    have hnone : ∀ b ∈ opened.drafts.apis.rows,
        b.fields.name.val ≠ "list" ++ copySuffix (copyAt 1700000001).env ∧
          b.fields.path.val ≠ "/users" ++ copySuffix (copyAt 1700000001).env := by
      decide +kernel
    exact fun b hb _ => hnone b (ApiStore.mem_apisOf.mp hb).1
  · intro e he ht
    rw [List.mem_singleton] at he
    subst he
    cases ht

/-- Within one second the second copy violates the unique constraint. -/
theorem second_copy_fails : ¬ ∀ db₀ history db, Reachable db₀ → CopyRun db₀ history db →
    ∀ call d, (call.env.now :: history.map Prod.snd).Pairwise (fun t u => u ≤ t) →
      Authorised db call d → CopiesFresh db call d := by
  intro hall
  obtain ⟨d, ha, _⟩ := opened_copy_authorised
  obtain ⟨_, hr⟩ := opened_copy
  obtain ⟨db', r, hok, _⟩ := hall opened [(d, 1700000000)] copiedOnce opened_reachable
    (.copied .start ha hr) (copyAt 1700000000) d
    (by simp [copyAt]) (copiedOnce_authorised ha 1700000000)
  have hfails : ((copyAt 1700000000).respond copiedOnce).isOk = false := by decide +kernel
  rw [hok] at hfails
  cases hfails

end CopiedNames
