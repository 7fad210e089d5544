import ApiManagement.CommandLine

/-! # Identifiers of services, read back

An identifier `name:uuid@version` is taken apart when a service is added, and a part of it is put
together again for the configuration file. -/
namespace IdentifierRoundTrip

open FileSystem ServiceCommands VersionOrder CommandLine

section Separators

variable {α : Type*} [BEq α] [LawfulBEq α] {a c : α} {l w : List α}

theorem not_mem_of_mem_splitOn (h : w ∈ l.splitOn a) : a ∉ w := by
  induction l generalizing w with
  | nil =>
    rw [List.splitOn_nil, List.mem_singleton] at h
    rw [h]
    exact List.not_mem_nil
  | cons x l ih =>
    rw [List.splitOn_cons_eq_if_modifyHead] at h
    by_cases hx : (x == a) = true
    · rw [if_pos hx] at h
      rcases List.mem_cons.mp h with rfl | h
      · exact List.not_mem_nil
      · exact ih h
    · rw [if_neg hx] at h
      obtain ⟨v, vs, hv⟩ := List.exists_cons_of_ne_nil (List.splitOn_ne_nil a l)
      rw [hv, List.modifyHead_cons] at h
      rcases List.mem_cons.mp h with rfl | h
      · intro ha
        rcases List.mem_cons.mp ha with rfl | ha
        · exact hx (beq_self_eq_true _)
        · exact ih (hv ▸ List.mem_cons_self) ha
      · exact ih (hv ▸ List.mem_cons_of_mem _ h)

/-- What lies between separators lies in the text. -/
theorem mem_of_mem_splitOn (h : w ∈ l.splitOn a) (hc : c ∈ w) : c ∈ l := by
  obtain ⟨i, hi⟩ := List.mem_iff_getElem?.mp h
  have hw : w ∈ (l.splitOn a).intersperse [a] :=
    List.mem_iff_getElem?.mpr ⟨2 * i, by rw [List.getElem?_intersperse_two_mul, hi]⟩
  have hflat : c ∈ List.intercalate [a] (l.splitOn a) := List.mem_flatten.mpr ⟨w, hw, hc⟩
  rwa [List.intercalate_splitOn] at hflat

theorem splitOn_pair {x y : List α} (hx : a ∉ x) (hy : a ∉ y) :
    (x ++ a :: y).splitOn a = [x, y] := by
  rw [List.splitOn_append_cons_self_of_not_mem hx, List.splitOn_eq_singleton hy]

end Separators

theorem splitOn_text {sep : Char} {x y : String} (hx : sep ∉ x.toList) (hy : sep ∉ y.toList) :
    ((x ++ String.singleton sep ++ y).toList.splitOn sep).map String.ofList = [x, y] := by
  have hlist : (x ++ String.singleton sep ++ y).toList = x.toList ++ sep :: y.toList := by simp
  rw [hlist, splitOn_pair hx hy]
  simp

theorem splitOn_texts {sep : Char} {s : String} {part : String}
    (h : part ∈ (s.toList.splitOn sep).map String.ofList) :
    sep ∉ part.toList ∧ ∀ c ∈ part.toList, c ∈ s.toList := by
  obtain ⟨w, hw, rfl⟩ := List.mem_map.mp h
  rw [String.toList_ofList]
  exact ⟨not_mem_of_mem_splitOn hw, fun c hc => mem_of_mem_splitOn hw hc⟩

theorem isValidVersion_empty : isValidVersion "" = false := by decide

theorem at_of_versionRegex {value : String} (h : versionRegex value = true) :
    '@' ∉ value.toList := by
  unfold versionRegex at h
  split at h
  · rename_i x y z hs
    simp only [List.all_cons, List.all_nil, Bool.and_true, Bool.and_eq_true, List.all_eq_true]
      at h
    obtain ⟨⟨_, hx⟩, ⟨_, hy⟩, _, hz⟩ := h
    have hdigit : Char.isDigit '@' = false := by decide
    have habsent : ∀ part : List Char, (∀ c ∈ part, c.isDigit = true) → '@' ∉ part := by
      intro part hpart hmem
      rw [hpart _ hmem] at hdigit
      cases hdigit
    have hvalue : ['.'].intercalate (value.toList.splitOn '.') = value.toList :=
      List.intercalate_splitOn '.'
    rw [← hvalue, hs]
    simp [List.intercalate, habsent x hx, habsent y hy, habsent z hz]
  · cases h

theorem at_of_isValidVersion {value : String} (h : isValidVersion value = true) :
    '@' ∉ value.toList := by
  rcases (Bool.or_eq_true _ _).mp h with h | h
  · rw [beq_iff_eq.mp h]
    decide
  · exact at_of_versionRegex h

theorem invalidChar_colon : invalidChar ':' = true := by decide

theorem invalidChar_slash : invalidChar '/' = true := by decide

theorem valid_chars {filename : String} (h : isValidFilename filename = true) {c : Char}
    (hc : invalidChar c = true) : c ∉ filename.toList := by
  unfold isValidFilename at h
  simp only [Bool.and_eq_true, Bool.not_eq_true', List.any_eq_false] at h
  exact fun hmem => h.1.1.2 c hmem hc

/-- A valid file name leads nowhere else. -/
theorem plain_of_isValidFilename {filename : String} (h : isValidFilename filename = true) :
    PlainName filename := by
  have hslash := valid_chars h invalidChar_slash
  unfold isValidFilename at h
  simp only [Bool.and_eq_true, bne_iff_ne] at h
  exact ⟨h.1.1.1, h.1.2, h.2, hslash⟩

structure WellFormed (service : ServiceIdentifier) : Prop where
  name : isValidFilename service.serviceName = true
  nameAt : '@' ∉ service.serviceName.toList
  uuid : service.serviceUuid ≠ ""
  uuidAt : '@' ∉ service.serviceUuid.toList
  uuidColon : ':' ∉ service.serviceUuid.toList
  version : isValidVersion service.version = true

/-- The identifier as it is documented, `<service_name>:<service_uuid>@<version>`. -/
def identifierOf (service : ServiceIdentifier) : String :=
  service.serviceName ++ ":" ++ service.serviceUuid ++ "@" ++ service.version

def infoOf (service : ServiceIdentifier) : String := service.serviceUuid ++ "@" ++ service.version

theorem splitInfo_infoOf {service : ServiceIdentifier} (h : WellFormed service) :
    splitInfo (infoOf service) = [service.serviceUuid, service.version] :=
  splitOn_text h.uuidAt (at_of_isValidVersion h.version)

theorem wellFormed_of_parse {text : String} {service : ServiceIdentifier}
    (h : parseIdentifier text = some service) : WellFormed service := by
  unfold parseIdentifier at h
  dsimp only at h
  by_cases hversion : isValidVersion (versionPart (splitInfo text)) = true
  · rw [hversion, Bool.not_true, if_neg Bool.false_ne_true] at h
    cases hparts : splitInfo text with
    | nil =>
      rw [hparts] at h
      cases h
    | cons nameAndUuid rest =>
      rw [hparts, List.headD_cons] at h
      have hhead : nameAndUuid ∈ splitInfo text := hparts ▸ List.mem_cons_self
      have hat := (splitOn_texts hhead).1
      split at h
      · rename_i serviceName serviceUuid others hname
        split at h
        · cases h
        · rename_i hchecks
          cases h
          have hfirst : serviceName ∈ splitName nameAndUuid := hname ▸ List.mem_cons_self
          have hsecond : serviceUuid ∈ splitName nameAndUuid :=
            hname ▸ List.mem_cons_of_mem _ List.mem_cons_self
          have hn := splitOn_texts hfirst
          have hu := splitOn_texts hsecond
          simp only [not_or] at hchecks
          refine ⟨by simpa using hchecks.2.2, fun hmem => hat (hn.2 _ hmem), hchecks.2.1,
            fun hmem => hat (hu.2 _ hmem), hu.1, ?_⟩
          rwa [hparts] at hversion
      · cases h
  · rw [Bool.eq_false_iff.mpr hversion, Bool.not_false, if_pos rfl] at h
    cases h

theorem parse_identifierOf {service : ServiceIdentifier} (h : WellFormed service) :
    parseIdentifier (identifierOf service) = some service := by
  have hname : splitName (service.serviceName ++ ":" ++ service.serviceUuid) =
      [service.serviceName, service.serviceUuid] :=
    splitOn_text (valid_chars h.name invalidChar_colon) h.uuidColon
  have hat : '@' ∉ (service.serviceName ++ ":" ++ service.serviceUuid).toList := by
    simp [h.nameAt, h.uuidAt]
  have hparts : splitInfo (identifierOf service) =
      [service.serviceName ++ ":" ++ service.serviceUuid, service.version] :=
    splitOn_text hat (at_of_isValidVersion h.version)
  have hversion : versionPart (splitInfo (identifierOf service)) = service.version := by
    rw [hparts, versionPart]
    refine if_neg (fun he => ?_)
    have hvalid := h.version
    rw [he, isValidVersion_empty] at hvalid
    cases hvalid
  unfold parseIdentifier
  dsimp only
  rw [hversion, h.version, Bool.not_true, if_neg Bool.false_ne_true, hparts, List.headD_cons, hname]
  dsimp only
  rw [if_neg]
  simp only [not_or]
  exact ⟨(plain_of_isValidFilename h.name).1, h.uuid, by simp [h.name]⟩

/-- A service can be named just when the identifier that is documented for it names it, and what
the configuration file holds of it is then read back as its uuid and its version. -/
theorem identifiers_round_trip (service : ServiceIdentifier) :
    ((∃ text, parseIdentifier text = some service) ↔
      parseIdentifier (identifierOf service) = some service) ∧
    (parseIdentifier (identifierOf service) = some service ↔ WellFormed service) ∧
    (WellFormed service →
      splitInfo (infoOf service) = [service.serviceUuid, service.version]) := by
  refine ⟨⟨?_, fun h => ⟨_, h⟩⟩, ⟨wellFormed_of_parse, parse_identifierOf⟩, splitInfo_infoOf⟩
  rintro ⟨text, htext⟩
  exact parse_identifierOf (wellFormed_of_parse htext)

end IdentifierRoundTrip
