import HClient.Cache.Contents

/-!
# What a 304 makes of the stored fields

The fields a `304` brings replace the stored ones of the same names, but for those of the
constant list and those its own `Connection` nominates.
-/
namespace HClient.Cache

open HttpCache

section
variable {from304 headers : HeaderMap HeaderValue} {n name : HeaderName}

theorem getAll_updateField : HeaderMap.getAll (updateField from304 headers name) n =
    if n = name then HeaderMap.getAll from304 n else HeaderMap.getAll headers n := by
  unfold updateField
  split
  next same =>
    subst same
    rw [HeaderMap.getAll_appends]
    simp [HeaderMap.getAll, HeaderMap.remove]
  next differ =>
    rw [HeaderMap.getAll_appends_of_ne differ, HeaderMap.getAll_remove_of_ne differ]

theorem getAll_updateFields (names : List HeaderName) :
    HeaderMap.getAll (names.foldl (updateField from304) headers) n =
      if n ∈ names then HeaderMap.getAll from304 n else HeaderMap.getAll headers n := by
  induction names generalizing headers with
  | nil => simp
  | cons name names ih =>
      rw [List.foldl_cons, ih, getAll_updateField]
      by_cases later : n ∈ names
      · simp [later]
      · simp [later, List.mem_cons]

end

/-- The `304` brings this field, and nothing excepts it. -/
def Taken (parts : ResponseParts) (name : HeaderName) : Prop :=
  name ∈ parts.headers.map Prod.fst ∧ name ∉ notUpdatedBy304 ∧
    name ∉ connectionNominated parts.headers

instance (parts : ResponseParts) (name : HeaderName) : Decidable (Taken parts name) :=
  inferInstanceAs (Decidable (_ ∧ _ ∧ _))

theorem getAll_freshened (stale : StoredResponse) (parts : ResponseParts)
    (requestedAt receivedAt : SystemTime) (n : HeaderName) :
    HeaderMap.getAll (freshened stale parts requestedAt receivedAt).headers n =
      if Taken parts n then HeaderMap.getAll parts.headers n
      else HeaderMap.getAll stale.headers n := by
  rw [freshened, getAll_updateFields]
  congr 1
  simp [Taken]

/-- A field that is taken is there. -/
theorem Taken.getAll_ne_nil {parts : ResponseParts} {name : HeaderName}
    (taken : Taken parts name) : HeaderMap.getAll parts.headers name ≠ [] := by
  obtain ⟨field, member, rfl⟩ := List.mem_map.mp taken.1
  intro none_there
  have found : field.2 ∈ HeaderMap.getAll parts.headers field.1 :=
    List.mem_map_of_mem (List.mem_filter.mpr ⟨member, by simp⟩)
  rw [none_there] at found
  cases found

section
variable {headers headers' : HeaderMap HeaderValue}

/-- The readers of stored fields read no more than the values of the field they are about. -/
theorem parse_congr (same : HeaderMap.getAll headers cacheControl =
    HeaderMap.getAll headers' cacheControl) :
    ResponseDirectives.parse headers = ResponseDirectives.parse headers' := by
  rw [ResponseDirectives.parse, ResponseDirectives.parse, allDirectives, allDirectives, same]

theorem varyNames_congr (same : HeaderMap.getAll headers "vary".toList =
    HeaderMap.getAll headers' "vary".toList) : varyNames headers = varyNames headers' := by
  rw [varyNames, varyNames, same]

theorem get_congr {name : HeaderName} (same : HeaderMap.getAll headers name =
    HeaderMap.getAll headers' name) : headers.get name = headers'.get name := by
  rw [HeaderMap.get_eq_head, HeaderMap.get_eq_head, same]

end

section
variable (stale : StoredResponse) (parts : ResponseParts) (requestedAt receivedAt : SystemTime)

theorem parse_freshened :
    ResponseDirectives.parse (freshened stale parts requestedAt receivedAt).headers =
      ResponseDirectives.parse
        (if Taken parts cacheControl then parts.headers else stale.headers) := by
  apply parse_congr
  rw [getAll_freshened]
  split <;> rfl

theorem varyNames_freshened :
    varyNames (freshened stale parts requestedAt receivedAt).headers =
      varyNames (if Taken parts "vary".toList then parts.headers else stale.headers) := by
  apply varyNames_congr
  rw [getAll_freshened]
  split <;> rfl

theorem get_freshened (name : HeaderName) :
    (freshened stale parts requestedAt receivedAt).headers.get name =
      (if Taken parts name then parts.headers else stale.headers).get name := by
  apply get_congr
  rw [getAll_freshened]
  split <;> rfl

end

theorem conditionsFrom_eq_nil {headers : HeaderMap HeaderValue} :
    conditionsFrom headers = [] ↔
      headers.get "etag".toList = none ∧ headers.get "last-modified".toList = none := by
  rw [conditionsFrom, List.append_eq_nil_iff]
  cases headers.get "etag".toList <;> cases headers.get "last-modified".toList <;> simp

/-- A validator is replaced by a `304`, never taken away. -/
theorem conditionsFrom_freshened {stale : StoredResponse} (parts : ResponseParts)
    (requestedAt receivedAt : SystemTime) (validator : conditionsFrom stale.headers ≠ []) :
    conditionsFrom (freshened stale parts requestedAt receivedAt).headers ≠ [] := by
  have kept : ∀ name, (freshened stale parts requestedAt receivedAt).headers.get name = none →
      stale.headers.get name = none := by
    intro name gone
    rw [get_freshened] at gone
    split at gone
    next taken =>
      rw [HeaderMap.get_eq_head] at gone
      exact absurd (List.head?_eq_none_iff.mp gone) taken.getAll_ne_nil
    next => exact gone
  intro none_left
  rw [conditionsFrom_eq_nil] at none_left
  exact validator (conditionsFrom_eq_nil.mpr ⟨kept _ none_left.1, kept _ none_left.2⟩)

end HClient.Cache
