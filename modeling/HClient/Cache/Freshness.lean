import HClient.Cache.Runs

/-!
# When a stored response may be served

RFC 9111's conditions on serving a stored response, stated on the directives themselves and on
the age formula, and the one way in which `lookup` serves beyond them.
-/
namespace HClient.Cache

open Effect Machine HttpCache Bytes

/-- What a fold keeps in a field that only some elements write is what the last of them
wrote. -/
theorem foldl_last {α β σ : Type} (f : σ → α → σ) (field : σ → β) (p : α → Bool) (g : α → β)
    (one : ∀ s a, field (f s a) = if p a then g a else field s) (l : List α) (s : σ) :
    field (l.foldl f s) = ((l.filter p).getLast?).elim (field s) g := by
  induction l using List.reverseRecOn with
  | nil => rfl
  | append_singleton l a ih =>
      rw [List.foldl_append, List.foldl_cons, List.foldl_nil, one, List.filter_append]
      by_cases written : p a = true
      · simp [written]
      · simp [written, ih]

/-- The last element is the last of those that pass, if it passes. -/
theorem getLast_filter {α : Type} {p : α → Bool} {l : List α} {a : α} (last : l.getLast? = some a)
    (passes : p a = true) : (l.filter p).getLast? = some a := by
  obtain ⟨init, rfl⟩ := List.getLast?_eq_some_iff.mp last
  simp [passes]

/-- The directives of this name, in order. -/
def named (headers : HeaderMap HeaderValue) (name : String) : List Directive :=
  (allDirectives headers).filter fun d => d.name = ascii name

/-- The seconds the last directive of this name gives, if they are seconds. -/
def argument (headers : HeaderMap HeaderValue) (name : String) : Option Duration :=
  (named headers name).getLast?.bind fun d => seconds d.arg

section
variable (headers : HeaderMap HeaderValue)

/-- What the directives leave in a field that only those of one name write. -/
theorem directives_field {σ β : Type} {add : σ → Directive → σ} {start : σ} (field : σ → β)
    {name : String} {write : Directive → β}
    (one : ∀ out d, field (add out d) = if d.name = ascii name then write d else field out) :
    field ((allDirectives headers).foldl add start) =
      (named headers name).getLast?.elim (field start) write :=
  foldl_last _ field _ write (fun out d => by simpa using one out d) _ _

/-- A flag is set by a directive and never taken back. -/
theorem flag_iff (name : String) : (named headers name).getLast?.elim false (fun _ => true) = false ↔
    named headers name = [] := by
  cases last : (named headers name).getLast? with
  | none => simpa using List.getLast?_eq_none_iff.mp last
  | some d =>
      obtain ⟨init, eq⟩ := List.getLast?_eq_some_iff.mp last
      simp [eq]

theorem requestNames_distinct : (["no-store", "no-cache", "only-if-cached", "max-age", "min-fresh",
    "max-stale"].map ascii).Nodup := by decide

theorem RequestDirectives.add_field (out : RequestDirectives) (d : Directive) :
    (out.add d).noStore = (if d.name = ascii "no-store" then true else out.noStore) ∧
    (out.add d).noCache = (if d.name = ascii "no-cache" then true else out.noCache) ∧
    (out.add d).maxAge = (if d.name = ascii "max-age" then seconds d.arg else out.maxAge) ∧
    (out.add d).minFresh = (if d.name = ascii "min-fresh" then seconds d.arg else out.minFresh) ∧
    (out.add d).maxStale =
      if d.name = ascii "max-stale" then some (d.arg.bind secondsOf) else out.maxStale := by
  have distinct := requestNames_distinct
  simp only [List.map_cons, List.nodup_cons, List.mem_cons, not_or] at distinct
  unfold add
  grind

theorem request_noCache :
    (RequestDirectives.parse headers).noCache = false ↔ named headers "no-cache" = [] := by
  rw [RequestDirectives.parse,
    directives_field headers RequestDirectives.noCache fun out d => (out.add_field d).2.1]
  exact flag_iff headers "no-cache"

theorem request_maxAge :
    (RequestDirectives.parse headers).maxAge = argument headers "max-age" := by
  rw [RequestDirectives.parse, argument,
    directives_field headers RequestDirectives.maxAge fun out d => (out.add_field d).2.2.1]
  cases (named headers "max-age").getLast? <;> rfl

theorem request_minFresh :
    (RequestDirectives.parse headers).minFresh = argument headers "min-fresh" := by
  rw [RequestDirectives.parse, argument,
    directives_field headers RequestDirectives.minFresh fun out d => (out.add_field d).2.2.2.1]
  cases (named headers "min-fresh").getLast? <;> rfl

theorem request_maxStale : (RequestDirectives.parse headers).maxStale =
    (named headers "max-stale").getLast?.map fun d => d.arg.bind secondsOf := by
  rw [RequestDirectives.parse,
    directives_field headers RequestDirectives.maxStale fun out d => (out.add_field d).2.2.2.2]
  cases (named headers "max-stale").getLast? <;> rfl

theorem responseNames_distinct : (["no-store", "no-cache", "private", "must-revalidate",
    "max-age"].map ascii).Nodup := by decide

theorem ResponseDirectives.add_field (out : ResponseDirectives) (d : Directive) :
    (out.add d).noCache = (if d.name = ascii "no-cache" then true else out.noCache) ∧
    (out.add d).mustRevalidate =
      if d.name = ascii "must-revalidate" then true else out.mustRevalidate := by
  have distinct := responseNames_distinct
  simp only [List.map_cons, List.nodup_cons, List.mem_cons, not_or] at distinct
  unfold add
  grind

theorem response_noCache :
    (ResponseDirectives.parse headers).noCache = false ↔ named headers "no-cache" = [] := by
  rw [ResponseDirectives.parse,
    directives_field headers ResponseDirectives.noCache fun out d => (out.add_field d).1]
  exact flag_iff headers "no-cache"

theorem response_mustRevalidate :
    (ResponseDirectives.parse headers).mustRevalidate = false ↔
      named headers "must-revalidate" = [] := by
  rw [ResponseDirectives.parse,
    directives_field headers ResponseDirectives.mustRevalidate fun out d => (out.add_field d).2]
  exact flag_iff headers "must-revalidate"

end

/-- The `Age` field, where it is a number. -/
def ageValue (e : StoredResponse) : Duration :=
  (((e.headers.get "age".toList).bind HeaderValue.toStr).bind
    fun v => Text.parseU64 (Text.trim v)).elim 0 Duration.fromSecs

/-- RFC 9111 section 4.2.3, with what overflows taken for the longest time there is. -/
def rfcAge (e : StoredResponse) (now : SystemTime) : Duration :=
  let dateValue := (dateOf e).getD e.receivedAt
  let apparentAge := (e.receivedAt.nanos - dateValue.nanos).toNat
  let responseDelay := (e.receivedAt.nanos - e.requestedAt.nanos).toNat
  let correctedInitialAge := max apparentAge (ageValue e + responseDelay)
  let residentTime := (now.nanos - e.receivedAt.nanos).toNat
  min (correctedInitialAge + residentTime) Duration.longest

theorem durationSince_getD (t earlier : SystemTime) :
    (t.durationSince earlier).getD 0 = (t.nanos - earlier.nanos).toNat := by
  unfold SystemTime.durationSince
  split
  · rfl
  · exact (Int.toNat_of_nonpos (by omega)).symm

/-- One saturation at the end does what one at each step does. -/
theorem saturated_once (apparent corrected resident most : Nat) :
    min (max apparent (min corrected most) + resident) most =
      min (max apparent corrected + resident) most := by
  omega

theorem currentAge_eq (e : StoredResponse) (now : SystemTime) :
    currentAge e now = rfcAge e now := by
  have steps : currentAge e now =
      (max ((e.receivedAt.durationSince ((dateOf e).getD e.receivedAt)).getD 0)
        ((ageValue e).saturatingAdd ((e.receivedAt.durationSince e.requestedAt).getD 0))).saturatingAdd
          ((now.durationSince e.receivedAt).getD 0) := by
    unfold currentAge ageValue
    cases ((e.headers.get "age".toList).bind HeaderValue.toStr).bind
      fun v => Text.parseU64 (Text.trim v) <;> rfl
  rw [steps, durationSince_getD, durationSince_getD, durationSince_getD]
  exact saturated_once _ _ _ _

/-- The lifetime the response was given in so many words. -/
def explicitLifetime (e : StoredResponse) : Option Duration :=
  freshnessLifetime e (ResponseDirectives.parse e.headers)

/-- Younger than its lifetime, and than the request asks for. -/
def FreshFor (headers : HeaderMap HeaderValue) (age lifetime : Duration) : Prop :=
  age < lifetime ∧ (∀ m ∈ argument headers "max-age", age ≤ m) ∧
    ∀ m ∈ argument headers "min-fresh", age + m ≤ lifetime

instance (headers : HeaderMap HeaderValue) (age lifetime : Duration) :
    Decidable (FreshFor headers age lifetime) := inferInstanceAs (Decidable (_ ∧ _ ∧ _))

/-- No argument at all, or delta-seconds. -/
def Directive.wellFormed (d : Directive) : Bool := d.arg.all fun arg => (secondsOf arg).isSome

/-- The `max-stale` of the request that counts, where those that are malformed do not. -/
def maxStale (headers : HeaderMap HeaderValue) : Option Directive :=
  ((named headers "max-stale").filter Directive.wellFormed).getLast?

/-- The request takes a response that is this stale. -/
def Tolerates (headers : HeaderMap HeaderValue) (staleness : Duration) : Prop :=
  ∃ d ∈ maxStale headers, ∀ arg ∈ d.arg, ∃ s ∈ secondsOf arg, staleness ≤ s

instance (headers : HeaderMap HeaderValue) (staleness : Duration) :
    Decidable (Tolerates headers staleness) :=
  inferInstanceAs (Decidable (∃ d ∈ maxStale headers, ∀ arg ∈ d.arg,
    ∃ s ∈ secondsOf arg, staleness ≤ s))

/-- RFC 9111's conditions on answering a request with a stored response. -/
structure MayServe (e : StoredResponse) (headers : HeaderMap HeaderValue) (now : SystemTime) :
    Prop where
  reusable : named headers "no-cache" = [] ∧ named e.headers "no-cache" = []
  storable : named headers "no-store" = []
  unconditional : ∀ name ∈ [HeaderName.ifNoneMatch, HeaderName.ifModifiedSince, "range".toList],
    headers.containsKey name = false
  within : ∃ lifetime ∈ explicitLifetime e, FreshFor headers (rfcAge e now) lifetime ∨
    (named e.headers "must-revalidate" = [] ∧ Tolerates headers (rfcAge e now - lifetime))

instance (e : StoredResponse) (headers : HeaderMap HeaderValue) (now : SystemTime) :
    Decidable (MayServe e headers now) :=
  decidable_of_iff (_ ∧ _ ∧ _ ∧ _) ⟨fun ⟨a, b, c, d⟩ => ⟨a, b, c, d⟩, fun h => ⟨h.1, h.2, h.3, h.4⟩⟩

/-- The last `max-stale` of a request that may be answered from the cache is malformed, and the
stored response is too stale for what the request says besides. -/
structure Overread (method : Method) (headers : HeaderMap HeaderValue) (e : StoredResponse)
    (now : SystemTime) : Prop where
  consulted : consults method headers = true
  reusable : named headers "no-cache" = [] ∧ named e.headers "no-cache" = []
  checked : named e.headers "must-revalidate" = []
  malformed : ∃ d ∈ (named headers "max-stale").getLast?, d.wellFormed = false
  stale : ∃ lifetime ∈ explicitLifetime e, ¬ FreshFor headers (rfcAge e now) lifetime ∧
    ¬ Tolerates headers (rfcAge e now - lifetime)

section
variable {e : StoredResponse} {headers : HeaderMap HeaderValue} {now : SystemTime}

theorem isFresh_iff {age : Duration} {lifetime : Option Duration} :
    isFresh age lifetime (RequestDirectives.parse headers) = true ↔
      ∃ l ∈ lifetime, FreshFor headers age l := by
  cases lifetime with
  | none => simp [isFresh]
  | some lifetime =>
      unfold isFresh FreshFor
      rw [request_maxAge, request_minFresh]
      by_cases young : age < lifetime
      · have fresh : ¬ lifetime ≤ age := Nat.not_le.mpr young
        have room : ∀ m : Duration, m ≤ lifetime - age ↔ age + m ≤ lifetime :=
          fun m => Nat.le_sub_iff_add_le' (Nat.le_of_lt young)
        cases argument headers "max-age" <;> cases argument headers "min-fresh" <;>
          simp [young, fresh, room]
      · simp [young, Nat.not_lt.mp young]

/-- A last directive that is well-formed is the one that counts. -/
theorem tolerates_iff {d : Directive} (last : (named headers "max-stale").getLast? = some d)
    (wellFormed : d.wellFormed = true) (staleness : Duration) :
    Tolerates headers staleness ↔ (d.arg.bind secondsOf).all (staleness ≤ ·) = true := by
  unfold Tolerates maxStale
  rw [getLast_filter last wellFormed]
  unfold Directive.wellFormed at wellFormed
  cases given : d.arg with
  | none => simp [given]
  | some arg =>
      rw [given] at wellFormed
      obtain ⟨s, read⟩ := Option.isSome_iff_exists.mp wellFormed
      simp [given, read]

/-- The request allows the staleness, where a malformed argument counts as none. -/
theorem stretches_iff : stretches e (RequestDirectives.parse headers) now = true ↔
    ∃ lifetime ∈ explicitLifetime e, ∃ d ∈ (named headers "max-stale").getLast?,
      d.wellFormed = false ∨
        (d.wellFormed = true ∧ Tolerates headers (rfcAge e now - lifetime)) := by
  unfold stretches
  rw [request_maxStale, currentAge_eq, ← explicitLifetime]
  cases last : (named headers "max-stale").getLast? with
  | none => simp
  | some d =>
      cases explicitLifetime e with
      | none => simp
      | some lifetime =>
          cases wellFormed : d.wellFormed with
          | true => simp [wellFormed, tolerates_iff last wellFormed]
          | false =>
              have unread : d.arg.bind secondsOf = none := by
                unfold Directive.wellFormed at wellFormed
                cases given : d.arg with
                | none =>
                    rw [given] at wellFormed
                    cases wellFormed
                | some arg => simpa [given] using wellFormed
              simp [wellFormed, unread]

/-- The decision of a lookup on the directives. -/
theorem servable_iff : servable e (RequestDirectives.parse headers) now = true ↔
    (named headers "no-cache" = [] ∧ named e.headers "no-cache" = []) ∧
      ((∃ lifetime ∈ explicitLifetime e, FreshFor headers (rfcAge e now) lifetime) ∨
        (named e.headers "must-revalidate" = [] ∧
          stretches e (RequestDirectives.parse headers) now = true)) := by
  rw [← request_noCache, ← response_noCache, ← response_mustRevalidate, ← isFresh_iff,
    ← currentAge_eq]
  unfold servable
  simp [explicitLifetime]

/-- An entry that is overread is served, and may not be. -/
theorem Overread.served {method : Method} (overread : Overread method headers e now) :
    servable e (RequestDirectives.parse headers) now = true ∧ ¬ MayServe e headers now := by
  obtain ⟨lifetime, given, stale, untolerated⟩ := overread.stale
  obtain ⟨d, last, malformed⟩ := overread.malformed
  refine ⟨servable_iff.mpr ⟨overread.reusable, .inr ⟨overread.checked, ?_⟩⟩, fun may => ?_⟩
  · exact stretches_iff.mpr ⟨lifetime, given, d, last, .inl malformed⟩
  · obtain ⟨lifetime', given', within⟩ := may.within
    rw [Option.mem_def] at given given'
    rw [given] at given'
    cases given'
    exact within.elim stale fun tolerated => untolerated tolerated.2

end

end HClient.Cache
