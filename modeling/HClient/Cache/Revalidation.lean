import HClient.Cache.Runs

/-!
# What revalidations keep

The storing rule is checked once, on the head that brought the body, and a `304` rewrites the
stored fields afterwards. Which `304`s leave an entry one that may be stored, and which leave
it with the validator and the framing its body arrived with.
-/
namespace HClient.Cache

open Effect Machine HttpCache

def vary : HeaderName := "vary".toList
def etag : HeaderName := "etag".toList
def connection : HeaderName := "connection".toList

/-- The storing rule, of an entry that is held. -/
structure StoredResponse.Storable (e : StoredResponse) : Prop where
  noStore : (ResponseDirectives.parse e.headers).noStore = false
  reusable : (ResponseDirectives.parse e.headers).maxAge.isSome = true ∨
    e.headers.containsKey "expires".toList = true ∨ conditionsFrom e.headers ≠ []
  nominated : ∃ names ∈ varyNames e.headers, e.selector = Selector.of e.request names

/-- The request agrees with the one the entry answered on what the entry's `Vary` nominates. -/
def StoredResponse.AgreesWith (e : StoredResponse) (headers : HeaderMap HeaderValue) : Prop :=
  ∀ names ∈ varyNames e.headers, ∀ n ∈ names, combined headers n = combined e.request n

instance (e : StoredResponse) (headers : HeaderMap HeaderValue) :
    Decidable (e.AgreesWith headers) :=
  inferInstanceAs (Decidable (∀ names ∈ varyNames e.headers, ∀ n ∈ names,
    combined headers n = combined e.request n))

/-- Every hit is served to a request that agrees with the original one. -/
def InUse.HitsAgree (capacity : Nat) (s : InUse) : Prop :=
  ∀ method uri headers now, ∀ served ∈ (s.answer capacity method uri headers now).served,
    served.AgreesWith headers

/-- The `Cache-Control` a `304` leaves the entry with does not forbid storing, and the `Vary`
it leaves it with nominates the fields the entry was selected by. -/
def KeepsStorable (stale : StoredResponse) (parts : ResponseParts) : Prop :=
  (Taken parts cacheControl → (ResponseDirectives.parse parts.headers).noStore = false) ∧
    (Taken parts vary → ∃ names ∈ varyNames parts.headers,
      stale.selector = Selector.of stale.request names)

instance (stale : StoredResponse) (parts : ResponseParts) :
    Decidable (KeepsStorable stale parts) := inferInstanceAs (Decidable (_ ∧ _))

section
variable {cache : HttpCache} {capacity : Nat}

theorem judged_storable {method : Method} {uri : Uri} {headers : HeaderMap HeaderValue}
    {parts : ResponseParts} {requestedAt receivedAt : SystemTime} {storing : Storing}
    (ok : cache.storing method uri headers parts requestedAt receivedAt headers = .ok storing)
    (body : List UInt8) : (storing.entry body).Storable := by
  obtain ⟨noStore, reusable, names, key, nominated, -, rfl⟩ := storing_ok ok
  exact ⟨noStore, reusable, names, nominated, rfl⟩

theorem freshened_storable {stale : StoredResponse} {parts : ResponseParts}
    (requestedAt receivedAt : SystemTime) (keeps : KeepsStorable stale parts)
    (storable : stale.Storable) (validator : conditionsFrom stale.headers ≠ []) :
    (freshened stale parts requestedAt receivedAt).Storable := by
  refine ⟨?_, .inr (.inr (conditionsFrom_freshened parts _ _ validator)), ?_⟩
  · rw [parse_freshened]
    split
    next taken => exact keeps.1 taken
    next => exact storable.noStore
  · rw [varyNames_freshened]
    split
    next taken => exact keeps.2 taken
    next => exact storable.nominated

/-- A hit is an entry that is held and was found by its selector, with its age. -/
theorem InUse.served_eq {s : InUse} {method : Method} {uri : Uri}
    {headers : HeaderMap HeaderValue} {now : SystemTime} {served : StoredResponse}
    (hit : served ∈ (s.answer capacity method uri headers now).served) :
    ∃ key, ∃ e ∈ s.held.get key, selectorMatches e headers = true ∧
      served = withAge e (currentAge e now) := by
  obtain ⟨-, key, e, -, chosen, -, same⟩ :=
    (lookup_eq_hit capacity).mp (Lookup.served_eq_some.mp hit)
  obtain ⟨held, matched⟩ := selected_mem chosen
  exact ⟨key, e, held, matched, same⟩

theorem StoredResponse.Storable.agreesWith {e : StoredResponse} {headers : HeaderMap HeaderValue}
    (storable : e.Storable) (matched : selectorMatches e headers = true) :
    e.AgreesWith headers := by
  obtain ⟨own, nominated, built⟩ := storable.nominated
  intro names nominated' n member
  rw [Option.mem_def] at nominated nominated'
  rw [nominated] at nominated'
  cases nominated'
  have same : Selector.of headers e.selector.names = e.selector := of_decide_eq_true matched
  have field : (n, combined e.request n) ∈ e.selector.fields := by
    rw [built]
    exact Selector.mem_of.mpr ⟨.inl member, rfl⟩
  rw [← same] at field
  exact (Selector.mem_of.mp field).2.symm

theorem agreesWith_withAge {e : StoredResponse} {headers : HeaderMap HeaderValue}
    {age : Duration} : (withAge e age).AgreesWith headers ↔ e.AgreesWith headers := by
  have unread : varyNames (withAge e age).headers = varyNames e.headers :=
    varyNames_congr (HeaderMap.getAll_insert_of_ne (by decide))
  rw [StoredResponse.AgreesWith, unread]
  rfl

theorem InUse.hitsAgree {s : InUse} (storable : s.held.All StoredResponse.Storable) :
    s.HitsAgree capacity := by
  intro method uri headers now served hit
  obtain ⟨key, e, held, matched, rfl⟩ := InUse.served_eq hit
  exact agreesWith_withAge.mpr ((storable key e held).agreesWith matched)

/-- Where every `304` keeps the storing rule, whatever is held may be stored, and a hit is
served to those it was stored for. -/
theorem careful_run_storable {ops : List CacheOp} {s : InUse}
    (careful : (use cache capacity).Always (Merges KeepsStorable) InUse.new ops)
    (reached : (use cache capacity).run InUse.new ops = some s) :
    s.held.All StoredResponse.Storable ∧ s.HitsAgree capacity := by
  have entries : Entries StoredResponse.Storable s :=
    run_preserves (fun _ _ _ allowed inv stepped =>
      entries_step (fun _ _ _ _ _ _ _ body ok => judged_storable ok body)
        (fun _ _ _ _ => freshened_storable _ _) allowed inv stepped)
      careful (entries_new _) reached
  exact ⟨entries.held, InUse.hitsAgree entries.held⟩

end

namespace Scene

/-- A response is stored, looked up, and freshened by a `304` with the given fields. -/
def freshening (request arrived from304 : HeaderMap HeaderValue) : List CacheOp :=
  kept request arrived 0 ++
    match judged request arrived 0 with
    | .error _ => []
    | .ok storing =>
        [.lookup .get aUri request (instant 1),
          .revalidated storing.key (storing.entry [1]) ⟨304, .http11, from304⟩ (instant 1)
            (instant 1)]

def freshened (request arrived from304 : HeaderMap HeaderValue) : InUse :=
  (use cache 10).after InUse.new (freshening request arrived from304)

def accepting (type : String) : HeaderMap HeaderValue := [("accept".toList, .ofAscii type)]

def tagged (tag : String) : HeaderMap HeaderValue := [(etag, .ofAscii tag)]

def tags304 : HeaderMap HeaderValue :=
  [(cacheControl, .ofAscii "max-age=60"), (vary, .ofAscii "Accept")]

end Scene

open Scene in
theorem careful_run_storable_sameVary :
    let s := Scene.freshened (accepting "a") ((vary, .ofAscii "Accept") :: tagged "\"1\"") tags304
    s.held.All StoredResponse.Storable ∧ s.HitsAgree 10 :=
  careful_run_storable (by decide +kernel) (run_eq_after (by decide +kernel))

open Scene in
/-- A `304` nominates another field and forbids storing: the entry stays where it is. -/
theorem nominated_by_304_unselected :
    ∃ s, (use Scene.cache 10).run InUse.new (freshening (accepting "a") (tagged "\"1\"")
        ((cacheControl, .ofAscii "no-store") :: tags304)) = some s ∧
      ¬ s.held.All StoredResponse.Storable ∧ ¬ s.HitsAgree 10 := by
  refine ⟨_, run_eq_after (by decide +kernel), fun all => ?_, fun agree => ?_⟩
  · have kept : ∃ key ∈ Key.new .get aUri, ∃ e ∈ ((use Scene.cache 10).after InUse.new
        (freshening (accepting "a") (tagged "\"1\"")
          ((cacheControl, .ofAscii "no-store") :: tags304))).held.get key,
        (ResponseDirectives.parse e.headers).noStore = true := by decide +kernel
    obtain ⟨key, -, e, member, noStore⟩ := kept
    have may := (all key e member).noStore
    rw [noStore] at may
    cases may
  · have agrees := agree .get aUri (accepting "b") (instant 2)
    revert agrees
    decide +kernel

/-- The entity tag of a message, if it is a strong one. -/
def strongTag (headers : HeaderMap HeaderValue) : Option HeaderValue :=
  (headers.get etag).filter fun tag => !(Bytes.ascii "W/").isPrefixOf tag

/-- The fields of RFC 9110 section 7.6.1 and those of its predecessors. -/
def hopByHop : List HeaderName :=
  ["connection", "keep-alive", "proxy-connection", "te", "trailer", "transfer-encoding",
    "upgrade", "proxy-authenticate", "proxy-authorization"].map String.toList

/-- The fields about the body and the hop it came over. -/
def framing (headers : HeaderMap HeaderValue) : List HeaderName :=
  HeaderName.contentLength :: "content-encoding".toList :: hopByHop ++ connectionNominated headers

/-- The entry says of its body what the response that brought it said. -/
structure StoredResponse.AsArrived (e : StoredResponse) : Prop where
  tag : strongTag e.headers = strongTag e.arrived
  fields : ∀ n ∈ framing e.arrived, HeaderMap.getAll e.headers n = HeaderMap.getAll e.arrived n

/-- What is served has the strong tag its body arrived with, and a `304` with another one than
the stored leaves the store as it is. -/
def InUse.Pairs (capacity : Nat) (s : InUse) : CacheOp → Prop
  | .lookup method uri headers now =>
      ∀ served ∈ (s.answer capacity method uri headers now).served,
        strongTag served.headers = strongTag served.arrived
  | .revalidated key stale parts requestedAt receivedAt =>
      (key, stale) ∈ s.handed →
        let (served, held) :=
          onHeld capacity (revalidated key stale parts requestedAt receivedAt) s.held
        strongTag served.headers = strongTag served.arrived ∧
          ((strongTag parts.headers).isSome = true →
            strongTag parts.headers ≠ strongTag stale.headers → held = s.held)
  | _ => True

/-- A strong tag of the `304` is the stored one, and what the `304` replaces of the tag and of
the fields about the body and the hop it replaces by the same. -/
def KeepsArrival (stale : StoredResponse) (parts : ResponseParts) : Prop :=
  ((strongTag parts.headers).isSome = true ∨ Taken parts etag →
      strongTag parts.headers = strongTag stale.headers) ∧
    ∀ n ∈ framing stale.headers, Taken parts n →
      HeaderMap.getAll parts.headers n = HeaderMap.getAll stale.headers n

instance (stale : StoredResponse) (parts : ResponseParts) :
    Decidable (KeepsArrival stale parts) := inferInstanceAs (Decidable (_ ∧ _))

section
variable {cache : HttpCache} {capacity : Nat}

theorem strongTag_congr {headers headers' : HeaderMap HeaderValue}
    (same : headers.get etag = headers'.get etag) : strongTag headers = strongTag headers' := by
  rw [strongTag, strongTag, same]

theorem strongTag_withAge (e : StoredResponse) (age : Duration) :
    strongTag (withAge e age).headers = strongTag e.headers :=
  strongTag_congr (get_congr (HeaderMap.getAll_insert_of_ne (by decide)))

theorem framing_congr {headers headers' : HeaderMap HeaderValue}
    (same : HeaderMap.getAll headers connection = HeaderMap.getAll headers' connection) :
    framing headers = framing headers' := by
  have nominated : connectionNominated headers = connectionNominated headers' := by
    rw [connectionNominated, connectionNominated]
    exact congrArg (fun values => List.flatMap _ (List.filterMap _ values)) same
  rw [framing, framing, nominated]

theorem connection_mem_framing (headers : HeaderMap HeaderValue) :
    connection ∈ framing headers := by
  rw [framing, List.cons_append, List.cons_append]
  refine List.mem_cons_of_mem _ (List.mem_cons_of_mem _ (List.mem_append_left _ ?_))
  decide

theorem freshened_asArrived {stale : StoredResponse} {parts : ResponseParts}
    (requestedAt receivedAt : SystemTime) (keeps : KeepsArrival stale parts)
    (arrived : stale.AsArrived) : (freshened stale parts requestedAt receivedAt).AsArrived := by
  have sameFraming : framing stale.headers = framing stale.arrived :=
    framing_congr (arrived.fields connection (connection_mem_framing _))
  refine ⟨?_, fun n member => ?_⟩
  · calc strongTag (freshened stale parts requestedAt receivedAt).headers
      _ = strongTag (if Taken parts etag then parts.headers else stale.headers) :=
          strongTag_congr (get_freshened stale parts requestedAt receivedAt etag)
      _ = strongTag stale.headers := by
          split
          next taken => exact keeps.1 (.inr taken)
          next => rfl
      _ = strongTag stale.arrived := arrived.tag
  · have stored := arrived.fields n member
    rw [getAll_freshened]
    split
    next taken =>
      rw [keeps.2 n (sameFraming ▸ member) taken]
      exact stored
    next => exact stored

theorem entries_pairs {s : InUse} {op : CacheOp} (careful : Merges KeepsArrival s op)
    (entries : Entries StoredResponse.AsArrived s) : s.Pairs capacity op := by
  cases op with
  | lookup method uri headers now =>
      intro served hit
      obtain ⟨key, e, held, -, rfl⟩ := InUse.served_eq hit
      rw [strongTag_withAge]
      exact (entries.held key e held).tag
  | revalidated key stale parts requestedAt receivedAt =>
      intro member
      have kept := freshened_asArrived requestedAt receivedAt careful (entries.handed _ member).1
      refine ⟨?_, fun strong other => absurd (careful.1 (.inl strong)) other⟩
      exact (strongTag_withAge _ _).trans kept.tag
  | _ => trivial

/-- Where no `304` brings another strong tag or other fields about the body, every entry stays
as its body arrived, and what is served is. -/
theorem careful_run_asArrived {ops : List CacheOp}
    (careful : (use cache capacity).Always (Merges KeepsArrival) InUse.new ops) :
    (use cache capacity).Always (fun s op => s.Pairs capacity op) InUse.new ops ∧
      ∀ s, (use cache capacity).run InUse.new ops = some s →
        s.held.All StoredResponse.AsArrived := by
  have preserved : ∀ s op s', Merges KeepsArrival s op → Entries StoredResponse.AsArrived s →
      use cache capacity s op = some s' → Entries StoredResponse.AsArrived s' := by
    intro s op s' allowed inv stepped
    refine entries_step (fun _ _ _ _ _ _ _ body ok => ?_)
      (fun _ _ _ _ keeps arrived _ => freshened_asArrived _ _ keeps arrived) allowed inv stepped
    obtain ⟨-, -, names, key, -, -, rfl⟩ := storing_ok ok
    exact ⟨rfl, fun _ _ => rfl⟩
  refine ⟨?_, fun s reached => ?_⟩
  · exact Always.of_invariant (Entries StoredResponse.AsArrived) preserved
      (fun _ _ => entries_pairs) careful (entries_new _)
  · exact (run_preserves preserved careful (entries_new _) reached).held

end

open Scene in
theorem careful_run_asArrived_sameTag :
    (use Scene.cache 10).Always (fun s op => s.Pairs 10 op) InUse.new
        (freshening [] (tagged "\"1\"") (tagged "\"1\"")) ∧
      ∀ s, (use Scene.cache 10).run InUse.new (freshening [] (tagged "\"1\"") (tagged "\"1\"")) =
        some s → s.held.All StoredResponse.AsArrived :=
  careful_run_asArrived (by decide +kernel)

open Scene in
/-- The `304` is about another representation, and its tag is stored and served with the old
body. -/
theorem body_paired_with_other_tag :
    ∃ s, (use Scene.cache 10).run InUse.new (freshening [] (tagged "\"1\"")
        ((cacheControl, .ofAscii "max-age=60") :: tagged "\"2\"")) = some s ∧
      ¬ s.held.All StoredResponse.AsArrived ∧ ¬ s.Pairs 10 (.lookup .get aUri [] (instant 2)) := by
  refine ⟨_, run_eq_after (by decide +kernel), fun all => ?_, fun pairs => ?_⟩
  · have kept : ∃ key ∈ Key.new .get aUri, ∃ e ∈ ((use Scene.cache 10).after InUse.new
        (freshening [] (tagged "\"1\"")
          ((cacheControl, .ofAscii "max-age=60") :: tagged "\"2\""))).held.get key,
        strongTag e.headers ≠ strongTag e.arrived := by decide +kernel
    obtain ⟨key, -, e, member, other⟩ := kept
    exact other (all key e member).tag
  · revert pairs
    change ¬ ∀ served ∈ _, _
    decide +kernel

end HClient.Cache
