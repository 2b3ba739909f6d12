import HClient.Cache.Policy

/-!
# What a cache holds

Which entries the store's operations can leave, and what a selector says about the fields it
was built from.
-/
namespace HClient.Cache

open Effect Program

theorem dedupByName_head (f : HeaderName × Option HeaderValue)
    (l : List (HeaderName × Option HeaderValue)) : (dedupByName (f :: l)).head? = some f := by
  cases l with
  | nil => rfl
  | cons g rest =>
      unfold dedupByName
      split
      · split <;> rfl
      · rfl

/-- Where a name determines its value, dropping repeated names drops nothing. -/
theorem mem_dedupByName {f : HeaderName → Option HeaderValue}
    {l : List (HeaderName × Option HeaderValue)} (values : ∀ p ∈ l, p.2 = f p.1)
    {p : HeaderName × Option HeaderValue} : p ∈ dedupByName l ↔ p ∈ l := by
  fun_induction dedupByName l with
  | case1 => rfl
  | case2 q => rfl
  | case3 q r rest same q' kept eq ih =>
      have tail := ih fun x member => values x (List.mem_cons_of_mem _ member)
      have head := dedupByName_head r rest
      rw [eq] at tail head
      cases head
      have merged : q = r := by
        have hq := values q List.mem_cons_self
        have hr := values r (List.mem_cons_of_mem _ List.mem_cons_self)
        exact Prod.ext same (by rw [hq, hr, same])
      rw [merged, tail]
      simp only [List.mem_cons, or_self_left]
  | case4 q r rest same eq ih =>
      have head := dedupByName_head r rest
      rw [eq] at head
      cases head
  | case5 q r rest differ ih =>
      have tail := ih fun x member => values x (List.mem_cons_of_mem _ member)
      rw [List.mem_cons, tail, List.mem_cons (a := p) (b := q)]

namespace Selector

theorem mem_of {headers : HeaderMap HeaderValue} {names : List HeaderName}
    {field : HeaderName × Option HeaderValue} :
    field ∈ (Selector.of headers names).fields ↔
      (field.1 ∈ names ∨ field.1 = HeaderName.authorization) ∧
        field.2 = combined headers field.1 := by
  have values : ∀ p ∈ ((names ++ [HeaderName.authorization]).map fun n =>
      (n, combined headers n)).insertionSort (fun a b => a.1 ≤ b.1),
        p.2 = combined headers p.1 := by
    intro p member
    obtain ⟨n, -, rfl⟩ := List.mem_map.mp ((List.mem_insertionSort _).mp member)
    rfl
  rw [of, fromFields, mem_dedupByName values, List.mem_insertionSort, List.mem_map]
  constructor
  · intro built
    obtain ⟨n, member, rfl⟩ := built
    exact ⟨by simpa using member, rfl⟩
  · intro h
    exact ⟨field.1, by simpa using h.1, Prod.ext rfl h.2.symm⟩

theorem mem_names_of {headers : HeaderMap HeaderValue} {names : List HeaderName}
    {name : HeaderName} :
    name ∈ (Selector.of headers names).names ↔ name ∈ names ∨ name = HeaderName.authorization := by
  rw [Selector.names, List.mem_map]
  constructor
  · intro h
    obtain ⟨field, member, rfl⟩ := h
    exact (mem_of.mp member).1
  · intro h
    exact ⟨(name, combined headers name), mem_of.mpr ⟨h, rfl⟩, rfl⟩

/-- Requests with one selector carry the same credential. -/
theorem authorization_of_eq {headers headers' : HeaderMap HeaderValue}
    {names names' : List HeaderName}
    (same : Selector.of headers names = Selector.of headers' names') :
    combined headers HeaderName.authorization = combined headers' HeaderName.authorization := by
  have member : (HeaderName.authorization, combined headers HeaderName.authorization) ∈
      (Selector.of headers names).fields := mem_of.mpr ⟨.inr rfl, rfl⟩
  rw [same] at member
  exact (mem_of.mp member).2

/-- A selector reads no other fields than its own. -/
theorem of_congr {headers headers' : HeaderMap HeaderValue} {names : List HeaderName}
    (agree : ∀ n ∈ (Selector.of headers names).names, combined headers n = combined headers' n) :
    Selector.of headers names = Selector.of headers' names := by
  have fields : (names ++ [HeaderName.authorization]).map (fun n => (n, combined headers n)) =
      (names ++ [HeaderName.authorization]).map fun n => (n, combined headers' n) := by
    refine List.map_congr_left fun n member => Prod.ext rfl (agree n (mem_names_of.mpr ?_))
    simpa using member
  rw [of, of, fields]

end Selector

/-- The entry stands under the selector of the request whose response it is. -/
def StoredResponse.Own (e : StoredResponse) : Prop :=
  ∃ names, e.selector = Selector.of e.request names

/-- What a lookup hands out to be revalidated. -/
def Lookup.handedOut : Lookup → Option (Key × StoredResponse)
  | .revalidate key stale _ => some (key, stale)
  | _ => none

/-- An entry that is found for a request was obtained with the request's credential. -/
theorem StoredResponse.Own.authorization {e : StoredResponse} {headers : HeaderMap HeaderValue}
    (own : e.Own) (matched : selectorMatches e headers = true) :
    combined e.request HeaderName.authorization = combined headers HeaderName.authorization := by
  obtain ⟨names, same⟩ := own
  have selected : Selector.of headers e.selector.names = e.selector := of_decide_eq_true matched
  exact (Selector.authorization_of_eq (selected.trans same)).symm

namespace Held
variable {P : StoredResponse → Prop} {h : Held}

/-- Every entry held has the property. -/
def All (P : StoredResponse → Prop) (h : Held) : Prop := ∀ key, ∀ e ∈ h.get key, P e

theorem all_new : Held.new.All P := by
  intro key e member
  cases member

theorem get_replace (key key' : Key) (variants : List StoredResponse) (held : Nat) :
    (h.replace key variants held).get key' = if key' = key then variants else h.get key' := by
  unfold replace
  by_cases same : key' = key
  · subst same
    split <;> simp_all [get, AList.lookup_erase, AList.lookup_insert]
  · split <;> simp [get, same, AList.lookup_erase_ne, AList.lookup_insert_ne]

theorem All.replace (all : h.All P) {key : Key} {variants : List StoredResponse} (held : Nat)
    (kept : ∀ e ∈ variants, P e) : (h.replace key variants held).All P := by
  intro key' e member
  rw [get_replace] at member
  split at member
  · exact kept e member
  · exact all key' e member

theorem All.of_lookup (all : h.All P) {key : Key} {variants : List StoredResponse}
    (found : h.entries.lookup key = some variants) : ∀ e ∈ variants, P e := by
  intro e member
  refine all key e ?_
  rw [get, found]
  exact member

theorem All.dropAt (all : h.All P) (key : Key) (i : Nat) : (h.dropAt key i).All P := by
  unfold Held.dropAt
  split
  · exact all
  next variants found =>
    exact all.replace _ fun e member => all.of_lookup found e (List.mem_of_mem_eraseIdx member)

theorem All.evictUntilRoom (all : h.All P) (capacity fuel : Nat) :
    (Held.evictUntilRoom capacity fuel h).All P := by
  induction fuel generalizing h with
  | zero => exact all
  | succ fuel ih =>
      unfold Held.evictUntilRoom
      split
      · split
        · exact ih (all.dropAt _ _)
        · exact all
      · exact all

theorem get_remove (key key' : Key) (selector : Selector) : (h.remove key selector).get key' =
    if key' = key then (h.get key).filter fun e => e.selector ≠ selector else h.get key' := by
  unfold remove
  split
  next found =>
    split
    next same =>
      subst same
      simp [get, found]
    next => rfl
  next variants found =>
    simp only [get_replace]
    split
    next same =>
      subst same
      simp [get, found]
    next => rfl

theorem All.remove (all : h.All P) (key : Key) (selector : Selector) :
    (h.remove key selector).All P := by
  intro key' e member
  rw [get_remove] at member
  split at member
  · exact all key e (List.mem_filter.mp member).1
  · exact all key' e member

theorem All.put (all : h.All P) (capacity : Nat) (key : Key) {entry : StoredResponse}
    (own : P entry) : (h.put capacity key entry).All P := by
  unfold Held.put
  simp only
  split
  · exact all.remove _ _
  have kept := (all.remove key entry.selector).evictUntilRoom capacity
    (h.remove key entry.selector).held
  intro key' e member
  by_cases same : key' = key
  · subst same
    simp only [get, AList.lookup_insert, Option.getD_some, List.mem_append,
      List.mem_singleton] at member
    obtain old | rfl := member
    · exact kept key' e old
    · exact own
  · refine kept key' e ?_
    simpa [get, AList.lookup_insert_ne same] using member

theorem get_invalidate (key key' : Key) :
    (h.invalidate key).get key' = if key' = key then [] else h.get key' := by
  unfold invalidate
  split
  next found =>
    split
    next same =>
      subst same
      simp [get, found]
    next => rfl
  next variants found =>
    split
    next same =>
      subst same
      simp [get, AList.lookup_erase]
    next differ => simp [get, AList.lookup_erase_ne differ]

theorem All.invalidate (all : h.All P) (key : Key) : (h.invalidate key).All P := by
  intro key' e member
  rw [get_invalidate] at member
  split at member
  · cases member
  · exact all key' e member

end Held

/-- What a lookup for a request with these fields may answer: responses that were obtained
with its credential. -/
def Lookup.For (headers : HeaderMap HeaderValue) : Lookup → Prop
  | .hit stored => stored.Own ∧
      combined stored.request HeaderName.authorization =
        combined headers HeaderName.authorization
  | .revalidate _ stale conditions => stale.Own ∧
      combined stale.request HeaderName.authorization =
        combined headers HeaderName.authorization ∧
      ∀ c ∈ conditions, c.1 ≠ HeaderName.authorization
  | .miss | .unsatisfiable => True

theorem Lookup.served_eq_some {l : Lookup} {e : StoredResponse} :
    l.served = some e ↔ l = .hit e := by
  cases l <;> simp [Lookup.served]

theorem conditionsFrom_names {headers : HeaderMap HeaderValue} :
    ∀ c ∈ conditionsFrom headers, c.1 ≠ HeaderName.authorization := by
  intro c member
  simp only [conditionsFrom, List.mem_append, Option.mem_toList,
    Option.map_eq_some_iff] at member
  obtain ⟨value, -, rfl⟩ | ⟨value, -, rfl⟩ := member
  · change HeaderName.ifNoneMatch ≠ HeaderName.authorization
    decide
  · change HeaderName.ifModifiedSince ≠ HeaderName.authorization
    decide

theorem latest_mem {variants : List StoredResponse} {e : StoredResponse}
    (found : latest variants = some e) : e ∈ variants := by
  cases variants with
  | nil => cases found
  | cons first rest =>
      cases found
      have kept : ∀ (l : List StoredResponse) (best : StoredResponse),
          l.foldl (fun best e => if e.receivedAt < best.receivedAt then best else e) best ∈
            best :: l := by
        intro l
        induction l with
        | nil => exact fun best => List.mem_singleton_self best
        | cons e l ih =>
            intro best
            rw [List.foldl_cons]
            have member := ih (if e.receivedAt < best.receivedAt then best else e)
            split at member <;> grind
      exact kept rest first

theorem judge_for {key : Key} {stored : StoredResponse} {req : RequestDirectives}
    {missed : Lookup} {now : SystemTime} {headers : HeaderMap HeaderValue}
    (missed_for : missed.For headers) (own : stored.Own)
    (same : combined stored.request HeaderName.authorization =
      combined headers HeaderName.authorization) :
    (judge key stored req missed now).For headers := by
  have served : (Lookup.hit (withAge stored (currentAge stored now))).For headers := ⟨own, same⟩
  have checked : (Lookup.revalidate key stored (conditionsFrom stored.headers)).For headers :=
    ⟨own, same, conditionsFrom_names⟩
  unfold judge
  simp only
  repeat' split
  all_goals first
    | exact served
    | exact missed_for
    | exact checked

theorem choose_for {key : Key} {variants : List StoredResponse} {req : RequestDirectives}
    {missed : Lookup} {now : SystemTime} {headers : HeaderMap HeaderValue}
    (missed_for : missed.For headers) (own : ∀ e ∈ variants, e.Own) :
    (choose key variants req missed headers now).For headers := by
  unfold choose
  split
  · exact missed_for
  next stored found =>
    obtain ⟨member, matched⟩ := List.mem_filter.mp (latest_mem found)
    exact judge_for missed_for (own stored member) ((own stored member).authorization matched)

/-- The stored variant a lookup decides about: the latest of those that match. -/
def selected (variants : List StoredResponse) (headers : HeaderMap HeaderValue) :
    Option StoredResponse := latest (variants.filter fun e => selectorMatches e headers)

theorem selected_mem {variants : List StoredResponse} {headers : HeaderMap HeaderValue}
    {e : StoredResponse} (found : selected variants headers = some e) :
    e ∈ variants ∧ selectorMatches e headers = true := List.mem_filter.mp (latest_mem found)

/-- The request allows the staleness the response has. -/
def stretches (e : StoredResponse) (req : RequestDirectives) (now : SystemTime) : Bool :=
  match req.maxStale, freshnessLifetime e (ResponseDirectives.parse e.headers) with
  | some allowance, some lifetime => allowance.all fun d => currentAge e now - lifetime ≤ d
  | _, _ => false

/-- When a variant is served as it stands: fresh, or stale within what the request allows. -/
def servable (e : StoredResponse) (req : RequestDirectives) (now : SystemTime) : Bool :=
  let resp := ResponseDirectives.parse e.headers
  !req.noCache && !resp.noCache &&
    (isFresh (currentAge e now) (freshnessLifetime e resp) req ||
      (!resp.mustRevalidate && stretches e req now))

theorem judge_eq (key : Key) (e : StoredResponse) (req : RequestDirectives) (missed : Lookup)
    (now : SystemTime) : judge key e req missed now =
      if servable e req now then .hit (withAge e (currentAge e now))
      else if conditionsFrom e.headers = [] then missed
      else .revalidate key e (conditionsFrom e.headers) := by
  have unfolded : judge key e req missed now =
      let resp := ResponseDirectives.parse e.headers
      let reusable := !req.noCache && !resp.noCache
      if reusable && isFresh (currentAge e now) (freshnessLifetime e resp) req then
        .hit (withAge e (currentAge e now))
      else if reusable && !resp.mustRevalidate && stretches e req now then
        .hit (withAge e (currentAge e now))
      else if conditionsFrom e.headers = [] then missed
      else .revalidate key e (conditionsFrom e.headers) := rfl
  rw [unfolded, servable]
  simp only
  generalize isFresh (currentAge e now) _ req = fresh
  generalize stretches e req now = stretched
  generalize (ResponseDirectives.parse e.headers).mustRevalidate = must
  cases !req.noCache && !(ResponseDirectives.parse e.headers).noCache <;> cases fresh <;>
    cases stretched <;> cases must <;> rfl

theorem judge_eq_hit {key : Key} {e served : StoredResponse} {req : RequestDirectives}
    {missed : Lookup} {now : SystemTime} (missing : missed.served = none) :
    judge key e req missed now = .hit served ↔
      servable e req now = true ∧ served = withAge e (currentAge e now) := by
  rw [judge_eq]
  split
  next serves => simp [serves, eq_comm]
  next serves =>
    simp only [serves, Bool.false_eq_true, false_and, iff_false]
    split
    · intro same
      rw [same] at missing
      cases missing
    · nofun

theorem judge_eq_revalidate {key key' : Key} {e stale : StoredResponse} {req : RequestDirectives}
    {missed : Lookup} {now : SystemTime} {conditions : List (HeaderName × HeaderValue)}
    (missing : missed.handedOut = none)
    (judged : judge key e req missed now = .revalidate key' stale conditions) :
    key' = key ∧ stale = e ∧ conditionsFrom e.headers ≠ [] := by
  rw [judge_eq] at judged
  split at judged
  · cases judged
  split at judged
  · rw [judged] at missing
    cases missing
  next validator =>
    cases judged
    exact ⟨rfl, rfl, validator⟩

namespace HttpCache
variable {h : Held} (capacity : Nat)

theorem lookup_for (own : h.All StoredResponse.Own) (method : Method) (uri : Uri)
    (headers : HeaderMap HeaderValue) (now : SystemTime) :
    ((lookup method uri headers now).runWith (MemoryStore.handle capacity) h).1.For headers := by
  have missed_for : (if (RequestDirectives.parse headers).onlyIfCached then Lookup.unsatisfiable
      else Lookup.miss).For headers := by
    split <;> trivial
  unfold lookup
  simp only
  split
  · exact missed_for
  split
  · exact missed_for
  · exact choose_for missed_for (own _)

/-- What a lookup answers where nothing stored is of use. -/
def missed (headers : HeaderMap HeaderValue) : Lookup :=
  if (RequestDirectives.parse headers).onlyIfCached then .unsatisfiable else .miss

theorem missed_served (headers : HeaderMap HeaderValue) : (missed headers).served = none := by
  unfold missed
  split <;> rfl

theorem missed_handedOut (headers : HeaderMap HeaderValue) :
    (missed headers).handedOut = none := by
  unfold missed
  split <;> rfl

/-- The request may be answered from the cache at all. -/
def consults (method : Method) (headers : HeaderMap HeaderValue) : Bool :=
  usableMethod method && !bypasses headers && !(RequestDirectives.parse headers).noStore

theorem lookup_eq (method : Method) (uri : Uri) (headers : HeaderMap HeaderValue)
    (now : SystemTime) :
    ((lookup method uri headers now).runWith (MemoryStore.handle capacity) h).1 =
      match (Key.new method uri).filter fun _ => consults method headers with
      | none => missed headers
      | some key =>
          match selected (h.get key) headers with
          | none => missed headers
          | some e => judge key e (RequestDirectives.parse headers) (missed headers) now := by
  unfold lookup consults
  simp only
  cases usableMethod method <;> cases bypasses headers <;>
    cases (RequestDirectives.parse headers).noStore <;> cases Key.new method uri <;> rfl

/-- A hit is the selected variant, which may be served. -/
theorem lookup_eq_hit {method : Method} {uri : Uri} {headers : HeaderMap HeaderValue}
    {now : SystemTime} {served : StoredResponse} :
    ((lookup method uri headers now).runWith (MemoryStore.handle capacity) h).1 = .hit served ↔
      consults method headers = true ∧ ∃ key e, Key.new method uri = some key ∧
        selected (h.get key) headers = some e ∧
        servable e (RequestDirectives.parse headers) now = true ∧
        served = withAge e (currentAge e now) := by
  rw [lookup_eq]
  have unserved : ∀ served, missed headers ≠ .hit served := by
    intro served same
    have missing := missed_served headers
    rw [same] at missing
    cases missing
  cases keyed : Key.new method uri with
  | none => simp [unserved]
  | some key =>
      cases consulted : consults method headers with
      | false => simp [unserved]
      | true =>
          simp only [Option.filter_some, if_true, true_and]
          cases chosen : selected (h.get key) headers with
          | none => simp [unserved, chosen]
          | some e => simp [judge_eq_hit (missed_served headers), chosen]

/-- What is handed out to be revalidated is held and has a validator. -/
theorem lookup_handedOut {method : Method} {uri : Uri} {headers : HeaderMap HeaderValue}
    {now : SystemTime} {key : Key} {stale : StoredResponse}
    (out : ((lookup method uri headers now).runWith (MemoryStore.handle capacity) h).1.handedOut =
      some (key, stale)) :
    Key.new method uri = some key ∧ selected (h.get key) headers = some stale ∧
      conditionsFrom stale.headers ≠ [] := by
  rw [lookup_eq] at out
  cases filtered : (Key.new method uri).filter fun _ => consults method headers with
  | none =>
      rw [filtered] at out
      simp only [missed_handedOut] at out
      cases out
  | some key' =>
      rw [filtered] at out
      simp only at out
      have keyed := (Option.filter_eq_some_iff.mp filtered).1
      cases chosen : selected (h.get key') headers with
      | none =>
          rw [chosen] at out
          simp only [missed_handedOut] at out
          cases out
      | some e =>
          rw [chosen] at out
          simp only at out
          cases judged : judge key' e (RequestDirectives.parse headers) (missed headers) now with
          | revalidate key'' stale' conditions =>
              rw [judged] at out
              cases out
              obtain ⟨rfl, rfl, validator⟩ := judge_eq_revalidate (missed_handedOut headers) judged
              exact ⟨keyed, chosen, validator⟩
          | miss =>
              rw [judged] at out
              cases out
          | hit served =>
              rw [judged] at out
              cases out
          | unsatisfiable =>
              rw [judged] at out
              cases out

theorem lookup_held (method : Method) (uri : Uri) (headers : HeaderMap HeaderValue)
    (now : SystemTime) :
    ((lookup method uri headers now).runWith (MemoryStore.handle capacity) h).2 = h := by
  unfold lookup
  simp only
  split
  · rfl
  split <;> rfl

section
variable {P : StoredResponse → Prop}

theorem revalidated_held (all : h.All P) {stale : StoredResponse} {parts : ResponseParts}
    {requestedAt receivedAt : SystemTime} (fresh : P (freshened stale parts requestedAt receivedAt))
    (key : Key) :
    ((revalidated key stale parts requestedAt receivedAt).runWith
      (MemoryStore.handle capacity) h).2.All P := all.put capacity key fresh

theorem superseded_held (all : h.All P) (key : Key) (stale : StoredResponse) :
    ((superseded key stale).runWith (MemoryStore.handle capacity) h).2.All P :=
  all.remove key stale.selector

theorem invalidateKey_held (all : h.All P) (key : Option Key) :
    ((invalidateKey key).runWith (MemoryStore.handle capacity) h).2.All P := by
  cases key with
  | none => exact all
  | some key => exact all.invalidate key

theorem invalidatedBy_held (all : h.All P) (method : Method) (uri : Uri) (status : StatusCode) :
    ((invalidatedBy method uri status).runWith (MemoryStore.handle capacity) h).2.All P := by
  unfold invalidatedBy
  split
  · exact all
  · rw [runWith_bind]
    exact invalidateKey_held capacity (invalidateKey_held capacity all _) _

theorem store_held (all : h.All P) {storing : Storing} {body : List UInt8}
    (own : P (storing.entry body)) :
    ((store storing body).runWith (MemoryStore.handle capacity) h).2.All P := by
  unfold store
  split
  · exact all
  split
  · exact all
  · exact all.put capacity storing.key own

end

/-- What is known of a response that may be stored. -/
theorem storing_ok {cache : HttpCache} {method : Method} {uri : Uri}
    {headers sent : HeaderMap HeaderValue} {parts : ResponseParts}
    {requestedAt receivedAt : SystemTime} {storing : Storing}
    (ok : cache.storing method uri headers parts requestedAt receivedAt sent = .ok storing) :
    (ResponseDirectives.parse parts.headers).noStore = false ∧
      ((ResponseDirectives.parse parts.headers).maxAge.isSome = true ∨
        parts.headers.containsKey "expires".toList = true ∨
        conditionsFrom parts.headers ≠ []) ∧
      ∃ names key, varyNames parts.headers = some names ∧ Key.new method uri = some key ∧
        storing = ⟨key, parts.status, parts.version, parts.headers, Selector.of headers names,
          requestedAt, receivedAt, declaredLength parts.headers, cache.limits.maxBodyBytes,
          sent⟩ := by
  unfold HttpCache.storing at ok
  iterate 4
    split at ok
    · cases ok
  simp only at ok
  split at ok
  · cases ok
  next stored =>
    split at ok
    · cases ok
    next names nominated =>
      split at ok
      · cases ok
      next reusable =>
        split at ok
        · cases ok
        split at ok
        · cases ok
        next key keyed =>
          cases ok
          refine ⟨by simpa using stored, ?_, names, key, nominated, keyed, rfl⟩
          grind

/-- What a response that may be stored is stored under. -/
theorem storing_selector {cache : HttpCache} {method : Method} {uri : Uri}
    {headers sent : HeaderMap HeaderValue} {parts : ResponseParts}
    {requestedAt receivedAt : SystemTime} {storing : Storing}
    (ok : cache.storing method uri headers parts requestedAt receivedAt sent = .ok storing) :
    storing.request = sent ∧ ∃ names, varyNames parts.headers = some names ∧
      storing.selector = Selector.of headers names := by
  obtain ⟨-, -, names, key, nominated, -, rfl⟩ := storing_ok ok
  exact ⟨rfl, names, nominated, rfl⟩

end HttpCache
end HClient.Cache
