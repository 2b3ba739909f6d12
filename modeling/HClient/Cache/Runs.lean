import HClient.Cache.Merging
import HClient.Effect.Machine

/-!
# A cache in use

The calls of an `HttpCache` over its store, one after another: a response is judged when its
head is there and stored when its body is, and what a lookup hands out to be revalidated is
freshened or removed later, if at all.
-/
namespace HClient.Cache

open Effect Program HttpCache

/-- The store, the responses that may still be stored, the entries lookups have handed out,
and, for the statements about runs, everything that was ever stored. -/
structure InUse where
  held : Held
  pending : List Storing
  handed : List (Key × StoredResponse)
  stored : List (Key × StoredResponse)

def InUse.new : InUse := ⟨Held.new, [], [], []⟩

inductive CacheOp where
  | storing (method : Method) (uri : Uri) (headers : HeaderMap HeaderValue)
      (parts : ResponseParts) (requestedAt receivedAt : SystemTime)
  | store (storing : Storing) (body : List UInt8)
  | lookup (method : Method) (uri : Uri) (headers : HeaderMap HeaderValue) (now : SystemTime)
  | revalidated (key : Key) (stale : StoredResponse) (parts : ResponseParts)
      (requestedAt receivedAt : SystemTime)
  | superseded (key : Key) (stale : StoredResponse)
  | invalidatedBy (method : Method) (uri : Uri) (status : StatusCode)

section
variable (cache : HttpCache) (capacity : Nat)

def onHeld {α : Type} (p : Script α) (h : Held) : α × Held :=
  p.runWith (MemoryStore.handle capacity) h

/-- What a lookup answers in a state. -/
def InUse.answer (s : InUse) (method : Method) (uri : Uri) (headers : HeaderMap HeaderValue)
    (now : SystemTime) : Lookup := (onHeld capacity (lookup method uri headers now) s.held).1

/-- A call. The judged response keeps its place after it was stored, since a `Storing` may be
cloned; only what a lookup handed out is revalidated or superseded. -/
def use : Machine InUse CacheOp
  | s, .storing method uri headers parts requestedAt receivedAt =>
      match cache.storing method uri headers parts requestedAt receivedAt headers with
      | .ok storing => some { s with pending := storing :: s.pending }
      | .error _ => some s
  | s, .store storing body =>
      if storing ∈ s.pending then
        match onHeld capacity (store storing body) s.held with
        | (.ok _, held) =>
            some { s with held, stored := (storing.key, storing.entry body) :: s.stored }
        | (.error _, held) => some { s with held }
      else none
  | s, .lookup method uri headers now =>
      some { s with
        held := (onHeld capacity (lookup method uri headers now) s.held).2
        handed := (s.answer capacity method uri headers now).handedOut.toList ++ s.handed }
  | s, .revalidated key stale parts requestedAt receivedAt =>
      if (key, stale) ∈ s.handed then
        some { s with
          held := (onHeld capacity (revalidated key stale parts requestedAt receivedAt) s.held).2
          stored := (key, freshened stale parts requestedAt receivedAt) :: s.stored }
      else none
  | s, .superseded key stale =>
      if (key, stale) ∈ s.handed then
        some { s with held := (onHeld capacity (superseded key stale) s.held).2 }
      else none
  | s, .invalidatedBy method uri status =>
      some { s with held := (onHeld capacity (invalidatedBy method uri status) s.held).2 }

end

/-- Every entry that is held, that could be stored or that was handed out has the property;
what was handed out has a validator besides. -/
structure Entries (P : StoredResponse → Prop) (s : InUse) : Prop where
  held : s.held.All P
  pending : ∀ storing ∈ s.pending, ∀ body, P (storing.entry body)
  handed : ∀ out ∈ s.handed, P out.2 ∧ conditionsFrom out.2.headers ≠ []

/-- The condition on the responses that freshen an entry. -/
def Merges (careful : StoredResponse → ResponseParts → Prop) (_ : InUse) : CacheOp → Prop
  | .revalidated _ stale parts _ _ => careful stale parts
  | _ => True

instance (careful : StoredResponse → ResponseParts → Prop)
    [∀ stale parts, Decidable (careful stale parts)] (s : InUse) :
    (op : CacheOp) → Decidable (Merges careful s op)
  | .revalidated _ stale parts _ _ => inferInstanceAs (Decidable (careful stale parts))
  | .storing .. | .store .. | .lookup .. | .superseded .. | .invalidatedBy .. => .isTrue trivial

theorem entries_new (P : StoredResponse → Prop) : Entries P InUse.new :=
  ⟨Held.all_new, fun _ member => (by cases member), fun _ member => (by cases member)⟩

section
variable {cache : HttpCache} {capacity : Nat} {P : StoredResponse → Prop}
  {careful : StoredResponse → ResponseParts → Prop}

/-- A property that newly judged responses have and careful revalidations keep is kept by
every call. -/
theorem entries_step
    (judged : ∀ method uri headers parts requestedAt receivedAt storing body,
      cache.storing method uri headers parts requestedAt receivedAt headers = .ok storing →
        P (storing.entry body))
    (merged : ∀ stale parts requestedAt receivedAt, careful stale parts → P stale →
      conditionsFrom stale.headers ≠ [] → P (freshened stale parts requestedAt receivedAt))
    {s s' : InUse} {op : CacheOp} (allowed : Merges careful s op) (inv : Entries P s)
    (stepped : use cache capacity s op = some s') : Entries P s' := by
  cases op with
  | storing method uri headers parts requestedAt receivedAt =>
      simp only [use] at stepped
      split at stepped
      next storing ok =>
        cases stepped
        refine ⟨inv.held, fun storing' member body => ?_, inv.handed⟩
        obtain rfl | old := List.mem_cons.mp member
        · exact judged _ _ _ _ _ _ _ body ok
        · exact inv.pending storing' old body
      · cases stepped
        exact inv
  | store storing body =>
      obtain ⟨member, stored⟩ := Option.ite_none_right_eq_some.mp stepped
      have held := HttpCache.store_held capacity inv.held (inv.pending storing member body)
      split at stored
      next held' eq =>
        cases stored
        rw [onHeld] at eq
        rw [eq] at held
        exact ⟨held, inv.pending, inv.handed⟩
      next held' eq =>
        cases stored
        rw [onHeld] at eq
        rw [eq] at held
        exact ⟨held, inv.pending, inv.handed⟩
  | lookup method uri headers now =>
      cases stepped
      refine ⟨?_, inv.pending, fun out member => ?_⟩
      · simp only [onHeld, HttpCache.lookup_held]
        exact inv.held
      · obtain new | old := List.mem_append.mp member
        · obtain ⟨-, chosen, validator⟩ :=
            HttpCache.lookup_handedOut capacity (Option.mem_toList.mp new)
          exact ⟨inv.held _ _ (selected_mem chosen).1, validator⟩
        · exact inv.handed out old
  | revalidated key stale parts requestedAt receivedAt =>
      obtain ⟨member, same⟩ := Option.ite_none_right_eq_some.mp stepped
      cases same
      obtain ⟨own, validator⟩ := inv.handed _ member
      exact ⟨HttpCache.revalidated_held capacity inv.held
        (merged stale parts _ _ allowed own validator) key, inv.pending, inv.handed⟩
  | superseded key stale =>
      obtain ⟨-, same⟩ := Option.ite_none_right_eq_some.mp stepped
      cases same
      exact ⟨HttpCache.superseded_held capacity inv.held key stale, inv.pending, inv.handed⟩
  | invalidatedBy method uri status =>
      cases stepped
      exact ⟨HttpCache.invalidatedBy_held capacity inv.held method uri status, inv.pending,
        inv.handed⟩

end

namespace Scene

def aUri : Uri := ⟨some .https, some ⟨none, "a.test".toList, none⟩, none⟩

def cache : HttpCache := ⟨Limits.default⟩

def instant (seconds : Int) : SystemTime := .fromUnix seconds

def judged (request arrived : HeaderMap HeaderValue) (seconds : Int) :
    Except NotStored Storing :=
  cache.storing .get aUri request ⟨200, .http11, arrived⟩ (instant seconds) (instant seconds)
    request

/-- A response that arrives within the second, with a body of one byte, is stored. -/
def kept (request arrived : HeaderMap HeaderValue) (seconds : Int) : List CacheOp :=
  match judged request arrived seconds with
  | .error _ => []
  | .ok storing =>
      [.storing .get aUri request ⟨200, .http11, arrived⟩ (instant seconds) (instant seconds),
        .store storing [1]]

end Scene
end HClient.Cache
