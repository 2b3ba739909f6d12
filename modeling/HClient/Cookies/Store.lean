import HClient.Core.Table
import HClient.Core.Time
import HClient.Cookies.Matching
import HClient.Cookies.Parse

/-!
# Where the cookies live

`cookie::store`: the replacement key, the domains that can match a host, and the in-memory
store with its two bounds. The jar's rules are on the other side of `StoreCall`.
-/
namespace HClient.Cookies

structure Cookie where
  name : Text
  value : Text
  domain : Text
  path : Text
  expires : Option SystemTime
  creation : SystemTime
  lastAccess : SystemTime
  seq : Nat
  hostOnly : Bool
  persistent : Bool
  secure : Bool
  httpOnly : Bool
  sameSite : Option SameSite
  deriving DecidableEq

def Cookie.isExpired (c : Cookie) (now : SystemTime) : Bool :=
  match c.expires with
  | some e => e ≤ now
  | none => false

structure CookieKey where
  name : Text
  domain : Text
  path : Text
  hostOnly : Bool
  deriving DecidableEq, Repr

def CookieKey.of (c : Cookie) : CookieKey := ⟨c.name, c.domain, c.path, c.hostOnly⟩

/-- The loop of `candidate_domains`: what is left after each dot. -/
def tailDomains : Text → List Text
  | [] => []
  | c :: rest => if c = '.' then rest :: tailDomains rest else tailDomains rest

def candidateDomains (host : Text) : List Text :=
  if isIpLiteral host then [host] else host :: tailDomains host

structure Capacity where
  maxCookies : Nat
  maxPerDomain : Nat
  deriving DecidableEq, Repr

def Capacity.default : Capacity := ⟨3000, 50⟩

structure Held where
  byDomain : Table Text (List Cookie)
  held : Nat

namespace Held

def new : Held := ⟨∅, 0⟩

/-- The cookies under one domain. -/
def under (h : Held) (domain : Text) : List Cookie := (h.byDomain.lookup domain).getD []

/-- All cookies, each with the domain it is under and its place there. -/
def entries (h : Held) : List (Text × Nat × Cookie) :=
  h.byDomain.entries.flatMap fun e => e.2.zipIdx.map fun (c, i) => (e.1, i, c)

def keepUnexpired (now : SystemTime) (cookies : List Cookie) : Option (List Cookie) :=
  let kept := cookies.filter fun c => ¬ c.isExpired now
  if kept = [] then none else some kept

def purgeExpired (h : Held) (now : SystemTime) : Held :=
  let dropped := (h.entries.filter fun e => e.2.2.isExpired now).length
  ⟨h.byDomain.retain (keepUnexpired now), h.held - dropped⟩

/-- Stores a domain's list, or drops the domain where nothing is left under it. -/
def replace (h : Held) (domain : Text) (cookies : List Cookie) (held : Nat) : Held :=
  if cookies = [] then ⟨h.byDomain.erase domain, held⟩
  else ⟨h.byDomain.insert domain cookies, held⟩

/-- The order eviction goes by: least recently used, then earliest inserted. -/
def evictsBefore (a b : Cookie) : Bool :=
  a.lastAccess < b.lastAccess ∨ (a.lastAccess = b.lastAccess ∧ a.seq < b.seq)

/-- `Iterator::min_by`: the first of the least. -/
def leastRecentlyUsed : List (Text × Nat × Cookie) → Option (Text × Nat × Cookie)
  | [] => none
  | e :: rest =>
      some (rest.foldl (fun best e => if evictsBefore e.2.2 best.2.2 then e else best) e)

/-- The store without its least recently used cookie, of one domain or of all; `none` where
there is nothing to evict. -/
def evictLru (h : Held) (domain : Option Text) : Option Held :=
  let candidates := h.entries.filter fun e => domain.all fun want => e.1 = want
  (leastRecentlyUsed candidates).map fun (d, i, _) =>
    h.replace d ((h.under d).eraseIdx i) (h.held - 1)

/-- The `while` loops of `put`. Every turn takes a cookie, so their number is fuel enough. -/
def evictWhile (full : Held → Bool) (domain : Option Text) : Nat → Held → Held
  | 0, h => h
  | fuel + 1, h =>
      if full h then
        match h.evictLru domain with
        | some h => evictWhile full domain fuel h
        | none => h
      else h

def isDomainFull (capacity : Capacity) (domain : Text) (h : Held) : Bool :=
  match h.byDomain.lookup domain with
  | some cookies => capacity.maxPerDomain ≤ cookies.length
  | none => false

def isFull (capacity : Capacity) (h : Held) : Bool := capacity.maxCookies ≤ h.held

def makeRoom (capacity : Capacity) (domain : Text) (h : Held) : Held :=
  let h := evictWhile (isDomainFull capacity domain) (some domain) h.entries.length h
  evictWhile (isFull capacity) none h.entries.length h

def get (h : Held) (domains : List Text) : List Cookie := domains.flatMap h.under

def all (h : Held) : List Cookie :=
  (h.entries.map fun e => e.2.2).mergeSort fun a b => a.seq ≤ b.seq

def remove (h : Held) (key : CookieKey) : Held :=
  match h.byDomain.lookup key.domain with
  | none => h
  | some cookies =>
      let kept := cookies.filter fun c => CookieKey.of c ≠ key
      h.replace key.domain kept (h.held - (cookies.length - kept.length))

def push (h : Held) (cookie : Cookie) : Held :=
  ⟨h.byDomain.insert cookie.domain (h.under cookie.domain ++ [cookie]), h.held + 1⟩

def put (capacity : Capacity) (h : Held) (cookie : Cookie) (now : SystemTime) : Held :=
  let h := h.purgeExpired now
  let key := CookieKey.of cookie
  -- an arriving cookie that has already expired is a deletion
  if cookie.isExpired now then h.remove key
  else
    let slot := h.under key.domain
    match slot.findIdx? fun c => CookieKey.of c = key with
    | some i => ⟨h.byDomain.insert key.domain (slot.set i cookie), h.held⟩
    | none => (h.makeRoom capacity key.domain).push cookie

def touchOne (now : SystemTime) (h : Held) (key : CookieKey) : Held :=
  match h.byDomain.lookup key.domain with
  | none => h
  | some cookies =>
      ⟨h.byDomain.insert key.domain
        (cookies.map fun c => if CookieKey.of c = key then { c with lastAccess := now } else c),
        h.held⟩

def touch (h : Held) (keys : List CookieKey) (now : SystemTime) : Held :=
  keys.foldl (touchOne now) h

/-! What each operation can put into the store. -/

def Holds (h : Held) (c : Cookie) : Prop := ∃ domain, c ∈ h.under domain

theorem not_holds_new (c : Cookie) : ¬ new.Holds c := by
  intro h
  obtain ⟨domain, member⟩ := h
  simp [under, new] at member

variable {c : Cookie} {h : Held}

theorem mem_under {domain : Text} :
    c ∈ h.under domain ↔ ∃ cookies, h.byDomain.lookup domain = some cookies ∧ c ∈ cookies := by
  unfold under
  cases h.byDomain.lookup domain <;> simp

theorem holds_of_mem_get {domains : List Text}
    (member : c ∈ h.get domains) : h.Holds c := by
  obtain ⟨domain, -, there⟩ := List.mem_flatMap.mp member
  exact ⟨domain, there⟩

theorem holds_insert {domain : Text} {cookies : List Cookie} {held : Nat}
    (holds : (⟨h.byDomain.insert domain cookies, held⟩ : Held).Holds c) :
    c ∈ cookies ∨ h.Holds c := by
  obtain ⟨d, member⟩ := holds
  by_cases same : d = domain
  · subst same
    exact .inl (by simpa [under] using member)
  · exact .inr ⟨d, by simpa [under, AList.lookup_insert_ne same] using member⟩

theorem holds_replace {domain : Text} {cookies : List Cookie} {held : Nat}
    (holds : (h.replace domain cookies held).Holds c) : c ∈ cookies ∨ h.Holds c := by
  unfold replace at holds
  split at holds
  · obtain ⟨d, member⟩ := holds
    by_cases same : d = domain
    · subst same
      simp [under] at member
    · exact .inr ⟨d, by simpa [under, AList.lookup_erase_ne same] using member⟩
  · exact holds_insert holds

theorem holds_purgeExpired {now : SystemTime}
    (holds : (h.purgeExpired now).Holds c) : h.Holds c := by
  obtain ⟨domain, member⟩ := holds
  obtain ⟨kept, found, member⟩ := mem_under.mp member
  rw [purgeExpired, Table.lookup_retain, Option.bind_eq_some_iff] at found
  obtain ⟨cookies, there, rest⟩ := found
  refine ⟨domain, mem_under.mpr ⟨cookies, there, ?_⟩⟩
  simp only [keepUnexpired, Option.ite_none_left_eq_some, Option.some.injEq] at rest
  rw [← rest.2] at member
  exact List.mem_of_mem_filter member

theorem holds_evictLru {h h' : Held} {domain : Option Text}
    (evicted : h.evictLru domain = some h') (holds : h'.Holds c) : h.Holds c := by
  obtain ⟨⟨d, i, victim⟩, -, rfl⟩ := Option.map_eq_some_iff.mp evicted
  obtain member | holds := holds_replace holds
  · exact ⟨d, List.mem_of_mem_eraseIdx member⟩
  · exact holds

theorem holds_evictWhile {full : Held → Bool} {domain : Option Text} (fuel : Nat)
    (holds : (evictWhile full domain fuel h).Holds c) : h.Holds c := by
  induction fuel generalizing h with
  | zero => exact holds
  | succ fuel ih =>
      unfold evictWhile at holds
      split at holds
      · cases evicted : h.evictLru domain with
        | none => simpa [evicted] using holds
        | some h' =>
            rw [evicted] at holds
            exact holds_evictLru evicted (ih holds)
      · exact holds

theorem holds_makeRoom {capacity : Capacity} {domain : Text}
    (holds : (h.makeRoom capacity domain).Holds c) : h.Holds c :=
  holds_evictWhile _ (holds_evictWhile _ holds)

theorem holds_remove {key : CookieKey}
    (holds : (h.remove key).Holds c) : h.Holds c := by
  unfold remove at holds
  cases found : h.byDomain.lookup key.domain with
  | none => simpa [found] using holds
  | some cookies =>
      rw [found] at holds
      obtain member | holds := holds_replace holds
      · exact ⟨key.domain, mem_under.mpr ⟨cookies, found, List.mem_of_mem_filter member⟩⟩
      · exact holds

theorem holds_push {cookie c : Cookie} (holds : (h.push cookie).Holds c) :
    c = cookie ∨ h.Holds c := by
  obtain member | holds := holds_insert holds
  · obtain member | same := List.mem_append.mp member
    · exact .inr ⟨_, member⟩
    · exact .inl (List.mem_singleton.mp same)
  · exact .inr holds

theorem holds_put {capacity : Capacity} {cookie c : Cookie} {now : SystemTime}
    (holds : (h.put capacity cookie now).Holds c) : c = cookie ∨ h.Holds c := by
  unfold put at holds
  simp only at holds
  split at holds
  · exact .inr (holds_purgeExpired (holds_remove holds))
  split at holds
  · obtain member | holds := holds_insert holds
    · obtain member | same := List.mem_or_eq_of_mem_set member
      · exact .inr (holds_purgeExpired ⟨_, member⟩)
      · exact .inl same
    · exact .inr (holds_purgeExpired holds)
  · obtain same | holds := holds_push holds
    · exact .inl same
    · exact .inr (holds_purgeExpired (holds_makeRoom holds))

theorem holds_touchOne {key : CookieKey} {now : SystemTime}
    (holds : (h.touchOne now key).Holds c) :
    h.Holds c ∨ ∃ c', h.Holds c' ∧ c = { c' with lastAccess := now } := by
  unfold touchOne at holds
  cases found : h.byDomain.lookup key.domain with
  | none => exact .inl (by simpa [found] using holds)
  | some cookies =>
      rw [found] at holds
      obtain member | holds := holds_insert holds
      · obtain ⟨c', there, same⟩ := List.mem_map.mp member
        have held : h.Holds c' := ⟨key.domain, mem_under.mpr ⟨cookies, found, there⟩⟩
        split at same
        · exact .inr ⟨c', held, same.symm⟩
        · exact .inl (same ▸ held)
      · exact .inl holds

end Held

/-- The calls of the `CookieStore` trait, and the draw of the jar's insertion counter. -/
inductive StoreCall where
  | get (domains : List Text)
  | all
  | put (cookie : Cookie) (now : SystemTime)
  | remove (key : CookieKey)
  | touch (keys : List CookieKey) (now : SystemTime)
  | len
  | clear
  | nextSeq

def StoreCall.Answer : StoreCall → Type
  | .get _ | .all => List Cookie
  | .put .. | .remove _ | .touch .. | .clear => Unit
  | .len | .nextSeq => Nat

/-- The store and the counter of one jar. -/
structure JarState where
  store : Held
  nextSeq : Nat

def JarState.new : JarState := ⟨Held.new, 0⟩

def MemoryStore.handle (capacity : Capacity) :
    (op : StoreCall) → JarState → op.Answer × JarState
  | .get domains, s => (s.store.get domains, s)
  | .all, s => (s.store.all, s)
  | .put cookie now, s => ((), { s with store := s.store.put capacity cookie now })
  | .remove key, s => ((), { s with store := s.store.remove key })
  | .touch keys now, s => ((), { s with store := s.store.touch keys now })
  | .len, s => (s.store.held, s)
  | .clear, s => ((), { s with store := Held.new })
  | .nextSeq, s => (s.nextSeq, { s with nextSeq := s.nextSeq + 1 })

end HClient.Cookies
