import HClient.Core.Header
import HClient.Core.Http
import HClient.Hsts.Directives
import HClient.Hsts.Store
import Mathlib

/-!
# The rules over a store

`Hsts::upgrade`, `is_known` and `note` as programs of store calls.
-/
namespace HClient.Hsts

open Effect

def maxAgeCap : Duration := .fromHours 9600

/-- Whether a host is RFC 3986's `IP-literal` or `IPv4address`. -/
def isIpLiteral (host : Text) : Bool := (IpAddr.parse (bareHost host)).isSome

def removeAll : List Text → StoreProgram Unit
  | [] => pure ()
  | domain :: rest => do
      KvStore.remove domain
      removeAll rest

def expiredDomains (found : List Entry) (now : SystemTime) : List Text :=
  (found.filter fun entry => entry.expiresAt ≤ now).map Entry.domain

/-- Whether any unexpired entry covers the first candidate: itself congruent, or a
superdomain's with `includeSubDomains`. -/
def isCovered (candidates : List Text) (found : List Entry) (now : SystemTime) : Bool :=
  found.any fun entry => !decide (entry.expiresAt ≤ now) &&
    (candidates.head? = some entry.domain || entry.includeSubdomains)

def isKnown (host : Text) (now : SystemTime) : StoreProgram Bool := do
  let candidates := candidateDomains host
  let found ← KvStore.get candidates
  removeAll (expiredDomains found now)
  pure (isCovered candidates found now)

/-- The upgraded form: port 80 becomes 443 and any other port stays. The authority is parsed
again from its host and port, which an empty text does not survive. -/
def upgraded (uri : Uri) : Option Uri :=
  match uri.authority with
  | none => none
  | some authority =>
      let port := if authority.port = some 80 then some 443 else authority.port
      if authority.host = [] ∧ port = none then none
      else
        some {
          scheme := some .https
          authority := some ⟨none, authority.host, port⟩
          pathAndQuery := some (uri.pathAndQuery.getD ⟨['/'], none⟩) }

def upgrade (uri : Uri) (now : SystemTime) : StoreProgram (Option Uri) :=
  if uri.scheme ≠ some .http then pure none
  else
    match uri.host with
    | none => pure none
    | some host =>
        if isIpLiteral host then pure none
        else do
          let known ← isKnown host now
          if known then pure (upgraded uri) else pure none

/-- What the response's first field asserts, if it is to be listened to at all. -/
def asserted (uri : Uri) (headers : HeaderMap HeaderValue) (secure : Bool) :
    Option (Text × Directives) := do
  guard secure
  let host ← uri.host
  guard ¬ isIpLiteral host
  let value ← headers.get "strict-transport-security".toList
  let value ← value.toStr
  let directives ← Directives.parse value
  pure (Text.toAsciiLowercase host, directives)

def expiryOf (now : SystemTime) (maxAge : Nat) : SystemTime :=
  (now.checkedAdd (min maxAgeCap (.fromSecs maxAge))).getD now

def note (uri : Uri) (headers : HeaderMap HeaderValue) (secure : Bool) (now : SystemTime) :
    StoreProgram Unit :=
  match asserted uri headers secure with
  | none => pure ()
  | some (domain, directives) =>
      if directives.maxAge = 0 then KvStore.remove domain
      else KvStore.put ⟨domain, expiryOf now directives.maxAge, directives.includeSubdomains⟩

end HClient.Hsts

/-!
## Policies over whole runs

The abstract policy set holds at most one policy for each name. The encoded store represents
it for a set of names as long as these have different keys, and every call preserves that, so
the answer of a lookup can be read off the calls made before it.
-/
namespace HClient.Hsts

open Effect Kv

inductive Call where
  | note (uri : Uri) (headers : HeaderMap HeaderValue) (secure : Bool) (now : SystemTime)
  | upgrade (uri : Uri) (now : SystemTime)
  deriving DecidableEq

def Call.run : Call → Memory → Memory
  | .note uri headers secure now, kv =>
      ((Hsts.note uri headers secure now).runWith KvCall.handle kv).2
  | .upgrade uri now, kv => ((Hsts.upgrade uri now).runWith KvCall.handle kv).2

/-- Calls made one after another. -/
def runAll (calls : List Call) (kv : Memory) : Memory := calls.foldl (fun kv c => c.run kv) kv

/-- The accepted note a call makes: the name, what was asserted and when. -/
def Call.accepted : Call → Option (Text × Directives × SystemTime)
  | .note uri headers secure now =>
      (asserted uri headers secure).map fun (domain, directives) => (domain, directives, now)
  | .upgrade _ _ => none

/-- The host an upgrade looks up: that of an `http` URI, not an address. -/
def lookedUp (uri : Uri) : Option Text :=
  if uri.scheme = some .http then uri.host.filter fun host => !isIpLiteral host else none

def Call.lookup : Call → Option (Text × SystemTime)
  | .note _ _ _ _ => none
  | .upgrade uri now => (lookedUp uri).map fun host => (host, now)

def Call.names (c : Call) : List Text :=
  (c.accepted.map Prod.fst).toList ++ ((c.lookup.map fun l => candidateDomains l.1).getD [])

/-! ## The abstract policy set -/

structure Policy where
  expiresAt : SystemTime
  includeSubdomains : Bool

abbrev Policies := Text → Option Policy

def Policy.entry (p : Policy) (domain : Text) : Entry := ⟨domain, p.expiresAt, p.includeSubdomains⟩

def policyAsserted (directives : Directives) (now : SystemTime) : Option Policy :=
  if directives.maxAge = 0 then none
  else some ⟨expiryOf now directives.maxAge, directives.includeSubdomains⟩

/-- What a lookup forgets: a policy it was handed whose kept expiry has passed. A name of no
length is never handed out. -/
def forgets (domains : List Text) (now : SystemTime) (domain : Text) (p : Policy) : Bool :=
  domain ∈ domains ∧ domain ≠ [] ∧ keptExpiry p.expiresAt ≤ now

def Policies.evict (P : Policies) (domains : List Text) (now : SystemTime) : Policies :=
  fun domain => (P domain).filter fun p => !forgets domains now domain p

def Call.onPolicies (c : Call) (P : Policies) : Policies :=
  match c.accepted, c.lookup with
  | some (domain, directives, now), _ =>
      Function.update P domain (policyAsserted directives now)
  | none, some (host, now) => P.evict (candidateDomains host) now
  | none, none => P

/-! ## The store represents the policy set -/

/-- Under the key of each of the names stand its policy's bytes and nothing else. -/
def Represents (names : Set Text) (kv : Memory) (P : Policies) : Prop :=
  ∀ d ∈ names, kv.slots ns (reverseLabels d) =
    (P d).toList.map fun p => ⟨encode (p.entry d), none⟩

/-- What a lookup is handed for one name. -/
def readBack (P : Policies) (domain : Text) : Option Entry :=
  (P domain).bind fun p =>
    if domain = [] then none else some ⟨domain, keptExpiry p.expiresAt, p.includeSubdomains⟩

theorem represents_new (names : Set Text) : Represents names MemoryStore.new fun _ => none :=
  fun _ _ => rfl

variable {P : Policies} {names : Set Text}

theorem readOne_represents {kv : Memory}
    (h : Represents names kv P) {d : Text} (member : d ∈ names) (now : SystemTime) :
    kv.readOne ns (reverseLabels d) now = (P d).toList.map fun p => encode (p.entry d) := by
  rw [MemoryStore.readOne, h d member]
  cases P d <;> simp [Slot.isLive]

theorem get_represents {kv : Memory}
    (h : Represents names kv P) {domains : List Text} (members : ∀ d ∈ domains, d ∈ names) :
    (KvStore.get domains).runWith KvCall.handle kv = (domains.filterMap (readBack P), kv) := by
  have answer : (kv.getMany ns (domains.map reverseLabels) SystemTime.unixEpoch).flatten.filterMap
      decode = domains.filterMap (readBack P) := by
    induction domains with
    | nil => rfl
    | cons d domains ih =>
        have rest := ih fun x hx => members x (List.mem_cons_of_mem d hx)
        simp only [MemoryStore.getMany, List.map_cons, List.flatten_cons,
          List.filterMap_append] at rest ⊢
        rw [rest, readOne_represents h (members d (by simp))]
        cases hp : P d with
        | none => simp [readBack, hp]
        | some p =>
            by_cases empty : d = [] <;>
              simp [readBack, hp, empty, decode_encode, Policy.entry]
  exact Prod.ext answer rfl

theorem put_represents (apart : names.InjOn reverseLabels) {kv : Memory}
    (h : Represents names kv P) {domain : Text} (member : domain ∈ names)
    (p : Policy) :
    Represents names ((KvStore.put (p.entry domain)).runWith KvCall.handle kv).2
      (Function.update P domain (some p)) := by
  intro d hd
  change ((kv.remove ns (reverseLabels domain)).put ns (reverseLabels domain)
    (encode (p.entry domain)) none SystemTime.unixEpoch).slots ns (reverseLabels d) = _
  rw [MemoryStore.slots_put]
  by_cases same : d = domain
  · subst same
    simp [MemoryStore.slots_remove]
  · have key : reverseLabels d ≠ reverseLabels domain := fun e => same (apart hd member e)
    rw [if_neg key, MemoryStore.slots_remove, if_neg key, h d hd, Function.update_of_ne same]

theorem remove_represents (apart : names.InjOn reverseLabels) {kv : Memory}
    (h : Represents names kv P) {domain : Text} (member : domain ∈ names) :
    Represents names ((KvStore.remove domain).runWith KvCall.handle kv).2
      (Function.update P domain none) := by
  intro d hd
  change (kv.remove ns (reverseLabels domain)).slots ns (reverseLabels d) = _
  rw [MemoryStore.slots_remove]
  by_cases same : d = domain
  · subst same
    simp
  · have key : reverseLabels d ≠ reverseLabels domain := fun e => same (apart hd member e)
    rw [if_neg key, h d hd, Function.update_of_ne same]

theorem removeAll_represents (apart : names.InjOn reverseLabels)
    {kv : Memory} (h : Represents names kv P) {domains : List Text}
    (members : ∀ d ∈ domains, d ∈ names) :
    Represents names ((removeAll domains).runWith KvCall.handle kv).2
      fun d => if d ∈ domains then none else P d := by
  induction domains generalizing kv P with
  | nil => exact fun d hd => by simpa [removeAll] using h d hd
  | cons domain domains ih =>
      have first := remove_represents apart h (members domain (by simp))
      have rest := ih first fun d hd => members d (List.mem_cons_of_mem _ hd)
      simp only [removeAll, Program.bind_eq, Program.runWith_bind]
      convert rest using 2 with d
      by_cases same : d = domain <;> simp [same]

/-- The domains a lookup evicts are those the policy set forgets. -/
theorem mem_expiredDomains {domains : List Text} {now : SystemTime} {d : Text} :
    d ∈ expiredDomains (domains.filterMap (readBack P)) now ↔
      ∃ p, P d = some p ∧ forgets domains now d p := by
  simp only [expiredDomains, List.mem_map, List.mem_filter, List.mem_filterMap, readBack,
    Option.bind_eq_some_iff, forgets, decide_eq_true_eq]
  constructor
  · rintro ⟨entry, ⟨⟨d', member, p, hp, read⟩, expired⟩, rfl⟩
    split at read
    · cases read
    · rename_i nonempty
      cases read
      exact ⟨p, hp, member, nonempty, expired⟩
  · rintro ⟨p, hp, member, nonempty, expired⟩
    exact ⟨⟨d, keptExpiry p.expiresAt, p.includeSubdomains⟩,
      ⟨⟨d, member, p, hp, by rw [if_neg nonempty]⟩, expired⟩, rfl⟩

theorem evict_eq (P : Policies) (domains : List Text) (now : SystemTime) :
    (fun d => if d ∈ expiredDomains (domains.filterMap (readBack P)) now then none else P d) =
      P.evict domains now := by
  funext d
  rw [Policies.evict]
  cases hp : P d with
  | none => simp
  | some p =>
      cases gone : forgets domains now d p <;>
        simp [mem_expiredDomains, hp, gone, Option.filter]

/-- A lookup answers from the policy set and leaves the store representing what is left. -/
theorem isKnown_represents (apart : names.InjOn reverseLabels) {kv : Memory}
    (h : Represents names kv P) {host : Text} (now : SystemTime)
    (members : ∀ d ∈ candidateDomains host, d ∈ names) :
    ((isKnown host now).runWith KvCall.handle kv).1 =
        isCovered (candidateDomains host) ((candidateDomains host).filterMap (readBack P)) now ∧
      Represents names ((isKnown host now).runWith KvCall.handle kv).2
        (P.evict (candidateDomains host) now) := by
  simp only [isKnown, Program.bind_eq, Program.runWith_bind, get_represents h members,
    Program.pure_eq, Program.runWith_done, true_and]
  rw [← evict_eq]
  refine removeAll_represents apart h fun d hd => ?_
  obtain ⟨p, -, gone⟩ := mem_expiredDomains.mp hd
  simp only [forgets, decide_eq_true_eq] at gone
  exact members d gone.1

theorem upgrade_eq (uri : Uri) (now : SystemTime) :
    upgrade uri now =
      match lookedUp uri with
      | none => pure none
      | some host => (isKnown host now).bind fun known =>
          if known then pure (upgraded uri) else pure none := by
  unfold upgrade lookedUp
  by_cases http : uri.scheme = some .http
  · cases named : uri.host with
    | none => simp [http]
    | some host => cases ip : isIpLiteral host <;> simp [http, Option.filter, ip]
  · simp [http]

theorem run_represents (apart : names.InjOn reverseLabels) {kv : Memory}
    (h : Represents names kv P) (c : Call) (members : ∀ d ∈ c.names, d ∈ names) :
    Represents names (c.run kv) (c.onPolicies P) := by
  cases c with
  | note uri headers secure now =>
      cases ha : asserted uri headers secure with
      | none => simpa [Call.run, note, Call.onPolicies, Call.accepted, Call.lookup, ha] using h
      | some pair =>
          obtain ⟨domain, directives⟩ := pair
          have member : domain ∈ names := members _ (by simp [Call.names, Call.accepted, ha])
          simp only [Call.run, note, ha, Call.onPolicies, Call.accepted, Option.map_some,
            policyAsserted]
          split
          · exact remove_represents apart h member
          · exact put_represents apart h member ⟨expiryOf now directives.maxAge, _⟩
  | upgrade uri now =>
      cases hl : lookedUp uri with
      | none =>
          simpa [Call.run, upgrade_eq, Call.onPolicies, Call.accepted, Call.lookup, hl] using h
      | some host =>
          have inside : ∀ d ∈ candidateDomains host, d ∈ names := fun d hd =>
            members d (by simp [Call.names, Call.accepted, Call.lookup, hl, hd])
          simp only [Call.run, upgrade_eq, hl, Call.onPolicies, Call.accepted, Call.lookup,
            Option.map_some, Program.runWith_bind]
          split <;> exact (isKnown_represents apart h now inside).2

theorem runAll_represents (apart : names.InjOn reverseLabels)
    (calls : List Call) {kv : Memory} (h : Represents names kv P)
    (members : ∀ c ∈ calls, ∀ d ∈ c.names, d ∈ names) :
    Represents names (runAll calls kv) (calls.foldl (fun P c => c.onPolicies P) P) := by
  induction calls generalizing kv P with
  | nil => exact h
  | cons c calls ih =>
      exact ih (run_represents apart h c (members c (by simp)))
        fun c' hc => members c' (List.mem_cons_of_mem c hc)

end HClient.Hsts
