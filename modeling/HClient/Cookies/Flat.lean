import HClient.Cookies.Contents
import HClient.Cookies.Scope
import HClient.Core.Sort
import HClient.Effect.Machine

/-!
# The jar as a list of cookies

RFC 6265bis' storage model without domains to look under and without an eviction: a list of
cookies in the order they came, scanned in full for each request. A jar over the in-memory
store answers as the list does.
-/
namespace HClient.Cookies

open Effect Machine CookieJar

/-- The cookie's path is the request's, or a prefix of it at a segment boundary. -/
def PathCovers (cookiePath requestPath : Text) : Prop :=
  requestPath = cookiePath ∨ ∃ rest, requestPath = cookiePath ++ rest ∧
    (cookiePath.getLast? = some '/' ∨ rest.head? = some '/')

theorem pathMatches_iff (requestPath cookiePath : Text) :
    pathMatches requestPath cookiePath = true ↔ PathCovers cookiePath requestPath := by
  unfold pathMatches PathCovers
  by_cases same : requestPath = cookiePath
  · simp [same]
  rw [if_neg same]
  by_cases start : cookiePath <+: requestPath
  · obtain ⟨rest, rfl⟩ := start
    have found : Text.stripPrefix cookiePath (cookiePath ++ rest) = some rest := by
      simp [Text.stripPrefix]
    simp [found, same]
  · have missing : Text.stripPrefix cookiePath requestPath = none := by
      simpa [Text.stripPrefix] using start
    simp only [missing, same, false_or, Bool.false_eq_true, false_iff]
    intro h
    obtain ⟨rest, split, -⟩ := h
    exact start ⟨rest, split.symm⟩

instance (domain host : Text) : Decidable (Covers domain host) :=
  decidable_of_iff _ (domainMatches_iff host domain)

instance (cookiePath requestPath : Text) : Decidable (PathCovers cookiePath requestPath) :=
  decidable_of_iff _ (pathMatches_iff requestPath cookiePath)

/-- The cookie goes with a request. -/
structure Sent (host path : Text) (secure : Bool) (now : SystemTime) (c : Cookie) : Prop where
  unexpired : c.isExpired now = false
  host : if c.hostOnly then host = c.domain else Covers c.domain host
  path : PathCovers c.path path
  secure : c.secure = true → secure = true

theorem applies_iff {host path : Text} {secure : Bool} {now : SystemTime} {c : Cookie} :
    applies host path secure now c = true ↔ Sent host path secure now c := by
  have parts : applies host path secure now c = true ↔
      ((c.isExpired now = false ∧
        (if c.hostOnly then decide (host = c.domain) else domainMatches host c.domain) = true) ∧
          pathMatches path c.path = true) ∧ (c.secure = true → secure = true) := by
    cases marked : c.secure <;> simp [applies, marked, and_assoc]
  have hosts : (if c.hostOnly then decide (host = c.domain) else domainMatches host c.domain) =
      true ↔ if c.hostOnly then host = c.domain else Covers c.domain host := by
    rw [← domainMatches_iff]
    split <;> simp
  rw [parts, hosts, pathMatches_iff]
  exact ⟨fun h => ⟨h.1.1.1, h.1.1.2, h.1.2, h.2⟩, fun h => ⟨⟨⟨h.1, h.2⟩, h.3⟩, h.4⟩⟩

instance (host path : Text) (secure : Bool) (now : SystemTime) (c : Cookie) :
    Decidable (Sent host path secure now c) := decidable_of_iff _ applies_iff

/-- The cookies there are, earlier insertions first. -/
abbrev Flat := List Cookie

namespace Flat

/-- Expired cookies are no longer there. -/
def evict (now : SystemTime) (l : Flat) : Flat := l.filter fun c => !c.isExpired now

/-- A cookie in the place of the one with its key, or behind all others. -/
def putIn (cookie : Cookie) (l : Flat) : Flat :=
  if ∃ c ∈ l, CookieKey.of c = CookieKey.of cookie then l.map (Held.replacing cookie)
  else l ++ [cookie]

/-- A cookie arrives: it replaces the one with its key, of which a `Set-Cookie` keeps the
creation time. -/
def arrive (arrival : Arrival) (cookie : Cookie) (now : SystemTime) (l : Flat) : Flat :=
  let there := evict now l
  match there.find? fun c => CookieKey.of c = CookieKey.of cookie with
  | some old => evict now (putIn (arrival.settle old cookie) there)
  | none => evict now (putIn cookie there)

/-- Longer paths first, then earlier creation. -/
def before (a b : Cookie) : Bool :=
  byteLen b.path < byteLen a.path ∨ (byteLen a.path = byteLen b.path ∧ a.creation ≤ b.creation)

/-- The scan for a request; what is tied keeps its order. -/
def matching (uri : Uri) (now : SystemTime) (l : Flat) : List Cookie :=
  match canonicalHost uri with
  | none => []
  | some host =>
      (l.filter fun c => Sent host (requestPath uri) (isSecureRequest uri) now c).mergeSort before

def touch (keys : List CookieKey) (now : SystemTime) (l : Flat) : Flat :=
  l.map (Held.touched keys now)

end Flat

/-- The operations of a jar, one after another. -/
inductive JarOp where
  | store (uri : Uri) (setCookie : HeaderValue) (now : SystemTime)
  | restore (record : CookieRecord) (now : SystemTime)
  | cookieHeader (uri : Uri) (now : SystemTime)

def JarOp.now : JarOp → SystemTime
  | .store _ _ now | .restore _ now | .cookieHeader _ now => now

/-- The cookie an operation brings, if it is not refused. -/
def JarOp.arriving (jar : CookieJar) : JarOp → Option (Arrival × Cookie)
  | .store uri setCookie now =>
      (jar.prepare uri setCookie now).toOption.map fun cookie => (.setCookie, cookie)
  | .restore record now =>
      ((jar.readRecord record now).toOption.bind id).map fun cookie => (.record, cookie)
  | .cookieHeader .. => none

def JarOp.body (jar : CookieJar) : JarOp → Script Unit
  | .store uri setCookie now => (jar.store uri setCookie now).bind fun _ => pure ()
  | .restore record now => (jar.restore record now).bind fun _ => pure ()
  | .cookieHeader uri now => (CookieJar.cookieHeader uri now).bind fun _ => pure ()

/-- A cookie without its place in the jar's own count. -/
def plain (c : Cookie) : Cookie := { c with seq := 0 }

/-- What an operation does to the list. -/
def Flat.step (jar : CookieJar) (l : Flat) (op : JarOp) : Flat :=
  match op.arriving jar with
  | some (arrival, cookie) => l.arrive arrival (plain cookie) op.now
  | none =>
      match op with
      | .cookieHeader uri now => l.touch ((l.matching uri now).map CookieKey.of) now
      | _ => l

/-- A jar and the list beside it, and the time they have come to. -/
structure Beside where
  jar : JarState
  flat : Flat
  clock : SystemTime

def Beside.start (clock : SystemTime) : Beside := ⟨JarState.new, [], clock⟩

section
variable (jar : CookieJar) (capacity : Capacity)

def onJar {α : Type} (p : Script α) (s : JarState) : α × JarState :=
  p.runWith (MemoryStore.handle capacity) s

/-- An operation on both; time does not go back. -/
def operate : Machine Beside JarOp := fun s op =>
  if s.clock ≤ op.now then
    some ⟨(onJar capacity (op.body jar) s.jar).2, s.flat.step jar op, op.now⟩
  else none

end

/-- The store stays below its bounds. -/
def BelowBounds (capacity : Capacity) (s : Beside) (_ : JarOp) : Prop :=
  s.jar.store.Roomy capacity

/-- No cookie arrives while one of its key is held that has expired. -/
def NoneOutlived (jar : CookieJar) (s : Beside) (op : JarOp) : Prop :=
  ∀ arriving ∈ op.arriving jar, ∀ c ∈ s.jar.store.under arriving.2.domain,
    CookieKey.of c = CookieKey.of arriving.2 → c.isExpired op.now = false

instance (capacity : Capacity) (s : Beside) (op : JarOp) :
    Decidable (BelowBounds capacity s op) :=
  inferInstanceAs (Decidable (s.jar.store.Roomy capacity))

instance (jar : CookieJar) (s : Beside) (op : JarOp) : Decidable (NoneOutlived jar s op) :=
  inferInstanceAs (Decidable (∀ arriving ∈ op.arriving jar,
    ∀ c ∈ s.jar.store.under arriving.2.domain,
      CookieKey.of c = CookieKey.of arriving.2 → c.isExpired op.now = false))

/-- The list, with the jar's places, is what the jar holds that has not expired. -/
structure Represents (s : JarState) (l : Flat) (clock : SystemTime) : Prop where
  wellFormed : s.store.WellFormed
  mem : ∀ c, c ∈ l ↔ c ∈ s.store.under c.domain ∧ c.isExpired clock = false
  placed : l.Pairwise fun a b => a.seq < b.seq
  drawn : ∀ c ∈ l, c.seq < s.nextSeq

theorem isExpired_mono {c : Cookie} {now later : SystemTime} (le : now ≤ later)
    (lives : c.isExpired later = false) : c.isExpired now = false := by
  unfold Cookie.isExpired at lives ⊢
  split at lives
  next e _ =>
    have after := of_decide_eq_false lives
    exact decide_eq_false fun before => after (SystemTime.le_trans before le)
  next => rfl

section
variable {s : JarState} {l : Flat} {clock now : SystemTime}

theorem represents_new (clock : SystemTime) : Represents JarState.new [] clock := by
  refine ⟨Held.wellFormed_new, fun c => ⟨fun member => absurd member List.not_mem_nil,
    fun h => ?_⟩, .nil, fun c member => absurd member List.not_mem_nil⟩
  exact absurd ⟨c.domain, h.1⟩ (Held.not_holds_new c)

/-- What two members have of one key they are. -/
theorem Represents.eq_of_key (rep : Represents s l clock) {c d : Cookie} (mem_c : c ∈ l)
    (mem_d : d ∈ l) (same : CookieKey.of c = CookieKey.of d) : c = d :=
  rep.wellFormed.eq_of_key ((rep.mem c).mp mem_c).1 ((rep.mem d).mp mem_d).1 same

theorem Represents.nodup (rep : Represents s l clock) : l.Nodup :=
  rep.placed.imp fun lt same => absurd (same ▸ lt) (Nat.lt_irrefl _)

theorem Represents.keys (rep : Represents s l clock) : (l.map CookieKey.of).Nodup :=
  rep.nodup.map_on fun _ mem_c _ mem_d same => rep.eq_of_key mem_c mem_d same

theorem Represents.evict (rep : Represents s l clock) (le : clock ≤ now) :
    Represents s (Flat.evict now l) now := by
  refine ⟨rep.wellFormed, fun c => ?_, rep.placed.filter _, fun c member => ?_⟩
  · unfold Flat.evict
    rw [List.mem_filter, rep.mem, Bool.not_eq_true', and_assoc]
    exact and_congr_right fun _ => ⟨fun h => h.2, fun h => ⟨isExpired_mono le h, h⟩⟩
  · exact rep.drawn c (List.mem_of_mem_filter member)

theorem placed_putIn {cookie : Cookie} (placed : l.Pairwise fun a b => a.seq < b.seq)
    (kept : ∀ c ∈ l, CookieKey.of c = CookieKey.of cookie → c.seq = cookie.seq)
    (fresh : (¬ ∃ c ∈ l, CookieKey.of c = CookieKey.of cookie) → ∀ c ∈ l, c.seq < cookie.seq) :
    (Flat.putIn cookie l).Pairwise fun a b => a.seq < b.seq := by
  unfold Flat.putIn
  split
  · have seqs : ∀ c ∈ l, (Held.replacing cookie c).seq = c.seq := by
      intro c member
      unfold Held.replacing
      split
      next same => exact (kept c member same).symm
      next => rfl
    rw [List.pairwise_map]
    exact placed.imp_of_mem fun mem_a mem_b lt => by rw [seqs _ mem_a, seqs _ mem_b]; exact lt
  next absent =>
    rw [List.pairwise_append]
    refine ⟨placed, List.pairwise_singleton _ _, fun c member d single => ?_⟩
    rw [List.mem_singleton.mp single]
    exact fresh absent c member

theorem mem_putIn {cookie x : Cookie} : x ∈ Flat.putIn cookie l ↔
    (x ∈ l ∧ CookieKey.of x ≠ CookieKey.of cookie) ∨ x = cookie := by
  unfold Flat.putIn
  split
  next held => simp [Held.mem_map_replacing, held]
  next absent =>
    have differ : x ∈ l → CookieKey.of x ≠ CookieKey.of cookie :=
      fun member same => absent ⟨x, member, same⟩
    rw [List.mem_append, List.mem_singleton]
    exact or_congr_left ⟨fun member => ⟨member, differ member⟩, And.left⟩

/-- What `put` does to the store, `putIn` does to the list. -/
theorem Represents.put {capacity : Capacity} {cookie : Cookie} {nextSeq : Nat}
    (rep : Represents s l now) (roomy : s.store.Roomy capacity)
    (kept : ∀ c ∈ l, CookieKey.of c = CookieKey.of cookie → c.seq = cookie.seq)
    (fresh : (¬ ∃ c ∈ l, CookieKey.of c = CookieKey.of cookie) → s.nextSeq ≤ cookie.seq)
    (counted : cookie.seq < nextSeq) (grows : s.nextSeq ≤ nextSeq) :
    Represents ⟨s.store.put capacity cookie now, nextSeq⟩
      (Flat.evict now (Flat.putIn cookie l)) now := by
  refine ⟨Held.wellFormed_put rep.wellFormed, fun x => ?_, ?_, fun x member => ?_⟩
  · have alive : ∀ y ∈ l, y.isExpired now = false := fun y member => ((rep.mem y).mp member).2
    rw [Held.mem_put rep.wellFormed roomy]
    unfold Flat.evict
    rw [List.mem_filter, mem_putIn, Bool.not_eq_true']
    constructor
    · intro h
      obtain ⟨⟨member, differ⟩ | rfl, lives⟩ := h
      · exact ⟨.inl ⟨((rep.mem x).mp member).1, lives, differ⟩, lives⟩
      · exact ⟨.inr ⟨rfl, rfl, lives⟩, lives⟩
    · intro h
      obtain ⟨⟨member, -, differ⟩ | ⟨-, same, -⟩, lives⟩ := h
      · exact ⟨.inl ⟨(rep.mem x).mpr ⟨member, lives⟩, differ⟩, lives⟩
      · exact ⟨.inr same, lives⟩
  · refine (placed_putIn rep.placed kept fun absent c member => ?_).filter _
    exact Nat.lt_of_lt_of_le (rep.drawn c member) (fresh absent)
  · obtain ⟨member, -⟩ | rfl := mem_putIn.mp (List.mem_of_mem_filter member)
    · exact Nat.lt_of_lt_of_le (rep.drawn x member) grows
    · exact counted

theorem evict_plain (now : SystemTime) (l : Flat) :
    (Flat.evict now l).map plain = Flat.evict now (l.map plain) := by
  unfold Flat.evict
  rw [List.filter_map]
  rfl

theorem putIn_plain (cookie : Cookie) (l : Flat) :
    (Flat.putIn cookie l).map plain = Flat.putIn (plain cookie) (l.map plain) := by
  have held : (∃ c ∈ l.map plain, CookieKey.of c = CookieKey.of (plain cookie)) ↔
      ∃ c ∈ l, CookieKey.of c = CookieKey.of cookie := by
    constructor
    · intro h
      obtain ⟨c, member, same⟩ := h
      obtain ⟨d, there, rfl⟩ := List.mem_map.mp member
      exact ⟨d, there, same⟩
    · intro h
      obtain ⟨c, member, same⟩ := h
      exact ⟨plain c, List.mem_map_of_mem member, same⟩
  unfold Flat.putIn
  simp only [held]
  split
  · rw [List.map_map, List.map_map]
    refine List.map_congr_left fun c _ => ?_
    by_cases same : CookieKey.of c = CookieKey.of cookie
    · have same' : CookieKey.of (plain c) = CookieKey.of (plain cookie) := same
      simp [Held.replacing, same, same']
    · have differ : ¬ CookieKey.of (plain c) = CookieKey.of (plain cookie) := same
      simp [Held.replacing, same, differ]
  · simp

theorem settle_plain (arrival : Arrival) (old cookie : Cookie) (seq : Nat) :
    plain { arrival.settle old cookie with seq } =
      arrival.settle (plain old) (plain cookie) := by
  cases arrival <;> rfl

theorem key_settle (arrival : Arrival) (old cookie : Cookie) (seq : Nat) :
    CookieKey.of { arrival.settle old cookie with seq } = CookieKey.of cookie := by
  cases arrival <;> rfl

theorem insertAs_run (capacity : Capacity) (arrival : Arrival) (cookie : Cookie)
    (now : SystemTime) (s : JarState) : (onJar capacity (insertAs arrival cookie now) s).2 =
      match (s.store.get [cookie.domain]).find?
          fun c => CookieKey.of c = CookieKey.of cookie with
      | some old =>
          ⟨s.store.put capacity { arrival.settle old cookie with seq := old.seq } now, s.nextSeq⟩
      | none => ⟨s.store.put capacity { cookie with seq := s.nextSeq } now, s.nextSeq + 1⟩ := by
  have asked : onJar capacity (insertAs arrival cookie now) s =
      (match (s.store.get [cookie.domain]).find?
          fun c => CookieKey.of c = CookieKey.of cookie with
        | some old => ask (.put { arrival.settle old cookie with seq := old.seq } now)
        | none => (ask .nextSeq).bind fun (seq : Nat) =>
            ask (.put { cookie with seq } now) : Script Unit).runWith
        (MemoryStore.handle capacity) s := rfl
  rw [asked]
  split <;> rfl

/-- The jar finds the cookie to replace that the list finds. -/
theorem Represents.find_eq {cookie : Cookie} (rep : Represents s l now)
    (alive : ∀ c ∈ s.store.under cookie.domain, CookieKey.of c = CookieKey.of cookie →
      c.isExpired now = false) :
    (s.store.get [cookie.domain]).find? (fun c => CookieKey.of c = CookieKey.of cookie) =
      l.find? fun c => CookieKey.of c = CookieKey.of cookie := by
  have domain : ∀ c, CookieKey.of c = CookieKey.of cookie → c.domain = cookie.domain :=
    fun c same => congrArg CookieKey.domain same
  cases found : l.find? fun c => CookieKey.of c = CookieKey.of cookie with
  | none =>
      rw [List.find?_eq_none] at found ⊢
      intro c member same
      obtain ⟨d, single, under⟩ := Held.mem_get.mp member
      rw [List.mem_singleton.mp single] at under
      have same' : CookieKey.of c = CookieKey.of cookie := of_decide_eq_true same
      refine found c ((rep.mem c).mpr ⟨?_, alive c under same'⟩) same
      rw [domain c same']
      exact under
  | some old =>
      have key : CookieKey.of old = CookieKey.of cookie := of_decide_eq_true (List.find?_some found :)
      have member := ((rep.mem old).mp (List.mem_of_find?_eq_some found)).1
      rw [domain old key] at member
      have held : old ∈ s.store.get [cookie.domain] :=
        Held.mem_get.mpr ⟨cookie.domain, List.mem_singleton_self _, member⟩
      cases other : (s.store.get [cookie.domain]).find?
          fun c => CookieKey.of c = CookieKey.of cookie with
      | none => exact absurd (decide_eq_true key) (List.find?_eq_none.mp other old held)
      | some old' =>
          have key' : CookieKey.of old' = CookieKey.of cookie :=
            of_decide_eq_true (List.find?_some other :)
          obtain ⟨d, -, under⟩ := Held.mem_get.mp (List.mem_of_find?_eq_some other)
          rw [rep.wellFormed.eq_of_key under member (key'.trans key.symm)]

/-- A cookie arrives at the jar as it arrives at the list, where none of its key has outlived
its expiry in the store. -/
theorem Represents.insertAs {capacity : Capacity} {cookie : Cookie} (arrival : Arrival)
    (rep : Represents s l clock) (le : clock ≤ now) (roomy : s.store.Roomy capacity)
    (alive : ∀ c ∈ s.store.under cookie.domain, CookieKey.of c = CookieKey.of cookie →
      c.isExpired now = false) :
    ∃ l', Represents (onJar capacity (CookieJar.insertAs arrival cookie now) s).2 l' now ∧
      l'.map plain = Flat.arrive arrival (plain cookie) now (l.map plain) := by
  have there := rep.evict le
  have first_plain : (Flat.evict now (l.map plain)).find?
      (fun c => CookieKey.of c = CookieKey.of (plain cookie)) =
        ((Flat.evict now l).find? fun c => CookieKey.of c = CookieKey.of cookie).map plain := by
    rw [← evict_plain, List.find?_map]
    rfl
  rw [insertAs_run, there.find_eq alive]
  unfold Flat.arrive
  simp only [first_plain]
  cases found : (Flat.evict now l).find? fun c => CookieKey.of c = CookieKey.of cookie with
  | none =>
      have absent := List.find?_eq_none.mp found
      refine ⟨_, there.put roomy (fun c member same => ?_) (fun _ => Nat.le_refl _)
        (Nat.lt_succ_self _) (Nat.le_succ _), ?_⟩
      · exact absurd (decide_eq_true same) (absent c member)
      · rw [evict_plain, putIn_plain, evict_plain]
        rfl
  | some old =>
      have key : CookieKey.of old = CookieKey.of cookie := of_decide_eq_true (List.find?_some found :)
      have member := List.mem_of_find?_eq_some found
      refine ⟨_, there.put roomy (fun c here same => ?_) (fun absent => ?_)
        (there.drawn old member) (Nat.le_refl _), ?_⟩
      · rw [key_settle] at same
        rw [there.eq_of_key here member (same.trans key.symm)]
      · exact absurd ⟨old, member, by rw [key_settle, key]⟩ absent
      · rw [evict_plain, putIn_plain, evict_plain, settle_plain]
        rfl

theorem evict_evict (le : clock ≤ now) (f : Flat) :
    Flat.evict now (Flat.evict clock f) = Flat.evict now f := by
  unfold Flat.evict
  rw [List.filter_filter]
  refine List.filter_congr fun c _ => ?_
  cases later : c.isExpired now with
  | true => rfl
  | false => simp [isExpired_mono le later]

theorem arrive_evict (le : clock ≤ now) (arrival : Arrival) (cookie : Cookie) (f : Flat) :
    Flat.arrive arrival cookie now (Flat.evict clock f) = Flat.arrive arrival cookie now f := by
  unfold Flat.arrive
  rw [evict_evict le]

theorem evict_arrive (arrival : Arrival) (cookie : Cookie) (f : Flat) :
    Flat.evict now (Flat.arrive arrival cookie now f) = Flat.arrive arrival cookie now f := by
  unfold Flat.arrive
  simp only
  split <;> exact evict_evict (SystemTime.le_refl now) _

theorem isExpired_touched (keys : List CookieKey) (at' : SystemTime) (c : Cookie) :
    (Held.touched keys at' c).isExpired now = c.isExpired now := by
  unfold Held.touched
  split <;> rfl

theorem evict_touch (keys : List CookieKey) (at' : SystemTime) (f : Flat) :
    Flat.evict now (Flat.touch keys at' f) = Flat.touch keys at' (Flat.evict now f) := by
  unfold Flat.evict Flat.touch
  rw [List.filter_map]
  congr 1
  refine List.filter_congr fun c _ => ?_
  rw [Function.comp_apply, isExpired_touched]

theorem seq_touched (keys : List CookieKey) (at' : SystemTime) (c : Cookie) :
    (Held.touched keys at' c).seq = c.seq := by
  unfold Held.touched
  split <;> rfl

theorem domain_touched (keys : List CookieKey) (at' : SystemTime) (c : Cookie) :
    (Held.touched keys at' c).domain = c.domain :=
  congrArg CookieKey.domain (Held.key_touched keys at' c)

theorem Represents.touch (rep : Represents s l clock) (keys : List CookieKey) :
    Represents { s with store := s.store.touch keys now } (Flat.touch keys now l) clock := by
  refine ⟨Held.wellFormed_touch rep.wellFormed keys, fun c => ?_, ?_, fun c member => ?_⟩
  · rw [Held.under_touch rep.wellFormed.domains]
    unfold Flat.touch
    constructor
    · intro member
      obtain ⟨d, there, rfl⟩ := List.mem_map.mp member
      obtain ⟨held, lives⟩ := (rep.mem d).mp there
      rw [domain_touched, isExpired_touched]
      exact ⟨List.mem_map_of_mem held, lives⟩
    · intro h
      obtain ⟨member, lives⟩ := h
      obtain ⟨d, held, rfl⟩ := List.mem_map.mp member
      rw [domain_touched] at held
      rw [isExpired_touched] at lives
      exact List.mem_map_of_mem ((rep.mem d).mpr ⟨held, lives⟩)
  · refine List.pairwise_map.mpr (rep.placed.imp fun lt => ?_)
    rw [seq_touched, seq_touched]
    exact lt
  · obtain ⟨d, there, rfl⟩ := List.mem_map.mp member
    rw [seq_touched]
    exact rep.drawn d there

theorem touch_plain (keys : List CookieKey) (at' : SystemTime) (l : Flat) :
    (Flat.touch keys at' l).map plain = Flat.touch keys at' (l.map plain) := by
  unfold Flat.touch
  rw [List.map_map, List.map_map]
  refine List.map_congr_left fun c _ => ?_
  by_cases listed : CookieKey.of c ∈ keys
  · have listed' : CookieKey.of (plain c) ∈ keys := listed
    rw [Function.comp_apply, Function.comp_apply, Held.touched, Held.touched, if_pos listed,
      if_pos listed']
    rfl
  · have unlisted : CookieKey.of (plain c) ∉ keys := listed
    simp [Held.touched, listed, unlisted]

theorem before_iff {a b : Cookie} : Flat.before a b = true ↔
    byteLen b.path < byteLen a.path ∨
      (byteLen a.path = byteLen b.path ∧ a.creation.nanos ≤ b.creation.nanos) := by
  simp [Flat.before, SystemTime.le_def]

theorem before_trans (a b c : Cookie) (ab : Flat.before a b = true)
    (bc : Flat.before b c = true) : Flat.before a c = true := by
  rw [before_iff] at ab bc ⊢
  omega

theorem before_total (a b : Cookie) : (Flat.before a b || Flat.before b a) = true := by
  rw [Bool.or_eq_true, before_iff, before_iff]
  omega

/-- The jar's order is the list's with the places where that leaves a tie. -/
theorem goesBefore_eq : goesBefore = Sort.lex Flat.before Cookie.seq := by
  funext a b
  have times : a.creation = b.creation ↔ a.creation.nanos = b.creation.nanos :=
    SystemTime.ext_iff
  rw [Bool.eq_iff_iff, Sort.lex_iff, before_iff, before_iff]
  simp only [goesBefore, decide_eq_true_eq, SystemTime.lt_def, times]
  omega

/-- The scan reads no cookie that has expired. -/
theorem matching_evict (le : clock ≤ now) (uri : Uri) (f : Flat) :
    Flat.matching uri now (Flat.evict clock f) = Flat.matching uri now f := by
  unfold Flat.matching Flat.evict
  cases canonicalHost uri with
  | none => rfl
  | some host =>
      simp only [List.filter_filter]
      congr 1
      refine List.filter_congr fun c _ => ?_
      by_cases sent : Sent host (requestPath uri) (isSecureRequest uri) now c
      · simp [sent, isExpired_mono le sent.unexpired]
      · simp [sent]

theorem sent_plain {host path : Text} {secure : Bool} {c : Cookie} :
    Sent host path secure now (plain c) ↔ Sent host path secure now c :=
  ⟨fun h => ⟨h.1, h.2, h.3, h.4⟩, fun h => ⟨h.1, h.2, h.3, h.4⟩⟩

theorem matching_plain (uri : Uri) (l : Flat) :
    (Flat.matching uri now l).map plain = Flat.matching uri now (l.map plain) := by
  unfold Flat.matching
  cases canonicalHost uri with
  | none => rfl
  | some host =>
      simp only
      rw [List.map_mergeSort (r := Flat.before) (s := Flat.before) (f := plain) fun _ _ _ _ => rfl,
        List.filter_map]
      congr 2
      exact List.filter_congr fun c _ => (decide_eq_decide.mpr sent_plain).symm

/-- What the jar finds under the candidate domains and lets pass is what the scan finds. -/
theorem Represents.matching (rep : Represents s l clock) (le : clock ≤ now) (capacity : Capacity)
    (uri : Uri) :
    (onJar capacity (CookieJar.matching uri now) s).1 = Flat.matching uri now l := by
  unfold CookieJar.matching Flat.matching
  cases canonical : canonicalHost uri with
  | none => rfl
  | some host =>
      change ((s.store.get (candidateDomains host)).filter _).mergeSort goesBefore = _
      rw [goesBefore_eq]
      refine Sort.mergeSort_eq_lex before_trans before_total (rep.placed.filter _) ?_
      have held : ((s.store.get (candidateDomains host)).map CookieKey.of).Nodup :=
        Held.nodup_get rep.wellFormed (nodup_candidateDomains host)
      rw [List.perm_ext_iff_of_nodup ((List.Nodup.of_map _ held).filter _) (rep.nodup.filter _)]
      intro c
      rw [List.mem_filter, List.mem_filter, applies_iff, decide_eq_true_eq, rep.mem]
      refine and_congr_left fun sent => ?_
      constructor
      · intro member
        obtain ⟨domain, -, under⟩ := Held.mem_get.mp member
        rw [rep.wellFormed.domains domain c under]
        exact ⟨under, isExpired_mono le sent.unexpired⟩
      · intro h
        refine Held.mem_get.mpr ⟨c.domain, mem_candidateDomains.mpr ?_, h.1⟩
        have hosts := sent.host
        split at hosts
        · exact .inl hosts
        · exact hosts

end

/-- The jar holds what the list does, but for what has expired. -/
def Simulates (s : Beside) : Prop :=
  ∃ l, Represents s.jar l s.clock ∧ l.map plain = Flat.evict s.clock s.flat

/-- A cookie that an operation brings is inserted, and nothing else is done. -/
theorem body_arriving {jar : CookieJar} {capacity : Capacity} {op : JarOp} {arrival : Arrival}
    {cookie : Cookie} (brings : op.arriving jar = some (arrival, cookie)) (s : JarState) :
    (onJar capacity (op.body jar) s).2 =
      (onJar capacity (insertAs arrival cookie op.now) s).2 := by
  cases op with
  | store uri setCookie now =>
      simp only [JarOp.arriving, Option.map_eq_some_iff, Prod.mk.injEq] at brings
      obtain ⟨c, accepted, rfl, rfl⟩ := brings
      cases prepared : jar.prepare uri setCookie now with
      | error e =>
          rw [prepared] at accepted
          cases accepted
      | ok d =>
          rw [prepared] at accepted
          cases accepted
          rw [insertAs_setCookie]
          simp only [onJar, JarOp.body, CookieJar.store, prepared, Program.runWith_bind]
          rfl
  | restore record now =>
      simp only [JarOp.arriving, Option.map_eq_some_iff, Prod.mk.injEq] at brings
      obtain ⟨c, accepted, rfl, rfl⟩ := brings
      cases read : jar.readRecord record now with
      | error e =>
          rw [read] at accepted
          cases accepted
      | ok d =>
          rw [read] at accepted
          cases accepted
          simp only [onJar, JarOp.body, CookieJar.restore, read, Program.runWith_bind]
          rfl
  | cookieHeader uri now => cases brings

/-- A refused cookie and a record that has expired leave the store as it is. -/
theorem body_refused {jar : CookieJar} {capacity : Capacity} {op : JarOp}
    (brings : op.arriving jar = none) (asks : ∀ uri now, op ≠ .cookieHeader uri now)
    (s : JarState) : (onJar capacity (op.body jar) s).2 = s := by
  cases op with
  | store uri setCookie now =>
      cases prepared : jar.prepare uri setCookie now with
      | error e =>
          simp only [onJar, JarOp.body, CookieJar.store, prepared]
          rfl
      | ok d => simp [JarOp.arriving, prepared, Except.toOption] at brings
  | restore record now =>
      cases read : jar.readRecord record now with
      | error e =>
          simp only [onJar, JarOp.body, CookieJar.restore, read]
          rfl
      | ok d =>
          cases d with
          | none =>
              simp only [onJar, JarOp.body, CookieJar.restore, read]
              rfl
          | some cookie => simp [JarOp.arriving, read, Except.toOption] at brings
  | cookieHeader uri now => exact absurd rfl (asks uri now)

/-- What is sent is touched. -/
theorem body_cookieHeader {jar : CookieJar} {capacity : Capacity} (uri : Uri) (now : SystemTime)
    (s : JarState) : (onJar capacity ((JarOp.cookieHeader uri now).body jar) s).2 =
      ⟨s.store.touch ((onJar capacity (matching uri now) s).1.map CookieKey.of) now,
        s.nextSeq⟩ := by
  have reads : (onJar capacity (matching uri now) s).2 = s := by
    unfold onJar CookieJar.matching
    split <;> rfl
  have header : (onJar capacity ((JarOp.cookieHeader uri now).body jar) s).2 =
      (onJar capacity (CookieJar.cookieHeader uri now) s).2 := by
    simp only [onJar, JarOp.body, Program.runWith_bind]
    rfl
  rw [header]
  unfold onJar CookieJar.cookieHeader at *
  rw [Program.runWith_bind, reads]
  generalize ((matching uri now).runWith (MemoryStore.handle capacity) s).1 = matched
  cases matched with
  | nil => rfl
  | cons c rest => rfl

section
variable {jar : CookieJar} {capacity : Capacity}

theorem operate_simulates {s s' : Beside} {op : JarOp}
    (allowed : BelowBounds capacity s op ∧ NoneOutlived jar s op) (simulates : Simulates s)
    (stepped : operate jar capacity s op = some s') : Simulates s' := by
  obtain ⟨le, same⟩ := Option.ite_none_right_eq_some.mp stepped
  cases same
  obtain ⟨roomy, alive⟩ := allowed
  obtain ⟨l, rep, same⟩ := simulates
  have there : Represents s.jar (Flat.evict op.now l) op.now := rep.evict le
  have same_there : (Flat.evict op.now l).map plain = Flat.evict op.now s.flat := by
    rw [evict_plain, same, evict_evict le]
  unfold Simulates Flat.step
  cases brings : op.arriving jar with
  | some arriving =>
      obtain ⟨arrival, cookie⟩ := arriving
      obtain ⟨l', rep', same'⟩ := rep.insertAs arrival le roomy (alive _ brings)
      rw [body_arriving brings]
      refine ⟨l', rep', ?_⟩
      rw [same', same, arrive_evict le]
      exact (evict_arrive _ _ _).symm
  | none =>
      cases op with
      | cookieHeader uri now =>
          have answer : (onJar capacity (matching uri now) s.jar).1 = Flat.matching uri now l :=
            rep.matching le capacity uri
          rw [body_cookieHeader, answer]
          have keys : (Flat.matching uri now s.flat).map CookieKey.of =
              (Flat.matching uri now l).map CookieKey.of := by
            have le : s.clock ≤ now := le
            rw [← matching_evict le, ← same, ← matching_plain, List.map_map]
            rfl
          refine ⟨_, there.touch ((Flat.matching uri now l).map CookieKey.of), ?_⟩
          rw [touch_plain, same_there]
          simp only [keys]
          exact (evict_touch _ _ _).symm
      | store uri setCookie now =>
          rw [body_refused brings fun _ _ same => (by cases same)]
          exact ⟨_, there, same_there⟩
      | restore record now =>
          rw [body_refused brings fun _ _ same => (by cases same)]
          exact ⟨_, there, same_there⟩

/-- Where no bound is reached and no cookie arrives for one that has outlived its expiry in the
store, the jar answers for every request what the list does, each cookie once. -/
theorem lively_run_matching {start : SystemTime} {ops : List JarOp} {s : Beside}
    (below : (operate jar capacity).Always (BelowBounds capacity) (Beside.start start) ops)
    (lively : (operate jar capacity).Always (NoneOutlived jar) (Beside.start start) ops)
    (reached : (operate jar capacity).run (Beside.start start) ops = some s) (uri : Uri)
    (now : SystemTime) (later : s.clock ≤ now) :
    (onJar capacity (matching uri now) s.jar).1.map plain = Flat.matching uri now s.flat ∧
      ((onJar capacity (matching uri now) s.jar).1.map CookieKey.of).Nodup := by
  obtain ⟨l, rep, same⟩ : Simulates s :=
    run_preserves (fun _ _ _ => operate_simulates) (below.and lively)
      ⟨[], represents_new start, rfl⟩ reached
  rw [rep.matching later]
  constructor
  · rw [matching_plain, same, matching_evict later]
  · unfold Flat.matching
    cases canonicalHost uri with
    | none => exact .nil
    | some host =>
        refine ((List.mergeSort_perm _ _).map CookieKey.of).nodup_iff.mpr ?_
        exact rep.keys.sublist (List.filter_sublist.map _)

end

section Example

def aJar : CookieJar := ⟨.default, comList⟩

def instant (seconds : Int) : SystemTime := .fromUnix seconds

def setAt (setCookie : String) (seconds : Int) : JarOp :=
  .store (httpsUri "www.example.com") (.ofAscii setCookie) (instant seconds)

/-- A cookie that lives for five seconds, another one, and the first again. -/
def setAgain (seconds : Int) : List JarOp :=
  [setAt "a=1; Max-Age=5" 0, setAt "x=1" 1, setAt "a=2" seconds]

def besideAfter (ops : List JarOp) : Beside :=
  (operate aJar .default).after (Beside.start .unixEpoch) ops

theorem lively_run_matching_refreshed :
    let s := besideAfter (setAgain 3)
    let answered := (onJar .default (matching (httpsUri "www.example.com") (instant 4)) s.jar).1
    answered.map plain = Flat.matching (httpsUri "www.example.com") (instant 4) s.flat ∧
      (answered.map CookieKey.of).Nodup :=
  lively_run_matching (by decide +kernel) (by decide +kernel) (run_eq_after (by decide +kernel))
    _ _ (by decide +kernel)

/-- The names of two cookies once they are sorted. -/
def sortedNames (le : Cookie → Cookie → Bool) : List Cookie → List Text
  | [c, d] => if le c d then [c.name, d.name] else [d.name, c.name]
  | l => l.map Cookie.name

theorem map_name_mergeSort {le : Cookie → Cookie → Bool} {l : List Cookie} (two : l.length = 2) :
    (l.mergeSort le).map Cookie.name = sortedNames le l := by
  obtain ⟨c, d, rfl⟩ := List.length_eq_two.mp two
  rw [Sort.mergeSort_pair, sortedNames]
  split <;> rfl

/-- A cookie that comes anew after its namesake expired takes the place of that in the jar, since
nothing was stored in between. -/
theorem expired_cookie_keeps_place :
    (operate aJar .default).Always (BelowBounds .default) (Beside.start .unixEpoch)
        (setAgain 10) ∧
    ∃ s, (operate aJar .default).run (Beside.start .unixEpoch) (setAgain 10) = some s ∧
      (onJar .default (matching (httpsUri "www.example.com") (instant 10)) s.jar).1.map
        Cookie.name = ["a".toList, "x".toList] ∧
      (Flat.matching (httpsUri "www.example.com") (instant 10) s.flat).map Cookie.name =
        ["x".toList, "a".toList] := by
  refine ⟨by decide +kernel, _, run_eq_after (by decide +kernel), ?_, ?_⟩
  · exact (map_name_mergeSort (by decide +kernel)).trans (by decide +kernel)
  · exact (map_name_mergeSort (by decide +kernel)).trans (by decide +kernel)

end Example
end HClient.Cookies
