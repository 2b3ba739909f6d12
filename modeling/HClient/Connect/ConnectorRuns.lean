import HClient.Connect.Connector
import HClient.Connect.DriveRuns

/-!
# A connect, whatever it is told

What a connect has been told decides what it may call: which lookups, which addresses under which
record, whose TLS. It is followed through the lookups, the record, the race and the second race.
-/
namespace HClient.Connect.Connector
open Effect
open Native (Error)

variable {S : Type}

/-! ## What a connect has been told -/

/-- What the calls have told; the attempts, the streams and the handshake are those since the
record was given up. -/
structure Known (S : Type) where
  asked : List RecordType
  heard : Family → List Item
  ended : Family → Bool
  clear : Bool
  able : Bool
  records : List Item
  recordsEnded : Bool
  expired : Bool
  givenUp : Bool
  attempts : List SocketAddr
  failures : List SocketAddr
  streams : List S
  handshake : Option (Except Error TlsInfo)

namespace Known

def start : Known S where
  asked := []
  heard := fun _ => []
  ended := fun _ => false
  clear := false
  able := false
  records := []
  recordsEnded := false
  expired := false
  givenUp := false
  attempts := []
  failures := []
  streams := []
  handshake := none

/-- A stream's answer. -/
def hears (k : Known S) (f : Family) : Poll (Option Item) → Known S
  | .ready (some item) => { k with heard := Function.update k.heard f (k.heard f ++ [item]) }
  | .ready none => { k with ended := Function.update k.ended f true }
  | .pending => k

/-- An answer of the lookup of the record. -/
def reads (k : Known S) : Poll (Option Item) → Known S
  | .ready (some item) => { k with records := k.records ++ [item] }
  | .ready none => { k with recordsEnded := true }
  | .pending => k

def opens (k : Known S) : Except Error S → Known S
  | .ok stream => { k with streams := k.streams ++ [stream] }
  | .error _ => k

/-- What a call of the race's own told. -/
def races (k : Known S) (e : Connect.Event S) : Known S :=
  { k with
    attempts := k.attempts ++ attemptOf e
    failures := k.failures ++ failureOf e
    streams := k.streams ++ successOf e }

def givesUp (k : Known S) : Known S :=
  { k with givenUp := true, attempts := [], failures := [], streams := [], handshake := none }

def update (k : Known S) : (op : Op S) → op.Answer → Known S
  | .openExternal _, r => k.opens r
  | .openRules _, r => k.opens r
  | .lookup type, _ => { k with asked := k.asked ++ [type] }
  | .pollStream f, r => k.hears f r
  | .suppressed _ _, marked => { k with clear := !marked }
  | .supportsHttps, able => { k with able := able }
  | .pollRecords, r => k.reads r
  | .record _ _, _ => k.givesUp
  | .sleepFor _, _ => k
  | .pollBound, .ready () => { k with expired := true }
  | .pollBound, .pending => k
  | .pending, _ => k
  | .race op, r => k.races ⟨op, r⟩
  | .tls _ _, r => { k with handshake := some r }

end Known

/-- A connect to a place: who may carry it, and whether the TLS backend applies ECH. -/
structure Context where
  filters : Filters
  appliesEch : Bool
  place : Place
  request : Request

def Context.carried (c : Context) : Bool := (c.filters.carrier c.place.target).isSome

def typeOf : Family → RecordType
  | .v6 => .aaaa
  | .v4 => .a

def addrsOf (f : Family) : Item → List IpAddr
  | .ok record => (record.addrOf f).toList
  | .error _ => []

def ofFamily (f : Family) (addrs : List SocketAddr) : List IpAddr :=
  (addrs.map SocketAddr.ip).filter fun ip => ip.family = f

namespace Known

/-- What is known of the record. -/
def found (k : Known S) (r : Request) : Prefetched :=
  match r.prefetched with
  | .looked endpoint => .looked endpoint
  | .notConsulted => if k.recordsEnded then .looked (chosen k.records) else .notConsulted

/-- The record that is acted on: none under a filter, and none once it was given up. -/
def endpoint (k : Known S) (c : Context) : Option Endpoint :=
  if c.carried || k.givenUp then none else (k.found c.request).actionable

/-- The addresses of a family to be tried: the record's hints and what was heard, in order. -/
def candidates (k : Known S) (c : Context) (f : Family) : List IpAddr :=
  (hintsOf (k.endpoint c) f ++ k.heard f).flatMap (addrsOf f)

/-- Every address of both families was tried, and failed. -/
def Exhausted (k : Known S) (c : Context) : Prop :=
  (∀ f, k.ended f = true ∧ ofFamily f k.attempts = k.candidates c f) ∧
    k.failures.Perm k.attempts ∧ k.streams = []

/-- How an attempt fails. -/
def Lost (k : Known S) (c : Context) (e : Error) : Prop :=
  k.handshake = some (.error e) ∨
    k.handshake = none ∧ k.Exhausted c ∧ e.isUnsent = true

/-- No address to try is known. -/
def Addressless (k : Known S) (c : Context) : Prop :=
  ∀ f, hintsOf (k.endpoint c) f = [] ∧ (k.heard f).any Except.isOk = false

/-- The bound on the first address has run out. -/
def TimedOut (k : Known S) (c : Context) (e : Error) : Prop :=
  k.expired = true ∧ k.Addressless c ∧ k.attempts = [] ∧
    ∃ bound ∈ c.request.resolve, e = .new (.timeout .resolve) (.resolveTimedOut bound)

end Known

/-! ## What it may call -/

def RaceAllowed (c : Context) (k : Known S) : Connect.Op → Prop
  | .connect addr => addr.port = portOf (k.endpoint c) c.place ∧
      ofFamily addr.ip.family k.attempts ++ [addr.ip] <+: k.candidates c addr.ip.family
  | .pollNext _ => False
  | .elapsed => True
  | .sleep _ => True
  | .pollAttempts _ => True
  | .pollSleep => True
  | .pending => True

/-- What a connect may call after what it has been told. -/
def Allowed (c : Context) (k : Known S) : Op S → Prop
  | .openExternal target => target = c.place.target ∧
      ∃ route, c.filters.carrier target = some (.external route) ∧ route.support.stream = true
  | .openRules target => target = c.place.target ∧
      ∃ route, c.filters.carrier target = some (.rules route) ∧ route.support.stream = true
  | .lookup type => c.carried = false ∧ type ∉ k.asked ∧
      (type = .https → k.clear = true ∧ k.able = true ∧ ∀ f, typeOf f ∈ k.asked)
  | .pollStream f => typeOf f ∈ k.asked ∧ k.ended f = false
  | .suppressed origin now => c.carried = false ∧ c.request.prefetched = .notConsulted ∧
      c.place.useTls = true ∧ c.place.port = httpsDefaultPort ∧
      origin = .new c.place.host c.place.port ∧ now = c.request.now
  | .supportsHttps => k.clear = true
  | .pollRecords => .https ∈ k.asked ∧ k.recordsEnded = false
  | .record origin now => origin = .new c.place.host c.place.port ∧ now = c.request.now ∧
      (k.endpoint c).isSome = true ∧ ∃ e, k.Lost c e
  | .sleepFor bound => c.carried = false ∧ c.request.resolve = some bound ∧
      ∀ f, hintsOf (k.endpoint c) f = []
  | .pollBound => c.carried = false ∧ k.Addressless c ∧ ∃ f, k.ended f = false
  | .pending => c.carried = false
  | .race op => c.carried = false ∧ k.streams = [] ∧ RaceAllowed c k op
  | .tls stream req => c.place.useTls = true ∧ k.streams = [stream] ∧
      req = tlsRequest c.appliesEch c.place c.request (k.endpoint c)

/-- What the end of a connect that no filter carries says of what was told. -/
def Ends (c : Context) (k : Known S) : Ended S → Prop
  | .connected conn => k.streams = [conn.stream] ∧
      (if c.place.useTls then ∃ info, conn.tls = some info ∧ k.handshake = some (.ok info)
        else conn.tls = none)
  | .failed e => k.TimedOut c e ∨ k.endpoint c = none ∧ k.Lost c e
  | .panicked => k.streams = []

abbrev watching (S : Type) (c : Context) : Monitor (Op S) Op.Answer (Known S) :=
  .keeping (Allowed c) Known.update

variable {c : Context} {k k' : Known S} {l : Lookups}

/-! ## The lookups -/

def Answers.after (a : Answers) : Poll (Option Item) → Answers
  | .ready (some item) => { a with seen := a.seen ++ [item] }
  | .ready none => { a with done := true }
  | .pending => a

/-- The lookups hold what was heard. -/
structure Follows (k : Known S) (l : Lookups) : Prop where
  asked : ∀ f, typeOf f ∈ k.asked
  seen : ∀ f, (l f).seen = k.heard f
  done : ∀ f, (l f).done = k.ended f

theorem Follows.hears (h : Follows k l) (f : Family) (r : Poll (Option Item)) :
    Follows (k.hears f r) (Function.update l f ((l f).after r)) := by
  rcases r with (_ | item) | _
  · refine ⟨h.asked, fun g => ?_, fun g => ?_⟩
    · by_cases same : g = f
      · subst same
        simpa [Answers.after, Known.hears] using h.seen g
      · simpa [same, Known.hears] using h.seen g
    · by_cases same : g = f
      · subst same
        simp [Answers.after, Known.hears]
      · simpa [same, Known.hears] using h.done g
  · refine ⟨h.asked, fun g => ?_, fun g => ?_⟩
    · by_cases same : g = f
      · subst same
        simp [Answers.after, Known.hears, h.seen]
      · simpa [same, Known.hears] using h.seen g
    · by_cases same : g = f
      · subst same
        simpa [Answers.after, Known.hears] using h.done g
      · simpa [same, Known.hears] using h.done g
  · rwa [Answers.after, Function.update_eq_self]

/-- Nothing but answers of the two streams has been told from one to the other. -/
def Heard (k k' : Known S) : Prop :=
  ∃ heard ended, k' = { k with heard := heard, ended := ended }

theorem Heard.refl (k : Known S) : Heard k k := ⟨k.heard, k.ended, rfl⟩

theorem Heard.trans {k'' : Known S} (first : Heard k k') (rest : Heard k' k'') : Heard k k'' := by
  obtain ⟨heard, ended, rfl⟩ := first
  obtain ⟨heard', ended', rfl⟩ := rest
  exact ⟨heard', ended', rfl⟩

theorem Heard.hears (k : Known S) (f : Family) (r : Poll (Option Item)) : Heard k (k.hears f r) := by
  rcases r with (_ | item) | _
  · exact ⟨_, _, rfl⟩
  · exact ⟨_, _, rfl⟩
  · exact .refl k

theorem Heard.endpoint (h : Heard k k') (c : Context) : k'.endpoint c = k.endpoint c := by
  obtain ⟨heard, ended, rfl⟩ := h
  rfl

/-- A lookup that is not over is polled until it is, or waits. -/
theorem pump_wp (h : Follows k l) (turns : Nat) (f : Family) :
    (watching S c).wp (pump turns f l)
      (fun k' r => ∀ l', r = some l' → Follows k' l' ∧ Heard k k') k := by
  have start : Follows k (Function.update l f (l f)) ∧ Heard k k := by
    rw [Function.update_eq_self]
    exact ⟨h, .refl k⟩
  refine Monitor.wp_ifAny (Monitor.wp_loop_any
    (I := fun k' a => Follows k' (Function.update l f a) ∧ Heard k k')
    (Q := fun k' a => Follows k' (Function.update l f a) ∧ Heard k k') ?_ turns start) ?_
  · rintro k' a ⟨follows, heard⟩
    unfold pumpTurn
    split
    · exact ⟨follows, heard⟩
    next more =>
      have going : k'.ended f = false := by
        rw [← follows.done f, Function.update_self]
        simpa using more
      refine (Monitor.keeping_call _ _ _).mpr ⟨⟨follows.asked f, going⟩, fun r => ?_⟩
      have next_ := follows.hears f r
      rw [Function.update_self, Function.update_idem] at next_
      have heard' := heard.trans (.hears k' f r)
      rcases r with (_ | item) | _
      · exact ⟨next_, heard'⟩
      · exact ⟨next_, heard'⟩
      · exact ⟨next_, heard'⟩
  · rintro k' a ⟨follows, heard⟩ _ ⟨⟩
    exact ⟨follows, heard⟩

theorem pumpBoth_wp (h : Follows k l) (turns : Nat) :
    (watching S c).wp (pumpBoth turns l)
      (fun k' r => ∀ l', r = some l' → Follows k' l' ∧ Heard k k') k := by
  refine Monitor.wp_ifAny (pump_wp h turns .v6) ?_
  rintro k₁ l₁ ⟨follows, heard⟩
  apply Monitor.wp_mono _ (pump_wp follows turns .v4)
  rintro k₂ r later l₂ same
  obtain ⟨follows', heard'⟩ := later l₂ same
  exact ⟨follows', heard.trans heard'⟩

/-! ## The record -/

/-- No attempt has been made, and no filter carries the connect. -/
structure Early (c : Context) (k : Known S) : Prop where
  direct : c.carried = false
  kept : k.givenUp = false
  attempts : k.attempts = []
  failures : k.failures = []
  streams : k.streams = []
  handshake : k.handshake = none

theorem Early.heard (h : Early c k) (heard : Heard k k') : Early c k' := by
  obtain ⟨_, _, rfl⟩ := heard
  exact ⟨h.direct, h.kept, h.attempts, h.failures, h.streams, h.handshake⟩

/-- Nothing but what concerns the record has been told from one to the other. -/
def Looked (k k' : Known S) : Prop :=
  ∃ asked clear able records recordsEnded, k' = { k with
    asked := k.asked ++ asked
    clear := clear
    able := able
    records := records
    recordsEnded := recordsEnded }

theorem Looked.refl (k : Known S) : Looked k k :=
  ⟨[], k.clear, k.able, k.records, k.recordsEnded, by rw [List.append_nil]⟩

theorem Looked.reads {k'' : Known S} (looked : Looked k k') (r : Poll (Option Item))
    (same : k'' = k'.reads r) : Looked k k'' := by
  obtain ⟨asked, clear, able, records, recordsEnded, rfl⟩ := looked
  subst same
  rcases r with (_ | item) | _
  · exact ⟨asked, clear, able, _, _, rfl⟩
  · exact ⟨asked, clear, able, _, _, rfl⟩
  · exact ⟨asked, clear, able, records, recordsEnded, rfl⟩

theorem Early.looked (h : Early c k) (looked : Looked k k') : Early c k' := by
  obtain ⟨_, _, _, _, _, rfl⟩ := looked
  exact ⟨h.direct, h.kept, h.attempts, h.failures, h.streams, h.handshake⟩

theorem Follows.looked (h : Follows k l) (looked : Looked k k') : Follows k' l := by
  obtain ⟨_, _, _, _, _, rfl⟩ := looked
  exact ⟨fun f => List.mem_append_left _ (h.asked f), h.seen, h.done⟩

/-- How far the lookup of the record has come. -/
def Discovery.Follows (k : Known S) : Discovery → Prop
  | .unasked => .https ∉ k.asked ∧ k.records = [] ∧ k.recordsEnded = false
  | .reading best => .https ∈ k.asked ∧ best = k.records.foldl considered none ∧
      k.recordsEnded = false

theorem Discovery.Follows.heard {d : Discovery} (h : d.Follows k) (heard : Heard k k') :
    d.Follows k' := by
  obtain ⟨_, _, rfl⟩ := heard
  cases d with
  | unasked => exact h
  | reading best => exact h

/-- What a poll of the lookup answers is what was read. -/
def Resolved (c : Context) (k : Known S) : Prefetched ⊕ Discovery → Prop
  | .inl found => k.found c.request = found
  | .inr d => d.Follows k

theorem found_of_reading (unknown : c.request.prefetched = .notConsulted) :
    k.found c.request =
      if k.recordsEnded then .looked (chosen k.records) else .notConsulted := by
  rw [Known.found, unknown]

theorem readRecords_wp (unknown : c.request.prefetched = .notConsulted) (turns : Nat)
    {best : Option SvcbEndpoint} (reading : (Discovery.reading best).Follows k') (looked : Looked k k') :
    (watching S c).wp (readRecords turns best)
      (fun k' r => ∀ x, r = some x → Looked k k' ∧ Resolved c k' x) k' := by
  refine Monitor.wp_loop_any
    (I := fun k' best => Looked k k' ∧ (Discovery.reading best).Follows k') ?_ turns
    ⟨looked, reading⟩
  rintro k' best ⟨looked, asked, rfl, more⟩
  refine (Monitor.keeping_call _ _ _).mpr ⟨⟨asked, more⟩, fun r => ?_⟩
  rcases r with (_ | item) | _
  · refine ⟨looked.reads (.ready none) rfl, ?_⟩
    exact (found_of_reading unknown).trans (if_pos rfl)
  · refine ⟨looked.reads (.ready (some item)) rfl, asked, ?_, more⟩
    exact (List.foldl_concat _ _ _ _).symm
  · exact ⟨looked, asked, rfl, more⟩

/-- The record is looked up only for what it may concern, and once. -/
theorem pollDiscovery_wp (unknown : c.request.prefetched = .notConsulted) (early : Early c k)
    (addresses : ∀ f, typeOf f ∈ k.asked) (turns : Nat) {d : Discovery} (h : d.Follows k) :
    (watching S c).wp (pollDiscovery turns c.place c.request.now d)
      (fun k' r => ∀ x, r = some x → Looked k k' ∧ Resolved c k' x) k := by
  cases d with
  | reading best => exact readRecords_wp unknown turns h (.refl k)
  | unasked =>
      obtain ⟨fresh, unread, more⟩ := h
      rw [pollDiscovery]
      split
      · rintro _ ⟨⟩
        refine ⟨.refl k, (found_of_reading unknown).trans ?_⟩
        rw [more, if_neg Bool.false_ne_true]
      next fits =>
        simp only [Bool.not_eq_true', not_or, Bool.not_eq_false, not_not] at fits
        refine (Monitor.keeping_call _ _ _).mpr
          ⟨⟨early.direct, unknown, fits.1, fits.2, rfl, rfl⟩, fun marked => ?_⟩
        cases marked with
        | true =>
            rintro _ ⟨⟩
            refine ⟨⟨[], false, k.able, k.records, k.recordsEnded, ?_⟩, ?_⟩
            · rw [List.append_nil]
              rfl
            · refine (found_of_reading unknown).trans (if_neg ?_)
              exact fun ended => Bool.false_ne_true (more.symm.trans ended)
        | false =>
            refine (Monitor.keeping_call _ _ _).mpr ⟨rfl, fun able => ?_⟩
            cases able with
            | false =>
                rintro _ ⟨⟩
                refine ⟨⟨[], true, false, k.records, k.recordsEnded, ?_⟩, ?_⟩
                · rw [List.append_nil]
                  rfl
                · refine (found_of_reading unknown).trans (if_neg ?_)
                  exact fun ended => Bool.false_ne_true (more.symm.trans ended)
            | true =>
                refine (Monitor.keeping_call _ _ _).mpr
                  ⟨⟨early.direct, fresh, fun _ => ⟨rfl, rfl, addresses⟩⟩, fun _ => ?_⟩
                refine readRecords_wp unknown turns ⟨?_, ?_, more⟩ ⟨[.https], _, _, _, _, rfl⟩
                · exact List.mem_append_right _ List.mem_cons_self
                · exact (congrArg (List.foldl considered none) unread).symm

/-- What a connect has before its first attempt. -/
structure Ready (c : Context) (k : Known S) (l : Lookups) (endpoint : Option Endpoint) : Prop where
  follows : Follows k l
  early : Early c k
  endpoint : k.endpoint c = endpoint

theorem alongside_wp (unknown : c.request.prefetched = .notConsulted) (early : Early c k)
    (follows : Follows k .new) (unasked : Discovery.unasked.Follows k) (turns : Nat) :
    (watching S c).wp (alongsideAddressLookups turns c.place c.request.now)
      (fun k' r => ∀ x, r = some x → Ready c k' x.1 x.2.actionable) k := by
  refine Monitor.wp_ifAny (Monitor.wp_loop_any
    (I := fun k' s => Follows k' s.1 ∧ Early c k' ∧ s.2.Follows k')
    (Q := fun k' r => ∀ x, r = some x → Ready c k' x.1 x.2.actionable) ?_ turns
    ⟨follows, early, unasked⟩) ?_
  · rintro k ⟨l, d⟩ ⟨follows, early, reading⟩
    apply Monitor.wp_seq _ (pumpBoth_wp follows turns)
    intro k₁ l₁ pumped
    cases l₁ with
    | none => exact fun x same => by cases same
    | some l₁ =>
        obtain ⟨follows, heard⟩ := pumped l₁ rfl
        have early := early.heard heard
        apply Monitor.wp_seq _
          (pollDiscovery_wp unknown early follows.asked turns (reading.heard heard))
        intro k₂ r polled
        cases r with
        | none => exact fun x same => by cases same
        | some x =>
            obtain ⟨looked, resolved⟩ := polled x rfl
            have early := early.looked looked
            have follows := follows.looked looked
            cases x with
            | inl found =>
                rintro _ ⟨⟩
                refine ⟨follows, early, ?_⟩
                rw [Known.endpoint, early.direct, early.kept, resolved]
                rfl
            | inr d =>
                exact (Monitor.keeping_call _ _ _).mpr
                  ⟨early.direct, fun _ => ⟨follows, early, resolved⟩⟩
  · exact fun k' x ready => ready

/-! ## The first address -/

theorem hintsOf_eq_nil {endpoint : Option Endpoint}
    (none_told : ¬ endpoint.any (fun e => !e.ipv6hint.isEmpty || !e.ipv4hint.isEmpty) = true)
    (f : Family) : hintsOf endpoint f = [] := by
  cases endpoint with
  | none => cases f <;> rfl
  | some e => cases f <;> simp_all [hintsOf]

/-- A connect whose bound on the first address has not run out, or whose time is up. -/
def Waited (c : Context) (endpoint : Option Endpoint) (k : Known S) : Except Error Lookups → Prop
  | .ok l => Ready c k l endpoint
  | .error e => k.TimedOut c e

theorem firstAddressTurn_wp {endpoint : Option Endpoint} (ready : Ready c k l endpoint)
    {bound : Duration} (bounded : c.request.resolve = some bound)
    (hintless : ∀ f, hintsOf endpoint f = []) (turns : Nat) :
    (watching S c).wp (firstAddressTurn turns bound l)
      (Turned (fun k l => Ready c k l endpoint)
        fun k r => ∀ x, r = some x → Waited c endpoint k x) k := by
  apply Monitor.wp_seq _ (pumpBoth_wp ready.follows turns)
  intro k₁ l₁ pumped
  cases l₁ with
  | none => exact fun x same => by cases same
  | some l₁ =>
      obtain ⟨follows, heard⟩ := pumped l₁ rfl
      have ready₁ : Ready c k₁ l₁ endpoint :=
        ⟨follows, ready.early.heard heard, (heard.endpoint c).trans ready.endpoint⟩
      dsimp only
      split
      · rintro _ ⟨⟩
        exact ready₁
      next waits =>
        simp only [Answers.any, follows.seen, follows.done, Bool.or_eq_true, Bool.and_eq_true,
          not_or, not_and, Bool.not_eq_true] at waits
        have addressless : k₁.Addressless c := by
          intro f
          rw [ready₁.endpoint]
          cases f with
          | v6 => exact ⟨hintless .v6, waits.1.1⟩
          | v4 => exact ⟨hintless .v4, waits.1.2⟩
        have more : ∃ f, k₁.ended f = false := by
          cases six : k₁.ended .v6 with
          | false => exact ⟨.v6, six⟩
          | true => exact ⟨.v4, waits.2 six⟩
        have direct := ready₁.early.direct
        refine (Monitor.keeping_call _ _ _).mpr ⟨⟨direct, addressless, more⟩, fun r => ?_⟩
        cases r with
        | ready =>
            rintro _ ⟨⟩
            exact ⟨rfl, addressless, ready₁.early.attempts, bound, bounded, rfl⟩
        | pending => exact (Monitor.keeping_call _ _ _).mpr ⟨direct, fun _ => ready₁⟩

theorem firstAddressWithin_wp {endpoint : Option Endpoint} (ready : Ready c k l endpoint)
    (turns : Nat) :
    (watching S c).wp (firstAddressWithin turns c.request.resolve endpoint l)
      (fun k r => ∀ x, r = some x → Waited c endpoint k x) k := by
  cases bounded : c.request.resolve with
  | none =>
      rintro _ ⟨⟩
      exact ready
  | some bound =>
      rw [firstAddressWithin]
      split
      · rintro _ ⟨⟩
        exact ready
      next none_told =>
        have hintless := hintsOf_eq_nil none_told
        refine (Monitor.keeping_call _ _ _).mpr ⟨⟨ready.early.direct, bounded, ?_⟩, fun _ => ?_⟩
        · rw [ready.endpoint]
          exact hintless
        · refine Monitor.wp_ifAny (Monitor.wp_loop_any
            (I := fun k l => Ready c k l endpoint)
            (Q := fun k r => ∀ x, r = some x → Waited c endpoint k x) ?_ turns ready) ?_
          · exact fun k l ready => firstAddressTurn_wp ready bounded hintless turns
          · exact fun k x waited => waited

/-! ## The race -/

/-- The items that a race has read of a stream. -/
def itemOf (f : Family) : Connect.Event S → List Item
  | ⟨.pollNext g, .ready (some item)⟩ => if f = g then [item] else []
  | _ => []

def items (f : Family) (t : List (Connect.Event S)) : List Item := t.flatMap (itemOf f)

theorem items_concat (f : Family) (t : List (Connect.Event S)) (e : Connect.Event S) :
    items f (t ++ [e]) = items f t ++ itemOf f e := by
  simp [items]

theorem deliveredBy_eq (f : Family) (e : Connect.Event S) :
    deliveredBy f e = (itemOf f e).flatMap (addrsOf f) := by
  obtain ⟨op, answer⟩ := e
  cases op with
  | pollNext g =>
      rcases answer with (_ | (e | record)) | _
      · rfl
      · by_cases same : f = g <;> simp [deliveredBy, itemOf, addrsOf, same]
      · by_cases same : f = g <;> simp [deliveredBy, itemOf, addrsOf, same]
      · rfl
  | elapsed => rfl
  | connect _ => rfl
  | sleep _ => rfl
  | pollAttempts _ => rfl
  | pollSleep => rfl
  | pending => rfl

theorem delivered_eq (f : Family) (t : List (Connect.Event S)) :
    delivered f t = (items f t).flatMap (addrsOf f) := by
  rw [delivered, items, List.flatMap_assoc]
  exact congrArg (List.flatMap · t) (funext (deliveredBy_eq f))

/-- A race whose streams are read as `s` has it: the hints, then what the lookup answers. -/
structure Racing (c : Context) (endpoint : Option Endpoint) (k : Known S)
    (t : List (Connect.Event S)) (s : Readers) : Prop where
  direct : c.carried = false
  follows : Follows k s.lookups
  acts : k.endpoint c = endpoint
  read : ∀ f, items f t ++ (s.hints f ++ (k.heard f).drop (s.place f)) =
    hintsOf endpoint f ++ k.heard f
  ended : ∀ f, Connect.Ended f t →
    k.ended f = true ∧ items f t = hintsOf endpoint f ++ k.heard f
  attempts : k.attempts = attemptsMade t
  failures : k.failures = Connect.failures t
  streams : k.streams = successes t
  handshake : k.handshake = none

theorem races_quiet (k : Known S) {e : Connect.Event S}
    (attemptless : attemptOf e = [] ∧ failureOf e = [] ∧ successOf e = []) : k.races e = k := by
  simp [Known.races, attemptless]

namespace Racing
variable {endpoint : Option Endpoint} {t : List (Connect.Event S)} {s : Readers}

/-- What is polled of no stream is relayed. -/
theorem relays (h : Racing c endpoint k t s) {e : Connect.Event S} (reads : ∀ f, itemOf f e = [])
    (unended : ∀ f, ends f e = false) : Racing c endpoint (k.races e) (t ++ [e]) s where
  direct := h.direct
  follows := ⟨h.follows.asked, h.follows.seen, h.follows.done⟩
  acts := h.acts
  read f := by
    rw [items_concat, reads, List.append_nil]
    exact h.read f
  ended f over_ := by
    rw [ended_concat, unended] at over_
    rw [items_concat, reads, List.append_nil]
    exact h.ended f (over_.resolve_right Bool.false_ne_true)
  attempts := by rw [attemptsMade_concat, ← h.attempts]; rfl
  failures := by rw [failures_concat, ← h.failures]; rfl
  streams := by rw [successes_concat, ← h.streams]; rfl
  handshake := h.handshake

/-- The other stream stands where it stood. -/
def Beside (f : Family) (k k' : Known S) (s s' : Readers) : Prop :=
  ∀ g, g ≠ f → s'.hints g = s.hints g ∧ s'.place g = s.place g ∧ k'.heard g = k.heard g ∧
    k'.ended g = k.ended g

/-- An item is read of a stream that has not ended. -/
theorem takes (h : Racing c endpoint k t s) {f : Family} (more : ¬ Connect.Ended f t) {item : Item}
    {s' : Readers} (heard : Heard k k') (follows : Follows k' s'.lookups)
    (beside : Beside f k k' s s')
    (taken : items f t ++ item :: (s'.hints f ++ (k'.heard f).drop (s'.place f)) =
      hintsOf endpoint f ++ k'.heard f) :
    Racing c endpoint k' (t ++ [⟨.pollNext f, .ready (some item)⟩]) s' := by
  have ended_before : ∀ g, Connect.Ended g
      (t ++ [(⟨.pollNext f, .ready (some item)⟩ : Connect.Event S)]) → Connect.Ended g t := by
    intro g over_
    exact ((ended_concat t _ g).mp over_).resolve_right Bool.false_ne_true
  refine ⟨h.direct, follows, (heard.endpoint c).trans h.acts, fun g => ?_, fun g over_ => ?_,
    ?_, ?_, ?_, ?_⟩
  · rw [items_concat]
    by_cases same : g = f
    · subst same
      simpa [itemOf] using taken
    · obtain ⟨hints, place, heard_g, -⟩ := beside g same
      rw [hints, place, heard_g]
      simpa [itemOf, same] using h.read g
  · replace over_ := ended_before g over_
    have other : g ≠ f := fun same => more (same ▸ over_)
    obtain ⟨-, -, heard_g, ended_g⟩ := beside g other
    obtain ⟨ended, all⟩ := h.ended g over_
    rw [items_concat, heard_g, ended_g]
    exact ⟨ended, by simpa [itemOf, other] using all⟩
  all_goals obtain ⟨_, _, rfl⟩ := heard
  · rw [attemptsMade_concat, ← h.attempts]
    exact (List.append_nil _).symm
  · rw [failures_concat, ← h.failures]
    exact (List.append_nil _).symm
  · rw [successes_concat, ← h.streams]
    exact (List.append_nil _).symm
  · exact h.handshake

/-- A stream is found to have ended once all there was of it has been read. -/
theorem closes (h : Racing c endpoint k t s) {f : Family} {s' : Readers} (heard : Heard k k')
    (follows : Follows k' s'.lookups) (beside : Beside f k k' s s') (over_ : k'.ended f = true)
    (hints : s'.hints f = []) (read : (k'.heard f).drop (s'.place f) = [])
    (all : items f t = hintsOf endpoint f ++ k'.heard f) :
    Racing c endpoint k' (t ++ [⟨.pollNext f, .ready none⟩]) s' := by
  have same_items (g : Family) :
      items g (t ++ [(⟨.pollNext f, .ready none⟩ : Connect.Event S)]) = items g t := by
    rw [items_concat]
    exact List.append_nil _
  refine ⟨h.direct, follows, (heard.endpoint c).trans h.acts, fun g => ?_, fun g closed => ?_,
    ?_, ?_, ?_, ?_⟩
  · rw [same_items]
    by_cases same : g = f
    · subst same
      rw [hints, read, all, List.append_nil, List.append_nil]
    · obtain ⟨hints, place, heard_g, -⟩ := beside g same
      rw [hints, place, heard_g]
      exact h.read g
  · rw [same_items]
    by_cases same : g = f
    · subst same
      exact ⟨over_, all⟩
    · obtain ⟨-, -, heard_g, ended_g⟩ := beside g same
      rw [heard_g, ended_g]
      refine h.ended g (((ended_concat t _ g).mp closed).resolve_right ?_)
      simpa [ends] using same
  all_goals obtain ⟨_, _, rfl⟩ := heard
  · rw [attemptsMade_concat, ← h.attempts]
    exact (List.append_nil _).symm
  · rw [failures_concat, ← h.failures]
    exact (List.append_nil _).symm
  · rw [successes_concat, ← h.streams]
    exact (List.append_nil _).symm
  · exact h.handshake

theorem Beside.hears (f : Family) (k : Known S) (s : Readers) (r : Poll (Option Item))
    {s' : Readers} (hints : s'.hints = s.hints) (place : ∀ g, g ≠ f → s'.place g = s.place g) :
    Beside f k (k.hears f r) s s' := by
  intro g other
  rcases r with (_ | item) | _ <;> simp [Known.hears, hints, place g other, other]

/-- A stream of the race answers a hint, what its lookup has answered, or what it answers now. -/
theorem poll_wp (h : Racing c endpoint k t s) {f : Family} (more : ¬ Connect.Ended f t) :
    (watching S c).wp (s.poll f)
      (fun k' r => Racing c endpoint k' (t ++ [⟨.pollNext f, r.1⟩]) r.2) k := by
  have read := h.read f
  unfold Readers.poll
  cases hinted : s.hints f with
  | cons item rest =>
      refine h.takes more (.refl k) h.follows ?_ ?_
      · exact fun g other => ⟨Function.update_of_ne other _ _, rfl, rfl, rfl⟩
      · rw [hinted] at read
        simpa using read
  | nil =>
      rw [hinted, List.nil_append] at read
      dsimp only
      cases seen : (s.lookups f).seen[s.place f]? with
      | some item =>
          refine h.takes more (.refl k) h.follows ?_ ?_
          · exact fun g other => ⟨rfl, Function.update_of_ne other _ _, rfl, rfl⟩
          · rw [h.follows.seen f] at seen
            obtain ⟨inside, rfl⟩ := List.getElem?_eq_some_iff.mp seen
            rw [List.drop_eq_getElem_cons inside] at read
            simpa [hinted] using read
      | none =>
          rw [h.follows.seen f] at seen
          have past : (k.heard f).drop (s.place f) = [] :=
            List.drop_eq_nil_of_le (List.getElem?_eq_none_iff.mp seen)
          rw [past, List.append_nil] at read
          dsimp only
          split
          next over_ =>
            rw [h.follows.done f] at over_
            exact h.closes (.refl k) h.follows (fun g _ => ⟨rfl, rfl, rfl, rfl⟩) over_ hinted past read
          next going =>
            rw [h.follows.done f] at going
            refine (Monitor.keeping_call _ _ _).mpr
              ⟨⟨h.follows.asked f, Bool.eq_false_of_not_eq_true going⟩, fun r => ?_⟩
            have follows := h.follows.hears f r
            have heard := Heard.hears k f r
            rcases r with (_ | item) | _
            · refine h.closes heard follows (.hears f k s (.ready none) rfl fun _ _ => rfl) ?_ hinted
                past read
              exact Function.update_self ..
            · refine h.takes more heard follows (.hears f k s (.ready (some item)) rfl ?_) ?_
              · exact fun g other => Function.update_of_ne other _ _
              · simp [Known.update, Known.hears, hinted, read, h.follows.seen f]
            · have passed := h.relays (e := ⟨.pollNext f, .pending⟩) (fun _ => rfl) fun _ => rfl
              rwa [races_quiet k ⟨rfl, rfl, rfl⟩] at passed

theorem start (direct : c.carried = false) (follows : Follows k l) (acts : k.endpoint c = endpoint)
    (attempts : k.attempts = []) (failures : k.failures = []) (streams : k.streams = [])
    (handshake : k.handshake = none) :
    Racing c endpoint k [] ⟨l, hintsOf endpoint, fun _ => 0⟩ where
  direct := direct
  follows := follows
  acts := acts
  read _ := rfl
  ended f over_ := by
    obtain ⟨_, member, -⟩ := over_
    cases member
  attempts := attempts
  failures := failures
  streams := streams
  handshake := handshake

/-- What was delivered to the race are the first of the addresses to be tried. -/
theorem delivered_prefix (h : Racing c endpoint k t s) (f : Family) :
    delivered f t <+: k.candidates c f := by
  rw [delivered_eq, Known.candidates, h.acts, ← h.read f, List.flatMap_append]
  exact List.prefix_append _ _

/-- A call of the race's own, made of what it runs on. -/
theorem relay_wp (h : Racing c endpoint k t s) {op : Connect.Op}
    (unread : ∀ r f, itemOf f (⟨op, r⟩ : Connect.Event S) = [])
    (unended : ∀ r f, ends f (⟨op, r⟩ : Connect.Event S) = false)
    (undecided : successes t = []) (allowed : RaceAllowed c k op) :
    (watching S c).wp (.call (.race op) fun r => .done (r, s))
      (fun k' r => Racing c endpoint k' (t ++ [⟨op, r.1⟩]) r.2) k := by
  refine (Monitor.keeping_call _ _ _).mpr
    ⟨⟨h.direct, h.streams.trans undecided, allowed⟩, fun r => ?_⟩
  exact h.relays (unread r) (unended r)

theorem serve_wp (h : Racing c endpoint k t s) (op : Connect.Op)
    (may : MayCall (portOf endpoint c.place) t op) :
    (watching S c).wp (Readers.serve op s)
      (fun k' r => Racing c endpoint k' (t ++ [⟨op, r.1⟩]) r.2) k := by
  obtain ⟨undecided, may⟩ := may
  cases op with
  | pollNext f => exact h.poll_wp may
  | connect addr =>
      refine h.relay_wp (fun _ _ => rfl) (fun _ _ => rfl) undecided ⟨?_, ?_⟩
      · rw [h.acts]
        exact may.1
      · rw [h.attempts]
        exact may.2.trans (h.delivered_prefix _)
  | elapsed => exact h.relay_wp (fun _ _ => rfl) (fun _ _ => rfl) undecided trivial
  | sleep d => exact h.relay_wp (fun _ _ => rfl) (fun _ _ => rfl) undecided trivial
  | pollAttempts running => exact h.relay_wp (fun _ _ => rfl) (fun _ _ => rfl) undecided trivial
  | pollSleep => exact h.relay_wp (fun _ _ => rfl) (fun _ _ => rfl) undecided trivial
  | pending => exact h.relay_wp (fun _ _ => rfl) (fun _ _ => rfl) undecided trivial

/-- A race that failed has tried every address there was. -/
theorem exhausted (h : Racing c endpoint k t s) {e : Error} (failed : Connect.Ends t (.failed e)) :
    k.Exhausted c ∧ e.isUnsent = true := by
  obtain ⟨undecided, all, failures, unsent, -, -⟩ := failed
  refine ⟨⟨fun f => ?_, ?_, h.streams.trans undecided⟩, unsent⟩
  · obtain ⟨over_, read⟩ := h.ended f (all f).1
    refine ⟨over_, ?_⟩
    have tried : ofFamily f (attemptsMade t) = delivered f t := (all f).2
    rw [h.attempts, tried, delivered_eq, Known.candidates, h.acts, read]
  · rw [h.failures, h.attempts]
    exact failures

end Racing

/-! ## The attempts -/

/-- How an attempt ends. -/
def Outcome (c : Context) (k : Known S) : Ended S → Prop
  | .connected conn => Ends c k (.connected conn)
  | .failed e => k.Lost c e
  | .panicked => Ends c k .panicked

theorem finish_wp {stream : S} {req : TlsRequest} (opened : k.streams = [stream])
    (unshaken : k.handshake = none)
    (same : req = tlsRequest c.appliesEch c.place c.request (k.endpoint c)) :
    (watching S c).wp (finish c.place.useTls stream req)
      (fun k' ended => Outcome c k' ended ∧ ∃ handshake, k' = { k with handshake := handshake }) k := by
  unfold finish
  split
  next secure =>
    refine (Monitor.keeping_call _ _ _).mpr ⟨⟨secure, opened, same⟩, fun r => ?_⟩
    cases r with
    | ok info =>
        refine ⟨⟨opened, ?_⟩, _, rfl⟩
        rw [if_pos secure]
        exact ⟨info, rfl, rfl⟩
    | error e => exact ⟨.inl rfl, _, rfl⟩
  next plain => exact ⟨⟨opened, (if_neg plain).mpr rfl⟩, none, by rw [← unshaken]⟩

/-- What an attempt leaves. -/
structure Attempted (c : Context) (endpoint : Option Endpoint) (k : Known S)
    (r : Ended S × Lookups) : Prop where
  follows : Follows k r.2
  acts : k.endpoint c = endpoint
  outcome : Outcome c k r.1

theorem attempt_wp {endpoint : Option Endpoint}
    (start : Racing c endpoint k [] ⟨l, hintsOf endpoint, fun _ => 0⟩) (turns : Nat) :
    (watching S c).wp (attempt turns c.appliesEch c.place c.request l endpoint)
      (fun k' r => ∀ x, r = some x → Attempted c endpoint k' x) k := by
  apply Monitor.wp_seq _ (Monitor.wp_served
    (fun k t s op racing may => Monitor.wp_mono _ (racing.serve_wp op may) fun _ _ h => ⟨trivial, h⟩)
    (drive_wp turns .default (portOf endpoint c.place)) start)
  rintro k ⟨driven, s⟩ ⟨t, racing, ended⟩
  rcases driven with _ | stream | e | _
  · exact fun x same => by cases same
  · have opened : k.streams = [stream] := racing.streams.trans ended
    refine Monitor.wp_seq _ (finish_wp (c := c) opened racing.handshake (by rw [racing.acts])) ?_
    rintro k' ended ⟨outcome, handshake, rfl⟩ _ ⟨⟩
    exact ⟨⟨racing.follows.asked, racing.follows.seen, racing.follows.done⟩, racing.acts, outcome⟩
  · rintro _ ⟨⟩
    exact ⟨racing.follows, racing.acts, .inr ⟨racing.handshake, racing.exhausted ended⟩⟩
  · rintro _ ⟨⟩
    exact ⟨racing.follows, racing.acts, racing.streams.trans ended⟩

/-- A second attempt is made without the record, and only where there was one. -/
theorem attempts_wp {endpoint : Option Endpoint}
    (start : Racing c endpoint k [] ⟨l, hintsOf endpoint, fun _ => 0⟩) (turns : Nat) :
    (watching S c).wp (attempts turns c.appliesEch c.place c.request l endpoint)
      (fun k' r => ∀ ended, r = some ended → Ends c k' ended) k := by
  have direct := start.direct
  refine Monitor.wp_ifAny (attempt_wp start turns) ?_
  rintro k ⟨ended, l⟩ ⟨follows, acts, outcome⟩
  rcases ended with conn | e | _
  · rintro _ ⟨⟩
    exact outcome
  · cases endpoint with
    | none =>
        rintro _ ⟨⟩
        exact .inr ⟨acts, outcome⟩
    | some record =>
        refine (Monitor.keeping_call _ _ _).mpr ⟨⟨rfl, rfl, by rw [acts]; rfl, e, outcome⟩, ?_⟩
        intro _
        have given_up : k.givesUp.endpoint c = none := by
          rw [Known.endpoint, Known.givesUp, Bool.or_true]
          rfl
        have again : Racing c none k.givesUp [] ⟨l, hintsOf none, fun _ => 0⟩ :=
          .start direct ⟨follows.asked, follows.seen, follows.done⟩ given_up rfl rfl rfl rfl
        refine Monitor.wp_ifAny (attempt_wp again turns) ?_
        rintro k ⟨ended, l⟩ ⟨-, acts, outcome⟩ _ ⟨⟩
        rcases ended with conn | e | _
        · exact outcome
        · exact .inr ⟨acts, outcome⟩
        · exact outcome
  · rintro _ ⟨⟩
    exact outcome

/-! ## The connect -/

theorem start_follows (direct : c.carried = false) :
    let k : Known S := { Known.start with asked := [.aaaa, .a] }
    Follows k .new ∧ Early c k ∧ Discovery.unasked.Follows k := by
  have asked (f : Family) : typeOf f ∈ [RecordType.aaaa, .a] := by cases f <;> decide
  have unasked : RecordType.https ∉ [RecordType.aaaa, .a] := by decide
  exact ⟨⟨asked, fun _ => rfl, fun _ => rfl⟩, ⟨direct, rfl, rfl, rfl, rfl, rfl⟩, unasked, rfl, rfl⟩

theorem found_wp {k : Known S} (follows : Follows k .new) (early : Early c k)
    (unasked : Discovery.unasked.Follows k) (turns : Nat) :
    (watching S c).wp (found turns c.place c.request)
      (fun k' r => ∀ x, r = some x → Ready c k' x.1 x.2.actionable) k := by
  unfold found
  split
  next endpoint looked =>
    rintro _ ⟨⟩
    refine ⟨follows, early, ?_⟩
    rw [Known.endpoint, early.direct, early.kept, Known.found, looked]
    rfl
  next unknown => exact alongside_wp unknown early follows unasked turns

theorem direct_wp (direct : c.carried = false) (turns : Nat) :
    (watching S c).wp (Connector.direct turns c.appliesEch c.place c.request)
      (fun k' r => ∀ ended, r = some ended → Ends c k' ended) .start := by
  refine (Monitor.keeping_call _ _ _).mpr
    ⟨⟨direct, List.not_mem_nil, fun same => by cases same⟩, fun _ => ?_⟩
  have fresh : RecordType.a ∉ [RecordType.aaaa] := by decide
  refine (Monitor.keeping_call _ _ _).mpr
    ⟨⟨direct, fresh, fun same => by cases same⟩, fun _ => ?_⟩
  obtain ⟨follows, early, unasked⟩ := start_follows (S := S) direct
  refine Monitor.wp_ifAny (found_wp follows early unasked turns) ?_
  rintro k ⟨l, prefetched⟩ ready
  refine Monitor.wp_ifAny (firstAddressWithin_wp ready turns) ?_
  rintro k r waited
  cases r with
  | error e =>
      rintro _ ⟨⟩
      exact .inl waited
  | ok l =>
      have early := waited.early
      exact attempts_wp (.start early.direct waited.follows waited.endpoint early.attempts
        early.failures early.streams early.handshake) turns

theorem overOpened_wp (carried : c.carried = true) (r : Except Error S) :
    (watching S c).wp (overOpened c.place c.request r) (fun _ _ => True) (Known.start.opens r) := by
  cases r with
  | error e => trivial
  | ok stream =>
      have unmoved (k : Known S) : k.endpoint c = none := by
        rw [Known.endpoint, carried]
        rfl
      apply Monitor.wp_mono _ (finish_wp (c := c) rfl rfl (by rw [unmoved]; rfl))
      exact fun _ _ _ => trivial

/-- A filter that carries the connect is asked for the connection, and nothing else is. -/
theorem throughFilter_wp {carrier : Carrier}
    (carries : c.filters.carrier c.place.target = some carrier) :
    (watching S c).wp (throughFilter c.place c.request carrier) (fun _ _ => True) .start := by
  have carried : c.carried = true := by rw [Context.carried, carries]; rfl
  cases carrier with
  | external route =>
      rw [throughFilter]
      split
      · trivial
      next opens =>
        exact (Monitor.keeping_call _ _ _).mpr
          ⟨⟨rfl, route, carries, by simpa using opens⟩, overOpened_wp carried⟩
  | rules route =>
      rw [throughFilter]
      split
      · trivial
      next opens =>
        exact (Monitor.keeping_call _ _ _).mpr
          ⟨⟨rfl, route, carries, by simpa using opens⟩, overOpened_wp carried⟩

theorem connect_wp (turns : Nat) (located : placeOf c.request.uri = .ok c.place) :
    (watching S c).wp (connect turns c.filters c.appliesEch c.request)
      (fun k' r => c.carried = false → ∀ ended, r = some ended → Ends c k' ended) .start := by
  rw [connect, located]
  dsimp only
  cases carried : c.filters.carrier c.place.target with
  | some carrier =>
      have not_direct : c.carried = true := by rw [Context.carried, carried]; rfl
      refine Monitor.wp_seq _ (throughFilter_wp carried) fun _ _ _ direct => ?_
      cases not_direct.symm.trans direct
  | none =>
      have direct : c.carried = false := by rw [Context.carried, carried]; rfl
      exact Monitor.wp_mono _ (direct_wp direct turns) fun _ _ ends _ => ends

/-- What a connect has been told by these calls. -/
def known (c : Context) (t : List (Event S)) : Known S := (watching S c).after .start t

/-- Whatever a connect is told, it makes only calls that what it was told before allows. Where a
filter carries it, nothing is looked up or dialled. Otherwise each address goes to the port of the
record in force, each family's in the order of the record's hints and the lookup's answers; a record
is given up at most once, when an attempt under it has failed, and the connect fails only without
one, or because no address came within the bound. -/
theorem connector_run (c : Context) (turns : Nat) (located : placeOf c.request.uri = .ok c.place)
    {t : List (Event S)} {q : Script S (Option (Ended S))}
    (run : (connect turns c.filters c.appliesEch c.request).Steps t q) :
    (∀ before e later, t = before ++ e :: later → Allowed c (known c before) e.op) ∧
      (c.carried = false → ∀ ended, q.result = some (some ended) → Ends c (known c t) ended) := by
  obtain ⟨calls, last⟩ := Monitor.keeping_steps run (connect_wp turns located)
  refine ⟨calls, fun direct ended same => ?_⟩
  rw [Effect.Program.result_eq_some.mp same] at last
  exact last direct ended rfl

/-- A plain connect to a host that no filter carries. -/
def plainContext : Context where
  filters := ⟨none, .new⟩
  appliesEch := false
  place := ⟨"example.com".toList, false, 80⟩
  request :=
    { uri := ⟨some .http, some ⟨none, "example.com".toList, none⟩, none⟩
      alpn := []
      identity := none
      now := 0
      prefetched := .notConsulted
      resolve := none }

/-- A resolver that has no address. -/
def addressless (op : Op Unit) (s : Unit) : op.Answer × Unit :=
  match op with
  | .openExternal _ => (.ok (), s)
  | .openRules _ => (.ok (), s)
  | .lookup _ => ((), s)
  | .pollStream _ => (.ready none, s)
  | .suppressed _ _ => (false, s)
  | .supportsHttps => (false, s)
  | .pollRecords => (.ready none, s)
  | .record _ _ => ((), s)
  | .sleepFor _ => ((), s)
  | .pollBound => (.pending, s)
  | .pending => ((), s)
  | .race .elapsed => ((0 : Nat), s)
  | .race (.connect _) => ((), s)
  | .race (.sleep _) => ((), s)
  | .race (.pollNext _) => (.ready none, s)
  | .race (.pollAttempts _) => (.pending, s)
  | .race .pollSleep => (.pending, s)
  | .race .pending => ((), s)
  | .tls _ _ => (.ok ⟨none⟩, s)

/-- A connect that finds no address fails once both lookups are over. -/
theorem connector_run_addressless : ∃ e, Ends plainContext (known plainContext
    ((connect (S := Unit) 9 plainContext.filters false plainContext.request).log addressless ()))
      (.failed e) :=
  ⟨_, (connector_run plainContext 9 rfl (Effect.Program.steps_log addressless
    (connect 9 plainContext.filters false plainContext.request) ())).2 rfl _ rfl⟩

/-! ## Whom a connect asks -/

/-- The target is that of the URI, and is carried so. -/
def Carries (filters : Filters) (uri : Uri) (by_ : Egress.Route → Carrier)
    (target : Egress.Target) : Prop :=
  (∃ p, placeOf uri = .ok p ∧ p.target = target) ∧ ∃ route, filters.carrier target = some (by_ route)

/-- What a connect may ask for: who carries the URI's own target is asked to open it, and where
nobody does the rest is asked for. -/
def Of (filters : Filters) (uri : Uri) : Op S → Prop
  | .openExternal target => Carries filters uri .external target
  | .openRules target => Carries filters uri .rules target
  | .tls _ _ => True
  | _ => ∀ p, placeOf uri = .ok p → filters.carrier p.target = none

/-- A call that asks nothing of a filter. -/
def Beside : Op S → Prop
  | .openExternal _ => False
  | .openRules _ => False
  | _ => True

section
variable {filters : Filters} {uri : Uri}

theorem of_beside {op : Op S}
    (uncarried : ∀ p, placeOf uri = .ok p → filters.carrier p.target = none)
    (beside : Beside op) : Of filters uri op := by
  cases op with
  | openExternal target => exact beside.elim
  | openRules target => exact beside.elim
  | tls stream req => trivial
  | _ => exact uncarried

theorem overOpened_within (p : Place) (r : Request) (opened : Except Native.Error S) :
    (overOpened p r opened).Within (Of filters uri) fun _ => True := by
  cases opened with
  | error e => trivial
  | ok stream =>
      unfold overOpened finish
      dsimp only
      split
      · refine ⟨trivial, fun r => ?_⟩
        cases r <;> trivial
      · trivial

theorem throughFilter_within {p : Place} (r : Request) (located : placeOf uri = .ok p)
    {carrier : Carrier} (carries : filters.carrier p.target = some carrier) :
    (throughFilter p r carrier : Script S _).Within (Of filters uri) fun _ => True := by
  cases carrier with
  | external route =>
      rw [throughFilter]
      split
      · trivial
      · exact ⟨⟨⟨p, located, rfl⟩, route, carries⟩, overOpened_within p r⟩
  | rules route =>
      rw [throughFilter]
      split
      · trivial
      · exact ⟨⟨⟨p, located, rfl⟩, route, carries⟩, overOpened_within p r⟩

end

theorem beside_of_allowed {c : Context} {k : Known S} {op : Op S} (direct : c.carried = false)
    (allowed : Allowed c k op) : Beside op := by
  have uncarried {target : Egress.Target} {carrier : Carrier} (same : target = c.place.target)
      (carries : c.filters.carrier target = some carrier) : False := by
    rw [same] at carries
    rw [Context.carried, carries] at direct
    cases direct
  cases op with
  | openExternal target =>
      obtain ⟨same, route, carries, -⟩ := allowed
      exact uncarried same carries
  | openRules target =>
      obtain ⟨same, route, carries, -⟩ := allowed
      exact uncarried same carries
  | _ => trivial

/-- A connect asks the filter that carries its target for that target, or no filter. -/
theorem connect_within (turns : Nat) (filters : Filters) (appliesEch : Bool) (r : Request) :
    (connect turns filters appliesEch r : Script S _).Within (Of filters r.uri) fun _ => True := by
  cases located : placeOf r.uri with
  | error e =>
      rw [connect, located]
      trivial
  | ok p =>
      cases found : filters.carrier p.target with
      | some carrier =>
          rw [connect, located]
          dsimp only
          rw [found]
          exact (throughFilter_within r located found).bind fun _ _ => trivial
      | none =>
          let c : Context := ⟨filters, appliesEch, p, r⟩
          have direct : c.carried = false := by
            rw [Context.carried, found]
            rfl
          have uncarried : ∀ p', placeOf r.uri = .ok p' → filters.carrier p'.target = none := by
            intro p' located'
            rw [located] at located'
            cases located'
            exact found
          refine Monitor.within_of_keeping (connect_wp (S := S) (c := c) turns located) ?_
          exact fun k op allowed => of_beside uncarried (beside_of_allowed direct allowed)

theorem readRecords_within (turns : Nat) (best : Option SvcbEndpoint) :
    (readRecords turns best : Script S _).Within Beside fun _ => True := by
  refine (Program.Within.loop (I := fun _ => True) (Q := fun _ => True) (fun _ _ => ?_) turns
    trivial).anyway
  refine ⟨trivial, fun r => ?_⟩
  rcases r with (_ | _) | _ <;> trivial

/-- The record is asked for beside any filter. -/
theorem discoveredEndpoint_within (turns : Nat) (p : Place) (now : Duration) :
    (discoveredEndpoint turns p now : Script S _).Within Beside fun _ => True := by
  have polled (d : Discovery) :
      (pollDiscovery turns p now d : Script S _).Within Beside fun _ => True := by
    cases d with
    | reading best => exact readRecords_within turns best
    | unasked =>
        rw [pollDiscovery]
        split
        · trivial
        · refine ⟨trivial, fun marked => ?_⟩
          cases marked with
          | true => trivial
          | false =>
              refine ⟨trivial, fun able => ?_⟩
              cases able with
              | false => trivial
              | true => exact ⟨trivial, fun _ => readRecords_within turns none⟩
  have turn (d : Discovery) : (discoveryTurn turns p now d : Script S _).Within Beside
      fun _ => True := by
    refine (polled d).bind fun r _ => ?_
    rcases r with _ | found | d
    · trivial
    · trivial
    · exact ⟨trivial, fun _ => trivial⟩
  refine Program.Within.ifAny (Q := fun _ => True) trivial ?_ fun _ _ => trivial
  refine Program.Within.loop (I := fun _ => True) (fun d _ => ?_) turns trivial
  refine (turn d).mono (fun _ h => h) fun r _ => ?_
  cases r <;> trivial

end HClient.Connect.Connector
