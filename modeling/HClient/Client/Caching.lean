import HClient.Cache.Contents
import HClient.Client.Stages
import HClient.Effect.Interleave

/-!
# Hops over one cache

What a hop tells the cache, and what the cache answers it. The entry of a hop is stored under
the fields the hop's own parts hold, and a challenge leg is sent with others; a lookup is made
before the flow writes its fields.
-/
namespace HClient.Client

open Effect Program Config Cache

variable {F W : Type} {cfg : Config}

theorem combined_of_getAll {headers headers' : HeaderMap HeaderValue} {name : HeaderName}
    (same : headers.getAll name = headers'.getAll name) :
    combined headers name = combined headers' name := by
  rw [combined, combined, same]

/-- The values of a field as they go out. -/
theorem getAll_unmarked (headers : Headers) (name : HeaderName) :
    HeaderMap.getAll (unmarked headers) name = (headers.getAll name).map Marked.bytes := by
  simp only [HeaderMap.getAll, unmarked, List.filter_map, List.map_map]
  rfl

theorem getAll_apply {edit : HeaderEdit} {headers : Headers} {name : HeaderName}
    (other : name ≠ edit.name) :
    HeaderMap.getAll (edit.apply headers) name = HeaderMap.getAll headers name := by
  cases edit with
  | insert n value => exact HeaderMap.getAll_insert_of_ne other
  | append n value => exact HeaderMap.getAll_append_of_ne other
  | remove n => exact HeaderMap.getAll_remove_of_ne other

/-- A flow's edits leave the fields it does not name. -/
theorem combined_applyEdits {edits : List HeaderEdit} {headers : Headers} {name : HeaderName}
    (unwritten : name ∉ edits.map HeaderEdit.name) :
    combined (unmarked (applyEdits edits headers)) name = combined (unmarked headers) name := by
  refine combined_of_getAll ?_
  rw [getAll_unmarked, getAll_unmarked]
  congr 1
  unfold applyEdits
  induction edits generalizing headers with
  | nil => rfl
  | cons edit edits ih =>
      simp only [List.map_cons, List.mem_cons, not_or] at unwritten
      rw [List.foldl_cons, ih unwritten.2, getAll_apply unwritten.1]

theorem combined_addConditions {conditions : List (HeaderName × HeaderValue)} {headers : Headers}
    {name : HeaderName} (other : ∀ c ∈ conditions, c.1 ≠ name) :
    combined (unmarked (conditions.foldl addCondition headers)) name =
      combined (unmarked headers) name := by
  refine combined_of_getAll ?_
  rw [getAll_unmarked, getAll_unmarked]
  congr 1
  induction conditions generalizing headers with
  | nil => rfl
  | cons c conditions ih =>
      rw [List.foldl_cons, ih fun c' member => other c' (List.mem_cons_of_mem _ member)]
      exact HeaderMap.getAll_insert_of_ne (other c List.mem_cons_self).symm

/-- What is told to the cache agrees with the request whose response it is, but for the fields
the flow wrote to answer a challenge. -/
def Told : ClientCall F → Prop
  | .record storing received => storing.request = unmarked received.sent ∧
      ∃ base names, varyNames received.parts.headers = some names ∧
        storing.selector = Selector.of base names ∧
        ∀ n ∉ received.written, combined (unmarked received.sent) n = combined base n
  | .revalidated _ stale received _ _ => stale.Own ∧
      (HeaderName.authorization ∉ received.written →
        combined stale.request HeaderName.authorization =
          combined (unmarked received.sent) HeaderName.authorization)
  | _ => True

def wroteNothing (answer : List HeaderEdit × F) : Prop := answer.1 = []

/-- The answers relied on: the cache's, and a flow's that writes nothing before the first
send. -/
def Reliable : Event (ClientCall F) ClientCall.Answer → Prop
  | ⟨.lookup _ _ headers _, found⟩ => Lookup.For headers found
  | ⟨.authorize _ _ _ .first, answer⟩ => wroteNothing answer
  | _ => True

def cacheMonitor (F : Type) : Monitor (ClientCall F) ClientCall.Answer Unit where
  allowed _ op := Told op
  answers _ op r := Reliable ⟨op, r⟩
  update _ _ _ := ()

theorem told_of_aside (op : ClientCall F) (aside : Aside op) : Told op := by
  cases op with
  | record storing received => cases aside
  | revalidated key stale received requestedAt receivedAt => cases aside
  | _ => trivial

theorem aside_told {α : Type} {p : Script F α} {Q : α → Prop} (h : p.Within Aside Q) :
    p.Within Told Q := h.mono told_of_aside fun _ => id

/-- The response is one to a request with the fields of `hp`, but for those a leg wrote. -/
structure Answers (hp : HopParts) (received : Received) : Prop where
  agree : ∀ n ∉ received.written,
    combined (unmarked received.sent) n = combined (unmarked hp.headers) n

def OutcomeOf (hp : HopParts) : Except TransportError Received → Prop
  | .ok received => Answers hp received
  | .error _ => True

/-- An exchange of a hop whose parts hold the fields of `hp`. -/
structure ExchangeOf (hp : HopParts) (x : Exchange) : Prop where
  headers : x.hp.headers = hp.headers
  received : Answers hp x.received

def ResultOf (hp : HopParts) : Except RunError Exchange → Prop
  | .ok x => ExchangeOf hp x
  | .error _ => True

theorem sendHop_answers (hp : HopParts) {sent : HopParts} {written : List HeaderName} (body : RequestBody)
    (cause : Cause) (agree : ∀ n ∉ written,
      combined (unmarked sent.headers) n = combined (unmarked hp.headers) n) :
    (cfg.sendHop sent body cause written : Script F _).Within Told (OutcomeOf hp) := by
  refine ⟨trivial, fun answer => ?_⟩
  cases answer with
  | error e => trivial
  | ok parts => exact (aside_told (noteResponse_aside sent parts)).bind fun _ _ => ⟨agree⟩

theorem retryLoop_answers {hp : HopParts} (replay : Option RequestBody) (fuel : Nat)
    {s : RetryState} (headers : s.hp.headers = hp.headers) :
    (cfg.retryLoop replay fuel s : Script F _).Within Told (ResultOf hp) := by
  induction fuel generalizing s with
  | zero => trivial
  | succ fuel ih =>
      unfold retryLoop
      split
      · trivial
      refine (sendHop_answers hp _ _ fun n _ => ?_).bind fun outcome answers => ?_
      · rw [RetryState.taken, headers]
      refine (aside_told (askRetry_aside _ _ _)).bind fun again _ => ?_
      cases again with
      | some requestedAt => exact ih (s := { s.taken with requestedAt }) headers
      | none =>
          cases outcome with
          | error e => trivial
          | ok received => exact ⟨headers, answers⟩

theorem resumed_of {hp : HopParts} {x : Exchange} (of_hop : ExchangeOf hp x)
    {outcome : Except TransportError Received} (answers : OutcomeOf hp outcome)
    (attemptId : Attempt) (requestedAt : SystemTime) :
    ResultOf hp (x.resumed attemptId requestedAt outcome) := by
  cases outcome with
  | error e => trivial
  | ok received => exact ⟨of_hop.headers, answers⟩

theorem replayTooEarly_answers {hp : HopParts} (replay : Option RequestBody) {x : Exchange}
    (of_hop : ExchangeOf hp x) :
    (cfg.replayTooEarly replay x : Script F _).Within Told (ResultOf hp) := by
  unfold replayTooEarly
  split
  · exact of_hop
  split
  · exact of_hop
  · refine (aside_told cacheNow_aside).bind fun requestedAt _ => ?_
    refine (sendHop_answers hp _ _ fun n _ => ?_).bind fun outcome answers => ?_
    · rw [of_hop.headers]
    · exact resumed_of of_hop answers _ requestedAt

theorem sendLeg_answers {hp : HopParts} (flow : F) (again : RequestBody) {x : Exchange}
    (of_hop : ExchangeOf hp x) :
    (cfg.sendLeg flow again x).Within Told fun r => ResultOf hp r.1 := by
  refine ⟨trivial, fun answer => ?_⟩
  refine (aside_told cacheNow_aside).bind fun requestedAt _ => ?_
  refine (sendHop_answers hp _ _ fun n unwritten => ?_).bind fun outcome answers => ?_
  · rw [combined_applyEdits unwritten, of_hop.headers]
  · exact resumed_of of_hop answers _ requestedAt

theorem legLoop_answers {hp : HopParts} (replay : Option RequestBody) (left : Nat) (flow : F)
    {x : Exchange} (of_hop : ExchangeOf hp x) :
    (cfg.legLoop replay left flow x).Within Told (ResultOf hp) := by
  induction left generalizing flow x with
  | zero =>
      unfold legLoop
      refine ⟨trivial, fun step => ?_⟩
      obtain ⟨step, flow'⟩ := step
      cases step with
      | finished => exact of_hop
      | again => trivial
  | succ left ih =>
      unfold legLoop
      refine ⟨trivial, fun step => ?_⟩
      obtain ⟨step, flow'⟩ := step
      cases step with
      | finished => exact of_hop
      | again =>
          simp only
          split
          · exact of_hop
          · refine (sendLeg_answers flow' _ of_hop).bind fun r answers => ?_
            obtain ⟨sent, flow''⟩ := r
            cases sent with
            | error e => trivial
            | ok x => exact ih flow'' answers

theorem answerChallenges_answers {hp : HopParts} (replay : Option RequestBody) (flow : Option F)
    {x : Exchange} (of_hop : ExchangeOf hp x) :
    (cfg.answerChallenges replay flow x).Within Told (ResultOf hp) := by
  cases flow with
  | none => exact of_hop
  | some flow => exact legLoop_answers replay _ flow of_hop

/-- The entry a conditional request is out for was obtained with the credential of `hp`. -/
def PlanFor (hp : HopParts) : Plan → Prop
  | none => True
  | some (_, stale) => stale.Own ∧ combined stale.request HeaderName.authorization =
      combined (unmarked hp.headers) HeaderName.authorization

theorem cacheBefore_wp (hp : HopParts) (owns : Bool) :
    (cacheMonitor F).wp (cfg.cacheBefore hp owns) (fun _ before =>
      ∀ hp' plan, before = .inr (hp', plan) → PlanFor hp' plan) () := by
  unfold cacheBefore
  split
  · intro hp' plan same
    cases same
    trivial
  refine ⟨trivial, fun now _ => ⟨trivial, fun found reliable => ?_⟩⟩
  cases found with
  | miss =>
      intro hp' plan same
      cases same
      trivial
  | hit stored =>
      intro hp' plan same
      cases same
  | unsatisfiable =>
      intro hp' plan same
      cases same
  | revalidate key stale conditions =>
      intro hp' plan same
      cases same
      obtain ⟨own, credential, others⟩ := reliable
      refine ⟨own, ?_⟩
      rw [combined_addConditions others]
      exact credential

theorem authorizeFirst_wp (auth : Bool) (hp : HopParts) (replay : Option RequestBody) :
    (cacheMonitor F).wp (authorizeFirst auth hp replay) (fun _ r => r.2.headers = hp.headers)
      () := by
  cases auth with
  | false => exact rfl
  | true =>
      refine ⟨trivial, fun flow _ => ⟨trivial, fun answer silent => ?_⟩⟩
      have none_written : answer.1 = [] := silent
      change applyEdits answer.1 hp.headers = hp.headers
      rw [none_written]
      rfl

theorem exchange_cached (fuel : Nat) (s : RunState) (hp : HopParts)
    (replay : Option RequestBody) :
    (cacheMonitor F).wp (cfg.exchange fuel s hp replay) (fun _ => ResultOf hp) () := by
  unfold exchange
  refine Monitor.wp_seq _ (authorizeFirst_wp s.auth hp replay) ?_
  rintro _ ⟨flow, hp'⟩ headers
  refine Monitor.wp_of_within _ (Q := ResultOf hp) ?_ (fun _ _ => id) ()
  refine (aside_told cacheNow_aside).bind fun requestedAt _ => ?_
  refine (retryLoop_answers replay fuel headers).bind fun sent sentOf => ?_
  cases sent with
  | error e => trivial
  | ok x =>
      refine (replayTooEarly_answers replay sentOf).bind fun replayed replayedOf => ?_
      cases replayed with
      | error e => trivial
      | ok x => exact answerChallenges_answers replay flow replayedOf

theorem recordResponse_told (cache : HttpCache) {hp : HopParts} {x : Exchange}
    (of_hop : ExchangeOf hp x) (receivedAt : SystemTime) :
    (recordResponse cache x receivedAt : Script F _).Within Told fun _ => True := by
  refine ⟨trivial, fun _ => ?_⟩
  simp only
  split
  · trivial
  next storing ok =>
    obtain ⟨request, names, nominated, selector⟩ := HttpCache.storing_selector ok
    refine ⟨⟨request, _, names, nominated, selector, fun n unwritten => ?_⟩, fun _ => trivial⟩
    rw [of_hop.headers]
    exact of_hop.received.agree n unwritten

theorem cacheAfter_told {hp : HopParts} {plan : Plan} (planned : PlanFor hp plan) {x : Exchange}
    (of_hop : ExchangeOf hp x) :
    (cfg.cacheAfter plan x : Script F _).Within Told fun _ => True := by
  unfold cacheAfter
  split
  · trivial
  refine ⟨trivial, fun receivedAt => ?_⟩
  cases plan with
  | none => exact recordResponse_told _ of_hop receivedAt
  | some pair =>
      obtain ⟨key, stale⟩ := pair
      simp only
      split
      · refine ⟨⟨planned.1, fun unwritten => ?_⟩, fun _ => trivial⟩
        exact planned.2.trans (of_hop.received.agree _ unwritten).symm
      · exact ⟨trivial, fun _ => recordResponse_told _ of_hop receivedAt⟩

theorem hop_told (fuel : Nat) (s : RunState) :
    (cacheMonitor F).wp (cfg.hop fuel s) (fun _ _ => True) () := by
  have quietly := fun {α : Type} {p : Script F α} (h : p.Within Told fun _ => True) =>
    Monitor.wp_of_within (cacheMonitor F) h (fun _ _ => id) ()
  have ended := fun (hp : HopParts) (attemptId : Attempt) (resp : ResponseParts) =>
    quietly (p := cfg.afterHop s hp s.body.rewind attemptId resp)
      ((aside_told (afterHop_aside s hp s.body.rewind attemptId resp)).mono (fun _ => id)
        fun _ _ => trivial)
  unfold Config.hop
  refine Monitor.wp_seq _ (quietly ((aside_told (prepare_aside .any s)).mono (fun _ => id)
    fun _ _ => trivial)) ?_
  intro _ hp _
  refine Monitor.wp_seq _ (cacheBefore_wp hp _) ?_
  intro _ before planned
  match before with
  | .inl (hp', answered) => exact ended hp' _ answered
  | .inr (hp', plan) =>
      refine Monitor.wp_seq _ (exchange_cached fuel s hp' _) ?_
      intro _ sent sentOf
      cases sent with
      | error e => trivial
      | ok x =>
          refine Monitor.wp_seq _ (quietly (cacheAfter_told (planned hp' plan rfl) sentOf)) ?_
          intro _ resp _
          exact ended x.hp _ resp

/-- What the hops of a client share: its cache's store, the recorders whose bodies have not
ended, and everything else. -/
structure Shared (W : Type) where
  held : Held
  recording : List Storing
  outside : W

/-- A hop under way, or a recorder whose body has ended. -/
inductive ClientTask where
  | hop (s : RunState)
  | commit (storing : Storing) (body : List UInt8)

def ClientTask.state : ClientTask → Option RunState
  | .hop s => some s
  | .commit .. => none

/-- What answers the calls that do not go to the cache. -/
abbrev Environment (F W : Type) := (op : ClientCall F) → W → op.Answer × W

section
variable (capacity : Nat) (env : Environment F W)

def onStore {α : Type} (p : Cache.Script α) (σ : Shared W) : α × Shared W :=
  ((p.runWith (MemoryStore.handle capacity) σ.held).1,
    { σ with held := (p.runWith (MemoryStore.handle capacity) σ.held).2 })

def cacheHandle : (op : ClientCall F) → Shared W → op.Answer × Shared W
  | .lookup method uri headers now, σ =>
      onStore capacity (HttpCache.lookup method uri headers now) σ
  | .revalidated key stale received requestedAt receivedAt, σ =>
      onStore capacity (HttpCache.revalidated key stale received.parts requestedAt receivedAt) σ
  | .superseded key stale, σ => onStore capacity (HttpCache.superseded key stale) σ
  | .invalidatedBy method uri status, σ =>
      onStore capacity (HttpCache.invalidatedBy method uri status) σ
  | .record storing _, σ => ((), { σ with recording := storing :: σ.recording })
  | op, σ => ((env op σ.outside).1, { σ with outside := (env op σ.outside).2 })

/-- Any number of hops over one cache, from any states of the loop, and the recorders they
hand out. -/
def cachingClient (cfg : Config) (fuel : Nat) :
    System ClientTask (ClientCall F) ClientCall.Answer Unit (Shared W) where
  body
    | .hop s => (cfg.hop fuel s).bind fun _ => .done ()
    | .commit .. => .done ()
  enter
    | .hop _, σ => some σ
    | .commit storing body, σ =>
        if storing ∈ σ.recording then
          some { (onStore capacity (HttpCache.store storing body) σ).2 with
            recording := σ.recording.erase storing }
        else none
  handle := cacheHandle capacity env

abbrev ClientPool (F W : Type) := Pool Nat ClientTask (ClientCall F) ClientCall.Answer Unit (Shared W)

def ClientPool.start (F : Type) (w : W) : ClientPool F W := ⟨⟨Held.new, [], w⟩, fun _ => none⟩

/-- What the flow would write before the first send of a hop whose lookup is at hand. -/
def wouldWrite (s : RunState) (method : Method) (uri : Uri) (headers : HeaderMap HeaderValue)
    (w : W) : List HeaderEdit :=
  if s.auth then
    let started := env .startFlow w
    (env (.authorize started.1 ⟨method, uri, authBody s.body.rewind⟩ headers .first)
      started.2).1.1
  else []

/-- The fields the hop would be sent with. -/
def wouldSend (s : RunState) (method : Method) (uri : Uri) (headers : HeaderMap HeaderValue)
    (w : W) : HeaderMap HeaderValue :=
  unmarked (applyEdits (wouldWrite env s method uri headers w)
    (headers.map fun f => (f.1, ⟨f.2, .caller⟩)))

/-- No flow writes a field before a hop's first send, and none of the fields a flow wrote into
the answered request is of the selector its response is recorded under. -/
def CallCareful (σ : Shared W) (task : ClientTask) : ClientCall F → Prop
  | .lookup method uri headers _ =>
      ∀ s ∈ task.state, wouldWrite env s method uri headers σ.outside = []
  | .authorize flow request headers .first =>
      (env (.authorize flow request headers .first) σ.outside).1.1 = []
  | .record storing received => ∀ n ∈ received.written, n ∉ storing.selector.names
  | .revalidated _ _ received _ _ => HeaderName.authorization ∉ received.written
  | _ => True

def Careful (p : ClientPool F W) (l : Label Nat ClientTask) : Prop :=
  ∀ c ∈ p.nextOp l, CallCareful env p.shared c.1 c.2

/-- The lookup is made with the fields the hop would be sent with, and what it serves was
obtained with their credential. -/
def LookupRight (σ : Shared W) (s : RunState) (method : Method) (uri : Uri)
    (headers : HeaderMap HeaderValue) (now : SystemTime) : Prop :=
  wouldSend env s method uri headers σ.outside = headers ∧
    ∀ stored ∈ ((HttpCache.lookup method uri headers now).runWith
        (MemoryStore.handle capacity) σ.held).1.served,
      combined stored.request HeaderName.authorization =
        combined (wouldSend env s method uri headers σ.outside) HeaderName.authorization

/-- A lookup is right; what is recorded stands under the selector of the very request that was
answered; and a revalidated response was obtained with that request's credential. -/
def CallRight (σ : Shared W) (task : ClientTask) : ClientCall F → Prop
  | .lookup method uri headers now =>
      ∀ s ∈ task.state, LookupRight capacity env σ s method uri headers now
  | .record storing received => storing.request = unmarked received.sent ∧
      ∃ names, varyNames received.parts.headers = some names ∧
        storing.selector = Selector.of (unmarked received.sent) names
  | .revalidated _ stale received _ _ =>
      combined stale.request HeaderName.authorization =
        combined (unmarked received.sent) HeaderName.authorization
  | _ => True

def Right (p : ClientPool F W) (l : Label Nat ClientTask) : Prop :=
  ∀ c ∈ p.nextOp l, CallRight capacity env p.shared c.1 c.2

end

/-- Along every run of hops and recorders whose steps are careful every step is right, and
every entry held stands under the selector of the request whose response it is. -/
def CacheKeeps (cfg : Config) (fuel capacity : Nat) (env : Environment F W) (w : W)
    (careful : ClientPool F W → Label Nat ClientTask → Prop) : Prop :=
  ∀ ls p, (cachingClient capacity env cfg fuel).run (ClientPool.start F w) ls = some p →
    (cachingClient capacity env cfg fuel).Always careful (ClientPool.start F w) ls →
      (cachingClient capacity env cfg fuel).Always (Right capacity env) (ClientPool.start F w) ls ∧
        p.shared.held.All StoredResponse.Own

section
variable {capacity : Nat} {env : Environment F W} {σ : Shared W}

structure SharedInv (σ : Shared W) : Prop where
  held : σ.held.All StoredResponse.Own
  recording : ∀ storing ∈ σ.recording, ∃ names,
    storing.selector = Selector.of storing.request names

theorem unmarked_of_plain (headers : HeaderMap HeaderValue) (origin : Origin) :
    unmarked (headers.map fun f => (f.1, ⟨f.2, origin⟩)) = headers := by
  simp [unmarked, Function.comp_def]

theorem lookupRight_of_careful (inv : SharedInv σ) {s : RunState} {method : Method} {uri : Uri}
    {headers : HeaderMap HeaderValue} (silent : wouldWrite env s method uri headers σ.outside = [])
    (now : SystemTime) : LookupRight capacity env σ s method uri headers now := by
  have sent : wouldSend env s method uri headers σ.outside = headers := by
    rw [wouldSend, silent]
    exact unmarked_of_plain headers .caller
  refine ⟨sent, fun stored served => ?_⟩
  rw [sent]
  have found := HttpCache.lookup_for capacity inv.held method uri headers now
  generalize ((HttpCache.lookup method uri headers now).runWith
    (MemoryStore.handle capacity) σ.held).1 = answer at served found
  cases answer with
  | hit stored' =>
      cases served
      exact found.2
  | miss => cases served
  | revalidate key stale conditions => cases served
  | unsatisfiable => cases served

theorem callRight_of_careful (inv : SharedInv σ) {task : ClientTask} {op : ClientCall F}
    (told : Told op) (careful : CallCareful env σ task op) :
    CallRight capacity env σ task op := by
  cases op with
  | lookup method uri headers now =>
      exact fun s hop => lookupRight_of_careful inv (careful s hop) now
  | record storing received =>
      obtain ⟨request, base, names, nominated, selector, agree⟩ := told
      refine ⟨request, names, nominated, ?_⟩
      rw [selector]
      refine Selector.of_congr fun n member => ?_
      refine (agree n fun written => careful n written ?_).symm
      rw [selector]
      exact member
  | revalidated key stale received requestedAt receivedAt => exact told.2 careful
  | _ => trivial

theorem reliable_of_careful (inv : SharedInv σ) {task : ClientTask} {op : ClientCall F}
    (careful : CallCareful env σ task op) :
    Reliable ⟨op, (cacheHandle capacity env op σ).1⟩ := by
  cases op with
  | lookup method uri headers now => exact HttpCache.lookup_for capacity inv.held method uri headers now
  | authorize flow request headers cause =>
      cases cause with
      | first => exact careful
      | _ => trivial
  | _ => trivial

theorem cacheHandle_inv (inv : SharedInv σ) {task : ClientTask} {op : ClientCall F}
    (told : Told op) (right : CallRight capacity env σ task op) :
    SharedInv (cacheHandle capacity env op σ).2 := by
  cases op with
  | lookup method uri headers now =>
      refine ⟨?_, inv.recording⟩
      change ((HttpCache.lookup method uri headers now).runWith
        (MemoryStore.handle capacity) σ.held).2.All StoredResponse.Own
      rw [HttpCache.lookup_held]
      exact inv.held
  | revalidated key stale received requestedAt receivedAt =>
      exact ⟨HttpCache.revalidated_held capacity inv.held told.1 key, inv.recording⟩
  | superseded key stale =>
      exact ⟨HttpCache.superseded_held capacity inv.held key stale, inv.recording⟩
  | invalidatedBy method uri status =>
      exact ⟨HttpCache.invalidatedBy_held capacity inv.held _ _ _, inv.recording⟩
  | record storing received =>
      refine ⟨inv.held, fun storing' member => ?_⟩
      obtain rfl | old := List.mem_cons.mp member
      · obtain ⟨request, names, -, selector⟩ := right
        exact ⟨names, by rw [request, selector]⟩
      · exact inv.recording storing' old
  | _ => exact ⟨inv.held, inv.recording⟩

theorem commit_inv (inv : SharedInv σ) {storing : Storing} (member : storing ∈ σ.recording)
    (body : List UInt8) :
    SharedInv { (onStore capacity (HttpCache.store storing body) σ).2 with
      recording := σ.recording.erase storing } where
  held := HttpCache.store_held (P := StoredResponse.Own) capacity inv.held (inv.recording storing member)
  recording storing' kept := inv.recording storing' (List.mem_of_mem_erase kept)

/-- The invariant of a run: what is shared, and what is left of every hop. -/
def CacheInv (p : ClientPool F W) : Prop :=
  SharedInv p.shared ∧ System.Verified (cacheMonitor F) () p

theorem cacheInv_start (w : W) : CacheInv (ClientPool.start F w) :=
  ⟨⟨Held.all_new, fun _ member => by cases member⟩, fun _ _ there => by cases there⟩

theorem body_told (cfg : Config) (fuel : Nat) (task : ClientTask) :
    (cacheMonitor F).wp ((cachingClient capacity env cfg fuel).body task) (fun _ _ => True) () := by
  cases task with
  | hop s => exact Monitor.wp_seq _ (hop_told fuel s) fun _ _ _ => trivial
  | commit storing body => trivial

theorem told_of_nextOp {p : ClientPool F W} (inv : CacheInv p) {l : Label Nat ClientTask}
    {c : ClientTask × ClientCall F} (next : p.nextOp l = some c) : Told c.2 := by
  cases l with
  | start i about => cases next
  | advance i =>
      obtain ⟨task, there, called⟩ := Option.bind_eq_some_iff.mp next
      have verified := inv.2 i task there
      obtain ⟨about, rest⟩ := task
      cases rest with
      | done a => cases called
      | call op follow =>
          cases called
          exact verified.1

theorem right_of_careful {p : ClientPool F W} {l : Label Nat ClientTask}
    (careful : Careful env p l) (inv : CacheInv p) : Right capacity env p l :=
  fun c next => callRight_of_careful inv.1 (told_of_nextOp inv next) (careful c next)

theorem cacheInv_step {cfg : Config} {fuel : Nat} {p p' : ClientPool F W}
    {l : Label Nat ClientTask} (careful : Careful env p l) (inv : CacheInv p)
    (stepped : (cachingClient capacity env cfg fuel).step p l = some p') : CacheInv p' := by
  refine ⟨?_, System.verified_step (body_told cfg fuel)
    (fun c next => reliable_of_careful inv.1 (careful c next)) inv.2 stepped⟩
  cases l with
  | start i about =>
      obtain ⟨-, shared, entered, rfl⟩ := System.step_start stepped
      cases about with
      | hop s =>
          cases entered
          exact inv.1
      | commit storing body =>
          obtain ⟨member, same⟩ := Option.ite_none_right_eq_some.mp entered
          cases same
          exact commit_inv inv.1 member body
  | advance i =>
      obtain ⟨about, op, next, here, rfl⟩ := System.step_advance stepped
      have called : p.nextOp (.advance i) = some (about, op) := by simp [Pool.nextOp, here]
      exact cacheHandle_inv inv.1 (told_of_nextOp inv called)
        (right_of_careful careful inv (about, op) called)

end

theorem careful_cache_keeps (F W : Type) (cfg : Config) (fuel capacity : Nat)
    (env : Environment F W) (w : W) : CacheKeeps cfg fuel capacity env w (Careful env) := by
  intro ls p reached careful
  refine ⟨careful.of_invariant CacheInv (fun _ _ _ => cacheInv_step)
    (fun _ _ => right_of_careful) (cacheInv_start w), ?_⟩
  exact (System.run_preserves (fun _ _ _ => cacheInv_step) careful (cacheInv_start w)
    reached).1.held

section Scene

def cachingConfig : Config := { plainConfig with cache := some ⟨.default⟩ }

def alice : HeaderEdit := .insert HeaderName.authorization (.ofAscii "Bearer alice")

/-- A server that wants a credential, and a flow that answers its challenge. -/
def challengeScene : Scene where
  transport _ cause :=
    match cause with
    | .leg => .ok ⟨200, .http11, [("cache-control".toList, .ofAscii "max-age=60")]⟩
    | _ => .ok ⟨401, .http11, []⟩
  edits := [alice]
  step status := if status = 401 then .again else .finished

/-- The flow of the scene writes nothing before the first send. -/
def challengeEnv : Environment Unit Unit
  | .authorize _ _ _ .first, _ => (([], ()), ())
  | op, _ => challengeScene.handle op ()

/-- A flow that answers the challenge with a field of its own. -/
def tokenEnv : Environment Unit Unit
  | .authorize _ _ _ .first, _ => (([], ()), ())
  | op, _ => Scene.handle
      { challengeScene with edits := [.insert "x-token".toList (.ofAscii "one")] } op ()

def getHop (auth : Bool) : ClientTask :=
  .hop (.start .get (plainUri "a.test") [] .http11 false .empty auth 0)

/-- A hop up to its end, the end of its response's body, and another hop's lookup. -/
def twoHops (env : Environment Unit Unit) (auth : Bool) : List (Label Nat ClientTask) :=
  let first := .start 0 (getHop auth) :: List.replicate (if auth then 14 else 7) (.advance 0)
  let pool := (cachingClient 10 env cachingConfig 1).after (ClientPool.start Unit ()) first
  first ++ (pool.shared.recording.map fun storing => .start 1 (.commit storing [])) ++
    [.start 2 (getHop false), .advance 2, .advance 2]

instance decidableCallCareful (σ : Shared Unit) (task : ClientTask) :
    (op : ClientCall Unit) → Decidable (CallCareful tokenEnv σ task op)
  | .lookup method uri headers _ => inferInstanceAs (Decidable (∀ s ∈ task.state,
      wouldWrite tokenEnv s method uri headers σ.outside = []))
  | .authorize _ _ _ .first => inferInstanceAs (Decidable (_ = ([] : List HeaderEdit)))
  | .record storing received =>
      inferInstanceAs (Decidable (∀ n ∈ received.written, n ∉ storing.selector.names))
  | .revalidated _ _ received _ _ =>
      inferInstanceAs (Decidable (HeaderName.authorization ∉ received.written))
  | .authorize _ _ _ .retry | .authorize _ _ _ .tooEarly | .authorize _ _ _ .leg
  | .upgrade _ | .cookieHeader _ | .clock | .superseded .. | .invalidatedBy .. | .startFlow
  | .onResponse .. | .send .. | .storeCookies .. | .noteHsts .. | .retryVerdict _ | .sleep _
  | .redirectVerdict _ => .isTrue trivial

instance (p : ClientPool Unit Unit) (l : Label Nat ClientTask) : Decidable (Careful tokenEnv p l) :=
  inferInstanceAs (Decidable (∀ c ∈ p.nextOp l, CallCareful tokenEnv p.shared c.1 c.2))

/-- The answer that the token brought is kept, under a selector that the token is no part of. -/
theorem careful_cache_keeps_token :
    ((cachingClient 10 tokenEnv cachingConfig 1).after (ClientPool.start Unit ())
      (twoHops tokenEnv true)).shared.held.All StoredResponse.Own :=
  (careful_cache_keeps Unit Unit cachingConfig 1 10 tokenEnv () (twoHops tokenEnv true) _
    (System.run_eq_after (by decide +kernel)) (by decide +kernel)).2

/-- The lookup a step makes serves nothing that was obtained with another credential than the
hop would be sent with. -/
def ServesOwn (env : Environment Unit Unit) (p : ClientPool Unit Unit) (l : Label Nat ClientTask) :
    Bool :=
  match p.nextOp l with
  | some (.hop s, .lookup method uri headers now) =>
      match ((HttpCache.lookup method uri headers now).runWith
          (MemoryStore.handle 10) p.shared.held).1.served with
      | some stored => combined stored.request HeaderName.authorization =
          combined (wouldSend env s method uri headers p.shared.outside) HeaderName.authorization
      | none => true
  | _ => true

theorem servesOwn_of_right {env : Environment Unit Unit} {p : ClientPool Unit Unit}
    {l : Label Nat ClientTask} (right : Right 10 env p l) : ServesOwn env p l = true := by
  unfold ServesOwn
  split
  next s method uri headers now next =>
    have looked : LookupRight 10 env p.shared s method uri headers now := right _ next s rfl
    split
    next stored served => exact decide_eq_true (looked.2 stored served)
    · rfl
  · rfl

/-- What was answered to `alice` is served to a request without a credential. -/
theorem challenge_served_without_credential :
    ¬ CacheKeeps cachingConfig 1 10 challengeEnv () fun _ _ => True := by
  intro keeps
  have right := (keeps (twoHops challengeEnv true) _ (System.run_eq_after (by decide +kernel))
    (System.always_true _ _)).1
  have serves := right.mono fun _ _ => servesOwn_of_right
  revert serves
  decide +kernel

end Scene

end HClient.Client
