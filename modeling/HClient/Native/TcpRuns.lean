import HClient.Native.PoolRuns
import HClient.Native.Tcp

/-!
# Requests over TCP in use

What a request's calls leave on record, whatever they are answered: its attempts, one after another,
and the connect mark it holds. And requests in any number and order over one transport, with the
connections they share: over which of them a request goes, and in which protocol.
-/
namespace HClient.Native.Tcp
open Effect
open Http3 (checkVersion)
open Undo (Outgoing)

variable {C : Type}

/-! ## The record -/

def exchangeOf : Event C → Option (Attempt C × Exchanged)
  | ⟨.exchange a, r⟩ => some (a, r)
  | ⟨.elapsed, _⟩ => none
  | ⟨.beginConnect _, _⟩ => none
  | ⟨.waitForConnect _ _, _⟩ => none
  | ⟨.finishConnect _, _⟩ => none
  | ⟨.take _ _, _⟩ => none
  | ⟨.isReusable _, _⟩ => none
  | ⟨.forgetShared _ _, _⟩ => none
  | ⟨.stale _, _⟩ => none
  | ⟨.reused _ _, _⟩ => none
  | ⟨.connect _ _ _ _, _⟩ => none
  | ⟨.connected _ _, _⟩ => none
  | ⟨.handshake _ _, _⟩ => none
  | ⟨.share _, _⟩ => none
  | ⟨.put _ _ _, _⟩ => none

/-- The attempts of a request, each with how it ended. -/
def exchanges (record : List (Event C)) : List (Attempt C × Exchanged) :=
  record.filterMap exchangeOf

def guardStep (held : Option PoolKey) : Event C → Option PoolKey
  | ⟨.beginConnect key, true⟩ => some key
  | ⟨.beginConnect _, false⟩ => held
  | ⟨.finishConnect key, _⟩ => if held = some key then none else held
  | ⟨.exchange _, _⟩ => held
  | ⟨.elapsed, _⟩ => held
  | ⟨.waitForConnect _ _, _⟩ => held
  | ⟨.take _ _, _⟩ => held
  | ⟨.isReusable _, _⟩ => held
  | ⟨.forgetShared _ _, _⟩ => held
  | ⟨.stale _, _⟩ => held
  | ⟨.reused _ _, _⟩ => held
  | ⟨.connect _ _ _ _, _⟩ => held
  | ⟨.connected _ _, _⟩ => held
  | ⟨.handshake _ _, _⟩ => held
  | ⟨.share _, _⟩ => held
  | ⟨.put _ _ _, _⟩ => held

/-- The key whose connect mark a request holds. -/
def held (record : List (Event C)) : Option PoolKey := record.foldl guardStep none

/-- The request as the attempts so far hand it back. -/
def resent (request : Outgoing) (xs : List (Attempt C × Exchanged)) : Outgoing :=
  xs.foldl (fun _ x => x.1.handedBack) request

def NotSent (xs : List (Attempt C × Exchanged)) : Prop := ∀ x ∈ xs, ∃ e, x.2 = .notSent e

@[simp] theorem exchanges_snoc (seen : List (Event C)) (e : Event C) :
    exchanges (seen ++ [e]) = exchanges seen ++ (exchangeOf e).toList := by
  unfold exchanges
  rw [List.filterMap_append]
  cases exchanged : exchangeOf e <;> simp [exchanged]

@[simp] theorem held_snoc (seen : List (Event C)) (e : Event C) :
    held (seen ++ [e]) = guardStep (held seen) e := by
  unfold held
  rw [List.foldl_concat]

/-! ## One request, whatever it is answered -/

section
variable {t : Transport} {call : Prepared} {parts : KeyParts}

/-- A connection that was made for the request, and what it is spoken as. -/
structure Dialled (t : Transport) (call : Prepared) (parts : KeyParts) (seen : List (Event C))
    (made : Made C) (protocol : Option Protocol) : Prop where
  asked : ∃ budget, ⟨.connect call.request.uri call.identity
    (alpnFor (offersH2 t call parts) t.versions.h1) budget, .ok made⟩ ∈ seen
  negotiated : protocol = negotiatedProtocol made.alpn (offersH2 t call parts)

/-- Where an attempt has its connection from: a bucket of the request's own, or a connect. -/
def Source (t : Transport) (call : Prepared) (parts : KeyParts) (seen : List (Event C))
    (a : Attempt C) : Prop :=
  (∃ protocol now, call.admits (some protocol) = true ∧
    ⟨.take (parts.key protocol) now, some a.est⟩ ∈ seen ∧
    a.checkin = t.checkinFor (parts.key protocol) now) ∨
  ∃ made protocol, Dialled t call parts seen made protocol ∧ call.admits protocol = true ∧
    a.est.connection = made.conn ∧ a.est.isH2 = isH2 protocol ∧
    ∀ checkin ∈ a.checkin, ∃ p, protocol = some p ∧ checkin.key = parts.key p

/-- The calls a request makes, by what it has been answered. -/
def Allowed (t : Transport) (call : Prepared) (parts : KeyParts) (seen : List (Event C)) :
    Op C → Prop
  | .exchange a => NotSent (exchanges seen) ∧
      (exchanges seen).length ≤ (t.pooledCandidates parts).length ∧
      a.request = resent (call.outgoing t) (exchanges seen) ∧ held seen = none ∧
      Source t call parts seen a
  | .put key est _ => key = parts.key .h2 ∧ ∃ made slot, est = .h2Shared slot made.conn ∧
      Dialled t call parts seen made (some .h2)
  | .connect uri identity alpn _ => uri = call.request.uri ∧ identity = call.identity ∧
      alpn = alpnFor (offersH2 t call parts) t.versions.h1
  | .elapsed => True
  | .beginConnect _ => True
  | .waitForConnect _ _ => True
  | .finishConnect _ => True
  | .take _ _ => True
  | .isReusable _ => True
  | .forgetShared _ _ => True
  | .stale _ => True
  | .reused _ _ => True
  | .connected _ _ => True
  | .handshake _ _ => True
  | .share _ => True

/-- The attempts of the request so far, of which none was sent; it may go over so many connections
of the pool. -/
structure Tried (t : Transport) (call : Prepared) (parts : KeyParts)
    (xs : List (Attempt C × Exchanged)) (left : Nat) (g : Going) (seen : List (Event C)) :
    Prop where
  exchanges : exchanges seen = xs
  notSent : NotSent xs
  few : xs.length + left ≤ (t.pooledCandidates parts).length
  request : g.request = resent (call.outgoing t) xs
  guard : held seen = g.guard

/-- What the request is answered is what its last attempt was. -/
structure Over (call : Prepared) (answer : Except Error Answered) (seen : List (Event C)) :
    Prop where
  released : held seen = none
  ok : ∀ r, answer = .ok r → ∃ a response, (exchanges seen).getLast? = some (a, .answered response) ∧
    r = answered call response
  error : ∀ e, answer = .error e → ∀ x ∈ exchanges seen, ∀ response, x.2 ≠ .answered response

variable {xs : List (Attempt C × Exchanged)} {left : Nat} {g : Going}
  {seen seen' : List (Event C)} {e : Event C} {a : Attempt C}

theorem Tried.snoc (h : Tried t call parts xs left g seen) (unsent : exchangeOf e = none)
    (kept : guardStep (held seen) e = held seen) :
    Tried t call parts xs left g (seen ++ [e]) := by
  refine ⟨?_, h.notSent, h.few, h.request, ?_⟩
  · rw [exchanges_snoc, unsent, h.exchanges]
    exact List.append_nil xs
  · rw [held_snoc, kept, h.guard]

theorem Tried.less (h : Tried t call parts xs (left + 1) g seen) :
    Tried t call parts xs left g seen :=
  ⟨h.exchanges, h.notSent, Nat.le_of_succ_le h.few, h.request, h.guard⟩

abbrev watch (t : Transport) (call : Prepared) (parts : KeyParts) :
    Monitor (Op C) Op.Answer (List (Event C)) := Monitor.history (Allowed t call parts)

theorem release_allowed (h : Tried t call parts xs left g seen) :
    (watch t call parts).wp (release g.guard)
      (fun seen' _ => seen ⊆ seen' ∧ Tried t call parts xs left { g with guard := none } seen')
      seen := by
  obtain ⟨request, guard, gate⟩ := g
  cases guard with
  | none => exact ⟨List.Subset.refl seen, h⟩
  | some key =>
      rw [release, Monitor.history_call]
      refine ⟨trivial, fun r => ⟨List.subset_append_left _ _, ?_⟩⟩
      refine ⟨?_, h.notSent, h.few, h.request, ?_⟩
      · rw [exchanges_snoc, h.exchanges]
        exact List.append_nil xs
      · rw [held_snoc, h.guard]
        exact if_pos rfl

theorem forget_allowed (key : PoolKey) (est : Established C)
    (h : Tried t call parts xs left g seen) :
    (watch t call parts).wp (forget key est)
      (fun seen' _ => seen ⊆ seen' ∧ Tried t call parts xs left g seen') seen := by
  unfold forget
  cases est.sharedSlot with
  | none => exact ⟨List.Subset.refl seen, h⟩
  | some slot =>
      dsimp only
      rw [Monitor.history_call]
      exact ⟨trivial, fun r => ⟨List.subset_append_left _ _, h.snoc rfl rfl⟩⟩

/-- Where a checkout has its connection from. -/
def Found (key : PoolKey) (now : Duration) (seen : List (Event C)) (r : Option (Established C)) :
    Prop := ∀ est, r = some est → ⟨.take key now, some est⟩ ∈ seen

theorem checkoutTurn_allowed (key : PoolKey) (now : Duration) {base : List (Event C)}
    (more : base ⊆ seen) (h : Tried t call parts xs left g seen) :
    (watch t call parts).wp (checkoutTurn key now ())
      (Turned (fun seen' (_ : Unit) => base ⊆ seen' ∧ Tried t call parts xs left g seen')
        (fun seen' r =>
          (base ⊆ seen' ∧ Tried t call parts xs left g seen') ∧ Found key now seen' r))
      seen := by
  rw [checkoutTurn, Monitor.history_call]
  refine ⟨trivial, fun r => ?_⟩
  have took : Tried t call parts xs left g (seen ++ [⟨.take key now, r⟩]) := h.snoc rfl rfl
  have more' := List.subset_append_of_subset_left [⟨.take key now, r⟩] more
  cases r with
  | none => exact ⟨⟨more', took⟩, nofun⟩
  | some est =>
      dsimp only
      rw [Monitor.history_call]
      refine ⟨trivial, fun alive => ?_⟩
      have polled : Tried t call parts xs left g
          (seen ++ [⟨.take key now, some est⟩] ++ [⟨.isReusable est, alive⟩]) := took.snoc rfl rfl
      have more'' := List.subset_append_of_subset_left [⟨.isReusable est, alive⟩] more'
      cases alive with
      | true =>
          refine ⟨⟨more'', polled⟩, ?_⟩
          rintro _ ⟨⟩
          simp
      | false =>
          refine Monitor.wp_seq _ (forget_allowed key est polled) fun seen'' _ forgotten => ?_
          rw [Monitor.history_call]
          refine ⟨trivial, fun r => ⟨?_, forgotten.2.snoc rfl rfl⟩⟩
          exact List.subset_append_of_subset_left _ (List.Subset.trans more'' forgotten.1)

theorem checkout_allowed (turns : Nat) (key : PoolKey) (now : Duration)
    (h : Tried t call parts xs left g seen) :
    (watch t call parts).wp (checkout turns key now)
      (fun seen' r => (seen ⊆ seen' ∧ Tried t call parts xs left g seen') ∧
        ∀ found, r = some found → Found key now seen' found) seen := by
  have turn (seen' : List (Event C)) (_ : Unit)
      (holds : seen ⊆ seen' ∧ Tried t call parts xs left g seen') :=
    checkoutTurn_allowed key now holds.1 holds.2
  refine Monitor.wp_mono _ (Monitor.wp_loop turn turns ⟨List.Subset.refl seen, h⟩)
    fun seen' r turned => ?_
  cases r with
  | none =>
      obtain ⟨-, holds⟩ := turned
      exact ⟨holds, nofun⟩
  | some found =>
      refine ⟨turned.1, ?_⟩
      rintro _ ⟨⟩
      exact turned.2

/-! ### An attempt -/

theorem Source.mono (h : Source t call parts seen a) (more : seen ⊆ seen') :
    Source t call parts seen' a := by
  rcases h with ⟨protocol, now, admits, took, checkin⟩ | ⟨made, protocol, dialled, rest⟩
  · exact .inl ⟨protocol, now, admits, more took, checkin⟩
  · obtain ⟨budget, asked⟩ := dialled.asked
    exact .inr ⟨made, protocol, ⟨⟨budget, more asked⟩, dialled.negotiated⟩, rest⟩

/-- One more attempt, and no mark is held. -/
structure Went (xs : List (Attempt C × Exchanged)) (a : Attempt C) (r : Exchanged)
    (seen : List (Event C)) : Prop where
  exchanges : exchanges seen = xs ++ [(a, r)]
  released : held seen = none

theorem exchange_allowed (h : Tried t call parts xs left g seen)
    (source : Source t call parts seen a) (request : a.request = g.request) :
    (watch t call parts).wp (exchange g a) (fun seen' r => Went xs a r seen') seen := by
  refine Monitor.wp_seq _ (release_allowed h) fun seen' _ released => ?_
  obtain ⟨more, tried⟩ := released
  rw [Monitor.history_call]
  refine ⟨⟨?_, ?_, ?_, tried.guard, source.mono more⟩, fun r => ⟨?_, ?_⟩⟩
  · rw [tried.exchanges]
    exact tried.notSent
  · rw [tried.exchanges]
    exact Nat.le_of_add_right_le tried.few
  · rw [tried.exchanges, request]
    exact tried.request
  · rw [exchanges_snoc, tried.exchanges]
    rfl
  · rw [held_snoc, tried.guard]
    rfl

theorem Went.over_ok {response : ResponseParts} (went : Went xs a (.answered response) seen) :
    Over call (.ok (answered call response)) seen := by
  refine ⟨went.released, ?_, nofun⟩
  rintro _ ⟨⟩
  exact ⟨a, response, by rw [went.exchanges, List.getLast?_concat], rfl⟩

theorem Went.over_error {r : Exchanged} {error : Error} (went : Went xs a r seen)
    (before : NotSent xs) (failed : ∀ response, r ≠ .answered response) :
    Over call (.error error) seen := by
  refine ⟨went.released, nofun, fun _ _ x member => ?_⟩
  rw [went.exchanges] at member
  rcases List.mem_append.mp member with earlier | last
  · obtain ⟨e, unsent⟩ := before x earlier
    intro response same
    cases unsent.symm.trans same
  · obtain rfl := List.mem_singleton.mp last
    exact failed

/-- The request goes on with what the attempt hands back. -/
theorem Went.tried {error : Error} (went : Went xs a (.notSent error) seen)
    (h : Tried t call parts xs (left + 1) g seen') (gate : Undo.GateId) :
    Tried t call parts (xs ++ [(a, .notSent error)]) left ⟨a.handedBack, none, gate⟩ seen := by
  refine ⟨went.exchanges, ?_, ?_, ?_, went.released⟩
  · intro x member
    rcases List.mem_append.mp member with earlier | last
    · exact h.notSent x earlier
    · obtain rfl := List.mem_singleton.mp last
      exact ⟨error, rfl⟩
  · have few := h.few
    rw [List.length_append, List.length_singleton]
    omega
  · rw [resent, List.foldl_concat]

theorem overPooled_allowed {key : PoolKey} {protocol : Protocol} {now : Duration}
    {est : Established C} (h : Tried t call parts xs (left + 1) g seen)
    (same : key = parts.key protocol) (admits : call.admits (some protocol) = true)
    (took : ⟨.take key now, some est⟩ ∈ seen) :
    (watch t call parts).wp (overPooled t call key now g est)
      (fun seen' r => match r with
        | .ended answer => Over call answer seen'
        | .going g' => ∃ xs', Tried t call parts xs' left g' seen') seen := by
  subst same
  rw [overPooled, Monitor.history_call]
  refine ⟨trivial, fun r => ?_⟩
  have reused : Tried t call parts xs (left + 1) g (seen ++ [⟨.reused est _, r⟩]) := h.snoc rfl rfl
  have source : Source t call parts (seen ++ [⟨.reused est _, r⟩])
      (attemptOf t call g est (t.checkinFor (parts.key protocol) now)) :=
    .inl ⟨protocol, now, admits, List.mem_append_left _ took, rfl⟩
  refine Monitor.wp_seq _ (exchange_allowed reused source rfl) fun seen' r went => ?_
  cases r with
  | answered response => exact went.over_ok
  | notSent error => exact ⟨_, went.tried reused _⟩
  | sent error => exact went.over_error h.notSent nofun

/-- The request is over, or goes on to a fresh connection. -/
theorem pooled_allowed (turns : Nat) (now : Duration) (protocols : List Protocol)
    (h : Tried t call parts xs protocols.length g seen) :
    (watch t call parts).wp (pooled t call parts turns now protocols g)
      (fun seen' r => match r with
        | none => True
        | some (.ended answer) => Over call answer seen'
        | some (.going g') => ∃ xs', Tried t call parts xs' 0 g' seen') seen := by
  induction protocols generalizing xs g seen with
  | nil => exact ⟨xs, h⟩
  | cons protocol protocols ih =>
      rw [pooled]
      split
      next admits =>
        refine Monitor.wp_seq _ (checkout_allowed turns _ now h) fun seen' r found => ?_
        obtain ⟨⟨-, tried⟩, found⟩ := found
        match r with
        | none => trivial
        | some none => exact ih tried.less
        | some (some est) =>
            have took := found _ rfl est rfl
            refine Monitor.wp_seq _ (overPooled_allowed tried rfl admits took) fun seen'' r on => ?_
            cases r with
            | ended answer => exact on
            | going g' =>
                obtain ⟨xs', tried'⟩ := on
                exact ih tried'
      · exact ih h.less

/-! ### A fresh connection -/

theorem giveUp_allowed (error : Error) (h : Tried t call parts xs left g seen) :
    (watch t call parts).wp (giveUp g error) (fun seen' r => Over call r seen') seen := by
  refine Monitor.wp_seq _ (release_allowed h) fun seen' _ released => ?_
  obtain ⟨-, tried⟩ := released
  refine ⟨tried.guard, nofun, fun _ _ x member response same => ?_⟩
  rw [tried.exchanges] at member
  obtain ⟨e, unsent⟩ := tried.notSent x member
  cases unsent.symm.trans same

theorem Dialled.mono {made : Made C} {protocol : Option Protocol}
    (h : Dialled t call parts seen made protocol) (more : seen ⊆ seen') :
    Dialled t call parts seen' made protocol := by
  obtain ⟨budget, asked⟩ := h.asked
  exact ⟨⟨budget, more asked⟩, h.negotiated⟩

/-- What a connection that was made is used as: it speaks what it negotiated, and is checked in
under that and nothing else. -/
def Readied (parts : KeyParts) (made : Made C) (protocol : Option Protocol)
    (r : Established C × Option CheckIn) : Prop :=
  r.1.connection = made.conn ∧ r.1.isH2 = isH2 protocol ∧
    ∀ checkin ∈ r.2, ∃ p, protocol = some p ∧ checkin.key = parts.key p

theorem readied (now : Duration) (made : Made C) (protocol : Option Protocol) :
    Readied parts made protocol
      (if isH2 protocol then .h2 made.conn else .h1 made.conn,
        protocol.bind fun p => t.checkinFor (parts.key p) now) := by
  refine ⟨?_, ?_, fun checkin member => ?_⟩
  · dsimp only
    split <;> rfl
  · dsimp only
    split
    next h2 => exact h2.symm
    next h1 => exact (Bool.eq_false_iff.mpr h1).symm
  · obtain ⟨p, same, checkin_of⟩ := Option.bind_eq_some_iff.mp member
    obtain ⟨cfg, -, rfl⟩ := Option.map_eq_some_iff.mp checkin_of
    exact ⟨p, same, rfl⟩

theorem share_allowed {made : Made C} {protocol : Option Protocol} {now : Duration}
    {est : Established C} {checkin : Option CheckIn} (h : Tried t call parts xs left g seen)
    (dialled : Dialled t call parts seen made protocol)
    (ready : Readied parts made protocol (est, checkin)) :
    (watch t call parts).wp (shareIfMultiplexing t parts now est checkin)
      (fun seen' r => (seen ⊆ seen' ∧ Tried t call parts xs left g seen') ∧
        Readied parts made protocol r) seen := by
  unfold shareIfMultiplexing
  split
  next cfg conn _ _ =>
    obtain ⟨same, h2, -⟩ := ready
    obtain rfl : conn = made.conn := same
    obtain rfl : protocol = some .h2 := of_decide_eq_true h2.symm
    rw [Monitor.history_call]
    refine ⟨trivial, fun slot => ?_⟩
    have spawned : Tried t call parts xs left g (seen ++ [⟨.share made.conn, slot⟩]) :=
      h.snoc rfl rfl
    rw [Monitor.history_call]
    refine ⟨⟨rfl, made, slot, rfl, dialled.mono (List.subset_append_left _ _)⟩, fun r => ?_⟩
    refine ⟨⟨?_, spawned.snoc rfl rfl⟩, rfl, rfl, nofun⟩
    exact List.subset_append_of_subset_left _ (List.subset_append_left _ _)
  · exact ⟨⟨List.Subset.refl seen, h⟩, ready⟩

theorem overMade_allowed {made : Made C} (now : Duration)
    (h : Tried t call parts xs left g seen)
    (dialled : Dialled t call parts seen made
      (negotiatedProtocol made.alpn (offersH2 t call parts))) :
    (watch t call parts).wp (overMade t call parts now g made)
      (fun seen' r => Over call r seen') seen := by
  rw [overMade]
  generalize negotiatedProtocol made.alpn (offersH2 t call parts) = protocol at dialled ⊢
  dsimp only
  rw [Monitor.history_call]
  refine ⟨trivial, fun r => ?_⟩
  have told : Tried t call parts xs left g (seen ++ [⟨.connected made.conn _, r⟩]) := h.snoc rfl rfl
  cases checked : checkVersion call.requireVersion (spokenVersion protocol) with
  | error e => exact giveUp_allowed e told
  | ok met =>
      have admits : call.admits protocol = true := by
        rw [Prepared.admits, checked]
        rfl
      dsimp only
      rw [Monitor.history_call]
      refine ⟨trivial, fun shaken => ?_⟩
      have shook : Tried t call parts xs left g
          (seen ++ [⟨.connected made.conn _, r⟩] ++ [⟨.handshake made.conn _, shaken⟩]) :=
        told.snoc rfl rfl
      cases shaken with
      | error e => exact giveUp_allowed e shook
      | ok done =>
          have dialled' := dialled.mono (List.subset_append_of_subset_left
            [⟨.handshake made.conn (isH2 protocol), .ok done⟩]
            (List.subset_append_left seen [⟨.connected made.conn (spokenVersion protocol), r⟩]))
          refine Monitor.wp_seq _ (share_allowed shook dialled' (readied now made protocol))
            fun seen' r shared => ?_
          obtain ⟨⟨more, tried⟩, ready⟩ := shared
          obtain ⟨est, checkin⟩ := r
          have source : Source t call parts seen' (attemptOf t call g est checkin) :=
            .inr ⟨made, protocol, dialled'.mono more, admits, ready⟩
          refine Monitor.wp_seq _ (exchange_allowed tried source rfl) fun seen'' r went => ?_
          cases r with
          | answered response => exact went.over_ok
          | notSent e => exact went.over_error tried.notSent nofun
          | sent e => exact went.over_error tried.notSent nofun

theorem fresh_allowed (now : Duration) (budget : Option Duration)
    (h : Tried t call parts xs left g seen) :
    (watch t call parts).wp (fresh t call parts now budget g)
      (fun seen' r => Over call r seen') seen := by
  rw [fresh, Monitor.history_call]
  refine ⟨⟨rfl, rfl, rfl⟩, fun r => ?_⟩
  cases r with
  | error e => exact giveUp_allowed e (h.snoc rfl rfl)
  | ok made => exact overMade_allowed now (h.snoc rfl rfl) ⟨⟨budget, by simp⟩, rfl⟩

/-! ### The whole request -/

/-- Before its first attempt. -/
structure Waiting (guard : Option PoolKey) (seen : List (Event C)) : Prop where
  exchanges : exchanges seen = []
  guard : held seen = guard

theorem Waiting.tried {guard : Option PoolKey} (h : Waiting guard seen) :
    Tried t call parts [] (t.pooledCandidates parts).length ⟨call.outgoing t, guard, 0⟩ seen :=
  ⟨h.exchanges, List.forall_mem_nil _, by simp, rfl, h.guard⟩

theorem Waiting.snoc {guard guard' : Option PoolKey} (h : Waiting guard seen)
    (unsent : exchangeOf e = none) (stepped : guardStep guard e = guard') :
    Waiting guard' (seen ++ [e]) := by
  refine ⟨?_, ?_⟩
  · rw [exchanges_snoc, unsent, h.exchanges]
    rfl
  · rw [held_snoc, h.guard, stepped]

theorem singleFlight_allowed (h : Waiting none seen) :
    (watch t call parts).wp (singleFlight t call parts)
      (fun seen' r => match r with
        | .error _ => Waiting none seen'
        | .ok (guard, _) => Waiting guard seen') seen := by
  unfold singleFlight
  dsimp only
  split
  · rw [Monitor.history_call]
    refine ⟨trivial, fun begun => ?_⟩
    cases begun with
    | true => exact h.snoc rfl rfl
    | false =>
        have refused : Waiting none (seen ++ [⟨.beginConnect (parts.key .h2), false⟩]) :=
          h.snoc rfl rfl
        dsimp only
        rw [Monitor.history_call]
        refine ⟨trivial, fun waited => ?_⟩
        have waited' : Waiting none (seen ++ [⟨.beginConnect (parts.key .h2), false⟩] ++
            [⟨.waitForConnect (parts.key .h2) call.connect, waited⟩]) := refused.snoc rfl rfl
        cases waited with
        | error e => exact waited'
        | ok budget =>
            dsimp only
            rw [Monitor.history_call]
            refine ⟨trivial, fun begun => ?_⟩
            cases begun with
            | true => exact waited'.snoc rfl rfl
            | false => exact waited'.snoc rfl rfl
  · exact h

theorem run_allowed (turns : Nat) (admitted : t.admitRequest call = .ok parts) :
    (watch t call parts).wp (run t call turns)
      (fun seen' r => ∀ answer, r = some answer → Over call answer seen') ([] : List (Event C)) := by
  have start : Waiting none ([] : List (Event C)) := ⟨rfl, rfl⟩
  rw [run, admitted]
  dsimp only
  rw [Monitor.history_call]
  refine ⟨trivial, fun now => ?_⟩
  refine Monitor.wp_seq _ (singleFlight_allowed (start.snoc rfl rfl)) fun seen r flown => ?_
  cases r with
  | error e =>
      rintro _ ⟨⟩
      refine ⟨flown.guard, nofun, fun _ _ x member => ?_⟩
      rw [flown.exchanges] at member
      cases member
  | ok guard =>
      obtain ⟨guard, budget⟩ := guard
      have waiting : Waiting guard seen := flown
      refine Monitor.wp_seq _ (pooled_allowed turns now (t.pooledCandidates parts) waiting.tried)
        fun seen' r on => ?_
      match r with
      | none => exact nofun
      | some (.ended answer) =>
          rintro _ ⟨⟩
          exact on
      | some (.going g) =>
          obtain ⟨xs, tried⟩ := on
          refine Monitor.wp_seq _ (fresh_allowed now budget tried) fun seen'' answer over' => ?_
          rintro _ ⟨⟩
          exact over'

/-- A request that is refused makes no call. -/
theorem run_refused {error : Error} (refused : t.admitRequest call = .error error) (turns : Nat) :
    (run t call turns : Script C _) = .done (some (.error error)) := by
  rw [run, refused]

theorem few_candidates (t : Transport) (parts : KeyParts) :
    (t.pooledCandidates parts).length ≤ 2 := by
  unfold Transport.pooledCandidates
  split <;> decide

theorem exchangeOf_eq_some {x : Attempt C × Exchanged} (viewed : exchangeOf e = some x) :
    e = ⟨.exchange x.1, x.2⟩ := by
  obtain ⟨op, r⟩ := e
  cases op with
  | exchange a =>
      cases viewed
      rfl
  | elapsed => cases viewed
  | beginConnect key => cases viewed
  | waitForConnect key budget => cases viewed
  | finishConnect key => cases viewed
  | take key now => cases viewed
  | isReusable est => cases viewed
  | forgetShared key slot => cases viewed
  | stale est => cases viewed
  | reused est version => cases viewed
  | connect uri identity alpn budget => cases viewed
  | connected conn version => cases viewed
  | handshake conn h2 => cases viewed
  | share conn => cases viewed
  | put key est expiresAt => cases viewed

/-- What comes before an attempt on record. -/
theorem exchanges_split {record : List (Event C)} {before after : List (Attempt C × Exchanged)}
    {x : Attempt C × Exchanged} (split : exchanges record = before ++ x :: after) :
    ∃ earlier later, record = earlier ++ ⟨.exchange x.1, x.2⟩ :: later ∧
      exchanges earlier = before := by
  obtain ⟨first, last, rfl, before_eq, rest⟩ := List.filterMap_eq_append_iff.mp split
  obtain ⟨quiet, e, later, rfl, unseen, viewed, -⟩ := List.filterMap_eq_cons_iff.mp rest
  obtain rfl := exchangeOf_eq_some viewed
  refine ⟨first ++ quiet, later, ?_, ?_⟩
  · rw [List.append_assoc]
  · rw [exchanges, List.filterMap_append, before_eq, List.filterMap_eq_nil_iff.mpr unseen,
      List.append_nil]

end

/-- The attempts of a request. Each but the last was not sent, and handed its request back to the
next one; nobody who waits for a connect waits for one of them; and the request is answered what
its last attempt is. -/
theorem run_attempts (t : Transport) (call : Prepared) (turns : Nat) {record : List (Event C)}
    {q : Script C (Option (Except Error Answered))} (steps : (run t call turns).Steps record q) :
    (exchanges record).length ≤ 3 ∧
    (∀ before a r after, exchanges record = before ++ (a, r) :: after →
      (∀ x ∈ before, ∃ e, x.2 = .notSent e) ∧ a.request = resent (call.outgoing t) before) ∧
    (∀ before a r after, record = before ++ ⟨.exchange a, r⟩ :: after → held before = none) ∧
    ∀ answer, q = .done (some answer) → Over call answer record := by
  cases admitted : t.admitRequest call with
  | error e =>
      rw [run_refused admitted] at steps
      obtain ⟨rfl, rfl⟩ := steps.done_inv
      refine ⟨Nat.zero_le 3, ?_, ?_, ?_⟩
      · intro before a r after split
        cases before <;> cases split
      · intro before a r after split
        cases before <;> cases split
      · rintro _ ⟨⟩
        exact ⟨rfl, nofun, fun _ _ => List.forall_mem_nil _⟩
  | ok parts =>
      obtain ⟨calls, rest⟩ := Monitor.history_steps steps (run_allowed turns admitted)
      have attempt {before : List (Attempt C × Exchanged)} {x : Attempt C × Exchanged}
          {after : List (Attempt C × Exchanged)}
          (split : exchanges record = before ++ x :: after) :
          NotSent before ∧ before.length ≤ (t.pooledCandidates parts).length ∧
            x.1.request = resent (call.outgoing t) before := by
        obtain ⟨earlier, later, rfl, rfl⟩ := exchanges_split split
        obtain ⟨notSent, few, request, -⟩ := calls earlier _ later rfl
        exact ⟨notSent, few, request⟩
      refine ⟨?_, ?_, ?_, ?_⟩
      · rcases List.eq_nil_or_concat' (exchanges record) with none | ⟨before, x, split⟩
        · rw [none]
          exact Nat.zero_le 3
        · have few := (attempt split).2.1.trans (few_candidates t parts)
          rw [split, List.length_append, List.length_singleton]
          exact Nat.succ_le_succ few
      · intro before a r after split
        obtain ⟨notSent, -, request⟩ := attempt split
        exact ⟨notSent, request⟩
      · intro before a r after split
        exact (calls before _ after split).2.2.2.1
      · rintro answer rfl
        exact rest answer rfl

def plain : Transport :=
  ⟨⟨true, true, .inl rfl⟩, 0, fun _ => none, true, false, some .default, none, .new, false, false⟩

def toOrigin : Prepared where
  request := ⟨.get, ⟨some .http, some ⟨none, "example.com".toList, none⟩, some ⟨['/'], none⟩⟩, .http11,
    [], ⟨.buffered none, none⟩⟩
  identity := none
  requireVersion := none
  connect := none
  firstByte := none
  betweenBytes := none

/-- A pool whose connection was closed while it was idle, and a peer that answers on a new one. -/
def closedWhileIdle : (op : Op Nat) → Bool → op.Answer × Bool
  | .elapsed, s => ((0 : Duration), s)
  | .beginConnect _, s => (true, s)
  | .waitForConnect _ budget, s => (.ok budget, s)
  | .finishConnect _, s => ((), s)
  | .take _ _, s => (some (.h1 0), s)
  | .isReusable _, s => (true, s)
  | .forgetShared _ _, s => ((), s)
  | .stale _, s => ((), s)
  | .reused _ _, s => ((), s)
  | .connect _ _ _ _, s => (.ok ⟨1, none⟩, s)
  | .connected _ _, s => ((), s)
  | .handshake _ _, s => (.ok (), s)
  | .share _, s => ((0 : Nat), s)
  | .put _ _ _, s => ((), s)
  | .exchange _, false => (.notSent (.new .connect .connectionWentAwayBeforeTheRequest), true)
  | .exchange _, true => (.answered ⟨200, .http11, []⟩, true)

/-- A request that was handed back goes out on a second connection. -/
theorem run_attempts_closedWhileIdle : ∃ (record : List (Event Nat)) (answer : _),
    (exchanges record).map (fun x => x.1.est) = [.h1 0, .h1 1] ∧ Over toOrigin answer record :=
  ⟨_, _, by decide, (run_attempts plain toOrigin 1
    (Program.steps_log closedWhileIdle (run plain toOrigin 1) false)).2.2.2 _ rfl⟩

/-! ## A checkout -/

/-- A pool by itself, whose connections are alive or not; it makes none. -/
def fromPool (alive : Established C → Bool) : (op : Op C) → Pool C → op.Answer × Pool C
  | .elapsed, p => ((0 : Duration), p)
  | .beginConnect _, p => (true, p)
  | .waitForConnect _ budget, p => (.ok budget, p)
  | .finishConnect _, p => ((), p)
  | .take key now, p => p.take key now
  | .isReusable est, p => (alive est, p)
  | .forgetShared key slot, p => ((), p.forgetShared key slot)
  | .stale _, p => ((), p)
  | .reused _ _, p => ((), p)
  | .connect _ _ _ _, p => (.error (.new .connect (.allAttemptsFailed 0)), p)
  | .connected _ _, p => ((), p)
  | .handshake _ _, p => (.ok (), p)
  | .share _, p => ((0 : Nat), p)
  | .put key est expiresAt, p => ((), p.put key est expiresAt)
  | .exchange _, p => (.sent (.new .connect (.allAttemptsFailed 0)), p)

section
variable {alive : Established C → Bool} {p : Pool C} {key : PoolKey} {now : Duration}

/-- The same connection, or another sender of it. -/
def SameConnection (est other : Established C) : Prop :=
  est = other ∨ ∃ slot, est.sharedSlot = some slot ∧ other.sharedSlot = some slot

/-- A checkout answers a connection of the bucket that is alive and has not expired, or finds that
there is none. -/
structure CheckedOut (alive : Established C → Bool) (entries : List (Idle C)) (now : Duration)
    (r : Option (Established C)) : Prop where
  found : ∀ est, r = some est → alive est = true ∧ ∃ e ∈ entries, e.est = est ∧ now < e.expiresAt
  none : r = none → ∀ e ∈ entries, e.expiresAt ≤ now ∨
    ∃ dead ∈ entries, alive dead.est = false ∧ SameConnection dead.est e.est

/-- The pool after a dead connection was walked past. -/
def walked (p : Pool C) (key : PoolKey) (est : Established C) : Pool C :=
  match est.sharedSlot with
  | none => p
  | some slot => p.forgetShared key slot

theorem runWith_forget (key : PoolKey) (est : Established C) (p : Pool C) :
    (forget key est).runWith (fromPool alive) p = ((), walked p key est) := by
  unfold forget walked
  cases est.sharedSlot with
  | none => rfl
  | some slot => rfl

/-- What a dead connection that is walked past leaves of a bucket: nothing of that connection, and
what came before it and is none. -/
theorem bucket_walked {left : List (Idle C)} {entry : Idle C} {fresh : Option Duration}
    (taken : p.bucket key = left ++ Pool.kept fresh entry) :
    (walked p key entry.est).bucket key ⊆ left ∧
      ((walked p key entry.est).bucket key).length ≤ left.length ∧
      ∀ e ∈ left, e ∈ (walked p key entry.est).bucket key ∨ SameConnection entry.est e.est := by
  unfold walked
  unfold Pool.kept at taken
  have unshared (same : p.bucket key = left) : p.bucket key ⊆ left ∧
      (p.bucket key).length ≤ left.length ∧
      ∀ e ∈ left, e ∈ p.bucket key ∨ SameConnection entry.est e.est := by
    rw [same]
    exact ⟨List.Subset.refl left, Nat.le_refl _, fun e member => .inl member⟩
  cases held : entry.est with
  | h1 connection =>
      rw [held] at taken unshared
      exact unshared (taken.trans (List.append_nil left))
  | h2 connection =>
      rw [held] at taken unshared
      exact unshared (taken.trans (List.append_nil left))
  | h2Shared slot sender =>
      rw [held] at taken
      dsimp only [Established.borrowed] at taken
      dsimp only [Established.sharedSlot]
      rw [Pool.bucket_forgetShared, if_pos rfl, taken, List.filter_append]
      have gone : List.filter (fun e : Idle C => e.est.sharedSlot ≠ some slot)
          [⟨.h2Shared slot sender, fresh.getD entry.expiresAt⟩] = [] := by
        simp [Established.sharedSlot]
      rw [gone, List.append_nil]
      refine ⟨List.filter_sublist.subset, List.length_filter_le _ _, fun e member => ?_⟩
      by_cases other : e.est.sharedSlot = some slot
      · exact .inr (.inr ⟨slot, rfl, other⟩)
      · exact .inl (List.mem_filter.mpr ⟨member, decide_eq_true other⟩)

theorem CheckedOut.walked {left expired : List (Idle C)} {entry : Idle C}
    {r : Option (Established C)} (later : CheckedOut alive (p.bucket key) now r)
    (dead : alive entry.est = false) (old : ∀ e ∈ expired, e.expiresAt ≤ now)
    (fewer : p.bucket key ⊆ left)
    (others : ∀ e ∈ left, e ∈ p.bucket key ∨ SameConnection entry.est e.est) :
    CheckedOut alive (left ++ entry :: expired) now r := by
  refine ⟨fun est found => ?_, fun none e member => ?_⟩
  · obtain ⟨lives, e, member, rest⟩ := later.found est found
    exact ⟨lives, e, List.mem_append_left _ (fewer member), rest⟩
  · have here : entry ∈ left ++ entry :: expired := by simp
    rcases List.mem_append.mp member with before | after
    · rcases others e before with kept | same
      · rcases later.none none e kept with expired' | ⟨other, held, rest⟩
        · exact .inl expired'
        · exact .inr ⟨other, List.mem_append_left _ (fewer held), rest⟩
      · exact .inr ⟨entry, here, dead, same⟩
    · rcases List.mem_cons.mp after with rfl | after
      · exact .inr ⟨e, here, dead, .inl rfl⟩
      · exact .inl (old e after)

theorem runWith_checkout (turns : Nat) (key : PoolKey) (now : Duration) (p : Pool C) :
    ((checkout (turns + 1) key now).runWith (fromPool alive) p).1 =
      match p.take key now with
      | (none, _) => some none
      | (some est, p') => if alive est then some (some est)
          else ((checkout turns key now).runWith (fromPool alive) (walked p' key est)).1 := by
  rw [checkout, Program.loop, Program.runWith_bind, checkoutTurn, Program.runWith_call]
  dsimp only [fromPool]
  cases p.take key now with
  | mk found p' =>
      cases found with
      | none => rfl
      | some est =>
          dsimp only
          rw [Program.runWith_call]
          dsimp only [fromPool]
          cases alive est with
          | true => rfl
          | false =>
              dsimp only
              rw [Program.runWith_bind, runWith_forget]
              rfl

/-- A checkout ends within one turn for each connection that its bucket holds, and one to find it
empty. -/
theorem checkout_finds (turns : Nat) (p : Pool C) (few : (p.bucket key).length ≤ turns) :
    ∃ r, ((checkout (turns + 1) key now).runWith (fromPool alive) p).1 = some r ∧
      CheckedOut alive (p.bucket key) now r := by
  induction turns generalizing p with
  | zero =>
      have empty := List.length_eq_zero_iff.mp (Nat.le_zero.mp few)
      rw [runWith_checkout]
      rcases Pool.take_spec p key now with ⟨-, done⟩ | ⟨entries, -, -, done⟩ |
        ⟨left, entry, expired, held, -, -, -⟩
      · rw [done, empty]
        exact ⟨none, rfl, nofun, fun _ => List.forall_mem_nil _⟩
      · rw [done, empty]
        exact ⟨none, rfl, nofun, fun _ => List.forall_mem_nil _⟩
      · rw [Pool.bucket_of_lookup held] at empty
        simp at empty
  | succ turns ih =>
      rw [runWith_checkout]
      rcases Pool.take_spec p key now with ⟨held, done⟩ | ⟨entries, held, old, done⟩ |
        ⟨left, entry, expired, held, old, live, done⟩
      · rw [done, Pool.bucket_of_lookup_none held]
        exact ⟨none, rfl, nofun, fun _ => List.forall_mem_nil _⟩
      · rw [done, Pool.bucket_of_lookup held]
        exact ⟨none, rfl, nofun, fun _ e member => .inl (old e member)⟩
      · rw [Pool.bucket_of_lookup held] at few ⊢
        rw [done]
        dsimp only
        cases lives : alive entry.est with
        | true =>
            refine ⟨some entry.est, rfl, ?_, nofun⟩
            rintro _ ⟨⟩
            exact ⟨lives, entry, by simp, rfl, live⟩
        | false =>
            have taken : (p.leave key (left ++ Pool.kept (p.renewed now) entry)).bucket key =
                left ++ Pool.kept (p.renewed now) entry := by
              rw [Pool.bucket_leave, if_pos rfl]
            obtain ⟨fewer, shorter, others⟩ := bucket_walked taken
            have room : left.length ≤ turns := by
              rw [List.length_append, List.length_cons] at few
              omega
            obtain ⟨r, answered, out⟩ := ih _ (shorter.trans room)
            exact ⟨r, answered, out.walked lives old fewer others⟩

end

/-- Over a pool whose connections are alive or not, a checkout ends. It answers a connection of its
bucket that is alive and has not expired; where it answers none, all that the bucket held had
expired, or was dead or the sender of a connection that was. -/
theorem checkout_ends (alive : Established C → Bool) (p : Pool C) (key : PoolKey) (now : Duration) :
    ∃ r, ((checkout ((p.bucket key).length + 1) key now).runWith (fromPool alive) p).1 = some r ∧
      CheckedOut alive (p.bucket key) now r :=
  checkout_finds _ p (Nat.le_refl _)

end HClient.Native.Tcp
