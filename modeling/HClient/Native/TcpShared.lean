import HClient.Effect.Open
import HClient.Native.TcpRuns

/-!
# Connections that requests share

Requests in any number and order over one transport, and what they share: the pool, the connect
marks, the connections that were made, and those that wait for the end of a response to be checked
in. Over which connection a request goes, and in which protocol.
-/
namespace HClient.Native.Tcp
open Effect
open Http3 (checkVersion)

/-- How a connection was made: for whom, what was offered and what its handshake reports. -/
structure Conn where
  uri : Uri
  identity : Option Text
  offered : List (List UInt8)
  alpn : Option (List UInt8)
  deriving DecidableEq

/-- What a connection is spoken as. -/
def Conn.protocol (conn : Conn) : Option Protocol :=
  negotiatedProtocol conn.alpn (conn.offered.contains h2Alpn)

/-- The calls of the pool so far stand for it. An exclusive connection whose response is read is
owed to the pool. -/
structure Network (C : Type) where
  config : Option PoolConfig
  calls : List (PoolOp C)
  marks : List PoolKey
  conns : C → Option Conn
  owed : List (CheckIn × Established C)

variable {C : Type}

namespace Network

def new (config : Option PoolConfig) : Network C := ⟨config, [], [], fun _ => none, []⟩

def pool (n : Network C) : Pool C := .after n.config n.calls

def call (n : Network C) (op : PoolOp C) : Network C := { n with calls := n.calls ++ [op] }

/-- What the network may answer: the pool answers what it holds, one connect at a time has the mark
of its key, and a connection that is made is a new one. -/
def Admits (n : Network C) : (op : Op C) → op.Answer → Prop
  | .elapsed, _ => True
  | .beginConnect key, true => key ∉ n.marks
  | .beginConnect key, false => key ∈ n.marks
  | .waitForConnect _ _, _ => True
  | .finishConnect _, _ => True
  | .take key now, found => found = (n.pool.take key now).1
  | .isReusable _, _ => True
  | .forgetShared _ _, _ => True
  | .stale _, _ => True
  | .reused _ _, _ => True
  | .connect _ _ _ _, .error _ => True
  | .connect _ _ _ _, .ok made => n.conns made.conn = none
  | .connected _ _, _ => True
  | .handshake _ _, _ => True
  | .share _, _ => True
  | .put _ _ _, _ => True
  | .exchange _, _ => True

/-- An answered attempt over an exclusive connection owes it to the pool where it has a check-in. -/
def owe (n : Network C) (a : Attempt C) : Network C :=
  match a.checkin, a.est.borrowed with
  | some checkin, none => { n with owed := n.owed ++ [(checkin, a.est)] }
  | some _, some _ => n
  | none, _ => n

def update [DecidableEq C] (n : Network C) : (op : Op C) → op.Answer → Network C
  | .elapsed, _ => n
  | .beginConnect key, true => { n with marks := key :: n.marks }
  | .beginConnect _, false => n
  | .waitForConnect _ _, _ => n
  | .finishConnect key, _ => { n with marks := n.marks.erase key }
  | .take key now, _ => n.call (.take key now)
  | .isReusable _, _ => n
  | .forgetShared key slot, _ => n.call (.forgetShared key slot)
  | .stale _, _ => n
  | .reused _ _, _ => n
  | .connect _ _ _ _, .error _ => n
  | .connect uri identity alpn _, .ok made =>
      { n with conns := Function.update n.conns made.conn (some ⟨uri, identity, alpn, made.alpn⟩) }
  | .connected _ _, _ => n
  | .handshake _ _, _ => n
  | .share _, _ => n
  | .put key est expiresAt, _ => n.call (.put key est expiresAt)
  | .exchange a, .answered _ => n.owe a
  | .exchange _, .notSent _ => n
  | .exchange _, .sent _ => n

end Network

/-- What happens by itself: a response ends and its connection is checked in, or is given up with
its connection, and the pool is reaped. -/
inductive Happening where
  | ended (i : Nat)
  | abandoned (i : Nat)
  | reap (now : Duration)

def Network.happens (n : Network C) : Happening → Option (Network C)
  | .ended i =>
      match n.owed[i]? with
      | none => none
      | some (checkin, est) => some ({ n with owed := n.owed.eraseIdx i }.call
          (.put checkin.key est checkin.expiresAt))
  | .abandoned i => some { n with owed := n.owed.eraseIdx i }
  | .reap now => some (n.call (.reap now))

def system [DecidableEq C] (t : Transport) (turns : Nat) :
    OpenSystem Prepared Happening (Op C) Op.Answer (Option (Except Error Answered)) (Network C) where
  body call := run t call turns
  admits := Network.Admits
  update := Network.update
  event e n := n.happens e

/-- A connection that was made for those who have this pool key, and speaks the key's protocol. -/
structure Serves (t : Transport) (conns : C → Option Conn) (key : PoolKey) (est : Established C) :
    Prop where
  made : ∃ conn parts, conns est.connection = some conn ∧
    t.partsFor conn.uri conn.identity = .ok parts ∧ parts.key key.protocol = key ∧
    conn.protocol = some key.protocol
  spoken : est.isH2 = isH2 (some key.protocol)

/-- A request goes over a connection made for its own origin, as its own identity and through its
own proxy, in the protocol that the connection negotiated, which meets its demand. -/
structure Fits (t : Transport) (call : Prepared) (conn : Conn) (a : Attempt C) : Prop where
  place : ∃ there here, t.partsFor conn.uri conn.identity = .ok there ∧
    t.admitRequest call = .ok here ∧
    ∀ protocol, there.key protocol = here.key protocol
  spoken : a.est.isH2 = isH2 conn.protocol
  demand : checkVersion call.requireVersion (spokenVersion conn.protocol) = .ok ()
  checkin : ∀ checkin ∈ a.checkin, conn.protocol = some checkin.key.protocol

structure Network.Sound (t : Transport) (n : Network C) : Prop where
  put : ∀ key est expiresAt, .put key est expiresAt ∈ n.calls → Serves t n.conns key est
  owed : ∀ x ∈ n.owed, Serves t n.conns x.1.key x.2

/-- What was answered still stands. -/
structure Agrees (t : Transport) (n : Network C) (record : List (Event C)) : Prop where
  took : ∀ key now est, ⟨.take key now, some est⟩ ∈ record → Serves t n.conns key est
  made : ∀ uri identity alpn budget made, ⟨.connect uri identity alpn budget, .ok made⟩ ∈ record →
    n.conns made.conn = some ⟨uri, identity, alpn, made.alpn⟩

/-- What is promised of a request, of whose calls there is a record. -/
def Kept (t : Transport) (n : Network C) (call : Prepared) (record : List (Event C)) : Prop :=
  ∀ x ∈ exchanges record, ∃ conn, n.conns x.1.est.connection = some conn ∧ Fits t call conn x.1

structure Fine (t : Transport) (n : Network C) (call : Prepared) (record : List (Event C)) : Prop where
  agrees : Agrees t n record
  kept : Kept t n call record

/-- How a connection was made does not change. -/
def Network.Later (n n' : Network C) : Prop :=
  ∀ c conn, n.conns c = some conn → n'.conns c = some conn

section
variable {t : Transport} {n n' : Network C} {call : Prepared} {parts : KeyParts} {key : PoolKey}
  {est : Established C} {a : Attempt C} {record : List (Event C)}

theorem Serves.later (h : Serves t n.conns key est) (later : n.Later n') : Serves t n'.conns key est := by
  obtain ⟨conn, parts, here, rest⟩ := h.made
  exact ⟨⟨conn, parts, later _ _ here, rest⟩, h.spoken⟩

theorem Network.Sound.later {conns : C → Option Conn} (h : n.Sound t)
    (later : n.Later { n with conns }) : Network.Sound t { n with conns } :=
  ⟨fun key est expiresAt put => (h.put key est expiresAt put).later later,
    fun x member => (h.owed x member).later later⟩

theorem Agrees.later (h : Agrees t n record) (later : n.Later n') : Agrees t n' record :=
  ⟨fun key now est took => (h.took key now est took).later later,
    fun uri identity alpn budget made asked =>
      later _ _ (h.made uri identity alpn budget made asked)⟩

theorem Kept.later (h : Kept t n call record) (later : n.Later n') : Kept t n' call record := by
  intro x member
  obtain ⟨conn, here, fits⟩ := h x member
  exact ⟨conn, later _ _ here, fits⟩

theorem Fine.later (h : Fine t n call record) (later : n.Later n') : Fine t n' call record :=
  ⟨h.agrees.later later, h.kept.later later⟩

/-- Keys that agree for one protocol agree for every one. -/
theorem key_congr {there here : KeyParts} {p : Protocol} (same : there.key p = here.key p)
    (q : Protocol) : there.key q = here.key q := by
  unfold KeyParts.key PoolKey.new at same ⊢
  simp only [PoolKey.mk.injEq] at same ⊢
  exact ⟨same.1, same.2.1, same.2.2.1, trivial, same.2.2.2.2⟩

theorem contains_alpnFor (offered h1 : Bool) :
    (alpnFor offered h1).contains h2Alpn = offered := by
  cases offered <;> cases h1 <;> decide

theorem admit_ok (admitted : t.admitRequest call = .ok parts) :
    t.partsFor call.request.uri call.identity = .ok parts := by
  unfold Transport.admitRequest at admitted
  cases placed : t.partsFor call.request.uri call.identity with
  | error e =>
      rw [placed] at admitted
      cases admitted
  | ok parts' =>
      rw [placed] at admitted
      dsimp only at admitted
      split at admitted
      · cases admitted
      · exact admitted

theorem demand_of_admits {protocol : Option Protocol} (admits : call.admits protocol = true) :
    checkVersion call.requireVersion (spokenVersion protocol) = .ok () := by
  unfold Prepared.admits at admits
  cases checked : checkVersion call.requireVersion (spokenVersion protocol) with
  | error e =>
      rw [checked] at admits
      cases admits
  | ok met => rfl

/-- A connection made for the request is what it negotiated. -/
theorem Dialled.conn {made : Made C} {protocol : Option Protocol} (agrees : Agrees t n record)
    (dialled : Dialled t call parts record made protocol) :
    ∃ conn, n.conns made.conn = some conn ∧ conn.uri = call.request.uri ∧
      conn.identity = call.identity ∧ conn.protocol = protocol := by
  obtain ⟨budget, asked⟩ := dialled.asked
  refine ⟨_, agrees.made _ _ _ _ _ asked, rfl, rfl, ?_⟩
  rw [Conn.protocol, contains_alpnFor, ← dialled.negotiated]

theorem Dialled.serves {made : Made C} {p : Protocol} (agrees : Agrees t n record)
    (admitted : t.admitRequest call = .ok parts) (dialled : Dialled t call parts record made (some p))
    (connection : est.connection = made.conn) (spoken : est.isH2 = isH2 (some p)) :
    Serves t n.conns (parts.key p) est := by
  obtain ⟨conn, here, uri, identity, protocol⟩ := dialled.conn agrees
  refine ⟨⟨conn, parts, ?_, ?_, rfl, protocol⟩, spoken⟩
  · rw [connection]
    exact here
  · rw [uri, identity]
    exact admit_ok admitted

theorem Source.fits (agrees : Agrees t n record) (admitted : t.admitRequest call = .ok parts)
    (source : Source t call parts record a) :
    ∃ conn, n.conns a.est.connection = some conn ∧ Fits t call conn a := by
  rcases source with ⟨protocol, now, admits, took, checkin⟩ |
    ⟨made, protocol, dialled, admits, connection, spoken, checkin⟩
  · have serves := agrees.took _ _ _ took
    obtain ⟨conn, there, here, placed, same, negotiated⟩ := serves.made
    refine ⟨conn, here, ⟨there, parts, placed, admitted, key_congr same⟩, ?_, ?_, ?_⟩
    · rw [negotiated]
      exact serves.spoken
    · rw [negotiated]
      exact demand_of_admits admits
    · intro c member
      rw [checkin] at member
      obtain ⟨cfg, -, rfl⟩ := Option.map_eq_some_iff.mp member
      exact negotiated
  · obtain ⟨conn, here, uri, identity, negotiated⟩ := dialled.conn agrees
    refine ⟨conn, by rw [connection, here], ⟨parts, parts, ?_, admitted, fun _ => rfl⟩, ?_, ?_, ?_⟩
    · rw [uri, identity]
      exact admit_ok admitted
    · rw [negotiated, spoken]
    · rw [negotiated]
      exact demand_of_admits admits
    · intro c member
      obtain ⟨p, rfl, key⟩ := checkin c member
      rw [negotiated, key]
      rfl

/-- An attempt checks its connection in under a key that it serves. -/
theorem Source.checkin (agrees : Agrees t n record) (admitted : t.admitRequest call = .ok parts)
    (source : Source t call parts record a) {c : CheckIn} (member : a.checkin = some c) :
    Serves t n.conns c.key a.est := by
  rcases source with ⟨protocol, now, admits, took, checkin⟩ |
    ⟨made, protocol, dialled, admits, connection, spoken, checkin⟩
  · rw [member] at checkin
    obtain ⟨cfg, -, rfl⟩ := Option.map_eq_some_iff.mp checkin.symm
    exact agrees.took _ _ _ took
  · obtain ⟨p, rfl, key⟩ := checkin c member
    rw [key]
    exact dialled.serves agrees admitted connection spoken

/-! ### What a call keeps -/

theorem Network.call_sound (sound : n.Sound t) {op : PoolOp C}
    (serves : ∀ key est expiresAt, op = .put key est expiresAt → Serves t n.conns key est) :
    (n.call op).Sound t := by
  refine ⟨fun key est expiresAt put => ?_, fun x member => ?_⟩
  · rcases List.mem_append.mp put with earlier | last
    · exact sound.put key est expiresAt earlier
    · exact serves key est expiresAt (List.mem_singleton.mp last).symm
  · exact sound.owed x member

/-- What the pool hands out serves the key it was asked for. -/
theorem Network.take_serves (sound : n.Sound t) {now : Duration}
    (found : (n.pool.take key now).1 = some est) : Serves t n.conns key est := by
  have right := Pool.right_step (Pool.stamped_after n.config n.calls) (.take key now)
  unfold Network.pool at found
  rw [Pool.Right, found] at right
  obtain ⟨e, -, rfl, -, expiresAt, put, -⟩ := right
  exact sound.put key e.est expiresAt put

variable [DecidableEq C]

theorem Network.later_update {op : Op C} {r : op.Answer} (admitted : n.Admits op r) :
    n.Later (n.update op r) := by
  intro c conn here
  cases op with
  | connect uri identity alpn budget =>
      cases r with
      | error e => exact here
      | ok made =>
          have other : c ≠ made.conn := by
            rintro rfl
            cases here.symm.trans admitted
          exact (Function.update_of_ne other _ _).trans here
  | beginConnect key => cases r <;> exact here
  | exchange a =>
      cases r with
      | answered response =>
          unfold Network.update Network.owe
          dsimp only
          split <;> exact here
      | notSent e => exact here
      | sent e => exact here
  | _ => exact here

theorem Agrees.snoc (h : Agrees t n record) (sound : n.Sound t) {op : Op C} {r : op.Answer}
    (admitted : n.Admits op r) : Agrees t (n.update op r) (record ++ [⟨op, r⟩]) := by
  have later := Network.later_update admitted
  refine ⟨fun key now est took => ?_, fun uri identity alpn budget made asked => ?_⟩
  · rcases List.mem_append.mp took with earlier | last
    · exact (h.took key now est earlier).later later
    · cases List.mem_singleton.mp last
      exact (Network.take_serves sound admitted.symm).later later
  · rcases List.mem_append.mp asked with earlier | last
    · exact later _ _ (h.made uri identity alpn budget made earlier)
    · cases List.mem_singleton.mp last
      exact Function.update_self _ _ _

theorem Kept.snoc (h : Kept t n call record) (agrees : Agrees t n record)
    (admitted : t.admitRequest call = .ok parts) {op : Op C} {r : op.Answer}
    (allowed : Allowed t call parts record op) (given : n.Admits op r) :
    Kept t (n.update op r) call (record ++ [⟨op, r⟩]) := by
  have later := h.later (Network.later_update given)
  intro x member
  rw [exchanges_snoc, List.mem_append, Option.mem_toList] at member
  rcases member with earlier | last
  · exact later x earlier
  · cases exchangeOf_eq_some last
    obtain ⟨conn, here, fits⟩ := allowed.2.2.2.2.fits agrees admitted
    exact ⟨conn, Network.later_update given _ _ here, fits⟩

theorem Network.sound_update (sound : n.Sound t) (agrees : Agrees t n record)
    (admitted : t.admitRequest call = .ok parts) {op : Op C} {r : op.Answer}
    (allowed : Allowed t call parts record op) (given : n.Admits op r) :
    (n.update op r).Sound t := by
  cases op with
  | connect uri identity alpn budget =>
      cases r with
      | error e => exact sound
      | ok made => exact sound.later (Network.later_update given)
  | beginConnect key => cases r <;> exact ⟨sound.put, sound.owed⟩
  | finishConnect key => exact ⟨sound.put, sound.owed⟩
  | take key now => exact Network.call_sound sound nofun
  | forgetShared key slot => exact Network.call_sound sound nofun
  | put key est expiresAt =>
      refine Network.call_sound sound ?_
      rintro _ _ _ ⟨⟩
      obtain ⟨rfl, made, slot, rfl, dialled⟩ := allowed
      exact dialled.serves agrees admitted rfl rfl
  | exchange a =>
      cases r with
      | answered response =>
          unfold Network.update Network.owe
          dsimp only
          split
          next c checkin _ =>
            refine ⟨sound.put, fun x member => ?_⟩
            rcases List.mem_append.mp member with earlier | last
            · exact sound.owed x earlier
            · obtain rfl := List.mem_singleton.mp last
              exact allowed.2.2.2.2.checkin agrees admitted checkin
          · exact sound
          · exact sound
      | notSent e => exact sound
      | sent e => exact sound
  | _ => exact sound

omit [DecidableEq C] in
theorem Network.sound_happens (sound : n.Sound t) {e : Happening} (happened : n.happens e = some n') :
    n'.Sound t ∧ n.Later n' := by
  cases e with
  | ended i =>
      dsimp only [Network.happens] at happened
      cases owed : n.owed[i]? with
      | none =>
          rw [owed] at happened
          cases happened
      | some x =>
          rw [owed] at happened
          cases happened
          have less : Network.Sound t { n with owed := n.owed.eraseIdx i } :=
            ⟨sound.put, fun x member => sound.owed x (List.mem_of_mem_eraseIdx member)⟩
          refine ⟨Network.call_sound less ?_, fun _ _ here => here⟩
          rintro _ _ _ ⟨⟩
          exact sound.owed x (List.mem_of_getElem? owed)
  | abandoned i =>
      cases happened
      exact ⟨⟨sound.put, fun x member => sound.owed x (List.mem_of_mem_eraseIdx member)⟩,
        fun _ _ here => here⟩
  | reap now =>
      cases happened
      exact ⟨Network.call_sound sound nofun, fun _ _ here => here⟩

/-- What holds of the network and of every request, whatever was answered. -/
theorem runs_sound {ι : Type} [DecidableEq ι] (turns : Nat)
    {s : Scene ι Prepared (Op C) Op.Answer (Option (Except Error Answered)) (Network C)}
    (runs : (system t turns).Runs (fun _ _ _ _ => True) (.initial (.new t.pool)) s) :
    s.shared.Sound t ∧ ∀ i task, s.task i = some task →
      Fine t s.shared task.about task.record := by
  refine runs.preserves ?_ ?_ ?_ ?_ (fun _ => rfl)
    ⟨fun _ _ _ put => absurd put List.not_mem_nil, List.forall_mem_nil _⟩
  · intro n call sound
    refine ⟨⟨?_, ?_⟩, List.forall_mem_nil _⟩
    · exact fun _ _ _ member => absurd member List.not_mem_nil
    · exact fun _ _ _ _ _ member => absurd member List.not_mem_nil
  · intro n call record op next r sound fine steps _ given
    cases admitted : t.admitRequest call with
    | error e =>
        have refused : (run t call turns : Script C _).Steps record (.call op next) := steps
        rw [run_refused admitted] at refused
        cases refused.done_inv.2
    | ok parts =>
        obtain ⟨-, wp⟩ := Monitor.history_steps steps (run_allowed turns admitted)
        have allowed := ((Monitor.history_call op next _).mp wp).1
        exact ⟨Network.sound_update sound fine.agrees admitted allowed given,
          fine.agrees.snoc sound given, fine.kept.snoc fine.agrees admitted allowed given⟩
  · intro n op r call record sound given fine
    exact fine.later (Network.later_update given)
  · intro n e n' sound happened
    obtain ⟨sound', later⟩ := Network.sound_happens sound happened
    exact ⟨sound', fun call record fine => fine.later later⟩

end

/-- In every run, each attempt of each request goes over a connection that was made for its own
origin, identity and proxy, in the protocol that the connection negotiated, which meets the
request's demand; and the pool holds a connection only under a key that it serves. -/
theorem runs_fit {C ι : Type} [DecidableEq C] [DecidableEq ι] (t : Transport) (turns : Nat)
    {s : Scene ι Prepared (Op C) Op.Answer (Option (Except Error Answered)) (Network C)}
    (runs : (system t turns).Runs (fun _ _ _ _ => True) (.initial (.new t.pool)) s) :
    (∀ i task, s.task i = some task → Kept t s.shared task.about task.record) ∧
      ∀ key, ∀ e ∈ s.shared.pool.bucket key, Serves t s.shared.conns key e.est := by
  obtain ⟨sound, fine⟩ := runs_sound turns runs
  refine ⟨fun i task there => (fine i task there).kept, fun key e member => ?_⟩
  obtain ⟨expiresAt, put, -⟩ := Pool.stamped_after s.shared.config s.shared.calls key e member
  exact sound.put key e.est expiresAt put

def secure : Prepared :=
  { toOrigin with request := { toOrigin.request with
      uri := ⟨some .https, some ⟨none, "example.com".toList, none⟩, some ⟨['/'], none⟩⟩ } }

def secureKey (protocol : Protocol) : PoolKey :=
  ⟨.tls 0, "example.com".toList, 443, protocol, none⟩

def ok200 : ResponseParts := ⟨200, .http2, []⟩

def attemptOver (est : Established Nat) : Attempt Nat :=
  ⟨est, secure.outgoing plain, .h2, some ⟨secureKey .h2, .fromSecs 90⟩, secure.request.uri, none⟩

/-- A request that finds no connection makes one, which negotiates h2. -/
def making : List (Event Nat) :=
  [⟨.elapsed, (0 : Duration)⟩, ⟨.take (secureKey .h2) 0, none⟩, ⟨.take (secureKey .http11) 0, none⟩,
    ⟨.connect secure.request.uri none [h2Alpn, http11Alpn] none, .ok ⟨1, some h2Alpn⟩⟩,
    ⟨.connected 1 .http2, ()⟩, ⟨.handshake 1 true, .ok ()⟩,
    ⟨.exchange (attemptOver (.h2 1)), .answered ok200⟩]

/-- A request that finds it in the pool. -/
def finding : List (Event Nat) :=
  [⟨.elapsed, (0 : Duration)⟩, ⟨.take (secureKey .h2) 0, some (.h2 1)⟩, ⟨.isReusable (.h2 1), true⟩,
    ⟨.reused (.h2 1) .http2, ()⟩, ⟨.exchange (attemptOver (.h2 1)), .answered ok200⟩]

/-- The second of two requests goes over the connection of the first. -/
theorem runs_fit_shared :
    ∃ (s : Scene Nat Prepared (Op Nat) Op.Answer (Option (Except Error Answered)) (Network Nat))
      (task : Recorded Prepared (Op Nat) Op.Answer (Option (Except Error Answered))),
      (system plain 1).Runs (fun _ _ _ _ => True) (.initial (.new plain.pool)) s ∧
        s.task 1 = some task ∧ (exchanges task.record).map (fun x => x.1.est) = [.h2 1] ∧
        Kept plain s.shared task.about task.record := by
  have first : ((system (C := Nat) plain 1).body secure).Steps making _ :=
    .step _ (.step _ (.step _ (.step _ (.step _ (.step _ (.step _ (.refl _)))))))
  have second : ((system (C := Nat) plain 1).body secure).Steps finding _ :=
    .step _ (.step _ (.step _ (.step _ (.step _ (.refl _)))))
  have started : (system (C := Nat) plain 1).Runs (fun _ _ _ _ => True) (.initial (.new plain.pool)) _ :=
    .start .refl (i := 0) rfl secure
  have made := started.solo first (Scene.put_task_self _ _ _ _)
    ⟨⟨trivial, trivial⟩, ⟨trivial, rfl⟩, ⟨trivial, rfl⟩, ⟨trivial, rfl⟩, ⟨trivial, trivial⟩,
      ⟨trivial, trivial⟩, ⟨trivial, trivial⟩, trivial⟩
  have ended := made.event (e := .ended 0) rfl
  have again := ended.start (i := 1) rfl secure
  have found := again.solo second (Scene.put_task_self _ _ _ _)
    ⟨⟨trivial, trivial⟩, ⟨trivial, rfl⟩, ⟨trivial, trivial⟩, ⟨trivial, trivial⟩,
      ⟨trivial, trivial⟩, trivial⟩
  exact ⟨_, _, found, Scene.put_task_self _ _ _ _, rfl,
    (runs_fit plain 1 found).1 1 _ (Scene.put_task_self _ _ _ _)⟩

end HClient.Native.Tcp
