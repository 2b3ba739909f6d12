import HClient.Native.Http3Record

/-!
# Early data over a run

Requests in any number and order over one transport, each call answered by a network that keeps to
what QUIC says of connections: what is written as early data, and what is written twice.
-/
namespace HClient.Native.Http3
open Effect

structure Conn where
  zeroRtt : Option Verdict
  closed : Bool
  deriving DecidableEq

structure Network where
  conns : ConnId → Option Conn
  pool : PoolKey → Option Pooled

namespace Network

def new : Network := ⟨fun _ => none, fun _ => none⟩

/-- The pooled connection of a key, if it has not ended. -/
def live (n : Network) (key : PoolKey) : Option Pooled :=
  (n.pool key).filter fun p => (n.conns p.conn).any fun conn => !conn.closed

def putConn (n : Network) (c : ConnId) (conn : Conn) : Network :=
  { n with conns := Function.update n.conns c (some conn) }

/-- What the network may answer: a connection it makes is a new one, nothing is written on one that
has ended or on a stream of refused early data, and a verdict is answered once there is one. -/
def Admits (n : Network) : (op : Op) → op.Answer → Prop
  | .resolve _ _, _ => True
  | .checkout key, found => found = n.live key
  | .endpointOver, _ => True
  | .setUp _, _ => True
  | .connectWith _ _, _ => True
  | .into0rtt, none => True
  | .into0rtt, some c => n.conns c = none
  | .handshake, .error _ => True
  | .handshake, .ok c => n.conns c = none
  | .buildH3 _, _ => True
  | .insert _ _, _ => True
  | .sendHead _ c _, .opened phase => n.conns c = some ⟨phase, false⟩
  | .sendHead _ _ _, .failed _ => True
  | .sendData s _, .wrote phase =>
      n.conns s.conn = some ⟨phase, false⟩ ∧ (s.phase = some .pending → phase ≠ some .refused)
  | .sendData _ _, .stopped => True
  | .sendData _ _, .failed _ => True
  | .sendData _ _, .answered _ => True
  | .finishStream _, _ => True
  | .recvResponse _, _ => True
  | .verdict c, accepted => ∃ conn v, n.conns c = some conn ∧ conn.zeroRtt = some v ∧
      v ≠ .pending ∧ (accepted = true ↔ v = .accepted)

def update (n : Network) : (op : Op) → op.Answer → Network
  | .resolve _ _, _ => n
  | .checkout _, some _ => n
  | .checkout key, none => { n with pool := Function.update n.pool key none }
  | .endpointOver, _ => n
  | .setUp _, _ => n
  | .connectWith _ _, _ => n
  | .into0rtt, none => n
  | .into0rtt, some c => n.putConn c ⟨some .pending, false⟩
  | .handshake, .error _ => n
  | .handshake, .ok c => n.putConn c ⟨none, false⟩
  | .buildH3 _, _ => n
  | .insert key pooled, _ => { n with pool := Function.update n.pool key (some pooled) }
  | .sendHead _ _ _, _ => n
  | .sendData _ _, _ => n
  | .finishStream _, _ => n
  | .recvResponse _, _ => n
  | .verdict _, _ => n

end Network

/-- What happens on the network by itself. -/
inductive NetworkEvent where
  | decided (conn : ConnId) (accepted : Bool)
  | ended (conn : ConnId)

def Network.happens (n : Network) : NetworkEvent → Option Network
  | .decided c accepted =>
      match n.conns c with
      | some ⟨some .pending, false⟩ =>
          some (n.putConn c ⟨some (if accepted then .accepted else .refused), false⟩)
      | _ => none
  | .ended c =>
      match n.conns c with
      | some conn =>
          some (n.putConn c
            ⟨if conn.zeroRtt = some .pending then some .lost else conn.zeroRtt, true⟩)
      | none => none

def system (t : H3) : OpenSystem Call NetworkEvent Op Op.Answer Unit Network where
  body := run t
  admits := Network.Admits
  update := Network.update
  event e n := n.happens e

/-- What is promised of a request, of whose calls there is a record. -/
structure Kept (n : Network) (req : Request) (record : List Event) : Prop where
  guarded : ∀ w ∈ writes record, w.phase = some .pending →
    req.allowEarlyData = true ∧ req.body.retryKind ≠ .impossible
  twice : ∀ w ∈ writes record, w.attempt = 1 ∨ w.attempt = 2
  same : ∀ attempt, written attempt record <+: req.wire
  again : ∀ w ∈ writes record, ∀ w' ∈ writes record, w.attempt = 1 → w'.attempt = 2 →
    w.phase = some .pending ∧ w'.conn = w.conn ∧
      ∃ closed, n.conns w.conn = some ⟨some .refused, closed⟩
  dialled : dials record = [] ∨ dials record = [false] ∨ dials record = [true] ∨
    dials record = [true, false]

/-- A failed first attempt, which asks for the verdict, had written nothing after a refusal. -/
def Careful (_ : Network) (_ : Call) (record : List Event) : Op → Prop
  | .verdict _ => ∀ w ∈ writes record, w.phase ≠ some .refused
  | .resolve _ _ => True
  | .checkout _ => True
  | .endpointOver => True
  | .setUp _ => True
  | .connectWith _ _ => True
  | .into0rtt => True
  | .handshake => True
  | .buildH3 _ => True
  | .insert _ _ => True
  | .sendHead _ _ _ => True
  | .sendData _ _ => True
  | .finishStream _ => True
  | .recvResponse _ => True

/-- A connection's early data is decided once, and its end is final. -/
def Conn.Later (conn conn' : Conn) : Prop :=
  (conn'.zeroRtt = conn.zeroRtt ∨ (conn.zeroRtt = some .pending ∧ conn'.zeroRtt.isSome)) ∧
    (conn.closed = true → conn'.closed = true)

def Network.Later (n n' : Network) : Prop :=
  ∀ c conn, n.conns c = some conn → ∃ conn', n'.conns c = some conn' ∧ conn.Later conn'

/-- What a handle says of its connection, for a request that may or may not want early data. -/
def Network.Holds (n : Network) (early : Bool) (p : Pooled) : Prop :=
  (p.zeroRtt = none ∨ p.zeroRtt = some p.conn) ∧
    ∃ conn, n.conns p.conn = some conn ∧ (early = false → conn.zeroRtt = none)

structure Network.Sound (n : Network) : Prop where
  lost : ∀ c conn, n.conns c = some conn → conn.zeroRtt = some .lost → conn.closed = true
  pooled : ∀ key p, n.pool key = some p → n.Holds key.earlyData p

/-- What was answered still stands. -/
structure Agrees (n : Network) (record : List Event) : Prop where
  checkedOut : ∀ key p, ⟨.checkout key, some p⟩ ∈ record → n.Holds key.earlyData p
  shortcut : ∀ c, ⟨.into0rtt, some c⟩ ∈ record → ∃ conn, n.conns c = some conn
  handshaken : ∀ c, ⟨.handshake, .ok c⟩ ∈ record →
    ∃ conn, n.conns c = some conn ∧ conn.zeroRtt = none
  decided : ∀ c accepted, ⟨.verdict c, accepted⟩ ∈ record → ∃ conn v, n.conns c = some conn ∧
    conn.zeroRtt = some v ∧ v ≠ .pending ∧ (accepted = true ↔ v = .accepted)
  since : ∀ w ∈ writes record, ∃ conn, n.conns w.conn = some conn ∧
    (Conn.Later ⟨w.phase, false⟩ conn)

section
variable {n n' : Network} {req : Request} {record : List Event} {p : Pooled} {early : Bool}

theorem Conn.Later.refl (conn : Conn) : conn.Later conn := ⟨.inl rfl, id⟩

theorem Conn.Later.trans {first second third : Conn} (h : first.Later second)
    (h' : second.Later third) : first.Later third := by
  refine ⟨?_, h'.2 ∘ h.2⟩
  rcases h.1 with same | ⟨pending, some⟩
  · rw [← same]
    exact h'.1
  · refine .inr ⟨pending, ?_⟩
    rcases h'.1 with same | ⟨-, some'⟩
    · rw [same]
      exact some
    · exact some'

/-- Decided early data stays as it was decided. -/
theorem Conn.Later.decided {conn conn' : Conn} (h : conn.Later conn') {v : Option Verdict}
    (is : conn.zeroRtt = v) (done : v ≠ some .pending) : conn'.zeroRtt = v := by
  rcases h.1 with same | ⟨pending, -⟩
  · rw [same, is]
  · exact absurd (is.symm.trans pending) done

theorem Network.Later.refl (n : Network) : n.Later n :=
  fun _ conn here => ⟨conn, here, .refl conn⟩

theorem Network.later_putConn {c : ConnId} {conn : Conn}
    (later : ∀ old, n.conns c = some old → old.Later conn) : n.Later (n.putConn c conn) := by
  intro c' old here
  by_cases same : c' = c
  · subst same
    exact ⟨conn, Function.update_self _ _ _, later old here⟩
  · exact ⟨old, (Function.update_of_ne same _ _).trans here, .refl old⟩

theorem Network.later_update {op : Op} {r : op.Answer} (admitted : n.Admits op r) :
    n.Later (n.update op r) := by
  cases op with
  | checkout key => cases r <;> exact .refl n
  | into0rtt =>
      cases r with
      | none => exact .refl n
      | some c => exact later_putConn fun old here => absurd (here.symm.trans admitted) nofun
  | handshake =>
      cases r with
      | error e => exact .refl n
      | ok c => exact later_putConn fun old here => absurd (here.symm.trans admitted) nofun
  | _ => exact .refl n

theorem Network.later_happens {e : NetworkEvent} (h : n.happens e = some n') : n.Later n' := by
  cases e with
  | decided c accepted =>
      simp only [happens] at h
      split at h
      · rename_i pending
        cases h
        refine later_putConn fun old here => ?_
        cases here.symm.trans pending
        exact ⟨.inr ⟨rfl, rfl⟩, nofun⟩
      · cases h
  | ended c =>
      simp only [happens] at h
      split at h
      · rename_i conn here
        cases h
        refine later_putConn fun old here' => ?_
        cases here'.symm.trans here
        refine ⟨?_, fun _ => rfl⟩
        dsimp only
        split
        · rename_i pending
          exact .inr ⟨pending, rfl⟩
        · exact .inl rfl
      · cases h

theorem Network.Holds.later (h : n.Holds early p) (later : n.Later n') : n'.Holds early p := by
  obtain ⟨handle, conn, here, kind⟩ := h
  obtain ⟨conn', there, after⟩ := later _ _ here
  exact ⟨handle, conn', there, fun not => after.decided (kind not) nofun⟩

theorem Agrees.later (h : Agrees n record) (later : n.Later n') : Agrees n' record := by
  refine ⟨fun key p member => (h.checkedOut key p member).later later, fun c member => ?_,
    fun c member => ?_, fun c accepted member => ?_, fun w member => ?_⟩
  · obtain ⟨conn, here⟩ := h.shortcut c member
    obtain ⟨conn', there, -⟩ := later _ _ here
    exact ⟨conn', there⟩
  · obtain ⟨conn, here, none⟩ := h.handshaken c member
    obtain ⟨conn', there, after⟩ := later _ _ here
    exact ⟨conn', there, after.decided none nofun⟩
  · obtain ⟨conn, v, here, is, done, verdict⟩ := h.decided c accepted member
    obtain ⟨conn', there, after⟩ := later _ _ here
    exact ⟨conn', v, there, after.decided is (by simpa using done), done, verdict⟩
  · obtain ⟨conn, here, first⟩ := h.since w member
    obtain ⟨conn', there, after⟩ := later _ _ here
    exact ⟨conn', there, first.trans after⟩

theorem write_admitted {op : Op} {r : op.Answer} (admitted : n.Admits op r) {w : Write}
    (wrote : writeOf ⟨op, r⟩ = some w) : n.conns w.conn = some ⟨w.phase, false⟩ := by
  cases op with
  | sendHead attempt c parts =>
      cases r with
      | failed e => cases wrote
      | opened phase =>
          cases wrote
          exact admitted
  | sendData s byte =>
      cases r with
      | wrote phase =>
          cases wrote
          exact admitted.1
      | stopped => cases wrote
      | failed e => cases wrote
      | answered response => cases wrote
  | _ => cases wrote

/-- What is answered now stands as well. -/
theorem Agrees.snoc (h : Agrees n record) (sound : n.Sound) {op : Op} {r : op.Answer}
    (admitted : n.Admits op r) : Agrees (n.update op r) (record ++ [⟨op, r⟩]) := by
  have kept := h.later (Network.later_update admitted)
  refine ⟨fun key p member => ?_, fun c member => ?_, fun c member => ?_,
    fun c accepted member => ?_, fun w member => ?_⟩
  · rcases List.mem_append.mp member with earlier | last
    · exact kept.checkedOut key p earlier
    · cases List.mem_singleton.mp last
      exact sound.pooled key p (Option.filter_eq_some_iff.mp admitted.symm).1
  · rcases List.mem_append.mp member with earlier | last
    · exact kept.shortcut c earlier
    · cases List.mem_singleton.mp last
      exact ⟨_, Function.update_self _ _ _⟩
  · rcases List.mem_append.mp member with earlier | last
    · exact kept.handshaken c earlier
    · cases List.mem_singleton.mp last
      exact ⟨_, Function.update_self _ _ _, rfl⟩
  · rcases List.mem_append.mp member with earlier | last
    · exact kept.decided c accepted earlier
    · cases List.mem_singleton.mp last
      exact admitted
  · rw [writes_snoc, List.mem_append, Option.mem_toList] at member
    rcases member with earlier | last
    · exact kept.since w earlier
    · obtain ⟨conn, there, after⟩ :=
        Network.later_update admitted _ _ (write_admitted admitted last)
      exact ⟨conn, there, after⟩

/-- A connection just made is what a key of the request's kind may hold. -/
theorem Made.holds (h : Made req record p) (agrees : Agrees n record)
    (kind : early = req.admitsEarlyData) : n.Holds early p := by
  rcases h with ⟨wants, same, member⟩ | ⟨none, member⟩
  · obtain ⟨conn, here⟩ := agrees.shortcut _ member
    refine ⟨.inr same, conn, here, fun not => ?_⟩
    rw [kind, wants] at not
    cases not
  · obtain ⟨conn, here, full⟩ := agrees.handshaken _ member
    exact ⟨.inl none, conn, here, fun _ => full⟩

theorem Network.Sound.putConn (sound : n.Sound) {c : ConnId} {conn : Conn}
    (later : n.Later (n.putConn c conn)) (lost : conn.zeroRtt = some .lost → conn.closed = true) :
    (n.putConn c conn).Sound := by
  refine ⟨fun c' conn' here is => ?_, fun key p pooled => (sound.pooled key p pooled).later later⟩
  by_cases same : c' = c
  · subst same
    cases (Function.update_self _ _ _).symm.trans here
    exact lost is
  · exact sound.lost c' conn' ((Function.update_of_ne same _ _).symm.trans here) is

theorem Network.sound_update (sound : n.Sound) (agrees : Agrees n record) {op : Op} {r : op.Answer}
    (admitted : n.Admits op r) (allowed : Allowed req record op) : (n.update op r).Sound := by
  cases op with
  | checkout key =>
      cases r with
      | some found => exact sound
      | none =>
          refine ⟨sound.lost, fun key' p pooled => sound.pooled key' p ?_⟩
          by_cases same : key' = key
          · subst same
            exact absurd ((Function.update_self _ _ _).symm.trans pooled) nofun
          · exact (Function.update_of_ne same _ _).symm.trans pooled
  | into0rtt =>
      cases r with
      | none => exact sound
      | some c => exact sound.putConn (later_update admitted) nofun
  | handshake =>
      cases r with
      | error e => exact sound
      | ok c => exact sound.putConn (later_update admitted) nofun
  | insert key made =>
      refine ⟨sound.lost, fun key' p pooled => ?_⟩
      by_cases same : key' = key
      · subst same
        cases (Function.update_self _ _ _).symm.trans pooled
        exact (allowed.2.holds agrees allowed.1).later (later_update admitted)
      · exact sound.pooled key' p ((Function.update_of_ne same _ _).symm.trans pooled)
  | _ => exact sound

theorem Network.sound_happens (sound : n.Sound) {e : NetworkEvent} (h : n.happens e = some n') :
    n'.Sound := by
  cases e with
  | decided c accepted =>
      have later := later_happens h
      simp only [happens] at h
      split at h
      · cases h
        refine sound.putConn later fun lost => ?_
        cases accepted <;> cases lost
      · cases h
  | ended c =>
      have later := later_happens h
      simp only [happens] at h
      split at h
      · cases h
        exact sound.putConn later fun _ => rfl
      · cases h

/-- What is written is the next piece of the attempt under way, on a connection that has not
ended and is in the phase the write saw. -/
theorem write_allowed {op : Op} {r : op.Answer} (allowed : Allowed req record op)
    (admitted : n.Admits op r) {w : Write} (wrote : writeOf ⟨op, r⟩ = some w) :
    (∃ z, Attempting req w.attempt ⟨w.conn, z⟩ record) ∧ n.conns w.conn = some ⟨w.phase, false⟩ ∧
      written w.attempt record ++ [w.piece] <+: req.wire := by
  cases op with
  | sendHead attempt c parts =>
      cases r with
      | failed e => cases wrote
      | opened phase =>
          cases wrote
          obtain ⟨rfl, fresh, attempting⟩ := allowed
          refine ⟨attempting, admitted, ?_⟩
          rw [fresh]
          exact ⟨_, rfl⟩
  | sendData s byte =>
      cases r with
      | wrote phase =>
          cases wrote
          exact ⟨allowed.2.2, admitted.1, allowed.1⟩
      | stopped => cases wrote
      | failed e => cases wrote
      | answered response => cases wrote
  | _ => cases wrote

/-- A connection of a request that does not want early data has none. -/
theorem Source.holds (h : Source req record p) (agrees : Agrees n record) :
    n.Holds req.admitsEarlyData p := by
  rcases h with ⟨key, kind, member⟩ | made
  · rw [← kind]
    exact agrees.checkedOut key p member
  · exact made.holds agrees rfl

theorem admitsEarlyData_eq_true :
    req.admitsEarlyData = true ↔ req.allowEarlyData = true ∧ req.body.retryKind ≠ .impossible := by
  unfold Request.admitsEarlyData
  cases req.allowEarlyData <;> simp

/-- What a careful request relies on when it is sent again: nothing of its first attempt was
written after a refusal. -/
def Asked (record : List Event) : Prop :=
  ∀ c accepted, ⟨.verdict c, accepted⟩ ∈ record → ∀ w ∈ writes record, w.attempt = 1 →
    w.phase ≠ some .refused

/-- What is written goes out where the request may be sent. -/
theorem guarded_write (agrees : Agrees n record) {w : Write}
    (attempting : ∃ z, Attempting req w.attempt ⟨w.conn, z⟩ record)
    (on : n.conns w.conn = some ⟨w.phase, false⟩) (early : w.phase = some .pending) :
    req.allowEarlyData = true ∧ req.body.retryKind ≠ .impossible := by
  rw [← admitsEarlyData_eq_true]
  obtain ⟨z, source, -⟩ := attempting
  obtain ⟨-, conn, here, kind⟩ := source.holds agrees
  cases here.symm.trans on
  by_contra unwanted
  exact absurd (early.symm.trans (kind (Bool.eq_false_iff.mpr unwanted))) nofun

/-- A second attempt follows a first whose early data was refused. -/
theorem second_write (sound : n.Sound) (agrees : Agrees n record) (asked : Asked record)
    {w' : Write} (attempting : ∃ z, Attempting req w'.attempt ⟨w'.conn, z⟩ record)
    (on : n.conns w'.conn = some ⟨w'.phase, false⟩) (second : w'.attempt = 2) :
    ∀ w ∈ writes record, w.attempt = 1 → w.phase = some .pending ∧ w'.conn = w.conn ∧
      ∃ closed, n.conns w.conn = some ⟨some .refused, closed⟩ := by
  intro w member first
  obtain ⟨z, source, ⟨one, -⟩ | ⟨-, ⟨c, handle, refusal⟩, only⟩⟩ := attempting
  · rw [second] at one
    cases one
  have same : w'.conn = w.conn := (only w member).2.symm
  obtain ⟨handles, -⟩ := source.holds agrees
  have own : c = w'.conn := by
    rcases handles with none | some
    · exact absurd (handle.symm.trans none) nofun
    · exact Option.some.inj (handle.symm.trans some)
  subst own
  obtain ⟨conn, v, here, is, done, verdict⟩ := agrees.decided _ false refusal
  cases here.symm.trans on
  have refused : w'.phase = some .refused := by
    refine Eq.trans is ?_
    cases v with
    | pending => exact absurd rfl done
    | accepted => exact absurd (verdict.mpr rfl) nofun
    | refused => rfl
    | lost => exact absurd (sound.lost _ _ on is) nofun
  refine ⟨?_, same, false, ?_⟩
  · obtain ⟨conn', here', since⟩ := agrees.since w member
    rw [← same] at here'
    cases here'.symm.trans on
    rcases since.1 with still | ⟨pending, -⟩
    · exact absurd (still.symm.trans refused) (asked _ _ refusal w member first)
    · exact pending
  · rw [← same, on, refused]

theorem Kept.nil (n : Network) (req : Request) : Kept n req [] := by
  have none (w : Write) : w ∉ writes [] := List.not_mem_nil
  refine ⟨fun w member => absurd member (none w), fun w member => absurd member (none w),
    fun attempt => ?_, fun w member => absurd member (none w), .inl rfl⟩
  exact List.nil_prefix

theorem Kept.later (h : Kept n req record) (later : n.Later n') : Kept n' req record := by
  refine ⟨h.guarded, h.twice, h.same, fun w member w' member' first second => ?_, h.dialled⟩
  obtain ⟨early, same, closed, here⟩ := h.again w member w' member' first second
  obtain ⟨⟨zeroRtt, closed'⟩, there, after⟩ := later _ _ here
  refine ⟨early, same, closed', ?_⟩
  rw [there]
  cases after.decided rfl nofun
  rfl

/-- A call that writes nothing and does not dial leaves the promise as it was. -/
theorem Kept.quiet (h : Kept n req record) {e : Event} (unwritten : writeOf e = none)
    (undialled : dialOf e = none) : Kept n req (record ++ [e]) := by
  have same : writes (record ++ [e]) = writes record := by simp [unwritten]
  refine ⟨?_, ?_, fun attempt => ?_, ?_, ?_⟩
  · rw [same]
    exact h.guarded
  · rw [same]
    exact h.twice
  · rw [written, same]
    exact h.same attempt
  · rw [same]
    exact h.again
  · rw [dials_snoc, undialled]
    simpa using h.dialled

theorem Kept.dial (h : Kept n req record) {key : PoolKey} {early : Bool}
    {r : (Op.connectWith key early).Answer} (allowed : Allowed req record (.connectWith key early)) :
    Kept n req (record ++ [⟨.connectWith key early, r⟩]) := by
  have same : writes (record ++ [⟨.connectWith key early, r⟩]) = writes record := by
    simp [writeOf]
  refine ⟨?_, ?_, fun attempt => ?_, ?_, ?_⟩
  · rw [same]
    exact h.guarded
  · rw [same]
    exact h.twice
  · rw [written, same]
    exact h.same attempt
  · rw [same]
    exact h.again
  · rw [dials_snoc]
    rcases allowed.2 with first | ⟨one, rfl⟩
    · rw [first]
      cases early <;> simp [dialOf]
    · rw [one]
      simp [dialOf]

theorem Kept.write (h : Kept n req record) (sound : n.Sound) (agrees : Agrees n record)
    (asked : Asked record) {op : Op} {r : op.Answer} (allowed : Allowed req record op)
    (admitted : n.Admits op r) {w : Write} (wrote : writeOf ⟨op, r⟩ = some w)
    (undialled : dialOf ⟨op, r⟩ = none) : Kept n req (record ++ [⟨op, r⟩]) := by
  obtain ⟨attempting, on, next⟩ := write_allowed allowed admitted wrote
  have mem {x : Write} : x ∈ writes (record ++ [⟨op, r⟩]) ↔ x ∈ writes record ∨ x = w := by
    simp [wrote]
  refine ⟨fun x member early => ?_, fun x member => ?_, fun attempt => ?_,
    fun x member x' member' first second => ?_, ?_⟩
  · rcases mem.mp member with old | rfl
    · exact h.guarded x old early
    · exact guarded_write agrees attempting on early
  · rcases mem.mp member with old | rfl
    · exact h.twice x old
    · obtain ⟨z, -, ⟨one, -⟩ | ⟨two, -⟩⟩ := attempting
      · exact .inl one
      · exact .inr two
  · rw [written_snoc, wrote]
    by_cases own : w.attempt = attempt
    · subst own
      simpa using next
    · simpa [own] using h.same attempt
  · rcases mem.mp member with old | rfl
    · rcases mem.mp member' with old' | rfl
      · exact h.again x old x' old' first second
      · exact second_write sound agrees asked attempting on second x old first
    · obtain ⟨z, -, ⟨-, -, only⟩ | ⟨two, -⟩⟩ := attempting
      · rcases mem.mp member' with old' | rfl
        · rw [(only x' old').1] at second
          cases second
        · rw [first] at second
          cases second
      · rw [first] at two
        cases two
  · rw [dials_snoc, undialled]
    simpa using h.dialled

/-- The invariant of a request's record. -/
structure Fine (n : Network) (call : Call) (record : List Event) : Prop where
  agrees : Agrees n record
  asked : Asked record
  kept : Kept n call.req record

theorem Fine.nil (n : Network) (call : Call) : Fine n call [] := by
  refine ⟨⟨?_, ?_, ?_, ?_, ?_⟩, ?_, Kept.nil n call.req⟩
  · exact fun key p member => absurd member List.not_mem_nil
  · exact fun c member => absurd member List.not_mem_nil
  · exact fun c member => absurd member List.not_mem_nil
  · exact fun c accepted member => absurd member List.not_mem_nil
  · exact fun w member => absurd member List.not_mem_nil
  · exact fun c accepted member => absurd member List.not_mem_nil

theorem Fine.later {call : Call} (h : Fine n call record) (later : n.Later n') :
    Fine n' call record := ⟨h.agrees.later later, h.asked, h.kept.later later⟩

/-- After the verdict no first attempt goes on. -/
theorem Asked.snoc (h : Asked record) {op : Op} {r : op.Answer} (allowed : Allowed req record op)
    (admitted : n.Admits op r) {call : Call} (careful : Careful n call record op) :
    Asked (record ++ [⟨op, r⟩]) := by
  intro c accepted member w wrote first
  rw [writes_snoc, List.mem_append, Option.mem_toList] at wrote
  rcases List.mem_append.mp member with earlier | last
  · rcases wrote with old | new
    · exact h c accepted earlier w old first
    · obtain ⟨⟨z, -, ⟨-, unasked, -⟩ | ⟨two, -⟩⟩, -⟩ := write_allowed allowed admitted new
      · exact absurd earlier (unasked c accepted)
      · rw [first] at two
        cases two
  · cases List.mem_singleton.mp last
    rcases wrote with old | new
    · exact careful w old
    · cases new

theorem op_of_dialOf {op : Op} {r : op.Answer} {early : Bool} (h : dialOf ⟨op, r⟩ = some early) :
    ∃ key, op = .connectWith key early := by
  cases op with
  | connectWith key early' =>
      cases h
      exact ⟨key, rfl⟩
  | _ => cases h

theorem dialOf_of_write {op : Op} {r : op.Answer} {w : Write} (h : writeOf ⟨op, r⟩ = some w) :
    dialOf ⟨op, r⟩ = none := by
  cases op with
  | connectWith key early => cases h
  | _ => rfl

theorem Fine.snoc {call : Call} (h : Fine n call record) (sound : n.Sound) {op : Op} {r : op.Answer}
    (allowed : Allowed call.req record op) (careful : Careful n call record op)
    (admitted : n.Admits op r) : Fine (n.update op r) call (record ++ [⟨op, r⟩]) := by
  refine ⟨h.agrees.snoc sound admitted, ?_, ?_⟩
  · exact h.asked.snoc allowed admitted careful
  · apply Kept.later _ (Network.later_update admitted)
    cases wrote : writeOf ⟨op, r⟩ with
    | none =>
        cases dialled : dialOf ⟨op, r⟩ with
        | none => exact h.kept.quiet wrote dialled
        | some early =>
            obtain ⟨key, rfl⟩ := op_of_dialOf dialled
            exact h.kept.dial allowed
    | some w => exact h.kept.write sound h.agrees h.asked allowed admitted wrote (dialOf_of_write wrote)

/-- What holds of the network and of every request, whatever was answered to careful requests. -/
theorem runs_fine {t : H3} {s : Scene Nat Call Op Op.Answer Unit Network}
    (run : (system t).Runs Careful (.initial .new) s) :
    s.shared.Sound ∧ ∀ i task, s.task i = some task → Fine s.shared task.about task.record := by
  refine run.preserves (fun n call _ => Fine.nil n call) ?_ ?_ ?_ (fun _ => rfl) ⟨nofun, nofun⟩
  · intro n call record op next r sound fine steps careful admitted
    obtain ⟨-, wp⟩ := Monitor.history_steps steps (run_allowed t call)
    have allowed : Allowed call.req record op := ((Monitor.history_call op next _).mp wp).1
    exact ⟨Network.sound_update sound fine.agrees admitted allowed,
      fine.snoc sound allowed careful admitted⟩
  · intro n op r call record sound admitted fine
    exact fine.later (Network.later_update admitted)
  · intro n e n' sound happened
    exact ⟨Network.sound_happens sound happened,
      fun call record fine => fine.later (Network.later_happens happened)⟩

/-- In every run in which no request fails whose first attempt was written after its connection's
early data had been refused, every request is sent as it may be: as early data only where its
caller allows that, and again only where that is what the refusal of its own early data costs. -/
theorem careful_run_kept {t : H3} {s : Scene Nat Call Op Op.Answer Unit Network}
    (run : (system t).Runs Careful (.initial .new) s) :
    ∀ i task, s.task i = some task → Kept s.shared task.about.req task.record :=
  fun i task there => ((runs_fine run).2 i task there).kept

end

/-- A transport that offers early data, and a request whose caller allows it. -/
def offering : H3 := ⟨0, fun _ => none, true⟩

def marked : Call :=
  ⟨⟨⟨.get, ⟨some .https, some ⟨none, "a".toList, none⟩, none⟩, []⟩, .empty, true, none, none⟩, none⟩

def markedKey : PoolKey := ⟨"a".toList, 443, 0, true, none, none⟩

/-- A dial that takes the shortcut, for a connection that is then pooled. -/
def dialling : List Event :=
  [⟨.resolve "a".toList 443, .ok ()⟩, ⟨.checkout markedKey, none⟩, ⟨.setUp markedKey, .ok ()⟩,
    ⟨.connectWith markedKey true, .ok ()⟩, ⟨.into0rtt, some 7⟩, ⟨.buildH3 7, .ok ()⟩,
    ⟨.insert markedKey ⟨7, some 7⟩, ()⟩]

/-- An attempt that fails once its head is out. -/
def failing (phase : Verdict) : List Event :=
  [⟨.sendHead 1 7 marked.req.parts, .opened (some phase)⟩,
    ⟨.finishStream ⟨1, 7, some phase⟩, .failed (.new .body (.text []))⟩]

def replaying : List Event :=
  [⟨.verdict 7, false⟩, ⟨.sendHead 2 7 marked.req.parts, .opened (some .refused)⟩]

/-- A request that finds the connection in the pool once its early data has been refused. -/
def reusing : List Event :=
  [⟨.resolve "a".toList 443, .ok ()⟩, ⟨.checkout markedKey, some ⟨7, some 7⟩⟩] ++
    failing .refused ++ replaying

/-- A request whose early data is refused is sent again, with what was promised kept. -/
theorem careful_run_kept_replayed :
    ∃ (s : Scene Nat Call Op Op.Answer Unit Network) (task : Recorded Call Op Op.Answer Unit),
      (system offering).Runs Careful (.initial .new) s ∧ s.task 0 = some task ∧
        written 2 task.record = [.head marked.req.parts] ∧
        Kept s.shared task.about.req task.record := by
  have first : ((system offering).body marked).Steps (dialling ++ failing .pending) _ :=
    .step _ (.step _ (.step _ (.step _ (.step _ (.step _ (.step _ (.step _ (.step _ (.refl _)))))))))
  have started : (system offering).Runs Careful (.initial .new) _ :=
    .start .refl (i := 0) rfl marked
  have failed := started.solo first (Scene.put_task_self _ _ _ _)
    ⟨⟨trivial, trivial⟩, ⟨trivial, rfl⟩, ⟨trivial, trivial⟩, ⟨trivial, trivial⟩, ⟨trivial, rfl⟩,
      ⟨trivial, trivial⟩, ⟨trivial, trivial⟩, ⟨trivial, rfl⟩, ⟨trivial, trivial⟩, trivial⟩
  have refused := failed.event (e := .decided 7 false) rfl
  have early : ∀ w ∈ writes ([] ++ (dialling ++ failing .pending)), w.phase ≠ some .refused := by
    intro w member
    cases List.mem_singleton.mp member
    nofun
  have replayed := refused.solo (t := replaying) (.step _ (.step _ (.refl _)))
    (Scene.put_task_self _ _ _ _)
    ⟨⟨early, ⟨_, .refused, rfl, rfl, nofun, nofun, nofun⟩⟩, ⟨trivial, rfl⟩, trivial⟩
  exact ⟨_, _, replayed, Scene.put_task_self _ _ _ _, rfl,
    careful_run_kept replayed 0 _ (Scene.put_task_self _ _ _ _)⟩

/-- A request that reuses a connection whose early data was refused long before is written twice,
though nothing of it was early data. -/
theorem replayed_after_refusal :
    ∃ (s : Scene Nat Call Op Op.Answer Unit Network) (i : Nat)
      (task : Recorded Call Op Op.Answer Unit),
      (system offering).Runs (fun _ _ _ _ => True) (.initial .new) s ∧ s.task i = some task ∧
        ¬ Kept s.shared task.about.req task.record := by
  have first : ((system offering).body marked).Steps dialling _ :=
    .step _ (.step _ (.step _ (.step _ (.step _ (.step _ (.step _ (.refl _)))))))
  have second : ((system offering).body marked).Steps reusing _ :=
    .step _ (.step _ (.step _ (.step _ (.step _ (.step _ (.refl _))))))
  have started : (system offering).Runs (fun _ _ _ _ => True) (.initial .new) _ :=
    .start .refl (i := 0) rfl marked
  have dialled := started.solo first (Scene.put_task_self _ _ _ _)
    ⟨⟨trivial, trivial⟩, ⟨trivial, rfl⟩, ⟨trivial, trivial⟩, ⟨trivial, trivial⟩, ⟨trivial, rfl⟩,
      ⟨trivial, trivial⟩, ⟨trivial, trivial⟩, trivial⟩
  have refused := dialled.event (e := .decided 7 false) rfl
  have started' := refused.start (i := 1) rfl marked
  have replayed := started'.solo second (Scene.put_task_self _ _ _ _)
    ⟨⟨trivial, trivial⟩, ⟨trivial, rfl⟩, ⟨trivial, rfl⟩, ⟨trivial, trivial⟩,
      ⟨trivial, ⟨_, .refused, rfl, rfl, nofun, nofun, nofun⟩⟩, ⟨trivial, rfl⟩, trivial⟩
  refine ⟨_, 1, _, replayed, Scene.put_task_self _ _ _ _, fun kept => ?_⟩
  have again := kept.again ⟨1, 7, some .refused, .head marked.req.parts⟩ (.head _)
    ⟨2, 7, some .refused, .head marked.req.parts⟩ (.tail _ (.head _)) rfl rfl
  cases again.1

end HClient.Native.Http3
