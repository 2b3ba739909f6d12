import HClient.Native.Http3

/-!
# What a request's calls leave on record

What a request has written and how often it has dialled, read off its calls and their answers, and
the calls it makes whatever it is answered.
-/
namespace HClient.Native.Http3
open Client (RequestBody)
open Effect

inductive Piece where
  | head (parts : Parts)
  | byte (byte : UInt8)
  deriving DecidableEq

/-- Something that went out: in which attempt, and over what connection in which phase of it. -/
structure Write where
  attempt : Nat
  conn : ConnId
  phase : Option Verdict
  piece : Piece
  deriving DecidableEq

def writeOf : Event → Option Write
  | ⟨.sendHead attempt c parts, .opened phase⟩ => some ⟨attempt, c, phase, .head parts⟩
  | ⟨.sendHead _ _ _, .failed _⟩ => none
  | ⟨.sendData s byte, .wrote phase⟩ => some ⟨s.attempt, s.conn, phase, .byte byte⟩
  | ⟨.sendData _ _, .stopped⟩ => none
  | ⟨.sendData _ _, .failed _⟩ => none
  | ⟨.sendData _ _, .answered _⟩ => none
  | ⟨.resolve _ _, _⟩ => none
  | ⟨.checkout _, _⟩ => none
  | ⟨.endpointOver, _⟩ => none
  | ⟨.setUp _, _⟩ => none
  | ⟨.connectWith _ _, _⟩ => none
  | ⟨.into0rtt, _⟩ => none
  | ⟨.handshake, _⟩ => none
  | ⟨.buildH3 _, _⟩ => none
  | ⟨.insert _ _, _⟩ => none
  | ⟨.finishStream _, _⟩ => none
  | ⟨.recvResponse _, _⟩ => none
  | ⟨.verdict _, _⟩ => none

def writes (record : List Event) : List Write := record.filterMap writeOf

/-- What an attempt has written so far. -/
def written (attempt : Nat) (record : List Event) : List Piece :=
  ((writes record).filter fun w => w.attempt = attempt).map Write.piece

/-- All there is to write of a request. -/
def Request.wire (req : Request) : List Piece :=
  .head req.parts :: (bytesOf req.body).map .byte

def dialOf (e : Event) : Option Bool :=
  match e.op with
  | .connectWith _ early => some early
  | .resolve _ _ => none
  | .checkout _ => none
  | .endpointOver => none
  | .setUp _ => none
  | .into0rtt => none
  | .handshake => none
  | .buildH3 _ => none
  | .insert _ _ => none
  | .sendHead _ _ _ => none
  | .sendData _ _ => none
  | .finishStream _ => none
  | .recvResponse _ => none
  | .verdict _ => none

/-- Whether each dial took the shortcut of early data, in order. -/
def dials (record : List Event) : List Bool := record.filterMap dialOf

/-! What a request's own calls keep, whatever they are answered. -/

def Unasked (seen : List Event) : Prop := ∀ c accepted, ⟨.verdict c, accepted⟩ ∉ seen

/-- Nothing is written yet and no verdict asked. -/
def Idle (seen : List Event) : Prop := writes seen = [] ∧ Unasked seen

/-- A connection just made, by the shortcut of early data or by a full handshake. -/
def Made (req : Request) (seen : List Event) (p : Pooled) : Prop :=
  (req.admitsEarlyData = true ∧ p.zeroRtt = some p.conn ∧ ⟨.into0rtt, some p.conn⟩ ∈ seen) ∨
    (p.zeroRtt = none ∧ ⟨.handshake, .ok p.conn⟩ ∈ seen)

/-- Where a request has its connection from. -/
def Source (req : Request) (seen : List Event) (p : Pooled) : Prop :=
  (∃ key : PoolKey, key.earlyData = req.admitsEarlyData ∧ ⟨.checkout key, some p⟩ ∈ seen) ∨
    Made req seen p

/-- The attempt under way, and what the ones before it left. -/
def Attempting (req : Request) (attempt : Nat) (p : Pooled) (seen : List Event) : Prop :=
  Source req seen p ∧
    ((attempt = 1 ∧ Unasked seen ∧ ∀ w ∈ writes seen, w.attempt = 1 ∧ w.conn = p.conn) ∨
      (attempt = 2 ∧ (∃ c, p.zeroRtt = some c ∧ ⟨.verdict c, false⟩ ∈ seen) ∧
        ∀ w ∈ writes seen, (w.attempt = 1 ∨ w.attempt = 2) ∧ w.conn = p.conn))

/-- The calls a request makes, by what it has been answered. -/
def Allowed (req : Request) (seen : List Event) : Op → Prop
  | .checkout key => key.earlyData = req.admitsEarlyData
  | .connectWith key early => key.earlyData = req.admitsEarlyData ∧
      (dials seen = [] ∨ (dials seen = [true] ∧ early = false))
  | .into0rtt => req.admitsEarlyData = true
  | .insert key p => key.earlyData = req.admitsEarlyData ∧ Made req seen p
  | .sendHead attempt c parts => parts = req.parts ∧ written attempt seen = [] ∧
      ∃ z, Attempting req attempt ⟨c, z⟩ seen
  | .sendData s byte => written s.attempt seen ++ [.byte byte] <+: req.wire ∧
      ⟨.sendHead s.attempt s.conn req.parts, .opened s.phase⟩ ∈ seen ∧
      ∃ z, Attempting req s.attempt ⟨s.conn, z⟩ seen
  | .resolve _ _ => True
  | .endpointOver => True
  | .setUp _ => True
  | .handshake => True
  | .buildH3 _ => True
  | .finishStream _ => True
  | .recvResponse _ => True
  | .verdict _ => True

section
variable {req : Request} {seen : List Event} {e : Event} {p : Pooled}

@[simp] theorem writes_snoc (seen : List Event) (e : Event) :
    writes (seen ++ [e]) = writes seen ++ (writeOf e).toList := by
  unfold writes
  rw [List.filterMap_append]
  cases written : writeOf e <;> simp [written]

@[simp] theorem dials_snoc (seen : List Event) (e : Event) :
    dials (seen ++ [e]) = dials seen ++ (dialOf e).toList := by
  unfold dials
  rw [List.filterMap_append]
  cases dialled : dialOf e <;> simp [dialled]

theorem written_snoc (attempt : Nat) (seen : List Event) (e : Event) :
    written attempt (seen ++ [e]) = written attempt seen ++
      (((writeOf e).toList.filter fun w => w.attempt = attempt).map Write.piece) := by
  rw [written, writes_snoc, List.filter_append, List.map_append, written]

theorem Unasked.snoc (h : Unasked seen) (other : ∀ c, e.op ≠ .verdict c) :
    Unasked (seen ++ [e]) := by
  intro c accepted member
  rcases List.mem_append.mp member with earlier | last
  · exact h c accepted earlier
  · exact other c (congrArg Program.Event.op (List.mem_singleton.mp last).symm)

theorem Idle.snoc (h : Idle seen) (other : ∀ c, e.op ≠ .verdict c)
    (unwritten : writeOf e = none) : Idle (seen ++ [e]) :=
  ⟨by rw [writes_snoc, unwritten, h.1]; rfl, h.2.snoc other⟩

theorem Made.snoc (h : Made req seen p) (e : Event) : Made req (seen ++ [e]) p := by
  rcases h with ⟨wants, same, member⟩ | ⟨none, member⟩
  · exact .inl ⟨wants, same, List.mem_append_left _ member⟩
  · exact .inr ⟨none, List.mem_append_left _ member⟩

theorem Source.snoc (h : Source req seen p) (e : Event) : Source req (seen ++ [e]) p := by
  rcases h with ⟨key, kind, member⟩ | made
  · exact .inl ⟨key, kind, List.mem_append_left _ member⟩
  · exact .inr (made.snoc e)

/-- An attempt goes on past calls that write nothing and ask no verdict. -/
theorem Attempting.snoc {attempt : Nat} (h : Attempting req attempt p seen)
    (other : ∀ c, e.op ≠ .verdict c)
    (own : ∀ w ∈ writeOf e, w.attempt = attempt ∧ w.conn = p.conn) :
    Attempting req attempt p (seen ++ [e]) := by
  obtain ⟨source, first | second⟩ := h
  · obtain ⟨rfl, unasked, only⟩ := first
    refine ⟨source.snoc e, .inl ⟨rfl, unasked.snoc other, fun w member => ?_⟩⟩
    rw [writes_snoc, List.mem_append, Option.mem_toList] at member
    exact member.elim (only w) (own w)
  · obtain ⟨rfl, ⟨c, same, refused⟩, only⟩ := second
    refine ⟨source.snoc e, .inr ⟨rfl, ⟨c, same, List.mem_append_left _ refused⟩, ?_⟩⟩
    intro w member
    rw [writes_snoc, List.mem_append, Option.mem_toList] at member
    exact member.elim (only w) fun here => ⟨.inr (own w here).1, (own w here).2⟩

theorem Attempting.quiet {attempt : Nat} (h : Attempting req attempt p seen)
    (other : ∀ c, e.op ≠ .verdict c) (unwritten : writeOf e = none) :
    Attempting req attempt p (seen ++ [e]) := by
  refine h.snoc other fun w wrote => ?_
  rw [unwritten] at wrote
  cases wrote

variable {key : PoolKey}

/-- What a dial leaves behind, where `d` are the dials so far. -/
def Dialled (req : Request) (d : List Bool) (seen : List Event)
    (r : Except DialFailed Pooled) : Prop :=
  Idle seen ∧ (∀ p, r = .ok p → Made req seen p) ∧
    ∀ e, r = .error (.earlyDataLost e) → dials seen = d

theorem buildH3_allowed (idle : Idle seen) (made : Made req seen p) :
    (Monitor.history (Allowed req)).wp (buildH3 p) (Dialled req (dials seen)) seen := by
  rw [buildH3, Monitor.history_call]
  refine ⟨trivial, fun r => ?_⟩
  have idle' : Idle (seen ++ [⟨.buildH3 p.conn, r⟩]) := idle.snoc nofun rfl
  have dials' : dials (seen ++ [⟨.buildH3 p.conn, r⟩]) = dials seen := by simp [dialOf]
  cases r with
  | ok built =>
      refine ⟨idle', fun p' same => ?_, nofun⟩
      cases same
      exact made.snoc _
  | error e =>
      dsimp only
      split
      · exact ⟨idle', nofun, fun _ _ => dials'⟩
      · exact ⟨idle', nofun, nofun⟩

theorem fullHandshake_allowed (idle : Idle seen) :
    (Monitor.history (Allowed req)).wp fullHandshake (Dialled req (dials seen)) seen := by
  rw [fullHandshake, Monitor.history_call]
  refine ⟨trivial, fun r => ?_⟩
  have idle' : Idle (seen ++ [⟨.handshake, r⟩]) := idle.snoc nofun rfl
  have dials' : dials (seen ++ [⟨.handshake, r⟩]) = dials seen := by simp [dialOf]
  cases r with
  | error e => exact ⟨idle', nofun, nofun⟩
  | ok c =>
      rw [← dials']
      exact buildH3_allowed idle'
        (.inr ⟨rfl, List.mem_append_right _ (List.mem_singleton_self _)⟩)

/-- The shortcut of early data, or the full handshake where it is not to be had. -/
theorem shortcut_allowed (idle : Idle seen) (wants : req.admitsEarlyData = true) :
    (Monitor.history (Allowed req)).wp (.call .into0rtt fun
      | some conn => buildH3 ⟨conn, some conn⟩
      | none => fullHandshake) (Dialled req (dials seen)) seen := by
  rw [Monitor.history_call]
  refine ⟨wants, fun r => ?_⟩
  have idle' : Idle (seen ++ [⟨.into0rtt, r⟩]) := idle.snoc nofun rfl
  have dials' : dials (seen ++ [⟨.into0rtt, r⟩]) = dials seen := by simp [dialOf]
  rw [← dials']
  cases r with
  | none => exact fullHandshake_allowed idle'
  | some c =>
      exact buildH3_allowed idle'
        (.inl ⟨wants, rfl, List.mem_append_right _ (List.mem_singleton_self _)⟩)

theorem dial_allowed {early : Bool} (idle : Idle seen) (kind : key.earlyData = req.admitsEarlyData)
    (wants : early = true → req.admitsEarlyData = true)
    (fresh : dials seen = [] ∨ (dials seen = [true] ∧ early = false)) :
    (Monitor.history (Allowed req)).wp (dial key early) (Dialled req (dials seen ++ [early]))
      seen := by
  rw [dial, Monitor.history_call]
  refine ⟨trivial, fun r => ?_⟩
  have idle₁ : Idle (seen ++ [⟨.setUp key, r⟩]) := idle.snoc nofun rfl
  have dials₁ : dials (seen ++ [⟨.setUp key, r⟩]) = dials seen := by simp [dialOf]
  cases r with
  | error e => exact ⟨idle₁, nofun, nofun⟩
  | ok ready =>
      generalize seen ++ [⟨.setUp key, .ok ready⟩] = seen₁ at idle₁ dials₁
      rw [Monitor.history_call]
      refine ⟨⟨kind, by rwa [dials₁]⟩, fun r => ?_⟩
      have idle₂ : Idle (seen₁ ++ [⟨.connectWith key early, r⟩]) := idle₁.snoc nofun rfl
      have dials₂ : dials (seen₁ ++ [⟨.connectWith key early, r⟩]) = dials seen ++ [early] := by
        rw [dials_snoc, dials₁]
        rfl
      rw [← dials₂]
      cases r with
      | error e => exact ⟨idle₂, nofun, nofun⟩
      | ok connecting =>
          cases early with
          | false => exact fullHandshake_allowed idle₂
          | true => exact shortcut_allowed idle₂ (wants rfl)

theorem dialFully_allowed (idle : Idle seen) (kind : key.earlyData = req.admitsEarlyData)
    (fresh : dials seen = [] ∨ dials seen = [true]) :
    (Monitor.history (Allowed req)).wp (dialFully key)
      (fun seen' r => Idle seen' ∧ ∀ p, r = .ok p → Made req seen' p) seen := by
  refine Monitor.wp_seq _ (dial_allowed idle kind nofun (fresh.imp_right fun one => ⟨one, rfl⟩)) ?_
  intro seen' r dialled
  rcases r with (e | e) | made
  · exact ⟨dialled.1, nofun⟩
  · exact ⟨dialled.1, nofun⟩
  · refine ⟨dialled.1, fun p same => ?_⟩
    cases same
    exact dialled.2.1 made rfl

theorem connect_allowed (idle : Idle seen) (kind : key.earlyData = req.admitsEarlyData)
    (fresh : dials seen = []) :
    (Monitor.history (Allowed req)).wp (connect key)
      (fun seen' r => Idle seen' ∧ ∀ p, r = .ok p → Made req seen' p) seen := by
  unfold connect
  split
  · rename_i early
    refine Monitor.wp_seq _ (dial_allowed idle kind (fun _ => kind ▸ early) (.inl fresh)) ?_
    intro seen' r dialled
    rcases r with (e | e) | made
    · have one : dials seen' = [true] := (dialled.2.2 e rfl).trans (by rw [fresh]; rfl)
      exact dialFully_allowed dialled.1 kind (.inr one)
    · exact ⟨dialled.1, nofun⟩
    · refine ⟨dialled.1, fun p same => ?_⟩
      cases same
      exact dialled.2.1 made rfl
  · exact dialFully_allowed idle kind (.inl fresh)

/-- Where a checkout leads: a connection whose origin is known, and nothing written. -/
def CheckedOut (req : Request) (seen : List Event) (r : Except Error Checkout) : Prop :=
  Idle seen ∧ ∀ p, r = .ok (.out p) → Source req seen p

theorem make_allowed (idle : Idle seen) (kind : key.earlyData = req.admitsEarlyData)
    (fresh : dials seen = []) :
    (Monitor.history (Allowed req)).wp (make key) (CheckedOut req) seen := by
  refine Monitor.wp_seq _ (connect_allowed idle kind fresh) ?_
  intro seen' r connected
  cases r with
  | error e => exact ⟨connected.1, nofun⟩
  | ok made =>
      rw [Monitor.history_call]
      refine ⟨⟨kind, connected.2 made rfl⟩, fun r => ⟨connected.1.snoc nofun rfl, ?_⟩⟩
      intro p same
      cases same
      exact .inr ((connected.2 made rfl).snoc _)

theorem checkout_allowed (idle : Idle seen) (kind : key.earlyData = req.admitsEarlyData)
    (fresh : dials seen = []) (path : Bool) :
    (Monitor.history (Allowed req)).wp (checkout key path) (CheckedOut req) seen := by
  rw [checkout, Monitor.history_call]
  refine ⟨kind, fun r => ?_⟩
  have idle₁ : Idle (seen ++ [⟨.checkout key, r⟩]) := idle.snoc nofun rfl
  have fresh₁ : dials (seen ++ [⟨.checkout key, r⟩]) = [] := by simp [fresh, dialOf]
  cases r with
  | some pooled =>
      refine ⟨idle₁, fun p same => ?_⟩
      cases same
      exact .inl ⟨key, kind, List.mem_append_right _ (List.mem_singleton_self _)⟩
  | none =>
      generalize seen ++ [⟨.checkout key, none⟩] = seen₁ at idle₁ fresh₁
      dsimp only
      split
      · exact make_allowed idle₁ kind fresh₁
      · split
        · rw [Monitor.history_call]
          refine ⟨trivial, fun r => ?_⟩
          have idle₂ : Idle (seen₁ ++ [⟨.endpointOver, r⟩]) := idle₁.snoc nofun rfl
          have fresh₂ : dials (seen₁ ++ [⟨.endpointOver, r⟩]) = [] := by simp [fresh₁, dialOf]
          cases r with
          | error e => exact ⟨idle₂, nofun⟩
          | ok endpoint => exact make_allowed idle₂ kind fresh₂
        · exact ⟨idle₁, nofun⟩

theorem admit_wantsEarly {t : H3} {a : Admitted} (h : admitRequest t req = .ok a) :
    a.wantsEarly = req.admitsEarlyData := by
  unfold admitRequest at h
  split at h
  · cases h
  split at h
  · cases h
  split at h
  · cases h
  split at h
  · cases h
  split at h
  · cases h
  · cases h
    rfl

theorem addressFor_allowed (filter : Option Filter) (host : Text) (port : Nat) :
    (Monitor.history (Allowed req)).wp (addressFor filter host port)
      (fun seen _ => Idle seen ∧ dials seen = []) [] := by
  have idle : Idle [] := ⟨rfl, fun _ _ => List.not_mem_nil⟩
  cases filter with
  | some filter => exact ⟨idle, rfl⟩
  | none =>
      rw [addressFor, Monitor.history_call]
      refine ⟨trivial, fun r => ?_⟩
      have started : Idle ([] ++ [⟨.resolve host port, r⟩]) ∧
          dials ([] ++ [⟨.resolve host port, r⟩]) = [] := ⟨idle.snoc nofun rfl, rfl⟩
      cases r with
      | ok address => exact started
      | error e => exact started

/-- Where staging leads: nothing written, and a connection whose origin is known. -/
def StagedOut (req : Request) (seen : List Event) : Except ViaRefused Staged → Prop
  | .error _ => Idle seen
  | .ok staged => Idle seen ∧ staged.req = req ∧ Source req seen ⟨staged.conn, staged.zeroRtt⟩

theorem stageWith_allowed (t : H3) (req : Request) (filter : Option Filter) :
    (Monitor.history (Allowed req)).wp (stageWith t req filter) (StagedOut req) [] := by
  rw [stageWith]
  generalize admitted : admitRequest t req = r
  cases r with
  | error e => exact ⟨rfl, fun _ _ => List.not_mem_nil⟩
  | ok a =>
      refine Monitor.wp_seq _ (addressFor_allowed filter a.host a.port) fun seen r started => ?_
      cases r with
      | error e => exact started.1
      | ok address =>
          refine Monitor.wp_seq _
            (checkout_allowed started.1 (admit_wantsEarly admitted) started.2 _) ?_
          intro seen' r out
          rcases r with e | pooled | _
          · exact out.1
          · exact ⟨out.1, rfl, out.2 pooled rfl⟩
          · exact out.1

/-- A stream of the attempt under way, with what is still to be written. -/
structure Streaming (req : Request) (p : Pooled) (s : Stream) (bytes : List UInt8)
    (seen : List Event) : Prop where
  conn : s.conn = p.conn
  attempting : Attempting req s.attempt p seen
  opened : ⟨.sendHead s.attempt s.conn req.parts, .opened s.phase⟩ ∈ seen
  written : written s.attempt seen ++ bytes.map .byte = req.wire

namespace Streaming
variable {s : Stream} {bytes : List UInt8} {byte : UInt8}

theorem quiet (h : Streaming req p s bytes seen) (other : ∀ c, e.op ≠ .verdict c)
    (unwritten : writeOf e = none) : Streaming req p s bytes (seen ++ [e]) := by
  refine ⟨h.conn, h.attempting.quiet other unwritten, List.mem_append_left _ h.opened, ?_⟩
  rw [written_snoc, unwritten]
  simpa using h.written

theorem wrote (h : Streaming req p s (byte :: bytes) seen) (phase : Option Verdict) :
    Streaming req p s bytes (seen ++ [⟨.sendData s byte, .wrote phase⟩]) := by
  refine ⟨h.conn, h.attempting.snoc nofun ?_, List.mem_append_left _ h.opened, ?_⟩
  · intro w same
    cases same
    exact ⟨rfl, h.conn⟩
  · rw [written_snoc, ← h.written]
    simp [writeOf]

theorem allowed (h : Streaming req p s (byte :: bytes) seen) :
    Allowed req seen (.sendData s byte) := by
  obtain ⟨c, z⟩ := p
  obtain rfl := h.conn
  refine ⟨⟨bytes.map .byte, ?_⟩, h.opened, z, h.attempting⟩
  rw [← h.written, List.append_assoc]
  rfl

end Streaming

/-- What an attempt comes to: a response whose request may go on being written, or a failure. -/
def Answered (req : Request) (p : Pooled) (attempt : Nat) (seen : List Event) :
    Except Error Responded → Prop
  | .error _ => Attempting req attempt p seen
  | .ok r => r.unwritten = [] ∨ Streaming req p r.stream r.unwritten seen

theorem recvResponse_allowed {s : Stream} (h : Attempting req s.attempt p seen) :
    (Monitor.history (Allowed req)).wp (recvResponse s) (Answered req p s.attempt) seen := by
  rw [recvResponse, Monitor.history_call]
  refine ⟨trivial, fun r => ?_⟩
  cases r with
  | ok parts => exact .inl rfl
  | error e => exact h.quiet nofun rfl

theorem pump_allowed {s : Stream} {bytes : List UInt8} (h : Streaming req p s bytes seen) :
    (Monitor.history (Allowed req)).wp (pump s bytes) (Answered req p s.attempt) seen := by
  induction bytes generalizing seen with
  | nil =>
      rw [pump, Monitor.history_call]
      refine ⟨trivial, fun r => ?_⟩
      have attempting : Attempting req s.attempt p (seen ++ [⟨.finishStream s, r⟩]) :=
        h.attempting.quiet nofun rfl
      rcases r with phase | _ | e | e | parts
      · exact recvResponse_allowed attempting
      · exact recvResponse_allowed attempting
      · exact attempting
      · exact attempting
      · exact .inl rfl
  | cons byte bytes ih =>
      rw [pump, Monitor.history_call]
      refine ⟨h.allowed, fun r => ?_⟩
      have going (r : DataAnswer) (unwritten : writeOf ⟨.sendData s byte, r⟩ = none) :
          Streaming req p s (byte :: bytes) (seen ++ [⟨.sendData s byte, r⟩]) :=
        h.quiet nofun unwritten
      rcases r with phase | _ | e | e | parts
      · exact ih (h.wrote phase)
      · exact recvResponse_allowed (going .stopped rfl).attempting
      · exact (going (.failed e) rfl).attempting
      · exact (going (.answered (.error e)) rfl).attempting
      · exact .inr (going (.answered (.ok parts)) rfl)

theorem oneAttempt_allowed {attempt : Nat} {body : RequestBody} (h : Attempting req attempt p seen)
    (fresh : written attempt seen = []) (same : bytesOf body = bytesOf req.body) :
    (Monitor.history (Allowed req)).wp (oneAttempt attempt p.conn req.parts body)
      (Answered req p attempt) seen := by
  rw [oneAttempt, Monitor.history_call]
  refine ⟨⟨rfl, fresh, p.zeroRtt, h⟩, fun r => ?_⟩
  cases r with
  | failed e => exact h.quiet nofun rfl
  | opened phase =>
      have opened : Streaming req p ⟨attempt, p.conn, phase⟩ (bytesOf body)
          (seen ++ [⟨.sendHead attempt p.conn req.parts, .opened phase⟩]) := by
        refine ⟨rfl, h.snoc nofun ?_, List.mem_append_right _ (List.mem_singleton_self _), ?_⟩
        · intro w wrote
          cases wrote
          exact ⟨rfl, rfl⟩
        · rw [written_snoc, fresh, same]
          simp [writeOf, Request.wire]
      exact pump_allowed opened

theorem bytesOf_rewind {body again : RequestBody} (h : body.rewind = some again) :
    bytesOf again = bytesOf body := by
  cases body with
  | empty =>
      cases h
      rfl
  | full bytes =>
      cases h
      rfl
  | rewindable made =>
      cases h
      rfl
  | streaming content => cases h

/-- What is left to do once a response is there. -/
def Drainable (req : Request) (seen : List Event) : Except Error Responded → Prop
  | .error _ => True
  | .ok r => r.unwritten = [] ∨ ∃ p, Streaming req p r.stream r.unwritten seen

theorem Answered.drainable {attempt : Nat} {r : Except Error Responded}
    (h : Answered req p attempt seen r) : Drainable req seen r := by
  cases r with
  | error e => trivial
  | ok responded => exact h.imp_right fun streaming => ⟨p, streaming⟩

theorem Attempting.replay {c : ConnId} (h : Attempting req 1 p seen) (asked : p.zeroRtt = some c) :
    Attempting req 2 p (seen ++ [⟨.verdict c, false⟩]) ∧
      written 2 (seen ++ [⟨.verdict c, false⟩]) = [] := by
  obtain ⟨source, ⟨-, -, only⟩ | ⟨second, -⟩⟩ := h
  · refine ⟨⟨source.snoc _, .inr ⟨rfl, ⟨c, asked, ?_⟩, fun w member => ?_⟩⟩, ?_⟩
    · exact List.mem_append_right _ (List.mem_singleton_self _)
    · have earlier : w ∈ writes seen := by simpa [writeOf] using member
      exact ⟨.inl (only w earlier).1, (only w earlier).2⟩
    · have none : (writes seen).filter (fun w => w.attempt = 2) = [] := by
        rw [List.filter_eq_nil_iff]
        intro w member
        simp [(only w member).1]
      rw [written_snoc, written, none]
      rfl
  · cases second

theorem finish_allowed {staged : Staged} (idle : Idle seen) (own : staged.req = req)
    (source : Source req seen ⟨staged.conn, staged.zeroRtt⟩) :
    (Monitor.history (Allowed req)).wp (finish staged) (Drainable req) seen := by
  obtain ⟨conn, zeroRtt, held⟩ := staged
  obtain rfl := own
  have first : Attempting held 1 ⟨conn, zeroRtt⟩ seen :=
    ⟨source, .inl ⟨rfl, idle.2, fun w member => by simp [idle.1] at member⟩⟩
  have fresh : written 1 seen = [] := by rw [written, idle.1]; rfl
  refine Monitor.wp_seq _ (oneAttempt_allowed first fresh rfl) fun seen' r answered => ?_
  cases r with
  | ok responded => exact answered.drainable
  | error e =>
      cases zeroRtt with
      | none => exact trivial
      | some c =>
          rw [Monitor.history_call]
          refine ⟨trivial, fun accepted => ?_⟩
          cases accepted with
          | true => exact trivial
          | false =>
              cases spare : held.body.rewind with
              | none =>
                  simp only [Option.isSome_some, if_true]
                  exact trivial
              | some again =>
                  simp only [Option.isSome_some, if_true]
                  obtain ⟨second, unwritten⟩ := Attempting.replay answered rfl
                  refine Monitor.wp_mono _
                    (oneAttempt_allowed second unwritten (bytesOf_rewind spare)) ?_
                  exact fun _ _ replayed => replayed.drainable

theorem drain_allowed {s : Stream} {bytes : List UInt8}
    (h : bytes = [] ∨ ∃ p, Streaming req p s bytes seen) :
    (Monitor.history (Allowed req)).wp (drain s bytes) (fun _ _ => True) seen := by
  induction bytes generalizing seen with
  | nil =>
      rw [drain, Monitor.history_call]
      exact ⟨trivial, fun _ => trivial⟩
  | cons byte bytes ih =>
      obtain none | ⟨p, streaming⟩ := h
      · cases none
      · rw [drain, Monitor.history_call]
        refine ⟨streaming.allowed, fun r => ?_⟩
        rcases r with phase | _ | e | answered
        · exact ih (.inr ⟨p, streaming.wrote phase⟩)
        · exact trivial
        · exact trivial
        · exact trivial

theorem run_allowed (t : H3) (call : Call) :
    (Monitor.history (Allowed call.req)).wp (run t call) (fun _ _ => True) [] := by
  refine Monitor.wp_seq _ (stageWith_allowed t call.req call.filter) fun seen r staged => ?_
  cases r with
  | error e => exact trivial
  | ok staged' =>
      refine Monitor.wp_seq _ (finish_allowed staged.1 staged.2.1 staged.2.2) ?_
      intro seen' r answered
      cases r with
      | error e => exact trivial
      | ok responded => exact drain_allowed answered

end

end HClient.Native.Http3
