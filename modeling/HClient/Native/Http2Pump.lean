import HClient.Core.Header
import HClient.Core.Poll
import HClient.Effect.Monitor
import HClient.Native.Error

/-!
# The upload of an HTTP/2 request

The pump that writes a request body to its stream, as the calls it makes of the stream and of
the body, from its first poll until it is dropped. A turn is one round of the loop of
`Pump::poll`; its owner polls it until it answers, and drops it then or before.
-/
namespace HClient.Native.Http2

open Effect Program

abbrev Bytes := List UInt8

abbrev Reason := UInt32

/-- `Reason::CANCEL`. -/
def cancelReason : Reason := 8

/-- A frame of a body; `unknown` is one that is neither data nor trailers. -/
inductive Frame where
  | data (bytes : Bytes)
  | trailers (fields : HeaderMap HeaderValue)
  | unknown
  deriving DecidableEq

/-- What this side makes of an error of h2's, of type `H`. -/
inductive PumpSource (H : Type) where
  | h2 (e : H)
  | streamClosedWhileSendingTheRequestBody
  | unknownRequestBodyFrame
  deriving DecidableEq

/-- An error of the pump's own, or that of the caller's body, of type `B`. -/
inductive PumpError (H B : Type) where
  | new (kind : ErrorKind) (source : PumpSource H)
  | body (e : B)
  deriving DecidableEq

inductive Pumped where
  | done
  | peerStoppedReading
  deriving DecidableEq, Repr

/-- The calls of `h2::SendStream` and of the body. -/
inductive Op where
  | pollReset
  | capacity
  | reserveCapacity (n : Nat)
  | pollCapacity
  | sendData (bytes : Bytes) (endOfStream : Bool)
  | sendTrailers (fields : HeaderMap HeaderValue)
  | sendReset (reason : Reason)
  | pollFrame
  deriving DecidableEq

def Op.Answer (H B : Type) : Op → Type
  | .pollReset => Poll (Except H Reason)
  | .capacity => Nat
  | .reserveCapacity _ => Unit
  | .pollCapacity => Poll (Option (Except H Nat))
  | .sendData _ _ => Except H Unit
  | .sendTrailers _ => Except H Unit
  | .sendReset _ => Unit
  | .pollFrame => Poll (Option (Except B Frame))

abbrev Script (H B α : Type) := Effect.Program Op (Op.Answer H B) α

abbrev Event (H B : Type) := Effect.Program.Event Op (Op.Answer H B)

structure Pump where
  pending : Option Bytes
  settled : Bool
  deriving DecidableEq, Repr

inductive TurnEnd (H B : Type) where
  | again (p : Pump)
  | pending (p : Pump)
  | ready (result : Except (PumpError H B) Pumped) (p : Pump)

section
variable {H B : Type}

def ask (op : Op) : Script H B (op.Answer H B) := Program.perform op

namespace Pump

def new : Pump := ⟨none, false⟩

/-- The guard of `Drop`. -/
def drop (p : Pump) : Script H B Unit :=
  if !p.settled then ask (.sendReset cancelReason) else pure ()

def failed (e : H) (p : Pump) : TurnEnd H B := .ready (.error (.new .body (.h2 e))) p

/-- With no chunk in hand: the next frame of the body, or its end. -/
def pull (p : Pump) : Script H B (TurnEnd H B) :=
  (ask .pollFrame).bind fun (frame : Poll (Option (Except B Frame))) =>
    match frame with
    | .ready (some (.ok (.data data))) =>
        pure (.again (if data ≠ [] then { p with pending := some data } else p))
    | .ready (some (.ok (.trailers trailers))) =>
        (ask (.sendTrailers trailers)).bind fun (sent : Except H Unit) =>
          match sent with
          | .ok () => pure (.ready (.ok .done) { p with settled := true })
          | .error e => pure (failed e p)
    | .ready (some (.ok .unknown)) =>
        pure (.ready (.error (.new .body .unknownRequestBodyFrame)) p)
    | .ready (some (.error e)) =>
        (ask (.sendReset cancelReason)).bind fun (_ : Unit) =>
          pure (.ready (.error (.body e)) { p with settled := true })
    | .ready none =>
        (ask (.sendData [] true)).bind fun (sent : Except H Unit) =>
          match sent with
          | .ok () => pure (.ready (.ok .done) { p with settled := true })
          | .error e => pure (failed e p)
    | .pending => pure (.pending p)

/-- As much of a chunk as there is room for; the pump holds none. -/
def write (p : Pump) (chunk : Bytes) : Script H B (TurnEnd H B) :=
  (ask .capacity).bind fun (capacity : Nat) =>
    let n := min capacity chunk.length
    (ask (.sendData (chunk.take n) false)).bind fun (sent : Except H Unit) =>
      match sent with
      | .error e => pure (failed e p)
      | .ok () =>
          if chunk.drop n ≠ [] then pure (.again { p with pending := some (chunk.drop n) })
          else p.pull

/-- A chunk in hand: it waits for capacity if there is none. -/
def push (p : Pump) (chunk : Bytes) : Script H B (TurnEnd H B) :=
  (ask .capacity).bind fun (capacity : Nat) =>
    if capacity = 0 then
      (ask (.reserveCapacity chunk.length)).bind fun (_ : Unit) =>
        (ask .pollCapacity).bind fun (granted : Poll (Option (Except H Nat))) =>
          match granted with
          | .ready (some (.ok _)) => p.write chunk
          | .ready (some (.error e)) => pure (failed e p)
          | .ready none =>
              pure (.ready (.error (.new .body .streamClosedWhileSendingTheRequestBody)) p)
          | .pending => pure (.pending { p with pending := some chunk })
    else p.write chunk

/-- One round of the loop of `poll`. -/
def turn (p : Pump) : Script H B (TurnEnd H B) :=
  (ask .pollReset).bind fun (reset : Poll (Except H Reason)) =>
    match reset with
    | .ready (.ok _) => pure (.ready (.ok .peerStoppedReading) { p with settled := true })
    | .ready (.error e) => pure (failed e p)
    | .pending =>
        match p.pending with
        | some chunk => push { p with pending := none } chunk
        | none => p.pull

/-- The pump from here on: some turns, in however many polls, and the drop, which comes at the
latest when a poll has answered. -/
def life : Nat → Pump → Script H B Unit
  | 0, p => p.drop
  | turns + 1, p => p.turn.bind fun (ended : TurnEnd H B) =>
      match ended with
      | .again p | .pending p => life turns p
      | .ready _ p => p.drop

end Pump

/-! ## What is to hold of a record -/

/-- The data that came from the body. -/
def Event.received : Event H B → Bytes
  | ⟨.pollFrame, .ready (some (.ok (.data data)))⟩ => data
  | _ => []

/-- The data that was handed to the stream. -/
def Event.sent (e : Event H B) : Bytes :=
  match e.op with
  | .sendData bytes _ => bytes
  | _ => []

def received (t : List (Event H B)) : Bytes := t.flatMap Event.received

def sent (t : List (Event H B)) : Bytes := t.flatMap Event.sent

/-- The body said that nothing comes after this. -/
def Event.endsBody : Event H B → Bool
  | ⟨.pollFrame, .ready (some (.ok (.data _)))⟩ => false
  | ⟨.pollFrame, .ready _⟩ => true
  | _ => false

/-- The stream is told that nothing comes after this. -/
def Op.closes : Op → Bool
  | .sendData _ endOfStream => endOfStream
  | .sendTrailers _ => true
  | _ => false

def Op.resets : Op → Bool
  | .sendReset _ => true
  | _ => false

/-- The request is over for the peer: it was told the end, or does not read any more. -/
def Event.settles : Event H B → Bool
  | ⟨.pollReset, .ready (.ok _)⟩ => true
  | ⟨.sendData _ true, .ok ()⟩ => true
  | ⟨.sendTrailers _, .ok ()⟩ => true
  | _ => false

/-- What the stream has room for: what it said last, less what was sent since. -/
def leaves (left : Nat) : Event H B → Nat
  | ⟨.capacity, n⟩ => n
  | ⟨.sendData bytes _, _⟩ => left - bytes.length
  | _ => left

def room (t : List (Event H B)) : Nat := t.foldl leaves 0

/-- The stream was not reset, and nothing settled the request. -/
def Unreset (t : List (Event H B)) : Prop := ∀ e ∈ t, e.op.resets = false ∧ e.settles = false

/-- What is to hold of a call after the calls before it. -/
def Right (before : List (Event H B)) : Op → Prop
  | .sendData bytes endOfStream =>
      sent before ++ bytes <+: received before ∧ bytes.length ≤ room before ∧
        (∀ e ∈ before, e.op.closes = false) ∧ (endOfStream = true →
          sent before ++ bytes = received before ∧ ⟨.pollFrame, .ready none⟩ ∈ before)
  | .sendTrailers fields =>
      sent before = received before ∧ (∀ e ∈ before, e.op.closes = false) ∧
        ⟨.pollFrame, .ready (some (.ok (.trailers fields)))⟩ ∈ before
  | .sendReset _ => Unreset before
  | .pollFrame => ∀ e ∈ before, e.endsBody = false
  | _ => True

theorem received_snoc (t : List (Event H B)) (e : Event H B) :
    received (t ++ [e]) = received t ++ e.received := by
  simp [received]

theorem sent_snoc (t : List (Event H B)) (e : Event H B) : sent (t ++ [e]) = sent t ++ e.sent := by
  simp [sent]

theorem room_snoc (t : List (Event H B)) (e : Event H B) : room (t ++ [e]) = leaves (room t) e :=
  List.foldl_concat _ _ _ _

/-- Nothing that ends anything. -/
structure Calm (e : Event H B) : Prop where
  body : e.endsBody = false
  closes : e.op.closes = false
  resets : e.op.resets = false
  settles : e.settles = false

/-- A record without an end, with these bytes received and not sent. -/
structure Going (t : List (Event H B)) (hand : Bytes) : Prop where
  carried : sent t ++ hand = received t
  calm : ∀ e ∈ t, Calm e

/-- A record with which the pump is over: it owes the stream a reset unless it is settled. -/
structure Over (t : List (Event H B)) (p : Pump) : Prop where
  owes : p.settled = false → Unreset t
  resets : p.settled = true → t.countP (·.op.resets) = if t.any Event.settles then 0 else 1

/-- What a turn leaves. -/
def Turned (t : List (Event H B)) : TurnEnd H B → Prop
  | .again p | .pending p => p.settled = false ∧ Going t (p.pending.getD [])
  | .ready _ p => Over t p

abbrev watch : Monitor Op (Op.Answer H B) (List (Event H B)) := .history Right

section Steps
variable {t : List (Event H B)} {hand : Bytes} {p : Pump}

theorem Going.unreset (h : Going t hand) : Unreset t :=
  fun e mem => ⟨(h.calm e mem).resets, (h.calm e mem).settles⟩

theorem Going.over (h : Going t hand) (unsettled : p.settled = false) : Over t p where
  owes _ := h.unreset
  resets settled := absurd (unsettled.symm.trans settled) Bool.false_ne_true

/-- An event that is calm, and moves no bytes. -/
theorem Going.quiet (h : Going t hand) {e : Event H B} (calm : Calm e) (none : e.received = [])
    (nothing : e.sent = []) : Going (t ++ [e]) hand where
  carried := by rw [received_snoc, sent_snoc, none, nothing, List.append_nil, List.append_nil,
    h.carried]
  calm := List.forall_mem_append.mpr ⟨h.calm, List.forall_mem_singleton.mpr calm⟩

/-- The last event settles the request or is a reset, the first that does. -/
theorem over_of_last {e : Event H B} (unreset : Unreset t)
    (last : e.op.resets = !e.settles) (settled : p.settled = true) : Over (t ++ [e]) p where
  owes unsettled := absurd (unsettled.symm.trans settled) Bool.false_ne_true
  resets _ := by
    have none : t.countP (·.op.resets) = 0 := List.countP_eq_zero.mpr fun e mem => by
      rw [(unreset e mem).1]
      exact Bool.false_ne_true
    have never : t.any Event.settles = false := List.any_eq_false.mpr fun e mem => by
      rw [(unreset e mem).2]
      exact Bool.false_ne_true
    rw [List.countP_append, none, List.countP_singleton, last, List.any_append, never,
      List.any_cons]
    cases e.settles <;> rfl

theorem Over.of_owes (unsettled : p.settled = false)
    (unreset : Unreset t) : Over t p where
  owes _ := unreset
  resets settled := absurd (unsettled.symm.trans settled) Bool.false_ne_true

theorem unreset_snoc (unreset : Unreset t) {e : Event H B}
    (no_reset : e.op.resets = false) (unsettles : e.settles = false) :
    Unreset (t ++ [e]) :=
  List.forall_mem_append.mpr ⟨unreset, List.forall_mem_singleton.mpr ⟨no_reset, unsettles⟩⟩

theorem pull_right (going : Going t []) (unsettled : p.settled = false) (empty : p.pending = none) :
    watch.wp (p.pull : Script H B _) Turned t := by
  unfold Pump.pull
  refine (Monitor.history_call _ _ _).mpr ⟨fun e mem => (going.calm e mem).body, fun frame => ?_⟩
  have asked : Unreset (t ++ [⟨.pollFrame, frame⟩]) := unreset_snoc going.unreset rfl rfl
  have all_sent : sent t = received t := (List.append_nil _).symm.trans going.carried
  have unclosed : ∀ r : Op.Answer H B .pollFrame, ∀ e ∈ t ++ [⟨.pollFrame, r⟩],
      e.op.closes = false := fun r =>
    List.forall_mem_append.mpr
      ⟨fun e mem => (going.calm e mem).closes, List.forall_mem_singleton.mpr rfl⟩
  match frame with
  | .pending =>
      refine ⟨unsettled, ?_⟩
      rw [empty]
      exact going.quiet ⟨rfl, rfl, rfl, rfl⟩ rfl rfl
  | .ready (some (.ok (.data data))) =>
      have grown : Going (t ++ [⟨.pollFrame, .ready (some (.ok (.data data)))⟩]) data := by
        refine ⟨?_, List.forall_mem_append.mpr ⟨going.calm, ?_⟩⟩
        · rw [sent_snoc, received_snoc, all_sent]
          exact congrArg (· ++ data) (List.append_nil _)
        · exact List.forall_mem_singleton.mpr ⟨rfl, rfl, rfl, rfl⟩
      change Turned _ (.again (if data ≠ [] then { p with pending := some data } else p))
      by_cases some : data ≠ []
      · rw [if_pos some]
        exact ⟨unsettled, grown⟩
      · rw [if_neg some]
        refine ⟨unsettled, ?_⟩
        rw [empty]
        rwa [not_not.mp some] at grown ⊢
  | .ready (some (.ok .unknown)) => exact .of_owes unsettled asked
  | .ready (some (.ok (.trailers fields))) =>
      have right : Right (t ++ [⟨.pollFrame, .ready (some (.ok (.trailers fields)))⟩])
          (.sendTrailers fields) := by
        refine ⟨?_, unclosed _, List.mem_append_right _ List.mem_cons_self⟩
        rw [sent_snoc, received_snoc, all_sent]
        rfl
      refine (Monitor.history_call _ _ _).mpr ⟨right, fun answer => ?_⟩
      match answer with
      | .ok () => exact over_of_last asked rfl rfl
      | .error e => exact .of_owes unsettled (unreset_snoc asked rfl rfl)
  | .ready (some (.error e)) =>
      refine (Monitor.history_call _ _ _).mpr ⟨asked, fun _ => ?_⟩
      exact over_of_last asked rfl rfl
  | .ready none =>
      have right : Right (t ++ [⟨.pollFrame, .ready none⟩]) (.sendData [] true) := by
        have same : sent (t ++ [⟨.pollFrame, .ready none⟩]) ++ [] =
            received (t ++ [⟨.pollFrame, .ready none⟩]) := by
          rw [sent_snoc, received_snoc, all_sent]
          exact List.append_nil _
        exact ⟨same ▸ List.prefix_rfl, Nat.zero_le _, unclosed _, fun _ =>
          ⟨same, List.mem_append_right _ List.mem_cons_self⟩⟩
      refine (Monitor.history_call _ _ _).mpr ⟨right, fun answer => ?_⟩
      match answer with
      | .ok () => exact over_of_last asked rfl rfl
      | .error e => exact .of_owes unsettled (unreset_snoc asked rfl rfl)

theorem write_right {chunk : Bytes} (going : Going t chunk) (unsettled : p.settled = false)
    (empty : p.pending = none) : watch.wp (p.write chunk : Script H B _) Turned t := by
  unfold Pump.write
  refine (Monitor.history_call _ _ _).mpr ⟨trivial, fun capacity => ?_⟩
  have told : Going (t ++ [⟨.capacity, capacity⟩]) chunk :=
    going.quiet ⟨rfl, rfl, rfl, rfl⟩ rfl rfl
  have whole := List.take_append_drop (min capacity chunk.length) chunk
  have right : Right (t ++ [⟨.capacity, capacity⟩])
      (.sendData (chunk.take (min capacity chunk.length)) false) := by
    refine ⟨?_, ?_, fun e mem => (told.calm e mem).closes, fun impossible => by cases impossible⟩
    · rw [← told.carried]
      exact (List.prefix_append_right_inj _).mpr (List.take_prefix _ _)
    · rw [room_snoc, List.length_take]
      exact (min_le_left _ _).trans (min_le_left _ _)
  refine (Monitor.history_call _ _ _).mpr ⟨right, fun answer => ?_⟩
  have left : Going (t ++ [⟨.capacity, capacity⟩] ++
      [⟨.sendData (chunk.take (min capacity chunk.length)) false, answer⟩])
      (chunk.drop (min capacity chunk.length)) := by
    refine ⟨?_, List.forall_mem_append.mpr ⟨told.calm, ?_⟩⟩
    · rw [sent_snoc, received_snoc]
      change sent _ ++ chunk.take _ ++ _ = received _ ++ []
      rw [List.append_assoc, whole, told.carried, List.append_nil]
    · exact List.forall_mem_singleton.mpr ⟨rfl, rfl, rfl, by cases answer <;> rfl⟩
  match answer with
  | .error e => exact .of_owes unsettled left.unreset
  | .ok () =>
      by_cases more : chunk.drop (min capacity chunk.length) ≠ []
      · simp only [if_pos more]
        exact ⟨unsettled, left⟩
      · simp only [if_neg more]
        exact pull_right (not_not.mp more ▸ left) unsettled empty

theorem push_right {chunk : Bytes} (going : Going t chunk) (unsettled : p.settled = false)
    (empty : p.pending = none) : watch.wp (p.push chunk : Script H B _) Turned t := by
  unfold Pump.push
  refine (Monitor.history_call _ _ _).mpr ⟨trivial, fun (capacity : Nat) => ?_⟩
  have told : Going (t ++ [⟨.capacity, capacity⟩]) chunk :=
    going.quiet ⟨rfl, rfl, rfl, rfl⟩ rfl rfl
  change watch.wp (if capacity = 0 then _ else p.write chunk) Turned _
  by_cases full : capacity = 0
  · rw [if_pos full]
    refine (Monitor.history_call _ _ _).mpr ⟨trivial, fun reserved => ?_⟩
    have reserving := told.quiet (e := ⟨.reserveCapacity chunk.length, reserved⟩)
      ⟨rfl, rfl, rfl, rfl⟩ rfl rfl
    refine (Monitor.history_call _ _ _).mpr ⟨trivial, fun granted => ?_⟩
    have polled := reserving.quiet (e := ⟨.pollCapacity, granted⟩) ⟨rfl, rfl, rfl, rfl⟩ rfl rfl
    match granted with
    | .ready (some (.ok n)) => exact write_right polled unsettled empty
    | .ready (some (.error e)) => exact .of_owes unsettled polled.unreset
    | .ready none => exact .of_owes unsettled polled.unreset
    | .pending => exact ⟨unsettled, polled⟩
  · rw [if_neg full]
    exact write_right told unsettled empty

theorem turn_right (going : Going t (p.pending.getD [])) (unsettled : p.settled = false) :
    watch.wp (p.turn : Script H B _) Turned t := by
  unfold Pump.turn
  refine (Monitor.history_call _ _ _).mpr ⟨trivial, fun reset => ?_⟩
  match reset with
  | .ready (.ok reason) => exact over_of_last going.unreset rfl rfl
  | .ready (.error e) => exact .of_owes unsettled (unreset_snoc going.unreset rfl rfl)
  | .pending =>
      have asked : Going (t ++ [⟨.pollReset, .pending⟩]) (p.pending.getD []) :=
        going.quiet ⟨rfl, rfl, rfl, rfl⟩ rfl rfl
      change watch.wp (match p.pending with
        | some chunk => Pump.push { p with pending := none } chunk
        | none => p.pull) Turned _
      cases hand : p.pending with
      | none =>
          rw [hand] at asked
          exact pull_right asked unsettled hand
      | some chunk =>
          rw [hand] at asked
          exact push_right asked unsettled rfl

/-- Whatever comes of a turn, the pump may be dropped after it. -/
theorem drop_right (ended : Over t p) :
    watch.wp (p.drop : Script H B _)
      (fun t _ => t.countP (·.op.resets) = if t.any Event.settles then 0 else 1) t := by
  unfold Pump.drop
  cases settled : p.settled with
  | true => exact ended.resets settled
  | false =>
      refine (Monitor.history_call _ _ _).mpr ⟨ended.owes settled, fun _ => ?_⟩
      exact (over_of_last (p := { p with settled := true }) (ended.owes settled) rfl rfl).resets rfl

theorem life_right (turns : Nat) (going : Going t (p.pending.getD [])) (unsettled : p.settled = false) :
    watch.wp (p.life turns : Script H B _)
      (fun t _ => t.countP (·.op.resets) = if t.any Event.settles then 0 else 1) t := by
  induction turns generalizing p t with
  | zero => exact drop_right (going.over unsettled)
  | succ turns ih =>
      unfold Pump.life
      refine watch.wp_seq (turn_right going unsettled) fun t ended turned => ?_
      match ended with
      | .again p => exact ih turned.2 turned.1
      | .pending p => exact ih turned.2 turned.1
      | .ready result p => exact drop_right turned

end Steps

/-! ## The life of a pump -/

section Runs
variable {t : List (Event H B)}

theorem received_grows (t more : List (Event H B)) : received t <+: received (t ++ more) := by
  rw [received, received, List.flatMap_append]
  exact List.prefix_append _ _

theorem sent_of_right
    (right : ∀ before e after, t = before ++ e :: after → Right before e.op) :
    sent t <+: received t := by
  induction t using List.reverseRecOn with
  | nil => exact List.prefix_rfl
  | append_singleton t e ih =>
      have earlier : sent t <+: received t := by
        apply ih
        intro before x after same
        exact right before x (after ++ [e]) (by rw [same, List.append_assoc]; rfl)
      rw [sent_snoc]
      have last := right t e [] rfl
      obtain ⟨op, answer⟩ := e
      cases op with
      | sendData bytes ends => exact last.1.trans (received_grows t _)
      | _ =>
          refine List.IsPrefix.trans ?_ (received_grows t _)
          exact (List.append_nil (sent t)).symm ▸ earlier

theorem closes_of_right
    (right : ∀ before e after, t = before ++ e :: after → Right before e.op) :
    t.countP (·.op.closes) ≤ 1 := by
  apply countP_le_one
  intro before e after same closes
  have allowed := right before e after same
  obtain ⟨op, answer⟩ := e
  cases op with
  | sendData bytes ends => exact allowed.2.2.1
  | sendTrailers fields => exact allowed.2.1
  | _ => cases closes

/-- Whatever the body brings and the stream answers, and wherever the pump is dropped: each call
is right, what is sent is a prefix of the body's data, the end is told once at most, and a
request that is not over for the peer is reset once. -/
theorem upload_right (turns : Nat) {t : List (Event H B)} {rest : Script H B Unit}
    (steps : (Pump.new.life turns : Script H B Unit).Steps t rest) :
    (∀ before e after, t = before ++ e :: after → Right before e.op) ∧
      sent t <+: received t ∧ t.countP (·.op.closes) ≤ 1 ∧
        (rest = .done () →
          t.countP (·.op.resets) = if t.any Event.settles then 0 else 1) := by
  have going : Going ([] : List (Event H B)) [] := ⟨rfl, nofun⟩
  obtain ⟨right, left⟩ := Monitor.history_steps steps (life_right turns going rfl)
  refine ⟨right, sent_of_right right, closes_of_right right, ?_⟩
  rintro rfl
  exact left

end Runs

section Scene

/-- A body of five bytes and trailers, and a stream with room for two bytes at a time. -/
def fiveBytes : (op : Op) → Nat → op.Answer Unit Unit × Nat
  | .pollReset, n => (.pending, n)
  | .capacity, n => ((2 : Nat), n)
  | .reserveCapacity _, n => ((), n)
  | .pollCapacity, n => (.pending, n)
  | .sendData .., n => (.ok (), n)
  | .sendTrailers _, n => (.ok (), n)
  | .sendReset _, n => ((), n)
  | .pollFrame, n =>
      (if n = 0 then .ready (some (.ok (.data [1, 2, 3, 4, 5])))
        else .ready (some (.ok (.trailers []))), n + 1)

def fiveBytesSent : List (Event Unit Unit) :=
  (Pump.new.life 5 : Script Unit Unit Unit).log fiveBytes 0

theorem upload_right_five :
    sent fiveBytesSent = [1, 2, 3, 4, 5] ∧
      ((∀ before e after, fiveBytesSent = before ++ e :: after → Right before e.op) ∧
        sent fiveBytesSent <+: received fiveBytesSent ∧
          fiveBytesSent.countP (·.op.closes) ≤ 1 ∧
            (((.done () : Script Unit Unit Unit) = .done ()) →
              fiveBytesSent.countP (·.op.resets) =
                if fiveBytesSent.any Event.settles then 0 else 1)) :=
  ⟨by decide, upload_right 5 (steps_log fiveBytes _ 0)⟩

end Scene

end
end HClient.Native.Http2
