import HClient.Native.Http1

/-!
# An HTTP/1 exchange, polled and dropped

Whatever the futures answer and whenever the caller stops, the connection is polled only until it
completes, and its end is told at most once and never after it went back to the pool.
-/
namespace HClient.Native.Http1
open Effect

variable {Req Data α : Type}

/-- What a call with its answer says of the connection, the request and the body. -/
inductive Mark where
  | connCompleted
  | handedOver
  | connDropped
  | closed
  | put
  | bodyEnded
  | bodyFailed
  deriving DecidableEq

def markOf : Event Req Data → Option Mark
  | ⟨.pollConn, .ready _⟩ => some .connCompleted
  | ⟨.pollConn, .pending⟩ => none
  | ⟨.trySendRequest _, _⟩ => some .handedOver
  | ⟨.pollSend, _⟩ => none
  | ⟨.dropConn, _⟩ => some .connDropped
  | ⟨.closed _ _, _⟩ => some .closed
  | ⟨.put _ _, _⟩ => some .put
  | ⟨.pollIncoming, .ready none⟩ => some .bodyEnded
  | ⟨.pollIncoming, .ready (some (.ok _))⟩ => none
  | ⟨.pollIncoming, .ready (some (.error _))⟩ => some .bodyFailed
  | ⟨.pollIncoming, .pending⟩ => none

def Never (mark : Mark) (seen : List (Event Req Data)) : Prop := ∀ e ∈ seen, markOf e ≠ some mark

/-- Hyper gave this request back, with an error of its future. -/
def HandedBack (req : Req) (seen : List (Event Req Data)) : Prop :=
  ∃ e, ⟨.pollSend, .ready (.error e)⟩ ∈ seen ∧ e.message = some req

/-- The calls the bookkeeping is there to prevent. -/
def Allowed (seen : List (Event Req Data)) : Op Req → Prop
  | .pollConn => Never .connCompleted seen ∧ Never .connDropped seen ∧ Never .put seen
  | .trySendRequest _ => True
  | .pollSend => True
  | .dropConn => Never .connDropped seen ∧ Never .put seen
  | .closed _ _ => Never .closed seen ∧ Never .put seen
  | .put _ _ =>
      (Never .connCompleted seen ∧ Never .connDropped seen ∧ Never .put seen) ∧
        Never .closed seen ∧ Never .bodyFailed seen ∧
          ∃ earlier, seen = earlier ++ [⟨.pollIncoming, .ready none⟩]
  | .pollIncoming => True

/-- The connection is in hand and can still be polled. -/
def Running (seen : List (Event Req Data)) : Prop :=
  Never .connCompleted seen ∧ Never .connDropped seen ∧ Never .put seen

/-- What a body's fields say of the calls so far. -/
structure H1Body.Sound (seen : List (Event Req Data)) (body : H1Body) : Prop where
  running : body.conn = true → Running seen
  untold : body.stillOpen ≠ none → Never .closed seen ∧ Never .put seen
  clean : body.reuse ≠ none → Never .bodyFailed seen

/-- What holds while the request's future has not settled. -/
structure Driving (seen : List (Event Req Data)) (connDone : Bool) : Prop where
  kept : Never .connDropped seen ∧ Never .put seen
  clean : Never .bodyFailed seen
  undone : connDone = false → Never .connCompleted seen ∧ Never .closed seen

/-- What holds between two calls of the caller, for an exchange of the request `req`. -/
def Exchange.Sound (req : Req) (seen : List (Event Req Data)) : Exchange Req → Prop
  | .unpolled held _ _ => held = req ∧ seen = []
  | .driving _ _ connDone => Driving seen connDone
  | .responded _ body => body.Sound seen
  | .failed (.notSent _ request) =>
      (request = req ∧ Never .handedOver seen) ∨ HandedBack request seen
  | .failed (.sent _) => True
  | .dropped => True

section
variable {seen : List (Event Req Data)} {body : H1Body} {mark : Mark}

@[simp] theorem never_nil : Never mark ([] : List (Event Req Data)) := by
  intro e member
  cases member

@[simp] theorem never_snoc (seen : List (Event Req Data)) (e : Event Req Data) :
    Never mark (seen ++ [e]) ↔ Never mark seen ∧ markOf e ≠ some mark := by
  unfold Never
  rw [List.forall_mem_append, List.forall_mem_singleton]

theorem handedBack_snoc {req : Req} (h : HandedBack req seen) (e : Event Req Data) :
    HandedBack req (seen ++ [e]) := by
  obtain ⟨back, member, message⟩ := h
  exact ⟨back, List.mem_append_left _ member, message⟩

theorem handedBack_last (seen : List (Event Req Data)) {req : Req} {e : TrySendError Req}
    (message : e.message = some req) :
    HandedBack req (seen ++ [⟨.pollSend, .ready (.error e)⟩]) :=
  ⟨e, List.mem_append_right _ (List.mem_singleton_self _), message⟩

namespace H1Body

theorem Sound.quiet (h : body.Sound seen) {e : Event Req Data} (none : markOf e = none) :
    body.Sound (seen ++ [e]) := by
  refine ⟨fun held => ?_, fun open_ => ?_, fun way => ?_⟩
  · simpa [Running, none] using h.running held
  · simpa [none] using h.untold open_
  · simpa [none] using h.clean way

theorem reportClosed_sound (h : body.Sound seen) (reason : CloseReason) :
    (Monitor.history Allowed).wp (body.reportClosed reason) Sound seen := by
  unfold reportClosed
  split
  · exact h
  · rename_i id told
    have untold := h.untold (by rw [told]; exact Option.some_ne_none _)
    rw [Monitor.history_call]
    refine ⟨untold, fun _ => ⟨fun held => ?_, fun open_ => absurd rfl open_, fun way => ?_⟩⟩
    · simpa [Running, markOf] using h.running held
    · simpa [markOf] using h.clean way

/-- After the clean end of the body nothing stands between the connection and the pool. -/
theorem handBackToPool_sound (h : body.Sound seen) :
    (Monitor.history Allowed).wp (body.handBackToPool : Script Req Data H1Body) Sound
      (seen ++ [⟨.pollIncoming, .ready none⟩]) := by
  obtain ⟨conn, reuse, stillOpen⟩ := body
  cases conn with
  | false =>
      refine ⟨nofun, fun open_ => ?_, fun way => absurd rfl way⟩
      simpa [markOf] using h.untold open_
  | true =>
      obtain ⟨undone, kept, out⟩ := h.running rfl
      cases reuse with
      | none =>
          simp only [handBackToPool, Monitor.history_call]
          refine ⟨⟨by simpa [markOf] using kept, by simpa [markOf] using out⟩, fun _ => ?_⟩
          refine ⟨nofun, fun open_ => ?_, fun way => absurd rfl way⟩
          simpa [markOf, -List.append_assoc] using h.untold open_
      | some checkin =>
          cases stillOpen with
          | none =>
              simp only [handBackToPool, Monitor.history_call]
              refine ⟨⟨by simpa [markOf] using kept, by simpa [markOf] using out⟩, fun _ => ?_⟩
              exact ⟨nofun, fun open_ => absurd rfl open_, fun way => absurd rfl way⟩
          | some id =>
              have untold := h.untold (Option.some_ne_none id)
              have clean := h.clean (Option.some_ne_none checkin)
              simp only [handBackToPool, Monitor.history_call]
              refine ⟨⟨?_, ?_, ?_, seen, rfl⟩, fun _ => ?_⟩
              · simpa [markOf] using And.intro undone (And.intro kept out)
              · simpa [markOf] using untold.1
              · simpa [markOf] using clean
              · exact ⟨nofun, fun open_ => absurd rfl open_, fun way => absurd rfl way⟩

theorem pollIncoming_sound (h : body.Sound seen) :
    (Monitor.history Allowed).wp
      (body.pollIncoming : Script Req Data (Poll (Option (Except Error Data)) × H1Body))
      (fun seen polled => polled.2.Sound seen) seen := by
  rw [pollIncoming, Monitor.history_call]
  refine ⟨trivial, fun r => ?_⟩
  rcases r with ⟨_ | e | f⟩ | _
  · -- the id is told only if the hand-back left it
    refine Monitor.wp_seq _ (handBackToPool_sound h) ?_
    intro seen body sound
    exact Monitor.wp_seq _ (reportClosed_sound sound _) fun _ _ told => told
  · have failed : Sound (seen ++ [⟨.pollIncoming, .ready (some (.error e))⟩])
        { body with reuse := none } := by
      refine ⟨fun held => ?_, fun open_ => ?_, fun way => absurd rfl way⟩
      · simpa [Running, markOf] using h.running held
      · simpa [markOf] using h.untold open_
    exact Monitor.wp_seq _ (reportClosed_sound failed _) fun _ _ told => told
  · exact h.quiet rfl
  · exact h.quiet rfl

theorem pollFrame_sound (h : body.Sound seen) :
    (Monitor.history Allowed).wp
      (body.pollFrame : Script Req Data (Poll (Option (Except Error Data)) × H1Body))
      (fun seen polled => polled.2.Sound seen) seen := by
  unfold pollFrame
  split
  · rename_i held
    obtain ⟨undone, kept, out⟩ := h.running held
    rw [Monitor.history_call]
    refine ⟨⟨undone, kept, out⟩, fun r => ?_⟩
    -- a connection that has completed leaves the body, and with it the way back to the pool
    have gone (r : Except HyperError Unit) :
        Sound (seen ++ [⟨.pollConn, .ready r⟩] ++ [⟨.dropConn, ()⟩])
          { body with conn := false, reuse := none } := by
      refine ⟨nofun, fun open_ => ?_, fun way => absurd rfl way⟩
      simpa [markOf, -List.append_assoc] using h.untold open_
    rcases r with ⟨e | _⟩ | _
    · rw [Monitor.history_call]
      refine ⟨⟨by simpa [markOf] using kept, by simpa [markOf] using out⟩, fun _ => ?_⟩
      exact Monitor.wp_seq _ (reportClosed_sound (gone _) _) fun _ _ told => told
    · rw [Monitor.history_call]
      refine ⟨⟨by simpa [markOf] using kept, by simpa [markOf] using out⟩, fun _ => ?_⟩
      exact pollIncoming_sound (gone _)
    · exact pollIncoming_sound (h.quiet rfl)
  · exact pollIncoming_sound h

end H1Body

variable {req : Req} {connDone : Bool}

/-- The connection is dropped once more than polled, and what hyper answers then is the verdict. -/
theorem claimBack_sound (kept : Never .connDropped seen ∧ Never .put seen) (error : Error) :
    (Monitor.history Allowed).wp (claimBack error : Script Req Data (Failed Req))
      (fun seen f => (Exchange.failed f).Sound req seen) seen := by
  rw [claimBack, Monitor.history_call]
  refine ⟨kept, fun _ => ?_⟩
  rw [Monitor.history_call]
  refine ⟨trivial, fun r => ?_⟩
  rcases r with ⟨e | parts⟩ | _
  · cases message : e.message with
    | none =>
        simp only [message]
        exact trivial
    | some request =>
        simp only [message]
        exact .inr (handedBack_last _ message)
  · exact trivial
  · exact trivial

namespace Driving

theorem quiet (h : Driving seen connDone) {e : Event Req Data} (none : markOf e = none) :
    Driving (seen ++ [e]) connDone := by
  refine ⟨?_, ?_, fun undone => ?_⟩
  · simpa [none] using h.kept
  · simpa [none] using h.clean
  · simpa [none] using h.undone undone

/-- The end of a connection that completes now is still to be told. -/
theorem untold (h : Driving seen false) (r : Except HyperError Unit) :
    Never .closed (seen ++ [⟨.pollConn, .ready r⟩]) ∧
      Never .put (seen ++ [⟨.pollConn, .ready r⟩]) := by
  simpa [markOf] using And.intro (h.undone rfl).2 h.kept.2

/-- The connection completes and its end is told. -/
theorem done (h : Driving seen false) (r : Except HyperError Unit) (id : ConnectionId)
    (reason : CloseReason) :
    Driving (seen ++ [⟨.pollConn, .ready r⟩] ++ [⟨.closed id reason, ()⟩]) true := by
  refine ⟨?_, ?_, nofun⟩
  · simpa [markOf, -List.append_assoc] using h.kept
  · simpa [markOf, -List.append_assoc] using h.clean

end Driving

namespace Exchange
variable {checkin : Option CheckIn} {id : ConnectionId}

theorem settled_sound (h : Driving seen connDone)
    {sent : Except (TrySendError Req) ResponseParts}
    (answered : ⟨.pollSend, .ready sent⟩ ∈ seen) :
    (Monitor.history Allowed).wp
      (settled checkin id connDone sent : Script Req Data (Exchange Req)) (Sound req) seen := by
  cases sent with
  | error e =>
      rw [settled, Monitor.history_call]
      refine ⟨h.kept, fun _ => ?_⟩
      cases message : e.message with
      | none => exact trivial
      | some request =>
          exact .inr (handedBack_snoc ⟨e, answered, message⟩ _)
  | ok parts =>
      rw [settled]
      split
      · rw [Monitor.history_call]
        refine ⟨h.kept, fun _ => ?_⟩
        exact ⟨nofun, fun open_ => absurd rfl open_, fun way => absurd rfl way⟩
      · rename_i undone
        obtain ⟨running, untold⟩ := h.undone (Bool.eq_false_iff.mpr undone)
        exact ⟨fun _ => ⟨running, h.kept⟩, fun _ => ⟨untold, h.kept.2⟩, fun _ => h.clean⟩

theorem pollSend_sound (h : Driving seen connDone) :
    (Monitor.history Allowed).wp
      (pollSend checkin id connDone : Script Req Data (Exchange Req)) (Sound req) seen := by
  rw [pollSend, Monitor.history_call]
  refine ⟨trivial, fun r => ?_⟩
  have turned : Driving (seen ++ [⟨.pollSend, r⟩]) connDone := h.quiet rfl
  cases r with
  | ready sent =>
      exact settled_sound turned (List.mem_append_right _ (List.mem_singleton_self _))
  | pending =>
      dsimp only
      split
      · exact Monitor.wp_seq _ (claimBack_sound turned.kept _) fun _ _ verdict => verdict
      · exact turned

/-- One poll drives the connection only if it has not completed. -/
theorem drive_sound (h : Driving seen connDone) :
    (Monitor.history Allowed).wp
      (drive checkin id connDone : Script Req Data (Exchange Req)) (Sound req) seen := by
  unfold drive
  split
  · exact pollSend_sound h
  · rename_i undone
    obtain rfl := Bool.eq_false_iff.mpr undone
    obtain ⟨running, untold⟩ := h.undone rfl
    rw [Monitor.history_call]
    refine ⟨⟨running, h.kept⟩, fun r => ?_⟩
    rcases r with ⟨e | _⟩ | _
    · rw [Monitor.history_call]
      refine ⟨h.untold _, fun _ => ?_⟩
      rw [Monitor.history_call]
      refine ⟨trivial, fun r => ?_⟩
      have done := h.done (.error e) id (.failed (fromHyperError e .connect))
      have turned : Driving (_ ++ [⟨.pollSend, r⟩]) true := done.quiet rfl
      rcases r with ⟨e | parts⟩ | _
      · exact Monitor.wp_seq _ (claimBack_sound turned.kept _) fun _ _ verdict => verdict
      · exact settled_sound turned (List.mem_append_right _ (List.mem_singleton_self _))
      · exact Monitor.wp_seq _ (claimBack_sound turned.kept _) fun _ _ verdict => verdict
    · rw [Monitor.history_call]
      exact ⟨h.untold _, fun _ => pollSend_sound (h.done _ id .ended)⟩
    · exact pollSend_sound (h.quiet rfl)

theorem start_sound (req : Req) (checkin : Option CheckIn) (id : ConnectionId) :
    (Monitor.history Allowed).wp
      (start req checkin id : Script Req Data (Exchange Req)) (Sound req) [] := by
  rw [start, Monitor.history_call]
  refine ⟨⟨never_nil, never_nil, never_nil⟩, fun r => ?_⟩
  cases r with
  | ready ended =>
      rw [Monitor.history_call]
      refine ⟨⟨by simp [Never, markOf], by simp [Never, markOf]⟩, fun _ => ?_⟩
      rw [Monitor.history_call]
      refine ⟨⟨by simp [Never, markOf], by simp [Never, markOf]⟩, fun _ => ?_⟩
      exact .inl ⟨rfl, by simp [Never, markOf]⟩
  | pending =>
      rw [Monitor.history_call]
      refine ⟨trivial, fun _ => drive_sound ⟨?_, ?_, fun _ => ?_⟩⟩ <;> simp [Never, markOf]

theorem poll_sound {x : Exchange Req} (h : x.Sound req seen) :
    (Monitor.history Allowed).wp (x.poll : Script Req Data (Exchange Req)) (Sound req) seen := by
  cases x with
  | unpolled held checkin id =>
      obtain ⟨rfl, rfl⟩ := h
      exact start_sound held checkin id
  | driving checkin id connDone => exact drive_sound h
  | responded parts body =>
      exact Monitor.wp_seq _ (H1Body.pollFrame_sound h) fun _ _ polled => polled
  | failed f => exact h
  | dropped => exact h

theorem drop_sound {x : Exchange Req} (h : x.Sound req seen) :
    (Monitor.history Allowed).wp (x.drop : Script Req Data (Exchange Req)) (Sound req) seen := by
  cases x with
  | unpolled held checkin id =>
      obtain ⟨rfl, rfl⟩ := h
      rw [drop, Monitor.history_call]
      exact ⟨⟨never_nil, never_nil⟩, fun _ => trivial⟩
  | driving checkin id connDone =>
      rw [drop, Monitor.history_call]
      exact ⟨h.kept, fun _ => trivial⟩
  | responded parts body =>
      rw [drop]
      split
      · rename_i held
        rw [Monitor.history_call]
        exact ⟨(h.running held).2, fun _ => trivial⟩
      · exact trivial
  | failed f => exact h
  | dropped => exact h

theorem act_sound (seen : List (Event Req Data)) (x : Exchange Req) (action : Action)
    (h : x.Sound req seen) : (Monitor.history Allowed).wp (x.act action) (Sound req) seen := by
  cases action with
  | poll => exact poll_sound h
  | drop => exact drop_sound h

theorem run_sound (req : Req) (checkin : Option CheckIn) (id : ConnectionId)
    (actions : List Action) :
    (Monitor.history Allowed).wp (run req checkin id actions : Script Req Data (Exchange Req))
      (Sound req) [] := Monitor.wp_foldlM act_sound actions ⟨rfl, rfl⟩

end Exchange
end

/-- The end of the connection is told, or the connection goes to the pool. -/
def tells (e : Event Req Data) : Bool := markOf e = some .closed ∨ markOf e = some .put

/-- The connection is dropped, or it goes to the pool. -/
def leaves (e : Event Req Data) : Bool := markOf e = some .connDropped ∨ markOf e = some .put

section
variable {before : List (Event Req Data)} {e : Event Req Data}

theorem op_of_closed (h : markOf e = some .closed) : ∃ id reason, e.op = .closed id reason := by
  unfold markOf at h
  split at h <;> cases h
  exact ⟨_, _, rfl⟩

theorem op_of_connDropped (h : markOf e = some .connDropped) : e.op = .dropConn := by
  unfold markOf at h
  split at h <;> cases h
  rfl

theorem op_of_put (h : markOf e = some .put) : ∃ checkin est, e.op = .put checkin est := by
  unfold markOf at h
  split at h <;> cases h
  exact ⟨_, _, rfl⟩

theorem tells_eq_false : tells e = false ↔ markOf e ≠ some .closed ∧ markOf e ≠ some .put := by
  simp only [tells, decide_eq_false_iff_not, not_or, ne_eq]

theorem leaves_eq_false :
    leaves e = false ↔ markOf e ≠ some .connDropped ∧ markOf e ≠ some .put := by
  simp only [leaves, decide_eq_false_iff_not, not_or, ne_eq]

theorem tells_fresh (allowed : Allowed before e.op) (told : tells e = true) :
    ∀ x ∈ before, tells x = false := by
  have never : Never .closed before ∧ Never .put before := by
    rcases of_decide_eq_true told with closed | put
    · obtain ⟨id, reason, op⟩ := op_of_closed closed
      rw [op] at allowed
      exact allowed
    · obtain ⟨checkin, est, op⟩ := op_of_put put
      rw [op] at allowed
      exact ⟨allowed.2.1, allowed.1.2.2⟩
  intro x member
  exact tells_eq_false.mpr ⟨never.1 x member, never.2 x member⟩

theorem leaves_fresh (allowed : Allowed before e.op) (left : leaves e = true) :
    ∀ x ∈ before, leaves x = false := by
  have never : Never .connDropped before ∧ Never .put before := by
    rcases of_decide_eq_true left with dropped | put
    · rw [op_of_connDropped dropped] at allowed
      exact allowed
    · obtain ⟨checkin, est, op⟩ := op_of_put put
      rw [op] at allowed
      exact allowed.1.2
  intro x member
  exact leaves_eq_false.mpr ⟨never.1 x member, never.2 x member⟩

end

/-- The bookkeeping of one exchange, whatever its futures answer and whatever the caller does. -/
theorem exchange_bookkeeping {req : Req} {checkin : Option CheckIn} {id : ConnectionId}
    {actions : List Action} {t : List (Event Req Data)} {rest : Script Req Data (Exchange Req)}
    (steps : (Exchange.run req checkin id actions).Steps t rest) :
    (∀ before r after, t = before ++ ⟨.pollConn, r⟩ :: after → Never .connCompleted before) ∧
      t.countP tells ≤ 1 ∧ t.countP leaves ≤ 1 ∧
      (∀ before e after, t = before ++ e :: after → markOf e = some .put →
        Never .connCompleted before ∧ Never .bodyFailed before ∧
          ∃ earlier, before = earlier ++ [⟨.pollIncoming, .ready none⟩]) ∧
      ∀ error request, rest = .done (.failed (.notSent error request)) →
        (request = req ∧ Never .handedOver t) ∨ HandedBack request t := by
  obtain ⟨allowed, last⟩ := Monitor.history_steps steps (Exchange.run_sound req checkin id actions)
  refine ⟨?_, ?_, ?_, ?_, ?_⟩
  · intro before r after same
    exact (allowed _ _ _ same).1
  · apply countP_le_one
    intro before e after same
    exact tells_fresh (allowed _ _ _ same)
  · apply countP_le_one
    intro before e after same
    exact leaves_fresh (allowed _ _ _ same)
  · intro before e after same put
    obtain ⟨checkin, est, op⟩ := op_of_put put
    have call := allowed _ _ _ same
    rw [op] at call
    exact ⟨call.1.1, call.2.2⟩
  · intro error request settled
    rw [settled] at last
    exact last

/-- Futures that answer at once, over a connection that stays. -/
def prompt : (op : Op Unit) → Unit → Op.Answer Unit op × Unit
  | .pollConn, _ => (.pending, ())
  | .trySendRequest _, _ => ((), ())
  | .pollSend, _ => (.ready (.ok ⟨200, .http11, []⟩), ())
  | .dropConn, _ => ((), ())
  | .closed _ _, _ => ((), ())
  | .put _ _, _ => ((), ())
  | .pollIncoming, _ => (.ready none, ())

/-- There a response read to its end puts the connection in the pool, and that is all. -/
theorem exchange_bookkeeping_prompt :
    let p : Script Unit Unit (Exchange Unit) :=
      Exchange.run () (some ⟨.new .plaintext [] 80 .http11 none, 0⟩) 7 [.poll, .poll, .drop]
    ((p.log prompt ()).any fun e => markOf e = some .put) = true ∧
      (p.log prompt ()).countP tells ≤ 1 ∧ (p.log prompt ()).countP leaves ≤ 1 := by
  intro p
  obtain ⟨-, told, left, -⟩ := exchange_bookkeeping (p.steps_log prompt ())
  exact ⟨rfl, told, left⟩

end HClient.Native.Http1
