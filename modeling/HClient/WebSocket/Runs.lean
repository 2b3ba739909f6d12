import HClient.Effect.Walk
import HClient.Effect.Turns
import HClient.WebSocket.Socket

/-!
# Records of a socket

Every record of a socket with keep-alive, in whatever order frames come in, sleeps fire, writes
and flushes go and the caller calls: what is to hold of each call after those before it.
-/
namespace HClient.WebSocket

open Effect

variable {S : Type}

/-- The payload of a ping that is written. -/
def Op.ping : Op S → Option (List UInt8)
  | .write _ (.ping payload) => some payload
  | _ => none

/-- The frame that came in. -/
def Event.inbound : Event S → Option Frame
  | ⟨.read, .ok frame⟩ => some frame
  | _ => none

/-- A close of ours goes out: the caller's, or the answer of tungstenite to one that came in. -/
def Event.closes : Event S → Bool
  | ⟨.write _ (.close _), _⟩ => true
  | ⟨.close, _⟩ => true
  | ⟨.read, .ok (.close _)⟩ => true
  | _ => false

/-- The stream is over with such an answer. -/
def ends : Polled → Bool
  | .ready none | .ready (some (.error _)) => true
  | _ => false

/-- The caller is told that the stream is over. -/
def Op.ends : Op S → Bool
  | .reply (.polled answer) => WebSocket.ends answer
  | _ => false

def Ended (t : List (Event S)) : Prop := ∃ e ∈ t, e.op.ends = true

/-- How many pings were written. -/
def pings (t : List (Event S)) : Nat := t.countP (·.op.ping.isSome)

/-- A pong with the payload of each ping came in after it: no probe is outstanding. -/
def Answered : List (Event S) → Prop
  | [] => True
  | e :: t => (∀ p, e.op.ping = some p → ∃ x ∈ t, x.inbound = some (.pong p)) ∧ Answered t

/-- The last ping, with this payload, is the only probe that is outstanding. -/
def Waiting (p : List UInt8) (t : List (Event S)) : Prop :=
  ∃ before e after, t = before ++ e :: after ∧ e.op.ping = some p ∧ Answered before ∧
    ∀ x ∈ after, x.op.ping = none ∧ x.inbound ≠ some (.pong p)

/-- The sleep is one of this length, begun after the last frame that came in. -/
def Silent (d : Duration) (s : S) (t : List (Event S)) : Prop :=
  Since (· = ⟨.sleep d, s⟩) (fun e => e.inbound.isSome = true) t

/-- The sleep is one of this length, begun after the last ping. -/
def Probed (d : Duration) (s : S) (t : List (Event S)) : Prop :=
  Since (· = ⟨.sleep d, s⟩) (fun e => e.op.ping.isSome = true) t

/-- A sleep has just fired, begun as `armed` says. -/
def Elapsed (armed : S → List (Event S) → Prop) (t : List (Event S)) : Prop :=
  ∃ before s, t = before ++ [⟨.pollSleep s, .ready ()⟩] ∧ armed s before

/-- What is to hold of a call after the calls before it. -/
def Right (c : WebSocketKeepAlive) (before : List (Event S)) : Op S → Prop
  | .write _ (.ping payload) =>
      Answered before ∧ payload = toBeBytes (.ofNat (pings before)) ∧
        Elapsed (Silent c.every) before ∧ ∀ e ∈ before, e.closes = false
  | .sleep due =>
      (Answered before ∧ due = c.every) ∨
        ∃ seq, Waiting (toBeBytes seq) before ∧ due = c.within
  | .pollSleep s =>
      (Answered before ∧ Silent c.every s before) ∨
        ∃ seq, Waiting (toBeBytes seq) before ∧ Probed c.within s before
  | .reply (.polled answer) =>
      (Ended before → answer = .ready none) ∧
        ∀ kind d, answer = .ready (some (.error ⟨kind, .pongNotReceived d⟩)) →
          d = c.within ∧ (∃ seq, Waiting (toBeBytes seq) before) ∧
            Elapsed (Probed c.within) before
  | .reply (.printed none) => Answered before
  | .reply (.printed (some seq)) => Waiting (toBeBytes seq) before
  | _ => True

/-- What `can_write` tells: nothing can be written once a close went out. -/
def Tells (before : List (Event S)) : Event S → Prop
  | ⟨.canWrite, can⟩ => (∃ e ∈ before, e.closes = true) → can = false
  | _ => True

/-! ## Probes -/

variable {c : WebSocketKeepAlive} {t later : List (Event S)} {e : Event S} {p : List UInt8}
  {d : Duration} {s : S}

theorem answered_append (first : Answered t) (second : Answered later) : Answered (t ++ later) := by
  induction t with
  | nil => exact second
  | cons e t ih =>
      refine ⟨fun p ping => ?_, ih first.2⟩
      obtain ⟨x, member, pong⟩ := first.1 p ping
      exact ⟨x, List.mem_append_left _ member, pong⟩

theorem answered_of_none (none : ∀ x ∈ t, x.op.ping = none) : Answered t := by
  induction t with
  | nil => trivial
  | cons e t ih =>
      obtain ⟨here, others⟩ := List.forall_mem_cons.mp none
      refine ⟨fun p ping => ?_, ih others⟩
      cases here.symm.trans ping

theorem Answered.quiet (answered : Answered t) (quiet : e.op.ping = none) :
    Answered (t ++ [e]) :=
  answered_append answered (answered_of_none (List.forall_mem_singleton.mpr quiet))

theorem Answered.probe (answered : Answered t) (ping : e.op.ping = some p) :
    Waiting p (t ++ [e]) := ⟨t, e, [], rfl, ping, answered, nofun⟩

theorem Waiting.quiet (waiting : Waiting p t) (quiet : e.op.ping = none)
    (other : e.inbound ≠ some (.pong p)) : Waiting p (t ++ [e]) := by
  obtain ⟨before, ping, after, rfl, carries, answered, open'⟩ := waiting
  refine ⟨before, ping, after ++ [e], List.append_assoc _ _ _, carries, answered, ?_⟩
  exact List.forall_mem_append.mpr ⟨open', List.forall_mem_singleton.mpr ⟨quiet, other⟩⟩

/-- The pong of the probe leaves none outstanding. -/
theorem Waiting.answered (waiting : Waiting p t) (quiet : e.op.ping = none)
    (pong : e.inbound = some (.pong p)) : Answered (t ++ [e]) := by
  obtain ⟨before, ping, after, rfl, carries, answered, open'⟩ := waiting
  rw [List.append_assoc]
  refine answered_append answered ⟨fun q same => ?_, ?_⟩
  · obtain rfl : p = q := Option.some.inj (carries.symm.trans same)
    exact ⟨e, List.mem_append_right _ List.mem_cons_self, pong⟩
  · exact (answered_of_none fun x member => (open' x member).1).quiet quiet

theorem pings_concat (t : List (Event S)) (e : Event S) :
    pings (t ++ [e]) = pings t + if e.op.ping.isSome then 1 else 0 := by
  rw [pings, List.countP_append, List.countP_singleton, pings]

/-! ## The state of the keep-alive -/

/-- What a record says of the probe that waits and of the sleep that runs. -/
def Standing (c : WebSocketKeepAlive) (t : List (Event S)) : Option UInt64 → Option S → Prop
  | none, sleep => Answered t ∧ ∀ s, sleep = some s → Silent c.every s t
  | some seq, sleep =>
      Waiting (toBeBytes seq) t ∧ ∀ s, sleep = some s → Probed c.within s t

namespace Liveness
variable {l : Liveness S} {frame : Frame} {seq : UInt64}

theorem saw_of_none (none : l.outstanding = none) : l.saw frame = { l with sleep := .none } := by
  have other : l.isAnsweredBy frame = false := by
    unfold isAnsweredBy
    rw [none]
    cases frame <;> rfl
  rw [saw, other]
  simp only [Bool.false_eq_true, if_false, none, Option.isNone_none, if_true]

theorem saw_pong (waits : l.outstanding = some seq) :
    l.saw (.pong (toBeBytes seq)) = { l with sleep := none, outstanding := none } := by
  have pong : l.isAnsweredBy (.pong (toBeBytes seq)) = true := by
    unfold isAnsweredBy
    rw [waits]
    exact decide_eq_true rfl
  rw [saw, pong]
  rfl

theorem saw_other (waits : l.outstanding = some seq) (other : frame ≠ .pong (toBeBytes seq)) :
    l.saw frame = l := by
  have unanswered : l.isAnsweredBy frame = false := by
    unfold isAnsweredBy
    rw [waits]
    cases frame with
    | pong payload =>
        apply decide_eq_false
        intro same
        exact other (congrArg Frame.pong same)
    | _ => rfl
  rw [saw, unanswered]
  simp only [Bool.false_eq_true, if_false, waits, Option.isNone_some]

theorem saw_config (l : Liveness S) (frame : Frame) : (l.saw frame).config = l.config := by
  simp only [saw]
  split <;> split <;> rfl

theorem saw_next (l : Liveness S) (frame : Frame) : (l.saw frame).next = l.next := by
  simp only [saw]
  split <;> split <;> rfl

end Liveness

/-- What a record says of the state; `past` tells whether the stream may be over. -/
structure Kept (c : WebSocketKeepAlive) (past : Bool) (t : List (Event S)) (l : Liveness S) :
    Prop where
  config : l.config = c
  next : l.next = .ofNat (pings t)
  standing : Standing c t l.outstanding l.sleep
  told : Ended t → past = true

theorem ended_concat : Ended (t ++ [e]) ↔ Ended t ∨ e.op.ends = true := by
  simp only [Ended, List.mem_append, List.mem_singleton, or_and_right, exists_or, exists_eq_left]

theorem told_concat {past : Bool} (told : Ended t → past = true) (goes : e.op.ends = false) :
    Ended (t ++ [e]) → past = true := by
  rw [ended_concat, goes]
  rintro (ended | ended)
  · exact told ended
  · cases ended

theorem Standing.quiet {outstanding : Option UInt64} {sleep : Option S}
    (standing : Standing c t outstanding sleep) (ping : e.op.ping = none)
    (inbound : e.inbound = none) : Standing c (t ++ [e]) outstanding sleep := by
  cases outstanding with
  | none =>
      refine ⟨standing.1.quiet ping, fun s runs => since_concat.mpr (.inr ⟨?_, standing.2 s runs⟩)⟩
      rw [inbound]
      exact nofun
  | some seq =>
      refine ⟨standing.1.quiet ping (by rw [inbound]; exact nofun), fun s runs => ?_⟩
      refine since_concat.mpr (.inr ⟨?_, standing.2 s runs⟩)
      rw [ping]
      exact nofun

theorem Standing.drop {outstanding : Option UInt64} {sleep : Option S}
    (standing : Standing c t outstanding sleep) : Standing c t outstanding none := by
  cases outstanding with
  | none => exact ⟨standing.1, nofun⟩
  | some seq => exact ⟨standing.1, nofun⟩

namespace Kept
variable {l : Liveness S} {past : Bool}

theorem new (c : WebSocketKeepAlive) : Kept c false [] (.new c : Liveness S) where
  config := rfl
  next := rfl
  standing := ⟨trivial, nofun⟩
  told := by rintro ⟨e, member, -⟩; cases member

/-- A call that neither writes a ping nor reads a frame nor ends the stream. -/
theorem quiet (kept : Kept c past t l) (ping : e.op.ping = none) (inbound : e.inbound = none)
    (goes : e.op.ends = false) : Kept c past (t ++ [e]) l where
  config := kept.config
  next := by
    rw [pings_concat, ping]
    exact kept.next
  standing := kept.standing.quiet ping inbound
  told := told_concat kept.told goes

theorem drop (kept : Kept c past t l) : Kept c past t { l with sleep := none } where
  config := kept.config
  next := kept.next
  standing := kept.standing.drop
  told := kept.told

/-- A frame that comes in restarts the silence, or leaves the probe and its deadline standing,
unless it is the pong. -/
theorem saw (kept : Kept c past t l) (frame : Frame) :
    Kept c past (t ++ [⟨.read, .ok frame⟩]) (l.saw frame) where
  config := (l.saw_config frame).trans kept.config
  next := by
    rw [pings_concat, l.saw_next]
    exact kept.next
  standing := by
    have standing := kept.standing
    cases waits : l.outstanding with
    | none =>
        rw [waits] at standing
        rw [l.saw_of_none waits, waits]
        exact ⟨standing.1.quiet rfl, nofun⟩
    | some seq =>
        rw [waits] at standing
        by_cases pong : frame = .pong (toBeBytes seq)
        · rw [pong, l.saw_pong waits]
          exact ⟨standing.1.answered rfl rfl, nofun⟩
        · rw [l.saw_other waits pong, waits]
          refine ⟨standing.1.quiet rfl fun same => pong (Option.some.inj same), fun s runs => ?_⟩
          exact since_concat.mpr (.inr ⟨nofun, standing.2 s runs⟩)
  told := told_concat kept.told rfl

/-- A new sleep, of the length that is due. -/
theorem arm (kept : Kept c past t l) (s : S) :
    Kept c past (t ++ [⟨.sleep l.due, s⟩]) { l with sleep := some s } where
  config := kept.config
  next := by
    rw [pings_concat]
    exact kept.next
  standing := by
    have standing := kept.standing
    unfold Liveness.due
    cases waits : l.outstanding with
    | none =>
        rw [waits] at standing
        refine ⟨standing.1.quiet rfl, fun s' runs => ?_⟩
        cases runs
        rw [← kept.config]
        exact since_concat.mpr (.inl rfl)
    | some seq =>
        rw [waits] at standing
        refine ⟨standing.1.quiet rfl nofun, fun s' runs => ?_⟩
        cases runs
        rw [← kept.config]
        exact since_concat.mpr (.inl rfl)
  told := told_concat kept.told rfl

theorem due (kept : Kept c past t l) : Right c t (.sleep l.due) := by
  have standing := kept.standing
  unfold Liveness.due
  cases waits : l.outstanding with
  | none =>
      rw [waits] at standing
      exact .inl ⟨standing.1, congrArg WebSocketKeepAlive.every kept.config⟩
  | some seq =>
      rw [waits] at standing
      exact .inr ⟨seq, standing.1, congrArg WebSocketKeepAlive.within kept.config⟩

/-- A ping where no probe is outstanding and no sleep runs. -/
theorem probe (kept : Kept c past t l) (none : l.outstanding = none) (idle : l.sleep = .none)
    (result : Except TungsteniteError Unit) :
    Kept c past (t ++ [⟨.write .shim (.ping l.probe.1), result⟩]) l.probe.2 where
  config := kept.config
  next := by
    rw [pings_concat, Liveness.probe, kept.next]
    exact (UInt64.ofNat_add _ 1).symm
  standing := by
    have standing := kept.standing
    rw [none] at standing
    refine ⟨standing.1.probe rfl, fun s runs => ?_⟩
    cases idle.symm.trans runs
  told := told_concat kept.told rfl

/-- A reply that ends the stream leaves it ended. -/
theorem reply {reply : Reply} {r : Unit} {past' : Bool} (kept : Kept c past t l)
    (still : past = true → past' = true)
    (ends : (Op.reply reply : Op S).ends = true → past' = true) :
    Kept c past' (t ++ [⟨.reply reply, r⟩]) l where
  config := kept.config
  next := by
    rw [pings_concat]
    exact kept.next
  standing := kept.standing.quiet rfl rfl
  told := by
    rw [ended_concat]
    rintro (before | now)
    · exact still (kept.told before)
    · exact ends now

end Kept

/-! ## Passes -/

/-- Watches that every call is right, where `can_write` tells what it is to tell. -/
def keeping (c : WebSocketKeepAlive) : Monitor (Op S) Op.Answer (List (Event S)) :=
  .observing some (Right c) Tells

/-- What a poll answers and leaves. -/
structure Told (c : WebSocketKeepAlive) (t : List (Event S))
    (done : Polled × TungsteniteWebSocket S) : Prop where
  kept : ∃ l, done.2.live = some l ∧ Kept c false t l
  goes : done.2.ended = false → ends done.1 = false
  missed : ∀ kind d, done.1 = .ready (some (.error ⟨kind, .pongNotReceived d⟩)) →
    d = c.within ∧ (∃ seq, Waiting (toBeBytes seq) t) ∧ Elapsed (Probed c.within) t

/-- What holds where a poll stands. -/
def Stands (c : WebSocketKeepAlive) (t : List (Event S)) : Point S → Prop
  | .reading live => ∃ l, live = some l ∧ Kept c false t l
  | .idle l => Kept c false t l

namespace TungsteniteWebSocket
variable {l : Liveness S}

theorem answer_told {polled : Polled} (kept : Kept c false t l) (goes : ends polled = false) :
    Told c t (polled, ⟨false, some l⟩) where
  kept := ⟨l, rfl, kept⟩
  goes := fun _ => goes
  missed := by
    rintro kind d rfl
    cases goes

theorem end_told (kept : Kept c false t l) : Told c t (.ready none, ⟨true, some l⟩) where
  kept := ⟨l, rfl, kept⟩
  goes := nofun
  missed := nofun

theorem wsError_source (e : TungsteniteError) : (wsError e).source = .tungstenite e := by
  cases e <;> rfl

theorem failed_told (kept : Kept c false t l) (e : TungsteniteError) :
    Told c t (.ready (some (.error (wsError e))), ⟨true, some l⟩) where
  kept := ⟨l, rfl, kept⟩
  goes := nofun
  missed := by
    intro kind d same
    injection same with same
    injection same with same
    injection same with same
    have source := wsError_source e
    rw [same] at source
    cases source

theorem proceed_wp {rest : Pass S} (kept : Kept c false t l) (result : Except TungsteniteError Unit)
    (on : (keeping c).wp rest (Turned (Stands c) (Told c)) t) :
    (keeping c).wp (proceed result (some l) rest) (Turned (Stands c) (Told c)) t := by
  cases result with
  | ok => exact on
  | error e =>
      unfold proceed
      dsimp only
      by_cases blocks : e.isWouldBlock = true
      · rw [if_pos blocks]
        exact on
      · rw [if_neg blocks]
        exact failed_told kept e

theorem readPass_wp (kept : Kept c false t l) :
    (keeping c).wp (readPass (some l)) (Turned (Stands c) (Told c)) t := by
  refine ⟨trivial, fun read _ => ?_⟩
  cases read with
  | ok frame =>
      have saw := kept.saw frame
      cases frame with
      | text => exact answer_told saw rfl
      | binary => exact answer_told saw rfl
      | close => exact answer_told saw rfl
      | ping => exact ⟨_, rfl, saw⟩
      | pong => exact ⟨_, rfl, saw⟩
      | frame => exact ⟨_, rfl, saw⟩
  | error e =>
      have quiet : Kept c false (t ++ [⟨.read, .error e⟩]) l := kept.quiet rfl rfl rfl
      cases e with
      | wouldBlock => exact quiet
      | connectionClosed => exact end_told quiet
      | alreadyClosed => exact end_told quiet
      | io => exact failed_told quiet _
      | protocol => exact failed_told quiet _
      | capacity => exact failed_told quiet _
      | other => exact failed_told quiet _

theorem outerPass_wp (kept : Kept c false t l) :
    (keeping c).wp (outerPass (some l)) (Turned (Stands c) (Told c)) t := by
  unfold outerPass
  split
  · refine ⟨trivial, fun flushed _ => ?_⟩
    have quiet : Kept c false (t ++ [⟨.flush, flushed⟩]) l := kept.quiet rfl rfl rfl
    exact proceed_wp quiet flushed (readPass_wp quiet)
  · exact readPass_wp kept

/-- The ping of a silence that lasted, where no close of ours went out. -/
theorem pingPass_wp (kept : Kept c false t l) (none : l.outstanding = none) (idle : l.sleep = .none)
    (elapsed : Elapsed (Silent c.every) t) (unclosed : ∀ e ∈ t, e.closes = false) :
    (keeping c).wp (pingPass l) (Turned (Stands c) (Told c)) t := by
  have standing := kept.standing
  rw [none] at standing
  refine ⟨⟨standing.1, congrArg toBeBytes kept.next, elapsed, unclosed⟩, fun written _ => ?_⟩
  have probed := kept.probe none idle written
  refine proceed_wp probed written ⟨trivial, fun flushed _ => ?_⟩
  have quiet := probed.quiet (e := ⟨.flush, flushed⟩) rfl rfl rfl
  exact proceed_wp quiet flushed quiet

theorem sleptPass_wp (kept : Kept c false t l) (runs : l.sleep = some s)
    (unclosed : l.outstanding = none → ∀ e ∈ t, e.closes = false) :
    (keeping c).wp (sleptPass s l) (Turned (Stands c) (Told c)) t := by
  obtain ⟨config, sleep, outstanding, next⟩ := l
  cases runs
  have standing := kept.standing
  cases outstanding with
  | none =>
      obtain ⟨answered, sleeps⟩ := standing
      have silent := sleeps s rfl
      refine ⟨.inl ⟨answered, silent⟩, fun slept _ => ?_⟩
      have quiet := kept.quiet (e := ⟨.pollSleep s, slept⟩) rfl rfl rfl
      cases slept with
      | pending => exact answer_told quiet rfl
      | ready =>
          apply pingPass_wp quiet.drop rfl rfl ⟨t, s, rfl, silent⟩
          exact List.forall_mem_append.mpr ⟨unclosed rfl, List.forall_mem_singleton.mpr rfl⟩
  | some seq =>
      obtain ⟨waiting, sleeps⟩ := standing
      have probed := sleeps s rfl
      refine ⟨.inr ⟨seq, waiting, probed⟩, fun slept _ => ?_⟩
      have quiet := kept.quiet (e := ⟨.pollSleep s, slept⟩) rfl rfl rfl
      cases slept with
      | pending => exact answer_told quiet rfl
      | ready =>
          refine ⟨⟨_, rfl, quiet.drop⟩, nofun, ?_⟩
          rintro kind d same
          cases same
          exact ⟨congrArg _ kept.config, ⟨seq, quiet.standing.1⟩, t, s, rfl, probed⟩

theorem sleepPass_wp (kept : Kept c false t l)
    (unclosed : l.outstanding = none → ∀ e ∈ t, e.closes = false) :
    (keeping c).wp (sleepPass l) (Turned (Stands c) (Told c)) t := by
  unfold sleepPass Liveness.armed
  cases runs : l.sleep with
  | some s => exact sleptPass_wp kept runs unclosed
  | none =>
      refine ⟨kept.due, fun s _ => sleptPass_wp (kept.arm s) rfl fun none => ?_⟩
      exact List.forall_mem_append.mpr ⟨unclosed none, List.forall_mem_singleton.mpr rfl⟩

theorem innerPass_wp (kept : Kept c false t l) :
    (keeping c).wp (innerPass l) (Turned (Stands c) (Told c)) t := by
  unfold innerPass
  split
  · refine ⟨trivial, fun can tells => ?_⟩
    have quiet := kept.quiet (e := ⟨.canWrite, can⟩) rfl rfl rfl
    cases can with
    | false => exact answer_told quiet.drop rfl
    | true =>
        apply sleepPass_wp quiet
        intro _
        refine List.forall_mem_append.mpr ⟨fun e earlier => ?_, List.forall_mem_singleton.mpr rfl⟩
        apply Bool.eq_false_iff.mpr
        intro closes
        cases tells ⟨e, earlier, closes⟩
  · rename_i waits
    exact sleepPass_wp kept fun none => absurd (none ▸ rfl) waits

theorem pass_wp {point : Point S} (stands : Stands c t point) :
    (keeping c).wp (pass point) (Turned (Stands c) (Told c)) t := by
  cases point with
  | idle l => exact innerPass_wp stands
  | reading live =>
      obtain ⟨l, rfl, kept⟩ := stands
      exact outerPass_wp kept

/-! ## Sessions -/

/-- What holds of a socket between two calls. -/
def Held (c : WebSocketKeepAlive) (t : List (Event S)) (ws : TungsteniteWebSocket S) : Prop :=
  ∃ l, ws.live = some l ∧ Kept c ws.ended t l

/-- What holds of a reply and of what a call leaves. -/
def Replied (c : WebSocketKeepAlive) (t : List (Event S)) :
    Option (Reply × TungsteniteWebSocket S) → Prop
  | none => True
  | some (reply, ws) => Right c t (.reply reply) ∧ ∀ r, Held c (t ++ [⟨.reply reply, r⟩]) ws

variable {ws : TungsteniteWebSocket S}

theorem pollNext_wp (held : Held c t ws) (passes : Nat) :
    (keeping c).wp (call passes ws .pollNext) (Replied c) t := by
  obtain ⟨l, live, kept⟩ := held
  unfold call pollNext
  cases ended : ws.ended with
  | true =>
      rw [ended] at kept
      refine ⟨⟨fun _ => rfl, nofun⟩, fun r => ⟨l, live, ?_⟩⟩
      rw [ended]
      exact kept.reply id fun _ => rfl
  | false =>
      rw [ended] at kept
      have start : Stands c t (.reading ws.live) := ⟨l, live, kept⟩
      have loops : (keeping c).wp (Program.loop pass passes (.reading ws.live)) _ t :=
        Monitor.wp_loop (fun t point stands => pass_wp stands) passes start
      refine Monitor.wp_seq _ loops fun t done told => ?_
      cases done with
      | none => trivial
      | some done =>
          obtain ⟨polled, ws'⟩ := done
          obtain ⟨⟨l', live', kept'⟩, goes, missed⟩ := told
          refine ⟨⟨?_, missed⟩, fun r => ⟨l', live', ?_⟩⟩
          · intro ended
            cases kept'.told ended
          refine kept'.reply nofun fun ends => ?_
          by_contra open'
          rw [Bool.not_eq_true] at open'
          cases (goes open').symm.trans ends

/-- A call of the sink: neither a ping nor a frame. -/
theorem quiet_wp (held : Held c t ws) {op : Op S} {next : op.Answer → Reply}
    (right : Right c t op) (ping : op.ping = none) (goes : op.ends = false)
    (inbound : ∀ r, Event.inbound ⟨op, r⟩ = none)
    (replies : ∀ (t : List (Event S)) r, Right c t (.reply (next r)))
    (on : ∀ r, (Op.reply (next r) : Op S).ends = false) :
    (keeping c).wp (.call op fun r => .done (some (next r, ws))) (Replied c) t := by
  obtain ⟨l, live, kept⟩ := held
  refine ⟨right, fun r _ => ⟨replies _ r, fun x => ⟨l, live, ?_⟩⟩⟩
  have quiet := kept.quiet (e := ⟨op, r⟩) ping (inbound r) goes
  refine quiet.reply id fun ends => ?_
  cases (on r).symm.trans ends

theorem call_wp (held : Held c t ws) (passes : Nat) (asked : Call) :
    (keeping c).wp (call passes ws asked) (Replied c) t := by
  cases asked with
  | pollNext => exact pollNext_wp held passes
  | pollReady => exact quiet_wp held trivial rfl rfl (fun _ => rfl) (fun _ _ => trivial) fun _ => rfl
  | pollFlush => exact quiet_wp held trivial rfl rfl (fun _ => rfl) (fun _ _ => trivial) fun _ => rfl
  | pollClose => exact quiet_wp held trivial rfl rfl (fun _ => rfl) (fun _ _ => trivial) fun _ => rfl
  | startSend item =>
      cases item with
      | text t => exact quiet_wp held trivial rfl rfl (fun _ => rfl) (fun _ _ => trivial) fun _ => rfl
      | binary b => exact quiet_wp held trivial rfl rfl (fun _ => rfl) (fun _ _ => trivial) fun _ => rfl
      | close f => exact quiet_wp held trivial rfl rfl (fun _ => rfl) (fun _ _ => trivial) fun _ => rfl
  | debug =>
      obtain ⟨l, live, kept⟩ := held
      refine ⟨?_, fun r => ⟨l, live, kept.reply id nofun⟩⟩
      have standing := kept.standing
      rw [pingAwaitingAPong, live]
      cases waits : l.outstanding with
      | none =>
          rw [waits] at standing
          rw [Option.bind_some, waits]
          exact standing.1
      | some seq =>
          rw [waits] at standing
          rw [Option.bind_some, waits]
          exact standing.1

theorem session_wp (held : Held c t ws) (passes calls : Nat) :
    (keeping c).wp (session passes calls ws) (fun _ _ => True) t := by
  induction calls generalizing t ws with
  | zero => trivial
  | succ calls ih =>
      obtain ⟨l, live, kept⟩ := held
      refine ⟨trivial, fun asked _ => ?_⟩
      have next := kept.quiet (e := ⟨.next, asked⟩) rfl rfl rfl
      refine Monitor.wp_seq _ (call_wp ⟨l, live, next⟩ passes asked) fun t done replied => ?_
      cases done with
      | none => trivial
      | some done => exact ⟨replied.1, fun r _ => ih (replied.2 r)⟩

end TungsteniteWebSocket

/-- `can_write` of the context told what it is to tell all along. -/
def Lawful (t : List (Event S)) : Prop :=
  ∀ before e after, t = before ++ e :: after → Tells before e

/-- Every record of a socket with keep-alive, whatever it is answered and however it is called.
Where a ping is written, each ping before it was answered by a pong with exactly its payload, its
own is the next number, a whole interval went by since the last frame that came in, and no close
of ours went out. A sleep that is polled was begun after the last frame, or after the ping of the
probe that waits. A missed pong is told only where the probe waits still and its deadline fired.
What is printed is the probe that waits. A stream that ended answers nothing but its end. -/
theorem session_right (c : WebSocketKeepAlive) (passes calls : Nat) (t : List (Event S))
    (rest : Script S Unit)
    (steps : ((TungsteniteWebSocket.new (some c)).session passes calls).Steps t rest)
    (lawful : Lawful t) : ∀ before e after, t = before ++ e :: after → Right c before e.op := by
  have held : TungsteniteWebSocket.Held c ([] : List (Event S)) (.new (some c)) :=
    ⟨.new c, rfl, .new c⟩
  obtain ⟨accepts, _⟩ := Monitor.wp_steps _ steps (TungsteniteWebSocket.session_wp held passes calls)
  have answered : (keeping c).Answered ([] : List (Event S)) t := by
    apply Monitor.observing_answered
    intro before e after split
    rw [List.filterMap_some]
    exact lawful before e after split
  intro before e after split
  obtain ⟨e', _, same, right⟩ := Monitor.observing_allowed accepts answered
    (List.filterMap_some.trans split)
  cases same
  exact right

/-- Two silences that lasted, each with its ping and the pong of it, and what comes in then. -/
def twoProbes : List (Event Nat) :=
  [⟨.next, .pollNext⟩, ⟨.read, .error .wouldBlock⟩, ⟨.canWrite, true⟩, ⟨.sleep 30, (0 : Nat)⟩,
    ⟨.pollSleep 0, .ready ()⟩, ⟨.write .shim (.ping (toBeBytes 0)), .ok ()⟩, ⟨.flush, .ok ()⟩,
    ⟨.sleep 10, (1 : Nat)⟩, ⟨.pollSleep 1, .pending⟩, ⟨.reply (.polled .pending), ()⟩,
    ⟨.next, .pollNext⟩, ⟨.flush, .ok ()⟩, ⟨.read, .ok (.pong (toBeBytes 0))⟩,
    ⟨.read, .error .wouldBlock⟩, ⟨.canWrite, true⟩, ⟨.sleep 30, (2 : Nat)⟩,
    ⟨.pollSleep 2, .ready ()⟩, ⟨.write .shim (.ping (toBeBytes 1)), .ok ()⟩, ⟨.flush, .ok ()⟩,
    ⟨.sleep 10, (3 : Nat)⟩, ⟨.pollSleep 3, .pending⟩, ⟨.reply (.polled .pending), ()⟩,
    ⟨.next, .pollNext⟩, ⟨.flush, .ok ()⟩, ⟨.read, .ok (.pong (toBeBytes 1))⟩]

/-- A close comes in, and nothing is written after it. -/
def closing : List (Event Nat) :=
  [⟨.read, .ok (.close none)⟩, ⟨.reply (.polled (.ready (some (.ok (.close none))))), ()⟩,
    ⟨.next, .pollNext⟩, ⟨.read, .error .wouldBlock⟩, ⟨.canWrite, false⟩,
    ⟨.reply (.polled .pending), ()⟩]

theorem closing_steps : ((TungsteniteWebSocket.new (some ⟨30, 10⟩)).session 4 4).Steps
    (twoProbes ++ closing) (.done ()) := by
  repeat refine .step _ ?_
  exact .refl _

/-- It can be written, the context says. -/
def Event.grants : Event S → Bool
  | ⟨.canWrite, can⟩ => can
  | _ => false

theorem lawful_append (unclosed : ∀ e ∈ t, e.closes = false)
    (refused : ∀ e ∈ later, e.grants = false) : Lawful (t ++ later) := by
  rintro before ⟨op, r⟩ after split
  cases op with
  | canWrite =>
      rintro ⟨e, earlier, closes⟩
      rcases List.append_eq_append_iff.mp split with ⟨between, _, rest⟩ | ⟨between, first, _⟩
      · exact refused ⟨.canWrite, r⟩ (rest ▸ List.mem_append_right _ List.mem_cons_self)
      · have open' := unclosed e (first ▸ List.mem_append_left _ earlier)
        cases open'.symm.trans closes
  | _ => trivial

/-- The second ping of a run that a close ends. -/
theorem session_right_ping :
    Right ⟨30, 10⟩ (twoProbes.take 17) (.write .shim (.ping (toBeBytes 1))) := by
  have lawful : Lawful (twoProbes ++ closing) := lawful_append (by decide) (by decide)
  exact session_right ⟨30, 10⟩ 4 4 (twoProbes ++ closing) _ closing_steps lawful
    (twoProbes.take 17) ⟨.write .shim (.ping (toBeBytes 1)), .ok ()⟩
    (twoProbes.drop 18 ++ closing) rfl

end HClient.WebSocket
