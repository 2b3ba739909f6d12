import HClient.Proxy.Socks5Udp

/-!
# A datagram path through a SOCKS5 relay

What the socket receives may be several datagrams in one buffer, each with a header of its own.
The path takes them apart, hands over one payload at a time and keeps the others.
-/
namespace HClient.Proxy.Socks5

variable {A : Type}

/-! ## The path -/

/-- A receive: whom it is from, what it wrote into the buffer, and how far apart datagrams are. -/
structure Received (A : Type) where
  addr : A
  bytes : List UInt8
  stride : Nat

/-- What the socket has for a poll to receive. -/
inductive Arrival (A : Type) where
  | received (r : Received A)
  | nothing
  | failed (code : Nat)

/-- The answer to a poll. A buffer is what the caller's holds afterwards. -/
inductive Recv where
  | ready (n : Nat) (buf : List UInt8)
  | failed (code : Nat)
  | aborted
  | pending (woken : Bool)
  deriving DecidableEq, Repr

structure Socks5Path (A : Type) where
  relay : A
  queued : List (List UInt8)

def chunksUpTo (n : Nat) : Nat → List UInt8 → List (List UInt8)
  | 0, _ => []
  | _ + 1, [] => []
  | fuel + 1, b :: bytes => (b :: bytes).take n :: chunksUpTo n fuel ((b :: bytes).drop n)

/-- `<[u8]>::chunks`, of at least one byte each. -/
def chunks (n : Nat) (bytes : List UInt8) : List (List UInt8) := chunksUpTo n bytes.length bytes

def Received.segments (r : Received A) : List (List UInt8) :=
  let stride := if r.stride = 0 ∨ r.bytes.length ≤ r.stride then r.bytes.length else r.stride
  chunks (max stride 1) r.bytes

def copyOut (p buf : List UInt8) : Nat × List UInt8 :=
  let k := min p.length buf.length
  (k, p.take k ++ buf.drop k)

def maxDiscardsPerPoll : Nat := 64

section
variable [DecidableEq A]

/-- The loop of a poll that may still discard so many receives, what it leaves queued and what it
leaves to be received. -/
def receive (relay : A) (buf : List UInt8) :
    Nat → List (Arrival A) → Recv × List (List UInt8) × List (Arrival A)
  | 0, inbox => (.pending true, [], inbox)
  | _ + 1, [] => (.pending false, [], [])
  | _ + 1, .failed code :: inbox => (.failed code, [], inbox)
  | left + 1, .nothing :: inbox => receive relay buf left inbox
  | left + 1, .received r :: inbox =>
      if r.addr ≠ relay then receive relay buf left inbox
      else
        match r.segments.filterMap decodeDatagram with
        | [] => receive relay buf left inbox
        | p :: queued => (.ready (copyOut p buf).1 (copyOut p buf).2, queued, inbox)

namespace Socks5Path

/-- The control connection is found open, or it has answered. -/
def pollRecv (path : Socks5Path A) (isOpen : Bool) (buf : List UInt8) (inbox : List (Arrival A)) :
    Recv × Socks5Path A × List (Arrival A) :=
  match path.queued with
  | p :: queued =>
      (.ready (copyOut p buf).1 (copyOut p buf).2, { path with queued := queued }, inbox)
  | [] =>
      if ¬ isOpen then (.aborted, path, inbox)
      else
        let (answer, queued, inbox) := receive path.relay buf maxDiscardsPerPoll inbox
        (answer, { path with queued := queued }, inbox)

end Socks5Path
end

/-! ## The caller -/

structure RecvMeta where
  len : Nat
  stride : Nat
  deriving DecidableEq, Repr

/-- `PathSocket::poll_recv`: what the QUIC stack is told of a poll that is ready. -/
def report (n : Nat) : RecvMeta := ⟨n, n⟩

/-- The datagrams of a buffer by what is said of it: one, where the stride is zero or no shorter
than what there is. -/
def RecvMeta.cut (m : RecvMeta) (buf : List UInt8) : List (List UInt8) :=
  if m.stride = 0 ∨ m.len ≤ m.stride then [buf.take m.len] else chunks m.stride (buf.take m.len)

def Recv.handed : Recv → List (List UInt8)
  | .ready n buf => (report n).cut buf
  | _ => []

/-! ## What is sent to the path -/

/-- Datagrams that are equally long, but for the last, which may be shorter. -/
inductive Strided (stride : Nat) : List (List UInt8) → Prop where
  | last {d : List UInt8} (some_ : d ≠ []) (fits : d.length ≤ stride) : Strided stride [d]
  | more {d : List UInt8} {ds : List (List UInt8)} (whole : d.length = stride)
      (rest : Strided stride ds) : Strided stride (d :: ds)

/-- One datagram in a buffer, or several that are coalesced. -/
inductive Coalesced : List (List UInt8) → Nat → Prop where
  | one {d : List UInt8} {stride : Nat} (whole : stride = 0 ∨ d.length ≤ stride) :
      Coalesced [d] stride
  | run {ds : List (List UInt8)} {stride : Nat} (some_ : 0 < stride) (run : Strided stride ds) :
      Coalesced ds stride

structure Burst (A : Type) where
  addr : A
  datagrams : List (List UInt8)
  stride : Nat
  coalesced : Coalesced datagrams stride

def Burst.received (b : Burst A) : Received A := ⟨b.addr, b.datagrams.flatten, b.stride⟩

section
variable {stride : Nat} {ds : List (List UInt8)}

theorem Strided.chunksUpTo (run : Strided stride ds) (some_ : 0 < stride) {fuel : Nat}
    (enough : ds.flatten.length ≤ fuel) : Socks5.chunksUpTo stride fuel ds.flatten = ds := by
  induction run generalizing fuel with
  | @last d nonempty fits =>
      rw [List.flatten_singleton] at enough ⊢
      obtain ⟨b, bytes, rfl⟩ := List.exists_cons_of_ne_nil nonempty
      rw [List.length_cons] at enough
      obtain ⟨fuel, rfl⟩ := Nat.exists_eq_succ_of_ne_zero (by omega : fuel ≠ 0)
      rw [Socks5.chunksUpTo, List.take_of_length_le fits, List.drop_of_length_le fits]
      cases fuel <;> rfl
  | @more d ds whole rest ih =>
      rw [List.flatten_cons] at enough ⊢
      obtain ⟨b, bytes, rfl⟩ := List.exists_cons_of_ne_nil
        (List.length_pos_iff.mp (by omega : 0 < d.length))
      rw [List.length_append, List.length_cons] at enough
      obtain ⟨fuel, rfl⟩ := Nat.exists_eq_succ_of_ne_zero (by omega : fuel ≠ 0)
      rw [List.cons_append, Socks5.chunksUpTo, ← List.cons_append, ← whole, List.take_left,
        List.drop_left, whole, ih (by omega)]

theorem Strided.pos (run : Strided stride ds) (some_ : 0 < stride) : 0 < ds.flatten.length := by
  cases run with
  | last nonempty fits => simpa using List.length_pos_iff.mpr nonempty
  | more whole rest =>
      rw [List.flatten_cons, List.length_append]
      omega

theorem Strided.single (run : Strided stride ds) (some_ : 0 < stride)
    (small : ds.flatten.length ≤ stride) : ∃ d, ds = [d] := by
  cases run with
  | last nonempty fits => exact ⟨_, rfl⟩
  | more whole rest =>
      have behind := rest.pos some_
      rw [List.flatten_cons, List.length_append] at small
      omega

/-- One datagram is one piece, and none where it is empty. -/
theorem segments_one (addr : A) {d : List UInt8} (whole : stride = 0 ∨ d.length ≤ stride) :
    (Received.segments ⟨addr, d, stride⟩).filterMap decodeDatagram =
      [d].filterMap decodeDatagram := by
  unfold Received.segments
  dsimp only
  rw [if_pos whole]
  by_cases empty : d = []
  · subst empty
    rfl
  · have longer := List.length_pos_iff.mpr empty
    have own := (Strided.last empty (Nat.le_refl d.length)).chunksUpTo longer (Nat.le_refl _)
    rw [List.flatten_singleton] at own
    unfold chunks
    rw [Nat.max_eq_left longer, own]

/-- A receive is taken apart into the datagrams that were put into it. -/
theorem Coalesced.segments (coalesced : Coalesced ds stride) (addr : A) :
    (Received.segments ⟨addr, ds.flatten, stride⟩).filterMap decodeDatagram =
      ds.filterMap decodeDatagram := by
  cases coalesced with
  | @one d _ whole =>
      rw [List.flatten_singleton]
      exact segments_one addr whole
  | run some_ run =>
      by_cases small : ds.flatten.length ≤ stride
      · obtain ⟨d, rfl⟩ := run.single some_ small
        rw [List.flatten_singleton] at small ⊢
        exact segments_one addr (.inr small)
      · unfold Received.segments
        dsimp only
        rw [if_neg (by omega), Nat.max_eq_left some_]
        unfold chunks
        rw [run.chunksUpTo some_ (Nat.le_refl _)]

end

/-- What the stack cuts out of a buffer with room for it is the payload that was copied. -/
theorem handed_copyOut {p buf : List UInt8} (room : p.length ≤ buf.length) :
    (Recv.ready (copyOut p buf).1 (copyOut p buf).2).handed = [p] := by
  have k : min p.length buf.length = p.length := Nat.min_eq_left room
  unfold Recv.handed report RecvMeta.cut copyOut
  dsimp only
  rw [if_pos (.inr (Nat.le_refl _)), k, List.take_length, List.take_left]

/-! ## Runs -/

section
variable [DecidableEq A]

/-- The payloads that a receive still holds for the caller. -/
def Arrival.due (relay : A) : Arrival A → List (List UInt8)
  | .received r => if r.addr ≠ relay then [] else r.segments.filterMap decodeDatagram
  | .nothing => []
  | .failed _ => []

inductive Event (A : Type) where
  | arrives (b : Burst A)
  | nothing
  | failed (code : Nat)
  | polls (isOpen : Bool) (buf : List UInt8)

/-- The payloads that are sent to the caller by way of the relay. -/
def Event.payloads (relay : A) : Event A → List (List UInt8)
  | .arrives b => if b.addr ≠ relay then [] else b.datagrams.filterMap decodeDatagram
  | .nothing => []
  | .failed _ => []
  | .polls _ _ => []

def sent (relay : A) (events : List (Event A)) : List (List UInt8) :=
  events.flatMap (Event.payloads relay)

structure World (A : Type) where
  path : Socks5Path A
  inbox : List (Arrival A)
  handed : List (List UInt8)

namespace World

def start (relay : A) : World A := ⟨⟨relay, []⟩, [], []⟩

def step (w : World A) : Event A → World A
  | .arrives b => { w with inbox := w.inbox ++ [.received b.received] }
  | .nothing => { w with inbox := w.inbox ++ [.nothing] }
  | .failed code => { w with inbox := w.inbox ++ [.failed code] }
  | .polls isOpen buf =>
      let (answer, path, inbox) := w.path.pollRecv isOpen buf w.inbox
      ⟨path, inbox, w.handed ++ answer.handed⟩

def run (w : World A) (events : List (Event A)) : World A := events.foldl step w

/-- What has come and is not handed over. -/
def left (w : World A) : List (List UInt8) :=
  w.path.queued ++ w.inbox.flatMap (Arrival.due w.path.relay)

end World

/-- A buffer has room for each of some payloads. -/
def Roomy (payloads : List (List UInt8)) (buf : List UInt8) : Prop :=
  ∀ p ∈ payloads, p.length ≤ buf.length

def PollsRoomy (payloads : List (List UInt8)) (events : List (Event A)) : Prop :=
  ∀ isOpen buf, .polls isOpen buf ∈ events → Roomy payloads buf

variable {relay : A}

/-- No payload is lost in a poll or handed over out of turn. -/
theorem receive_keeps {buf : List UInt8} (discards : Nat) (inbox : List (Arrival A))
    (roomy : Roomy (inbox.flatMap (Arrival.due relay)) buf) :
    (receive relay buf discards inbox).1.handed ++ ((receive relay buf discards inbox).2.1 ++
      (receive relay buf discards inbox).2.2.flatMap (Arrival.due relay)) =
        inbox.flatMap (Arrival.due relay) := by
  fun_induction receive relay buf discards inbox with
  | case1 inbox => rfl
  | case2 => rfl
  | case3 left code inbox => rfl
  | case4 left inbox ih => exact ih roomy
  | case5 left r inbox foreign ih =>
      have none_due : Arrival.due relay (.received r) = [] := if_pos foreign
      rw [List.flatMap_cons, none_due, List.nil_append] at roomy ⊢
      exact ih roomy
  | case6 left r inbox own undecodable ih =>
      have none_due : Arrival.due relay (.received r) = [] := (if_neg own).trans undecodable
      rw [List.flatMap_cons, none_due, List.nil_append] at roomy ⊢
      exact ih roomy
  | case7 left r inbox own p queued decoded =>
      have due : Arrival.due relay (.received r) = p :: queued := (if_neg own).trans decoded
      rw [List.flatMap_cons, due] at roomy ⊢
      rw [handed_copyOut (roomy p (by simp))]
      simp

theorem receive_inbox (relay : A) (buf : List UInt8) (discards : Nat) (inbox : List (Arrival A)) :
    (receive relay buf discards inbox).2.2.length ≤ inbox.length ∧
      (0 < discards → 0 < inbox.length →
        (receive relay buf discards inbox).2.2.length < inbox.length) := by
  fun_induction receive relay buf discards inbox with
  | case1 inbox => exact ⟨Nat.le_refl _, fun none_ => absurd none_ (Nat.lt_irrefl 0)⟩
  | case2 => exact ⟨Nat.le_refl _, fun _ empty => absurd empty (Nat.lt_irrefl 0)⟩
  | case3 left code inbox => simp
  | case4 left inbox ih => simp only [List.length_cons]; omega
  | case5 left r inbox foreign ih => simp only [List.length_cons]; omega
  | case6 left r inbox own undecodable ih => simp only [List.length_cons]; omega
  | case7 left r inbox own p queued decoded => simp

namespace World
variable {w : World A}

theorem relay_step (w : World A) (e : Event A) : (w.step e).path.relay = w.path.relay := by
  cases e with
  | arrives b => rfl
  | nothing => rfl
  | failed code => rfl
  | polls isOpen buf =>
      dsimp only [step, Socks5Path.pollRecv]
      cases w.path.queued with
      | cons p queued => rfl
      | nil => cases isOpen <;> rfl

/-- A poll takes what it hands over off the front of what is left. -/
theorem poll_keeps (isOpen : Bool) {buf : List UInt8} (roomy : Roomy w.left buf) :
    ∃ front, (w.step (.polls isOpen buf)).handed = w.handed ++ front ∧
      front ++ (w.step (.polls isOpen buf)).left = w.left := by
  obtain ⟨⟨relay, queued⟩, inbox, handed⟩ := w
  unfold left at roomy
  dsimp only [step, Socks5Path.pollRecv, left]
  cases queued with
  | cons p queued =>
      dsimp only
      rw [handed_copyOut (roomy p (by simp))]
      exact ⟨[p], rfl, rfl⟩
  | nil =>
      cases isOpen with
      | false => exact ⟨[], rfl, rfl⟩
      | true => exact ⟨_, rfl, receive_keeps maxDiscardsPerPoll inbox roomy⟩

theorem step_keeps {e : Event A} (roomy : ∀ isOpen buf, e = .polls isOpen buf → Roomy w.left buf) :
    ∃ front, (w.step e).handed = w.handed ++ front ∧
      front ++ (w.step e).left = w.left ++ e.payloads w.path.relay := by
  cases e with
  | arrives b =>
      have due : Arrival.due w.path.relay (.received b.received) =
          (Event.arrives b).payloads w.path.relay := by
        dsimp only [Arrival.due, Event.payloads, Burst.received]
        split
        · rfl
        · exact b.coalesced.segments b.addr
      exact ⟨[], by simp [step], by simp [step, left, due]⟩
  | nothing => exact ⟨[], by simp [step], by simp [step, left, Arrival.due, Event.payloads]⟩
  | failed code => exact ⟨[], by simp [step], by simp [step, left, Arrival.due, Event.payloads]⟩
  | polls isOpen buf =>
      obtain ⟨front, handed, kept⟩ := poll_keeps isOpen (roomy isOpen buf rfl)
      exact ⟨front, handed, by rw [kept]; exact (List.append_nil _).symm⟩

/-- What has been handed over, and then what is left, is all that was sent. -/
theorem run_keeps (w : World A) (events : List (Event A))
    (roomy : PollsRoomy (w.left ++ sent w.path.relay events) events) :
    (w.run events).handed ++ (w.run events).left =
      w.handed ++ (w.left ++ sent w.path.relay events) := by
  induction events generalizing w with
  | nil => simp [run, sent]
  | cons e events ih =>
      obtain ⟨front, handed, kept⟩ := step_keeps (w := w) (e := e) fun isOpen buf same p among =>
        roomy isOpen buf (same ▸ List.mem_cons_self) p (List.mem_append_left _ among)
      have split : w.left ++ sent w.path.relay (e :: events) =
          front ++ ((w.step e).left ++ sent (w.step e).path.relay events) := by
        rw [relay_step, ← List.append_assoc, kept, List.append_assoc]
        rfl
      rw [split] at roomy ⊢
      have rest := ih (w.step e) fun isOpen buf among p member =>
        roomy isOpen buf (List.mem_cons_of_mem _ among) p (List.mem_append_right _ member)
      change ((w.step e).run events).handed ++ _ = _
      rw [← List.append_assoc, ← handed]
      exact rest

/-! ### Every payload comes out -/

/-- What polls have still to do. -/
def work (w : World A) : Nat := w.left.length + w.inbox.length

theorem work_poll {buf : List UInt8} (roomy : Roomy w.left buf) :
    (w.step (.polls true buf)).work ≤ w.work - 1 := by
  obtain ⟨front, -, kept⟩ := poll_keeps true roomy
  have fewer := congrArg List.length kept
  rw [List.length_append] at fewer
  obtain ⟨⟨relay, queued⟩, inbox, handed⟩ := w
  cases queued with
  | cons p queued => simp [step, Socks5Path.pollRecv, left, work]
  | nil =>
      obtain ⟨received, less⟩ := receive_inbox relay buf maxDiscardsPerPoll inbox
      replace less := less (by decide)
      have rest : ((⟨⟨relay, []⟩, inbox, handed⟩ : World A).step (.polls true buf)).inbox =
          (receive relay buf maxDiscardsPerPoll inbox).2.2 := rfl
      unfold work
      rw [rest]
      dsimp only
      by_cases empty : inbox = []
      · subst empty
        have none_left : (⟨⟨relay, []⟩, [], handed⟩ : World A).left.length = 0 := rfl
        simp only [List.length_nil] at received ⊢
        omega
      · have some_ := List.length_pos_iff.mpr empty
        omega

theorem left_of_work {w : World A} (done : w.work = 0) : w.left = [] :=
  List.length_eq_zero_iff.mp (Nat.eq_zero_of_add_eq_zero_right done)

/-- As many polls as there is work, with room for what is left, hand all of it over. -/
theorem run_polls {buf : List UInt8} (k : Nat) (roomy : Roomy w.left buf) (enough : w.work ≤ k) :
    (w.run (List.replicate k (.polls true buf))).handed = w.handed ++ w.left := by
  induction k generalizing w with
  | zero =>
      rw [left_of_work (Nat.le_zero.mp enough), List.append_nil]
      rfl
  | succ k ih =>
      obtain ⟨front, handed, kept⟩ := poll_keeps true roomy
      have less := work_poll roomy
      change ((w.step (.polls true buf)).run (List.replicate k (.polls true buf))).handed = _
      rw [ih (fun p among => roomy p (kept ▸ List.mem_append_right _ among)) (by omega), handed,
        List.append_assoc, kept]

theorem inbox_run (w : World A) (events : List (Event A)) :
    (w.run events).inbox.length ≤ w.inbox.length + events.length := by
  induction events generalizing w with
  | nil => exact Nat.le_refl _
  | cons e events ih =>
      have one : (w.step e).inbox.length ≤ w.inbox.length + 1 := by
        cases e with
        | arrives b => simp [step]
        | nothing => simp [step]
        | failed code => simp [step]
        | polls isOpen buf =>
            obtain ⟨⟨relay, queued⟩, inbox, handed⟩ := w
            cases queued with
            | cons p queued => exact Nat.le_succ _
            | nil =>
                cases isOpen with
                | false => exact Nat.le_succ _
                | true =>
                    exact Nat.le_succ_of_le (receive_inbox relay buf maxDiscardsPerPoll inbox).1
      have rest := ih (w.step e)
      change ((w.step e).run events).inbox.length ≤ _
      rw [List.length_cons]
      omega

end World

/-- In every run the payloads handed over are a front of those that the relay sent and that
decode, as they were sent; and with polls enough, one for each arrival and payload, they are all
of them. -/
theorem path_hands_over (relay : A) (events : List (Event A))
    (roomy : PollsRoomy (sent relay events) events) :
    (World.start relay |>.run events).handed <+: sent relay events ∧
      ∀ buf, Roomy (sent relay events) buf → ∀ k, events.length + (sent relay events).length ≤ k →
        (World.start relay |>.run (events ++ List.replicate k (.polls true buf))).handed =
          sent relay events := by
  have kept := World.run_keeps (World.start relay) events roomy
  change _ = sent relay events at kept
  refine ⟨⟨_, kept⟩, fun buf room k enough => ?_⟩
  have run : World.run (World.start relay) (events ++ List.replicate k (.polls true buf)) =
      ((World.start relay).run events).run (List.replicate k (.polls true buf)) :=
    List.foldl_append
  have fewer := congrArg List.length kept
  rw [List.length_append] at fewer
  have arrived := World.inbox_run (World.start relay) events
  change _ ≤ 0 + events.length at arrived
  rw [run, World.run_polls k (fun p among => room p (kept ▸ List.mem_append_right _ among))
    (by unfold World.work; omega)]
  exact kept

/-- Two datagrams in one buffer, the second a fragment, and a poll. -/
theorem path_hands_over_coalesced :
    (World.start 7 |>.run [.arrives ⟨7, [[0, 0, 0, 1, 1, 2, 3, 4, 0, 80, 97],
        [0, 0, 1, 1, 1, 2, 3, 4, 0, 80, 98]], 11,
        .run (by decide) (.more rfl (.last (by decide) (by decide)))⟩, .polls true [0, 0]]).handed <+:
      [[97]] ∧ ∀ buf, Roomy [[97]] buf → ∀ k, 3 ≤ k →
        (World.start 7 |>.run ([.arrives ⟨7, [[0, 0, 0, 1, 1, 2, 3, 4, 0, 80, 97],
          [0, 0, 1, 1, 1, 2, 3, 4, 0, 80, 98]], 11,
          .run (by decide) (.more rfl (.last (by decide) (by decide)))⟩, .polls true [0, 0]] ++
            List.replicate k (.polls true buf))).handed = [[97]] := by
  refine path_hands_over 7 _ ?_
  intro isOpen buf among p member
  obtain ⟨-, rfl⟩ : isOpen = true ∧ buf = [0, 0] := by simpa using among
  obtain rfl : p = [97] := List.mem_singleton.mp member
  decide

end

end HClient.Proxy.Socks5
