import HClient.Core.Poll
import HClient.Core.Text
import HClient.Masque.Capsule

/-!
# Datagrams over a stream

A path sends each datagram as one capsule on a stream. What the stream does not take at once is
kept, and whoever asks the path next pushes it on before anything else is written.
-/
namespace HClient.Masque

def capsuleMax : Nat := 1350

/-- What the stream answers a write with: it takes up to so many bytes, or none yet. -/
abbrev PollWrite : Type := Poll (Except Text Nat)

inductive IoError where
  | writeZero
  | other (message : Text)
  deriving DecidableEq, Repr

inductive SendError where
  | invalidInput
  | wouldBlock
  | carrier (e : IoError)
  deriving DecidableEq, Repr

/-- The path's half that sends. `written` is what the stream has taken, and `io` is what it goes
on to answer. -/
structure CapsulePath where
  tail : List UInt8
  written : List UInt8
  io : List PollWrite
  deriving DecidableEq, Repr

namespace CapsulePath

def new (io : List PollWrite) : CapsulePath := ⟨[], [], io⟩

def drainTail (tail written : List UInt8) :
    List PollWrite → Poll (Except IoError Unit) × CapsulePath
  | [] => (if tail = [] then .ready (.ok ()) else .pending, ⟨tail, written, []⟩)
  | answer :: io =>
      if tail = [] then (.ready (.ok ()), ⟨tail, written, answer :: io⟩)
      else
        match answer with
        | .pending => (.pending, ⟨tail, written, io⟩)
        | .ready (.error e) => (.ready (.error (.other e)), ⟨tail, written, io⟩)
        | .ready (.ok n) =>
            if n = 0 then (.ready (.error .writeZero), ⟨tail, written, io⟩)
            else drainTail (tail.drop n) (written ++ tail.take n) io

/-- Writes as much of the tail as the stream takes now. -/
def drain (p : CapsulePath) : Poll (Except IoError Unit) × CapsulePath :=
  drainTail p.tail p.written p.io

/-- Fails as a whole only where a capsule cannot be encoded. -/
def trySend (p : CapsulePath) (datagram : List UInt8) :
    Option (Except SendError Unit × CapsulePath) :=
  if capsuleMax < datagram.length then some (.error .invalidInput, p)
  else
    match p.drain with
    | (.ready (.error e), p) => some (.error (.carrier e), p)
    | (.pending, p) => some (.error .wouldBlock, p)
    | (.ready (.ok ()), p) => do
        let capsule ← encodeDatagram datagram
        match { p with tail := p.tail ++ capsule }.drain with
        | (.ready (.error e), p) => some (.error (.carrier e), p)
        -- taken whole, or in part with the rest kept
        | (_, p) => some (.ok (), p)

def pollWritable (p : CapsulePath) : Poll (Except IoError Unit) × CapsulePath := p.drain

/-- The first half of a receive: a kept tail is pushed on, and its error is left to a send. -/
def pushOn (p : CapsulePath) : CapsulePath := if p.tail = [] then p else p.drain.2

end CapsulePath

/-! ## The half that receives -/

inductive RecvError where
  | invalidData (e : CapsuleError)
  | connectionAborted
  | stream (message : Text)
  deriving DecidableEq, Repr

/-- What the stream answers a read with. -/
abbrev PollRead : Type := Poll (Except Text (List UInt8))

/-- The datagram or the error at the front of what has been decoded, if there is one. -/
def nextDatagram : Nat → Decoder → Option (Except CapsuleError (List UInt8)) × Decoder
  | 0, d => (none, d)
  | fuel + 1, d =>
      match d.next with
      | (.ok (some (.datagram payload)), d) => (some (.ok payload), d)
      | (.ok (some (.other _)), d) => nextDatagram fuel d
      | (.ok none, d) => (none, d)
      | (.error e, d) => (some (.error e), d)

/-- The second half of a receive, into a buffer of so many bytes. -/
def readOn (len : Nat) (d : Decoder) (reads : List PollRead) :
    Poll (Except RecvError (List UInt8)) × Decoder × List PollRead :=
  match nextDatagram (d.buf.length + 1) d with
  | (some (.ok payload), d) => (.ready (.ok (payload.take len)), d, reads)
  | (some (.error e), d) => (.ready (.error (.invalidData e)), d, reads)
  | (none, d) =>
      match reads with
      | [] => (.pending, d, [])
      | .pending :: reads => (.pending, d, reads)
      | .ready (.error e) :: reads => (.ready (.error (.stream e)), d, reads)
      | .ready (.ok []) :: reads => (.ready (.error .connectionAborted), d, reads)
      | .ready (.ok bytes) :: reads => readOn len (d.push bytes) reads

/-! ## Calls in any order

Each call holds the kept tail while it writes, so that what the calls of several tasks do to it
comes one after another: a send, a wait for room, and the two halves of a receive. -/

/-- The sends of a run with their answers. -/
abbrev Log : Type := List (List UInt8 × Except SendError Unit)

structure Tunnel where
  path : CapsulePath
  receiving : Decoder
  log : Log
  deriving DecidableEq

inductive Turn where
  | trySend (datagram : List UInt8)
  | pollWritable
  | pushOn
  | readOn (len : Nat) (reads : List PollRead)

namespace Tunnel

def new (io : List PollWrite) : Tunnel := ⟨.new io, .new, []⟩

def step (t : Tunnel) : Turn → Option Tunnel
  | .trySend datagram => do
      let (answer, path) ← t.path.trySend datagram
      some { t with path := path, log := t.log ++ [(datagram, answer)] }
  | .pollWritable => some { t with path := t.path.pollWritable.2 }
  | .pushOn => some { t with path := t.path.pushOn }
  | .readOn len reads => some { t with receiving := (Masque.readOn len t.receiving reads).2.1 }

def run (t : Tunnel) : List Turn → Option Tunnel
  | [] => some t
  | turn :: turns => (t.step turn).bind fun t => t.run turns

end Tunnel

/-- The datagrams whose send was accepted. -/
def accepted (log : Log) : List (List UInt8) :=
  log.filterMap fun entry => if entry.2.isOk then some entry.1 else none

/-- The datagram of the first send that was answered with an error of the stream. -/
def failed (log : Log) : Option (List UInt8) :=
  log.findSome? fun entry =>
    match entry.2 with
    | .error (.carrier _) => some entry.1
    | _ => none

/-- The capsule a datagram is sent as. -/
def capsule (datagram : List UInt8) : List UInt8 :=
  [0] ++ Varint.write (datagram.length + 1) ++ 0 :: datagram

/-- A write is refused for good: nothing is taken, and no later write either. -/
def Refused : PollWrite → Prop
  | .ready (.ok n) => n = 0
  | .ready (.error _) => True
  | .pending => False

/-- Errors of the stream are permanent. -/
def Permanent (io : List PollWrite) : Prop :=
  io.Pairwise fun earlier later => Refused earlier → Refused later

/-! ## What the stream is given -/

namespace CapsulePath

/-- What has been written and what is kept. -/
def given (p : CapsulePath) : List UInt8 := p.written ++ p.tail

/-- A tail is kept that no answer ahead takes a byte of. -/
def Dead (p : CapsulePath) : Prop := p.tail ≠ [] ∧ ∀ answer ∈ p.io, Refused answer

theorem drainTail_spec (tail written : List UInt8) (io : List PollWrite) (permanent : Permanent io) :
    (drainTail tail written io).2.given = written ++ tail ∧
      Permanent (drainTail tail written io).2.io ∧
      ((drainTail tail written io).1 = .ready (.ok ()) → (drainTail tail written io).2.tail = []) ∧
      (∀ e, (drainTail tail written io).1 = .ready (.error e) →
        (drainTail tail written io).2.Dead) := by
  induction io generalizing tail written with
  | nil =>
      by_cases empty : tail = []
      · simp [drainTail, given, empty, Permanent]
      · simp [drainTail, given, empty, Permanent]
  | cons answer io ih =>
      obtain ⟨onward, rest⟩ := List.pairwise_cons.mp permanent
      by_cases empty : tail = []
      · subst empty
        refine ⟨rfl, permanent, fun _ => rfl, nofun⟩
      · rw [drainTail.eq_def]
        simp only [if_neg empty]
        match answer, onward with
        | .pending, _ => exact ⟨rfl, rest, nofun, nofun⟩
        | .ready (.error e), onward =>
            exact ⟨rfl, rest, nofun, fun _ _ =>
              ⟨empty, fun later member => onward later member trivial⟩⟩
        | .ready (.ok n), onward =>
            dsimp only
            by_cases zero : n = 0
            · rw [if_pos zero]
              exact ⟨rfl, rest, nofun, fun _ _ =>
                ⟨empty, fun later member => onward later member zero⟩⟩
            · rw [if_neg zero]
              obtain ⟨given, later⟩ := ih (tail.drop n) (written ++ tail.take n) rest
              refine ⟨?_, later⟩
              rw [given, List.append_assoc, List.take_append_drop]

theorem drain_spec {p : CapsulePath} (permanent : Permanent p.io) :
    p.drain.2.given = p.given ∧ Permanent p.drain.2.io ∧
      (p.drain.1 = .ready (.ok ()) → p.drain.2.tail = []) ∧
      ∀ e, p.drain.1 = .ready (.error e) → p.drain.2.Dead :=
  drainTail_spec p.tail p.written p.io permanent

/-- A stream that takes nothing any more lets nothing through. -/
theorem Dead.drain {p : CapsulePath} (dead : p.Dead) :
    p.drain.1 ≠ .ready (.ok ()) ∧ p.drain.2.Dead := by
  obtain ⟨tail, written, io⟩ := p
  obtain ⟨kept, refused⟩ := dead
  change tail ≠ [] at kept
  unfold CapsulePath.drain
  cases io with
  | nil => simp [drainTail, kept, Dead]
  | cons answer io =>
      have here := refused answer List.mem_cons_self
      have later : ∀ answer ∈ io, Refused answer :=
        fun answer member => refused answer (List.mem_cons_of_mem _ member)
      rw [drainTail.eq_def]
      simp only [if_neg kept]
      match answer, here with
      | .ready (.error e), _ => exact ⟨nofun, kept, later⟩
      | .ready (.ok n), zero =>
          change n = 0 at zero
          simp only [if_pos zero]
          exact ⟨nofun, kept, later⟩

/-- What a send does to what the stream is given, for each of its answers. -/
inductive Sends (p : CapsulePath) (datagram : List UInt8) :
    Except SendError Unit → CapsulePath → Prop
  | accepted {q : CapsulePath} (alive : ¬ p.Dead) (given : q.given = p.given ++ capsule datagram) :
      Sends p datagram (.ok ()) q
  | held {q : CapsulePath} {e : SendError} (none : ∀ error, e ≠ .carrier error)
      (given : q.given = p.given) (dead : p.Dead → q.Dead) : Sends p datagram (.error e) q
  | failed {q : CapsulePath} {e : IoError} (dead : q.Dead) (given : q.given = p.given) :
      Sends p datagram (.error (.carrier e)) q
  | torn {q : CapsulePath} {e : IoError} (alive : ¬ p.Dead) (dead : q.Dead)
      (given : q.given = p.given ++ capsule datagram) :
      Sends p datagram (.error (.carrier e)) q

theorem encodeDatagram_capsule {datagram : List UInt8} (fits : datagram.length ≤ capsuleMax) :
    encodeDatagram datagram = some (capsule datagram) := by
  have small : (0 :: datagram).length < 2 ^ 62 := by
    unfold capsuleMax at fits
    rw [List.length_cons]
    omega
  rw [encodeDatagram_eq, varintEncode_eq small]
  rfl

theorem trySend_spec {p : CapsulePath} (permanent : Permanent p.io) (datagram : List UInt8) :
    ∃ answer q, p.trySend datagram = some (answer, q) ∧ Permanent q.io ∧
      Sends p datagram answer q := by
  unfold trySend
  split
  next => exact ⟨_, _, rfl, permanent, .held nofun rfl id⟩
  next fits =>
    obtain ⟨given, later, empty, fatal⟩ := drain_spec permanent
    have dead := Dead.drain (p := p)
    revert given later empty fatal dead
    generalize p.drain = drained
    obtain ⟨answer, q⟩ := drained
    intro given later empty fatal dead
    match answer with
    | .pending => exact ⟨_, _, rfl, later, .held nofun given fun was => (dead was).2⟩
    | .ready (.error e) => exact ⟨_, _, rfl, later, .failed (fatal e rfl) given⟩
    | .ready (.ok ()) =>
        have alive : ¬ p.Dead := fun was => (dead was).1 rfl
        have nothing : q.tail = [] := empty rfl
        dsimp only
        rw [encodeDatagram_capsule (Nat.le_of_not_lt fits)]
        simp only [Option.bind_eq_bind, Option.bind_some]
        obtain ⟨given', later', -, fatal'⟩ :=
          drain_spec (p := { q with tail := q.tail ++ capsule datagram }) later
        have whole : CapsulePath.given { q with tail := q.tail ++ capsule datagram } =
            p.given ++ capsule datagram := by
          rw [← given, CapsulePath.given, CapsulePath.given, nothing, List.append_assoc]
        rw [whole] at given'
        revert given' later' fatal'
        generalize CapsulePath.drain { q with tail := q.tail ++ capsule datagram } = drained
        obtain ⟨answer, r⟩ := drained
        intro given' later' fatal'
        match answer with
        | .pending => exact ⟨_, _, rfl, later', .accepted alive given'⟩
        | .ready (.ok ()) => exact ⟨_, _, rfl, later', .accepted alive given'⟩
        | .ready (.error e) => exact ⟨_, _, rfl, later', .torn alive (fatal' e rfl) given'⟩

end CapsulePath

/-- What has been accepted is given to the stream in order, and after it at most the capsule that
the stream failed in. -/
structure Tunnel.Sound (t : Tunnel) : Prop where
  permanent : Permanent t.path.io
  given : (t.path.given = (accepted t.log).flatMap capsule ∧
      ((failed t.log).isSome → t.path.Dead)) ∨
    ∃ datagram, failed t.log = some datagram ∧ t.path.Dead ∧
      t.path.given = (accepted t.log).flatMap capsule ++ capsule datagram

theorem accepted_ok (log : Log) (datagram : List UInt8) :
    accepted (log ++ [(datagram, .ok ())]) = accepted log ++ [datagram] := by
  rw [accepted, List.filterMap_append]
  rfl

theorem accepted_error (log : Log) (datagram : List UInt8) (e : SendError) :
    accepted (log ++ [(datagram, .error e)]) = accepted log := by
  rw [accepted, List.filterMap_append]
  exact List.append_nil _

theorem failed_concat (log : Log) (entry : List UInt8 × Except SendError Unit) :
    failed (log ++ [entry]) = (failed log).or (failed [entry]) :=
  List.findSome?_append

theorem failed_held (datagram : List UInt8) {e : SendError} (none : ∀ error, e ≠ .carrier error) :
    failed [(datagram, .error e)] = Option.none := by
  cases e with
  | carrier error => exact absurd rfl (none error)
  | invalidInput => rfl
  | wouldBlock => rfl

namespace Tunnel

/-- A poll that only pushes the tail on changes nothing that the stream is given. -/
theorem Sound.drain {t : Tunnel} (sound : t.Sound) : Sound { t with path := t.path.drain.2 } := by
  obtain ⟨given, later, -, -⟩ := CapsulePath.drain_spec sound.permanent
  refine ⟨later, ?_⟩
  obtain ⟨whole, dead⟩ | ⟨datagram, first, dead, whole⟩ := sound.given
  · exact .inl ⟨given.trans whole, fun some => (dead some).drain.2⟩
  · exact .inr ⟨datagram, first, dead.drain.2, given.trans whole⟩

theorem Sound.trySend {t : Tunnel} (sound : t.Sound) (datagram : List UInt8) :
    ∃ next, t.step (.trySend datagram) = some next ∧ next.Sound := by
  obtain ⟨answer, q, sent, permanent, sends⟩ := CapsulePath.trySend_spec sound.permanent datagram
  refine ⟨{ t with path := q, log := t.log ++ [(datagram, answer)] }, ?_, permanent, ?_⟩
  · rw [step, sent]
    rfl
  rw [failed_concat]
  cases sends with
  | accepted alive given =>
      rw [accepted_ok, List.flatMap_append, List.flatMap_singleton]
      have healthy : ∀ d, failed t.log ≠ some d := by
        intro d there
        obtain ⟨-, dead⟩ | ⟨-, -, dead, -⟩ := sound.given
        · exact alive (dead (by rw [there]; rfl))
        · exact alive dead
      obtain ⟨whole, -⟩ | ⟨d, there, -⟩ := sound.given
      · refine .inl ⟨by rw [given, whole], fun some => ?_⟩
        rw [Option.eq_none_iff_forall_ne_some.mpr healthy] at some
        cases some
      · exact absurd there (healthy d)
  | held none given dead' =>
      rw [accepted_error, failed_held datagram none, Option.or_none]
      obtain ⟨whole, dead⟩ | ⟨d, there, dead, whole⟩ := sound.given
      · exact .inl ⟨given.trans whole, fun some => dead' (dead some)⟩
      · exact .inr ⟨d, there, dead' dead, given.trans whole⟩
  | failed dead' given =>
      rw [accepted_error]
      obtain ⟨whole, -⟩ | ⟨d, there, -, whole⟩ := sound.given
      · exact .inl ⟨given.trans whole, fun _ => dead'⟩
      · exact .inr ⟨d, by rw [there]; rfl, dead', given.trans whole⟩
  | torn alive dead' given =>
      rw [accepted_error]
      obtain ⟨whole, dead⟩ | ⟨_, _, dead, _⟩ := sound.given
      · have first : failed t.log = Option.none :=
          Option.not_isSome_iff_eq_none.mp fun some => alive (dead some)
        exact .inr ⟨datagram, by rw [first]; rfl, dead', by rw [given, whole]⟩
      · exact absurd dead alive

/-- No turn panics, and each keeps what the stream is given in order. -/
theorem Sound.step {t : Tunnel} (sound : t.Sound) (turn : Turn) :
    ∃ next, t.step turn = some next ∧ next.Sound := by
  cases turn with
  | trySend datagram => exact sound.trySend datagram
  | pollWritable => exact ⟨_, rfl, sound.drain⟩
  | pushOn =>
      refine ⟨_, rfl, ?_⟩
      rw [CapsulePath.pushOn]
      split
      · exact sound
      · exact sound.drain
  | readOn len reads => exact ⟨_, rfl, sound.permanent, sound.given⟩

theorem Sound.run {t : Tunnel} (sound : t.Sound) (turns : List Turn) :
    ∃ last, t.run turns = some last ∧ last.Sound := by
  induction turns generalizing t with
  | nil => exact ⟨t, rfl, sound⟩
  | cons turn turns ih =>
      obtain ⟨next, stepped, sound⟩ := sound.step turn
      obtain ⟨last, reached, sound⟩ := ih sound
      refine ⟨last, ?_, sound⟩
      rw [Tunnel.run, stepped, Option.bind_some, reached]

theorem sound_new {io : List PollWrite} (permanent : Permanent io) : (new io).Sound :=
  ⟨permanent, .inl ⟨rfl, nofun⟩⟩

end Tunnel

/-- In every run, what has been written is a prefix of the capsules of the accepted datagrams in
order, and behind them at most the capsule that the stream failed in. -/
theorem written_prefix {io : List PollWrite} (permanent : Permanent io) (turns : List Turn) :
    ∃ t, (Tunnel.new io).run turns = some t ∧
      (t.path.written <+: (accepted t.log).flatMap capsule ∨
        ∃ datagram, failed t.log = some datagram ∧
          t.path.written <+: (accepted t.log).flatMap capsule ++ capsule datagram) := by
  obtain ⟨t, reached, sound⟩ := (Tunnel.sound_new permanent).run turns
  refine ⟨t, reached, ?_⟩
  obtain ⟨whole, -⟩ | ⟨datagram, first, -, whole⟩ := sound.given
  · exact .inl ⟨t.path.tail, whole⟩
  · exact .inr ⟨datagram, first, t.path.tail, whole⟩

/-- A stream that takes one byte of a capsule and then fails. -/
theorem written_prefix_torn : ∃ t,
    (Tunnel.new [.ready (.ok 1), .ready (.error [])]).run [.trySend [7]] = some t ∧
      t.path.written = [0] ∧ accepted t.log = [] ∧
      (t.path.written <+: (accepted t.log).flatMap capsule ∨
        ∃ datagram, failed t.log = some datagram ∧
          t.path.written <+: (accepted t.log).flatMap capsule ++ capsule datagram) := by
  have permanent : Permanent [.ready (.ok 1), .ready (.error [])] := by simp [Permanent, Refused]
  obtain ⟨t, reached, whole⟩ := written_prefix permanent [.trySend [7]]
  have given : (Tunnel.new [.ready (.ok 1), .ready (.error [])]).run [.trySend [7]] =
      some ⟨⟨[2, 0, 7], [0], []⟩, .new, [([7], .error (.carrier (.other [])))]⟩ := by
    decide +kernel
  refine ⟨t, reached, ?_, ?_, whole⟩
  · cases given.symm.trans reached
    rfl
  · cases given.symm.trans reached
    rfl

/-- The part of a capsule that a failing stream took stays written, and its send is not accepted. -/
theorem written_not_accepted : ¬ ∀ (io : List PollWrite) (turns : List Turn) (t : Tunnel),
    Permanent io → (Tunnel.new io).run turns = some t →
      t.path.written <+: (accepted t.log).flatMap capsule := by
  intro claimed
  have reached : (Tunnel.new [.ready (.ok 1), .ready (.error [])]).run [.trySend [7]] =
      some ⟨⟨[2, 0, 7], [0], []⟩, .new, [([7], .error (.carrier (.other [])))]⟩ := by
    decide +kernel
  have wrong := claimed _ _ _ (by simp [Permanent, Refused]) reached
  exact absurd wrong (by decide)

end HClient.Masque
