import HClient.Core.Tlv

/-!
# Capsules of a tunnelled datagram

A datagram travels as one type of capsule, behind a context id of zero. Every other capsule is
reported and skipped.
-/
namespace HClient.Masque

/-- The shortest of the four lengths; from 62 bits on it panics. -/
def varintEncode (value : Nat) : Option (List UInt8) :=
  if value < 2 ^ 62 then
    let b := toBe 8 value
    some (if value < 2 ^ 6 then [b.getD 7 0]
      else if value < 2 ^ 14 then [0x40 ||| b.getD 6 0, b.getD 7 0]
      else if value < 2 ^ 30 then (0x80 ||| b.getD 4 0) :: b.drop 5
      else (0xC0 ||| b.getD 0 0) :: b.drop 1)
  else none

def varintDecode (bytes : List UInt8) : Option (Nat × Nat) := Varint.read bytes

def datagramKind : Nat := 0x00

inductive Capsule where
  | datagram (payload : List UInt8)
  | other (kind : Nat)
  deriving DecidableEq, Repr

inductive CapsuleError where
  | malformed
  | tooLarge
  deriving DecidableEq, Repr

def encodeDatagram (payload : List UInt8) : Option (List UInt8) := do
  let kind ← varintEncode datagramKind
  let contextId ← varintEncode 0
  let value := contextId ++ payload
  let length ← varintEncode value.length
  some (kind ++ length ++ value)

/-- The largest length that a buffer may have. -/
def usizeMax : Nat := 2 ^ 64 - 1

structure Decoder where
  buf : List UInt8
  deriving DecidableEq, Repr

namespace Decoder

def new : Decoder := ⟨[]⟩

def push (d : Decoder) (bytes : List UInt8) : Decoder := ⟨d.buf ++ bytes⟩

/-- What a whole capsule is taken for. -/
def read (kind : Nat) (value : List UInt8) : Except CapsuleError Capsule :=
  if kind = datagramKind then
    match varintDecode value with
    | none => .error .malformed
    | some (contextId, contextLen) =>
        if contextId = 0 then .ok (.datagram (value.drop contextLen)) else .ok (.other kind)
  else .ok (.other kind)

/-- A whole capsule leaves the buffer, also when it is malformed. -/
def next (d : Decoder) : Except CapsuleError (Option Capsule) × Decoder :=
  match varintDecode d.buf with
  | none => (.ok none, d)
  | some (kind, kindLen) =>
      match varintDecode (d.buf.drop kindLen) with
      | none => (.ok none, d)
      | some (len, lenLen) =>
          if usizeMax < len then (.error .tooLarge, d)
          else
            let headerLen := kindLen + lenLen
            let total := headerLen + len
            if d.buf.length < total then (.ok none, d)
            else ((read kind ((d.buf.drop headerLen).take len)).map some, ⟨d.buf.drop total⟩)

/-- The answers until there is no whole capsule left, at most so many. -/
def answers : Nat → Decoder → List (Except CapsuleError Capsule) × Decoder
  | 0, d => ([], d)
  | fuel + 1, d =>
      match next d with
      | (.ok none, d) => ([], d)
      | (.ok (some capsule), d) => prepend [.ok capsule] (answers fuel d)
      | (.error e, d) => prepend [.error e] (answers fuel d)

/-- A caller that asks until it is told to wait. -/
def drain (d : Decoder) : List (Except CapsuleError Capsule) × Decoder :=
  answers (d.buf.length + 1) d

/-- A caller that drains after every push. -/
def feed (d : Decoder) : List (List UInt8) → List (Except CapsuleError Capsule) × Decoder
  | [] => ([], d)
  | chunk :: chunks =>
      let drained := drain (d.push chunk)
      prepend drained.1 (feed drained.2 chunks)

end Decoder

namespace Decoder

/-- The capsules of a buffer, as they come off its front. -/
def framer : Framer UInt8 (Except CapsuleError Capsule) := Tlv.framer read

theorem next_eq (d : Decoder) :
    next d = match Tlv.front d.buf with
      | none => (.ok none, d)
      | some (kind, value, n) => ((read kind value).map some, ⟨d.buf.drop n⟩) := by
  unfold next Tlv.front varintDecode
  cases first : Varint.read d.buf with
  | none => rfl
  | some r =>
      obtain ⟨kind, kindLen⟩ := r
      simp only [Option.bind_some]
      cases second : Varint.read (d.buf.drop kindLen) with
      | none => rfl
      | some r =>
          obtain ⟨len, lenLen⟩ := r
          -- a length of 62 bits is one a buffer may have
          have small := (Varint.length_write_le second).2
          have representable : ¬ usizeMax < len := by
            unfold usizeMax
            omega
          simp only [Option.bind_some]
          rw [if_neg representable]
          split <;> rfl

theorem answers_eq (fuel : Nat) (d : Decoder) :
    answers fuel d =
      ((framer.drainUpTo fuel d.buf).1, ⟨(framer.drainUpTo fuel d.buf).2⟩) := by
  induction fuel generalizing d with
  | zero => rfl
  | succ fuel ih =>
      rw [answers, next_eq, Framer.drainUpTo, framer, Tlv.take_framer]
      cases front : Tlv.front d.buf with
      | none => rfl
      | some r =>
          obtain ⟨kind, value, n⟩ := r
          simp only [Option.map_some]
          cases read kind value with
          | ok capsule => exact (congrArg (prepend _) (ih ⟨d.buf.drop n⟩))
          | error e => exact (congrArg (prepend _) (ih ⟨d.buf.drop n⟩))

theorem drain_eq (d : Decoder) :
    drain d = ((framer.drain d.buf).1, ⟨(framer.drain d.buf).2⟩) := by
  rw [drain, answers_eq, Framer.drainUpTo_of_le (Nat.le_succ _)]

theorem feed_eq (d : Decoder) (chunks : List (List UInt8)) :
    feed d chunks = ((framer.feed d.buf chunks).1, ⟨(framer.feed d.buf chunks).2⟩) := by
  induction chunks generalizing d with
  | nil => rfl
  | cons chunk chunks ih => rw [feed, Framer.feed, drain_eq, ih]; rfl

theorem next_nil : framer.take [] = none := rfl

/-- However the bytes are cut, what is answered is what the whole of them is answered with. -/
theorem feed_new (chunks : List (List UInt8)) :
    feed new chunks = ((framer.drain chunks.flatten).1, ⟨(framer.drain chunks.flatten).2⟩) := by
  rw [feed_eq, new, Framer.feed_eq_drain [] next_nil, List.nil_append]

end Decoder

theorem or_ofNat {t q : Nat} (two : t < 4) (six : q < 64) :
    UInt8.ofNat (t * 64) ||| UInt8.ofNat q = UInt8.ofNat (t * 64 + q) := by
  apply UInt8.toNat_inj.mp
  rw [UInt8.toNat_or, UInt8.toNat_ofNat', UInt8.toNat_ofNat', UInt8.toNat_ofNat',
    Nat.mod_eq_of_lt (by omega), Nat.mod_eq_of_lt (by omega), Nat.mod_eq_of_lt (by omega)]
  change t * 2 ^ 6 ||| q = t * 2 ^ 6 + q
  rw [← Nat.shiftLeft_eq, ← Nat.shiftLeft_add_eq_or_of_lt six]

theorem varintEncode_eq {value : Nat} (fits : value < 2 ^ 62) :
    varintEncode value = some (Varint.write value) := by
  unfold varintEncode Varint.write Varint.tag
  rw [if_pos fits]
  dsimp only
  by_cases one : value < 2 ^ 6
  · rw [if_pos one, if_pos one]
    change some [UInt8.ofNat (value / 256 ^ 0)] = some [UInt8.ofNat (0 * 64 + value / 256 ^ 0)]
    rw [Nat.zero_mul, Nat.zero_add]
  rw [if_neg one, if_neg one]
  by_cases two : value < 2 ^ 14
  · rw [if_pos two, if_pos two]
    have byte := or_ofNat (t := 1) (q := value / 256 ^ 1) (by decide) (by omega)
    exact congrArg (fun first => some (first :: toBe 1 value)) byte
  rw [if_neg two, if_neg two]
  by_cases four : value < 2 ^ 30
  · rw [if_pos four, if_pos four]
    have byte := or_ofNat (t := 2) (q := value / 256 ^ 3) (by decide) (by omega)
    exact congrArg (fun first => some (first :: toBe 3 value)) byte
  · rw [if_neg four, if_neg four]
    have byte := or_ofNat (t := 3) (q := value / 256 ^ 7) (by decide) (by omega)
    exact congrArg (fun first => some (first :: toBe 7 value)) byte

theorem varintEncode_lt {value : Nat} {bytes : List UInt8}
    (encoded : varintEncode value = some bytes) : value < 2 ^ 62 := by
  unfold varintEncode at encoded
  split at encoded
  next fits => exact fits
  next => cases encoded

/-- What the other side may send. -/
inductive Sent where
  | datagram (payload : List UInt8)
  | other (kind : Nat) (value : List UInt8)

/-- The bytes a capsule is sent as: an ours, or one of another type in any form. -/
def Sent.Encoded : Sent → List UInt8 → Prop
  | .datagram payload, bytes => encodeDatagram payload = some bytes
  | .other kind value, bytes => kind ≠ datagramKind ∧ Tlv.Spells bytes kind value

def Sent.capsule : Sent → Capsule
  | .datagram payload => .datagram payload
  | .other kind _ => .other kind

def Sent.payload : Sent → Option (List UInt8)
  | .datagram payload => some payload
  | .other _ _ => none

theorem encodeDatagram_eq (payload : List UInt8) :
    encodeDatagram payload =
      (varintEncode (0 :: payload).length).map fun length => [0] ++ length ++ 0 :: payload := by
  have zero : varintEncode 0 = some [0] := rfl
  unfold encodeDatagram datagramKind
  rw [zero]
  cases encoded : varintEncode (0 :: payload).length with
  | none => exact congrArg (Option.bind · _) encoded
  | some length => exact congrArg (Option.bind · _) encoded

/-- A capsule that was sent is read as itself. -/
theorem Sent.take {sent : Sent} {bytes : List UInt8} (encoded : sent.Encoded bytes) :
    Decoder.framer.take bytes = some (.ok sent.capsule, bytes.length) := by
  cases sent with
  | datagram payload =>
      rw [Sent.Encoded, encodeDatagram_eq] at encoded
      obtain ⟨length, three, encoded⟩ := Option.map_eq_some_iff.mp encoded
      have small := varintEncode_lt three
      rw [varintEncode_eq small] at three
      cases three
      cases encoded
      have spells : Tlv.Spells ([0] ++ Varint.write (0 :: payload).length ++ 0 :: payload) 0
          (0 :: payload) := by
        refine ⟨[0], _, rfl, rfl, ?_⟩
        have whole := Varint.read_write small []
        rw [List.append_nil] at whole
        exact whole
      have front := Tlv.front_of_spells spells
      exact congrArg (Option.map _) front
  | other kind value =>
      obtain ⟨other, spells⟩ := encoded
      have front := Tlv.front_of_spells spells
      have skipped : Decoder.read kind value = .ok (.other kind) := if_neg other
      rw [Decoder.framer, Tlv.take_framer, front]
      exact congrArg (fun answer => some (answer, bytes.length)) skipped

/-- Capsules sent one after another are read one after another. -/
theorem drain_sent {sent : List (Sent × List UInt8)}
    (encoded : ∀ s ∈ sent, s.1.Encoded s.2) :
    Decoder.framer.drain (sent.map (·.2)).flatten = (sent.map fun s => .ok s.1.capsule, []) := by
  induction sent with
  | nil => exact Framer.drain_none Decoder.next_nil
  | cons s sent ih =>
      have here := Sent.take (encoded s List.mem_cons_self)
      rw [List.map_cons, List.flatten_cons, Framer.drain_append_of_take here,
        ih fun t member => encoded t (List.mem_cons_of_mem _ member)]
      rfl

/-- The payloads among what was answered. -/
def payloads (answers : List (Except CapsuleError Capsule)) : List (List UInt8) :=
  answers.filterMap fun answer =>
    match answer with
    | .ok (.datagram payload) => some payload
    | _ => none

theorem payloads_sent (sent : List (Sent × List UInt8)) :
    payloads (sent.map fun s => .ok s.1.capsule) = sent.filterMap fun s => s.1.payload := by
  rw [payloads, List.filterMap_map]
  congr 1
  funext s
  obtain ⟨s, bytes⟩ := s
  cases s <;> rfl

/-- What was sent arrives whatever the pieces it arrives in, no decoding depends on the pieces,
and the integers are read back from their shortest form. -/
theorem capsules_decode :
    (∀ (sent : List (Sent × List UInt8)) (chunks : List (List UInt8)),
      (∀ s ∈ sent, s.1.Encoded s.2) → chunks.flatten = (sent.map (·.2)).flatten →
        (Decoder.new.feed chunks).1 = sent.map (fun s => .ok s.1.capsule) ∧
          payloads (Decoder.new.feed chunks).1 = sent.filterMap (fun s => s.1.payload)) ∧
      (∀ chunks others : List (List UInt8), chunks.flatten = others.flatten →
        Decoder.new.feed chunks = Decoder.new.feed others) ∧
      ∀ value < 2 ^ 62, ∃ bytes, varintEncode value = some bytes ∧
        (∀ rest, varintDecode (bytes ++ rest) = some (value, bytes.length)) ∧
        ∀ other n, varintDecode other = some (value, n) → bytes.length ≤ n := by
  refine ⟨fun sent chunks encoded cut => ?_, fun chunks others same => ?_, fun value fits => ?_⟩
  · rw [Decoder.feed_new, cut, drain_sent encoded]
    exact ⟨rfl, payloads_sent sent⟩
  · rw [Decoder.feed_new, Decoder.feed_new, same]
  · exact ⟨_, varintEncode_eq fits, Varint.read_write fits, fun other n said =>
      (Varint.length_write_le said).1⟩

/-- A datagram and a capsule of another type, cut inside their integers. -/
theorem capsules_decode_cut :
    payloads (Decoder.new.feed [[0], [3, 0, 104], [105, 0x40], [0x41, 1, 7, 0, 1, 0]]).1 =
      [[104, 105], []] ∧ 0x41 < 2 ^ 62 := by
  refine ⟨(capsules_decode.1
    [(.datagram [104, 105], [0, 3, 0, 104, 105]), (.other 0x41 [7], [0x40, 0x41, 1, 7]),
      (.datagram [], [0, 1, 0])] _ ?_ rfl).2, by decide⟩
  intro s member
  simp only [List.mem_cons, List.not_mem_nil, or_false] at member
  obtain rfl | rfl | rfl := member
  · rfl
  · exact ⟨by decide, [0x40, 0x41], [1], rfl, rfl, rfl⟩
  · rfl

end HClient.Masque
