import HClient.Core.Text
import HClient.Effect.Turns
import HClient.Effect.Walk

/-!
# The `zstd` decoder

`decompress::zstd`: bytes are kept until the frame decoder, which is a parameter, can take them.
Over it the format as a machine that reads headers, skippable frames and pieces of frames from a
string, and what the frame decoder is to do of it.
-/
namespace HClient.Body

inductive InitError where
  | skipFrame (length : Nat)
  | other (source : Text)

/-- `ruzstd`'s `FrameDecoder`, made with the largest window it accepts. Calls that are given a
source also answer how much of it they took; those that are given room answer what they wrote. -/
structure FrameDecoder (δ : Type) where
  new : Nat → δ
  isFinished : δ → Bool
  init : δ → List UInt8 → Except InitError Unit × Nat × δ
  decodeFromTo : δ → List UInt8 → Nat → Except Text (Nat × List UInt8) × δ
  read : δ → Nat → Except Text (List UInt8) × δ
  getChecksumFromData : δ → Option Nat
  getCalculatedChecksum : δ → Option Nat

structure ZstdStream (δ : Type) where
  dec : δ
  pending : List UInt8
  decoded : List UInt8

namespace ZstdStream
variable {δ : Type}

def zstdMaxWindow : Nat := 8 * 1024 * 1024

def zstdChunk : Nat := 16 * 1024

def zstdMaxFrameHeader : Nat := 18

def new (f : FrameDecoder δ) : ZstdStream δ := ⟨f.new zstdMaxWindow, [], []⟩

def insideSkippable : Text := "the zstd body ended inside a skippable frame".toList

def checksumMismatch : Text :=
  "the zstd frame's content checksum does not match the decoded bytes".toList

def truncated : Text := "the zstd body ended in the middle of a frame".toList

def verifyChecksum (f : FrameDecoder δ) (dec : δ) : Except Text Unit :=
  match f.getChecksumFromData dec, f.getCalculatedChecksum dec with
  | some want, some got => if want = got then .ok () else .error checksumMismatch
  | _, _ => .ok ()

/-- The inner loop of `drive`: what a completed frame is still holding. -/
def drain (f : FrameDecoder δ) : Nat → δ → List UInt8 → Option (Except Text Unit × δ × List UInt8)
  | 0, _, _ => none
  | fuel + 1, dec, decoded =>
      match f.read dec zstdChunk with
      | (.error e, dec) => some (.error e, dec, decoded)
      | (.ok [], dec) => some (.ok (), dec, decoded)
      | (.ok part, dec) => drain f fuel dec (decoded ++ part)

/-- `start_frame`, over the decoder and what is pending. -/
def startFrame (f : FrameDecoder δ) (eof : Bool) :
    Nat → δ → List UInt8 → Option (Except Text Bool × δ × List UInt8)
  | 0, _, _ => none
  | fuel + 1, dec, pending =>
      if pending = [] then some (.ok false, dec, pending)
      else if !eof ∧ pending.length < zstdMaxFrameHeader then some (.ok false, dec, pending)
      else
        match f.init dec pending with
        | (.ok (), consumed, dec) => some (.ok true, dec, pending.drop consumed)
        | (.error (.skipFrame length), consumed, dec) =>
            if pending.length < consumed + length then
              some (if eof then .error insideSkippable else .ok false, dec, pending)
            else startFrame f eof fuel dec (pending.drop (consumed + length))
        | (.error (.other e), _, dec) => some (.error e, dec, pending)

/-- What `drive` ends in but bytes: an error, or a panic where `pending` is drained by more than it
has. -/
inductive Fault where
  | io (e : Text)
  | panicked

/-- Between frames: what the completed frame holds, its checksum, and the next frame. -/
def nextFrame (f : FrameDecoder δ) (eof : Bool) (fuel : Nat) (s : ZstdStream δ) :
    Option (Except Text Bool × ZstdStream δ) :=
  match drain f fuel s.dec s.decoded with
  | none => none
  | some (.error e, dec, decoded) => some (.error e, ⟨dec, s.pending, decoded⟩)
  | some (.ok (), dec, decoded) =>
      match verifyChecksum f dec with
      | .error e => some (.error e, ⟨dec, s.pending, decoded⟩)
      | .ok () =>
          (startFrame f eof fuel dec s.pending).map fun (started, dec, pending) =>
            (started, ⟨dec, pending, decoded⟩)

def drive (f : FrameDecoder δ) (eof : Bool) :
    Nat → ZstdStream δ → Option (Except Fault (List UInt8) × ZstdStream δ)
  | 0, _ => none
  | fuel + 1, s =>
      if f.isFinished s.dec then
        match nextFrame f eof fuel s with
        | none => none
        | some (.error e, s) => some (.error (.io e), s)
        | some (.ok false, s) => some (.ok s.decoded, { s with decoded := [] })
        | some (.ok true, s) => drive f eof fuel s
      else
        match f.decodeFromTo s.dec s.pending zstdChunk with
        | (.error e, dec) => some (.error (.io e), { s with dec := dec })
        | (.ok (read, written), dec) =>
            if s.pending.length < read then
              some (.error .panicked, ⟨dec, s.pending, s.decoded ++ written⟩)
            else if read = 0 ∧ written = [] then some (.ok s.decoded, ⟨dec, s.pending, []⟩)
            else drive f eof fuel ⟨dec, s.pending.drop read, s.decoded ++ written⟩

def push (f : FrameDecoder δ) (fuel : Nat) (input : List UInt8) (s : ZstdStream δ) :
    Option (Except Fault (List UInt8) × ZstdStream δ) :=
  drive f false fuel { s with pending := s.pending ++ input }

def finish (f : FrameDecoder δ) (fuel : Nat) (s : ZstdStream δ) :
    Option (Except Fault (List UInt8) × ZstdStream δ) :=
  match drive f true fuel s with
  | some (.ok out, s) =>
      if !f.isFinished s.dec ∨ s.pending ≠ [] then some (.error (.io truncated), s)
      else some (.ok out, s)
  | driven => driven

/-- Pushes one after the other, up to the first error: what they hand out together. -/
def pushes (f : FrameDecoder δ) (fuel : Nat) :
    List (List UInt8) → ZstdStream δ → Option (Except Fault (List UInt8) × ZstdStream δ)
  | [], s => some (.ok [], s)
  | input :: inputs, s =>
      match push f fuel input s with
      | some (.ok out, s) =>
          (pushes f fuel inputs s).map fun (later, s) => (later.map fun more => out ++ more, s)
      | pushed => pushed

/-- Pushes, and then `finish`. -/
def run (f : FrameDecoder δ) (fuel : Nat) (inputs : List (List UInt8)) (s : ZstdStream δ) :
    Option (Except Fault (List UInt8)) :=
  match pushes f fuel inputs s with
  | none => none
  | some (.error e, _) => some (.error e)
  | some (.ok out, s) =>
      (finish f fuel s).map fun (last, _) => last.map fun more => out ++ more

/-- What the run comes to, given time. -/
def Settles (f : FrameDecoder δ) (inputs : List (List UInt8))
    (verdict : Except Fault (List UInt8)) : Prop :=
  ∃ enough, ∀ fuel, enough ≤ fuel → run f fuel inputs (new f) = some verdict

end ZstdStream

/-! ## The format -/

inductive FrameHeader (α : Type) where
  | frame (length : Nat) (a : α)
  | skippable (header length : Nat)
  | malformed

inductive FramePiece (α : Type) where
  | piece (length : Nat) (out : List UInt8) (a : α)
  | incomplete
  | malformed

def maxBlock : Nat := 3 + 128 * 1024

/-- What stands at the front of some bytes: the header of a frame or of a skippable frame, or, in a
frame, the next block or the checksum. A frame is finished behind its last piece. -/
structure ZstdFormat (α : Type) where
  header : List UInt8 → FrameHeader α
  piece : α → List UInt8 → FramePiece α
  finished : α → Bool
  /-- Its last block is read, and its checksum is to come. -/
  closing : α → Bool
  sound : α → Bool
  header_frame : ∀ s n a, header s = .frame n a → 0 < n ∧ n ≤ s.length
  header_skippable : ∀ s n length, header s = .skippable n length → 0 < n ∧ n ≤ s.length
  /-- The longest header has 18 bytes. -/
  header_append : ∀ s more, ZstdStream.zstdMaxFrameHeader ≤ s.length →
    header (s ++ more) = header s
  piece_length : ∀ a s n out a', piece a s = .piece n out a' → 0 < n ∧ n ≤ s.length
  piece_append : ∀ a s more, piece a s ≠ .incomplete → piece a (s ++ more) = piece a s
  /-- The longest piece is a block of 128 KiB with its header. -/
  piece_incomplete : ∀ a s, piece a s = .incomplete → s.length < maxBlock

namespace ZstdFormat
variable {α : Type} (fmt : ZstdFormat α)

/-- No frame has begun, or the last one is finished. -/
def Between (frame : Option α) : Prop := ∀ a ∈ frame, fmt.finished a = true

instance (frame : Option α) : Decidable (fmt.Between frame) :=
  inferInstanceAs (Decidable (∀ a ∈ frame, _))

/-- The last frame has the content that its checksum is of. -/
def Sound (frame : Option α) : Prop := ∀ a ∈ frame, fmt.sound a = true

instance (frame : Option α) : Decidable (fmt.Sound frame) :=
  inferInstanceAs (Decidable (∀ a ∈ frame, _))

/-- One reading of the format: in a frame, or behind one, with the bytes to come. What it shows is
what is decoded by it. Unless the bytes are all there are, a header is read of 18 at least. -/
inductive Step (eof : Bool) : Option α × List UInt8 → List UInt8 → Option α × List UInt8 → Prop
  | frame {frame : Option α} {s : List UInt8} {n : Nat} {a : α} :
      fmt.Between frame → fmt.Sound frame → s ≠ [] →
      (eof = false → ZstdStream.zstdMaxFrameHeader ≤ s.length) → fmt.header s = .frame n a →
      Step eof (frame, s) [] (some a, s.drop n)
  | skippable {frame : Option α} {s : List UInt8} {n length : Nat} :
      fmt.Between frame → fmt.Sound frame → s ≠ [] →
      (eof = false → ZstdStream.zstdMaxFrameHeader ≤ s.length) →
      fmt.header s = .skippable n length → n + length ≤ s.length →
      Step eof (frame, s) [] (frame, s.drop (n + length))
  | piece {a a' : α} {s out : List UInt8} {n : Nat} : fmt.finished a = false →
      fmt.piece a s = .piece n out a' → Step eof (some a, s) out (some a', s.drop n)

/-- From the front of `s` frames and skippable frames were read, which decode to `out`; behind them
there is `rest`. -/
def Reads (eof : Bool) (s out : List UInt8) (frame : Option α) (rest : List UInt8) : Prop :=
  ∃ outs, Effect.Walk (fmt.Step eof) (none, s) outs (frame, rest) ∧ out = outs.flatten

/-- The bytes are whole frames and skippable frames, and this is what they decode to. -/
def Decodes (s out : List UInt8) : Prop :=
  ∃ frame, fmt.Reads true s out frame [] ∧ fmt.Between frame ∧ fmt.Sound frame

/-- Pieces of one frame, with all their bytes. -/
inductive Pieces : α → List UInt8 → List UInt8 → α → Prop
  | nil (a : α) : Pieces a [] [] a
  | cons {a a' a'' : α} {s rest out later : List UInt8} : fmt.finished a = false →
      fmt.piece a s = .piece s.length out a' → Pieces a' rest later a'' →
      Pieces a (s ++ rest) (out ++ later) a''

/-- The bytes end in front of the checksum of a frame, or inside it. -/
def EndsAtChecksum (eof : Bool) (s : List UInt8) : Prop :=
  ∃ out a rest, fmt.Reads eof s out (some a) rest ∧ fmt.finished a = false ∧
    fmt.closing a = true ∧ fmt.piece a rest = .incomplete

/-- No push ends there, and the body does not. -/
def Uncut (inputs : List (List UInt8)) : Prop :=
  (∀ front, front <+: inputs → ¬ fmt.EndsAtChecksum false front.flatten) ∧
    ¬ fmt.EndsAtChecksum true inputs.flatten

end ZstdFormat

namespace FrameDecoder
variable {δ α : Type}

/-- What `decode_from_to` says it read are bytes of its source. -/
def Counts (f : FrameDecoder δ) : Prop :=
  ∀ d s n written d', f.decodeFromTo d s ZstdStream.zstdChunk = (.ok (n, written), d') →
    n ≤ s.length

/-- The decoder counts the bytes of its source, or is given every checksum in one piece. -/
def Careful (f : FrameDecoder δ) (fmt : ZstdFormat α) (inputs : List (List UInt8)) : Prop :=
  f.Counts ∨ fmt.Uncut inputs

/-- The decoder is in this frame of the format and holds these decoded bytes back, and its calls do
what the format has for them. -/
structure Follows (f : FrameDecoder δ) (fmt : ZstdFormat α) (frame : δ → Option α)
    (held : δ → List UInt8) : Prop where
  new : ∀ window, frame (f.new window) = none ∧ held (f.new window) = []
  isFinished : ∀ d, f.isFinished d = true ↔ fmt.Between (frame d)
  /-- The checksum is that of the content once all of it was given out. -/
  checksum : ∀ d, f.isFinished d = true → held d = [] →
    ((∀ want got, f.getChecksumFromData d = some want → f.getCalculatedChecksum d = some got →
      want = got) ↔ fmt.Sound (frame d))
  /-- A finished frame gives out all that is held. -/
  read : ∀ d, f.isFinished d = true →
    ∃ part d', f.read d ZstdStream.zstdChunk = (.ok part, d') ∧ frame d' = frame d ∧
      held d = part ++ held d' ∧ (part = [] → held d = [])
  /-- A frame header is consumed. -/
  initFrame : ∀ d s n a, f.isFinished d = true → held d = [] → fmt.header s = .frame n a →
    ∃ d', f.init d s = (.ok (), n, d') ∧ frame d' = some a ∧ held d' = []
  /-- A skippable frame is reported with its length, behind what `init` read of it. -/
  initSkippable : ∀ d s n length, f.isFinished d = true → held d = [] →
    fmt.header s = .skippable n length →
    ∃ d', f.init d s = (.error (.skipFrame length), n, d') ∧ frame d' = frame d ∧ held d' = []
  initMalformed : ∀ d s, f.isFinished d = true → held d = [] → fmt.header s = .malformed →
    ∃ e n d', f.init d s = (.error (.other e), n, d')
  /-- Whole pieces are consumed, and one at least where the source has it. Only of a checksum that
  the source has not in full it may be said that more was read than there is. -/
  decode : ∀ d a s n written d', frame d = some a → fmt.finished a = false →
    f.decodeFromTo d s ZstdStream.zstdChunk = (.ok (n, written), d') →
    (s.length < n ∧ fmt.closing a = true ∧ fmt.piece a s = .incomplete) ∨
    ∃ a' out, n ≤ s.length ∧ fmt.Pieces a (s.take n) out a' ∧ frame d' = some a' ∧
      held d ++ out = written ++ held d' ∧ (n = 0 → fmt.piece a s = .incomplete)
  /-- An error is met only at something malformed. -/
  decodeError : ∀ d a s e d', frame d = some a → fmt.finished a = false →
    f.decodeFromTo d s ZstdStream.zstdChunk = (.error e, d') →
    ∃ front rest out a', s = front ++ rest ∧ fmt.Pieces a front out a' ∧
      fmt.finished a' = false ∧ fmt.piece a' rest = .malformed

end FrameDecoder
end HClient.Body
