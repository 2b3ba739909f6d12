import HClient.Core.Text
import Mathlib.Data.List.Infix

/-!
# The `deflate` decoder

`decompress::deflate`: the first two bytes say whether the body is wrapped, and the decompressor
then runs until it makes no progress. The decompressor is a parameter.
-/
namespace HClient.Body

inductive FlushDecompress where
  | none
  | finish
  deriving DecidableEq

inductive Status where
  | ok
  | bufError
  | streamEnd
  deriving DecidableEq

/-- `flate2::Decompress`. A call is given the input and the room for output; it answers its status,
by how much `total_in` grew, and what it wrote. -/
structure Decompress (σ : Type) where
  new : Bool → σ
  decompress : σ → List UInt8 → Nat → FlushDecompress →
    Except Text (Status × Nat × List UInt8) × σ

inductive DeflateStream (σ : Type) where
  | sniffing (buf : List UInt8)
  | running (dec : σ) (out : List UInt8) (done : Bool)

namespace DeflateStream
variable {σ : Type}

def deflateChunk : Nat := 16 * 1024

def new : DeflateStream σ := .sniffing []

def looksLikeZlib (cmf flg : UInt8) : Bool :=
  cmf &&& 0x0F = 8 ∧ cmf >>> 4 ≤ 7 ∧ (cmf.toNat * 256 + flg.toNat) % 31 = 0

def trailing : Text := "bytes arrived after the end of the \x60deflate\x60 stream".toList

def noHeader : Text :=
  "the \x60deflate\x60 body ended before even a two-byte header arrived".toList

def truncated : Text :=
  "the \x60deflate\x60 body ended in the middle of the compressed stream".toList

/-- What follows the loop: `rest` is the input not consumed. -/
def leave (dec : σ) (out : List UInt8) (done : Bool) (rest : List UInt8) :
    Except Text (List UInt8) × DeflateStream σ :=
  if done ∧ rest ≠ [] then (.error trailing, .running dec out done)
  else (.ok out, .running dec [] done)

/-- The loop of `drive`, over the input not consumed yet; `none` where the fuel runs out. -/
def drive (d : Decompress σ) (flush : FlushDecompress) :
    Nat → σ → List UInt8 → Bool → List UInt8 →
      Option (Except Text (List UInt8) × DeflateStream σ)
  | 0, _, _, _, _ => none
  | _ + 1, dec, out, true, bytes => some (leave dec out true bytes)
  | fuel + 1, dec, out, false, bytes =>
      match d.decompress dec bytes deflateChunk flush with
      | (.error e, dec) =>
          some (.error e, .running dec (out ++ List.replicate deflateChunk 0) false)
      | (.ok (status, consumed, written), dec) =>
          if status = .streamEnd then
            some (leave dec (out ++ written) true (bytes.drop consumed))
          else if consumed = 0 ∧ written = [] then
            some (leave dec (out ++ written) false (bytes.drop consumed))
          else drive d flush fuel dec (out ++ written) false (bytes.drop consumed)

/-- `push`, once the header is known. -/
def pushRunning (d : Decompress σ) (fuel : Nat) (dec : σ) (out : List UInt8) (done : Bool)
    (bytes : List UInt8) : Option (Except Text (List UInt8) × DeflateStream σ) :=
  if done ∧ bytes ≠ [] then some (.error trailing, .running dec out done)
  else drive d .none fuel dec out done bytes

def push (d : Decompress σ) (fuel : Nat) (input : List UInt8) :
    DeflateStream σ → Option (Except Text (List UInt8) × DeflateStream σ)
  | .sniffing buf =>
      match buf ++ input with
      | cmf :: flg :: rest =>
          pushRunning d fuel (d.new (looksLikeZlib cmf flg)) [] false (cmf :: flg :: rest)
      | short => some (.ok [], .sniffing short)
  | .running dec out done => pushRunning d fuel dec out done input

def finish (d : Decompress σ) (fuel : Nat) :
    DeflateStream σ → Option (Except Text (List UInt8) × DeflateStream σ)
  | .sniffing buf => some (.error noHeader, .sniffing buf)
  | .running dec out done =>
      match drive d .finish fuel dec out done [] with
      | some (.ok last, .running dec out done) =>
          some (if done then .ok last else .error truncated, .running dec out done)
      | driven => driven

/-- Pushes one after the other and then `finish`, up to the first error: what they hand out. -/
def run (d : Decompress σ) (fuel : Nat) :
    List (List UInt8) → DeflateStream σ → Option (Except Text (List UInt8))
  | [], stream => (finish d fuel stream).map Prod.fst
  | input :: inputs, stream =>
      match push d fuel input stream with
      | none => none
      | some (.error e, _) => some (.error e)
      | some (.ok out, stream) =>
          (run d fuel inputs stream).map fun verdict => verdict.map fun more => out ++ more

/-- What the run comes to, given time. -/
def Settles (d : Decompress σ) (inputs : List (List UInt8)) (verdict : Except Text (List UInt8)) :
    Prop :=
  ∃ enough, ∀ fuel, enough ≤ fuel → run d fuel inputs new = some verdict

end DeflateStream

/-! ## The decompressor -/

namespace Decompress
variable {σ : Type}

/-- Calls that expect more input come first, and then those that finish, without any. -/
def Orderly (before flush : FlushDecompress) (input : List UInt8) : Prop :=
  (flush = .none → before = .none) ∧ (flush = .finish → input = [])

/-- Since it was made the decompressor has read `fed` and written `out`, in calls up to one of this
flush, and has not ended. -/
inductive Reaches (d : Decompress σ) (zlib : Bool) :
    FlushDecompress → List UInt8 → List UInt8 → σ → Prop
  | new : Reaches d zlib .none [] [] (d.new zlib)
  | call {fed out input written : List UInt8} {dec dec' : σ} {before flush : FlushDecompress}
      {status : Status} {consumed : Nat} :
      Reaches d zlib before fed out dec → Orderly before flush input →
      d.decompress dec input DeflateStream.deflateChunk flush =
        (.ok (status, consumed, written), dec') →
      status ≠ .streamEnd → Reaches d zlib flush (fed ++ input.take consumed) (out ++ written) dec'

/-- A streaming decompressor of two formats: `complete` streams of each, and what any bytes
`produced` in it. -/
structure Streaming (d : Decompress σ) (complete : Bool → List UInt8 → Prop)
    (produced : Bool → List UInt8 → List UInt8) : Prop where
  /-- A zlib stream begins with its header. -/
  header : ∀ s, complete true s →
    ∃ cmf flg rest, s = cmf :: flg :: rest ∧ DeflateStream.looksLikeZlib cmf flg = true
  /-- A raw stream has two bytes at least. -/
  two : ∀ s, complete false s → 2 ≤ s.length
  /-- No stream goes on behind a complete one. -/
  selfEnding : ∀ zlib s more, complete zlib s → complete zlib (s ++ more) → more = []
  grows : ∀ zlib s more, produced zlib s <+: produced zlib (s ++ more)
  /-- However the input was cut, what is written is what the bytes read produce. -/
  writes : ∀ zlib before fed out dec input flush status consumed written dec',
    Reaches d zlib before fed out dec → Orderly before flush input →
    d.decompress dec input DeflateStream.deflateChunk flush =
      (.ok (status, consumed, written), dec') →
    consumed ≤ input.length ∧ out ++ written <+: produced zlib (fed ++ input.take consumed)
  /-- The end is that of a complete stream, with all that it produces. -/
  ends : ∀ zlib before fed out dec input flush consumed written dec',
    Reaches d zlib before fed out dec → Orderly before flush input →
    d.decompress dec input DeflateStream.deflateChunk flush =
      (.ok (.streamEnd, consumed, written), dec') →
    complete zlib (fed ++ input.take consumed) ∧
      out ++ written = produced zlib (fed ++ input.take consumed)
  /-- Without progress the stream is not complete, and it is input that is missing. -/
  waits : ∀ zlib before fed out dec input flush status dec',
    Reaches d zlib before fed out dec → Orderly before flush input →
    d.decompress dec input DeflateStream.deflateChunk flush = (.ok (status, 0, []), dec') →
    status ≠ .streamEnd → input = [] ∧ ¬ complete zlib fed
  /-- Where more input is expected, an error means bytes that begin no complete stream. -/
  fails : ∀ zlib fed out dec input e dec', Reaches d zlib .none fed out dec →
    d.decompress dec input DeflateStream.deflateChunk .none = (.error e, dec') →
    ∀ more, ¬ complete zlib (fed ++ input ++ more)
  /-- At the end it means no more than that the stream is not complete. -/
  failsToFinish : ∀ zlib before fed out dec e dec', Reaches d zlib before fed out dec →
    d.decompress dec [] DeflateStream.deflateChunk .finish = (.error e, dec') →
    ¬ complete zlib fed

end Decompress
end HClient.Body
