import HClient.Body.Frame

/-!
# Multipart forms

`multipart/form-data` bodies: the header block of a part, the escape of what a caller puts into
it, and the encoder, a queue of segments that is polled frame by frame.
-/
namespace HClient.Multipart
open Body

inductive MultipartError where
  | invalidBoundary (value : Text)
  | controlByte (field : Text) (byte : Nat)
  | invalidContentType
  | rewindTooDeep
  deriving DecidableEq, Repr

def isBoundaryChar (c : Char) : Bool := c.isAlphanum || " '()+_,-./:=? ".toList.contains c

def isBoundary (value : Text) : Bool :=
  1 ≤ (Bytes.utf8 value).length && (Bytes.utf8 value).length ≤ 70 &&
    value.getLast? != some ' ' && value.all isBoundaryChar

structure Boundary where
  text : Text
  valid : isBoundary text = true

def Boundary.new (value : Text) : Except MultipartError Boundary :=
  if valid : isBoundary value = true then .ok ⟨value, valid⟩ else .error (.invalidBoundary value)

/-! ## Bodies of parts -/

/-- A body that streams: the size it says, which is asked once before the polls, and what the
polls then answer. -/
structure Stream where
  hint : SizeHint
  answers : List Answer

def Stream.poll (s : Stream) : Answer × Stream :=
  match s.answers with
  | [] => (.ended, s)
  | answer :: rest => (answer, { s with answers := rest })

/-- The body of a part; of a factory the one that a call makes. -/
inductive RequestBody where
  | empty
  | full (bytes : List UInt8)
  | rewindable (made : RequestBody)
  | streaming (s : Stream)

inductive Resolved where
  | bytes (bytes : List UInt8)
  | stream (s : Stream)

def maxRewindDepth : Nat := 16

/-- `RequestBody::reduce`, within so many bodies, and an empty body as no bytes. -/
def resolveIn : Nat → RequestBody → Except MultipartError Resolved
  | 0, _ => .error .rewindTooDeep
  | _ + 1, .empty => .ok (.bytes [])
  | _ + 1, .full bytes => .ok (.bytes bytes)
  | _ + 1, .streaming s => .ok (.stream s)
  | fuel + 1, .rewindable made => resolveIn fuel made

def resolve (body : RequestBody) : Except MultipartError Resolved := resolveIn maxRewindDepth body

/-! ## Header blocks -/

structure Part where
  name : Text
  fileName : Option Text
  contentType : Option Text
  body : RequestBody

/-- What one character becomes in a quoted name. -/
def escapeChar (field : Text) (c : Char) : Except MultipartError Text :=
  if c = '\n' then .ok "%0A".toList
  else if c = '\r' then .ok "%0D".toList
  else if c = '"' then .ok "%22".toList
  else if c = '\t' then .ok ['\t']
  else if c.toNat < 0x20 ∨ c.toNat = 0x7F then .error (.controlByte field c.toNat)
  else .ok [c]

def escapeInto (field : Text) (raw out : Text) : Except MultipartError Text :=
  raw.foldlM (fun out c => do return out ++ (← escapeChar field c)) out

/-- The `filename` parameter, if there is one. -/
def Part.fileNameInto (p : Part) (out : Text) : Except MultipartError Text :=
  match p.fileName with
  | some f => do
      let out ← escapeInto "a file name".toList f (out ++ "; filename=\"".toList)
      return out ++ ['"']
  | none => .ok out

/-- The `Content-Type` line, if there is one. -/
def Part.contentTypeInto (p : Part) (out : Text) : Except MultipartError Text :=
  match p.contentType with
  | some ct =>
      match HeaderValue.fromStr ct with
      | none => .error .invalidContentType
      | some v =>
          match Bytes.fromUtf8 v with
          | none => .error (.controlByte "a part's Content-Type".toList 0x80)
          | some v => .ok (out ++ "Content-Type: ".toList ++ v ++ "\r\n".toList)
  | none => .ok out

def Part.head (p : Part) (boundary : Boundary) : Except MultipartError (List UInt8) := do
  let out ← escapeInto "a field name".toList p.name
    ("--".toList ++ boundary.text ++ "\r\nContent-Disposition: form-data; name=\"".toList)
  let out ← p.fileNameInto (out ++ ['"'])
  let out ← p.contentTypeInto (out ++ "\r\n".toList)
  return Bytes.utf8 (out ++ "\r\n".toList)

/-! ## The encoder -/

inductive Segment where
  | bytes (b : List UInt8)
  | stream (s : Stream)

/-- `SizeHint::exact`. -/
def exact (hint : SizeHint) : Option Nat :=
  match hint.upper with
  | some upper => if upper = hint.lower then some upper else none
  | none => none

def Segment.len : Segment → Option Nat
  | .bytes b => some b.length
  | .stream s => exact s.hint

structure MultipartBody where
  queue : List Segment
  remaining : Option Nat

/-- The sum of the lengths that are known, if all are. There is nothing where it would panic. -/
def sumLengths : Option Nat → List Segment → Option (Option Nat)
  | remaining, [] => some remaining
  | remaining, s :: rest =>
      match remaining, s.len with
      | some a, some b => if a + b < 2 ^ 64 then sumLengths (some (a + b)) rest else none
      | _, _ => sumLengths none rest

def MultipartBody.new (segments : List Segment) : Option MultipartBody :=
  (sumLengths (some 0) segments).map fun remaining => ⟨segments, remaining⟩

def trailersInAPart : Native.Error :=
  .new .body (.text
    "a multipart part's body emitted trailers, which multipart/form-data cannot carry".toList)

/-- `poll_frame`, over the queue. -/
def pollFrame (remaining : Option Nat) : List Segment → Answer × MultipartBody
  | [] => (.ended, ⟨[], remaining⟩)
  | .bytes b :: rest =>
      if b = [] then pollFrame remaining rest
      else (.data b, ⟨rest, remaining.map (· - b.length)⟩)
  | .stream s :: rest =>
      match s.poll with
      | (.pending, s) => (.pending, ⟨.stream s :: rest, remaining⟩)
      | (.ended, _) => pollFrame remaining rest
      | (.failed e, s) => (.failed e, ⟨.stream s :: rest, remaining⟩)
      | (.data d, s) => (.data d, ⟨.stream s :: rest, remaining.map (· - d.length)⟩)
      | (.trailers _, s) => (.failed trailersInAPart, ⟨.stream s :: rest, remaining⟩)

namespace MultipartBody

def poll (b : MultipartBody) : Answer × MultipartBody := pollFrame b.remaining b.queue

def isEndStream (b : MultipartBody) : Bool := b.queue.isEmpty

def sizeHint (b : MultipartBody) : SizeHint :=
  match b.remaining with
  | some n => .withExact n
  | none => .default

end MultipartBody

def closing (boundary : Boundary) : List UInt8 :=
  Bytes.utf8 ("--".toList ++ boundary.text ++ "--\r\n".toList)

/-- The body of a form: a stream, or a factory that makes one of the same bytes with each call. -/
inductive Encoded where
  | streaming (body : Option MultipartBody)
  | rewindable (buffered : List (List UInt8))

def Resolved.segment : Resolved → Segment
  | .bytes b => .bytes b
  | .stream s => .stream s

def segmentsOf (boundary : Boundary) : List Part → Except MultipartError (List Segment)
  | [] => .ok [.bytes (closing boundary)]
  | part :: rest => do
      let head ← part.head boundary
      let resolved ← resolve part.body
      let segments ← segmentsOf boundary rest
      return .bytes head :: resolved.segment :: .bytes (Bytes.ascii "\r\n") :: segments

def Segment.buffered : Segment → Option (List UInt8)
  | .bytes b => some b
  | .stream _ => none

def encode (parts : List Part) (boundary : Boundary) : Except MultipartError Encoded := do
  let segments ← segmentsOf boundary parts
  match segments.mapM Segment.buffered with
  | none => return .streaming (MultipartBody.new segments)
  | some buffered => return .rewindable buffered

/-- What is sent of an encoded form: the stream, or what a call of the factory makes. -/
def Encoded.sent : Encoded → Option MultipartBody
  | .streaming body => body
  | .rewindable buffered => MultipartBody.new (buffered.map .bytes)

end HClient.Multipart
