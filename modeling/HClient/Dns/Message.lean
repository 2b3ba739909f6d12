import HClient.Core.Bytes
import HClient.Core.Time
import HClient.Core.Varint

/-!
# Answers of the system's resolver

The walk over the questions and answers of a DNS message. A name may go on anywhere in the
message, so that it is followed under a budget of jumps and a limit of length.
-/
namespace HClient.Dns

inductive MalformedAnswer where
  | headerTruncated (got : Nat)
  | recordTruncated
  | pointerLoop
  | nameTooLong
  | reservedLabel
  deriving DecidableEq, Repr

inductive Error where
  | nameDoesNotExist
  | noResponse
  | truncated
  | responseCode (rcode : Nat)
  | malformed (reason : MalformedAnswer)
  deriving DecidableEq, Repr

/-- What a walk comes to. There is nothing where it would panic or not end. -/
abbrev Walk (α : Type) : Type := ExceptT Error Option α

namespace Walk
variable {α : Type}

def okOr (a : Option α) (reason : MalformedAnswer) : Walk α :=
  match a with
  | some a => pure a
  | none => throw (.malformed reason)

/-- An index into what was taken from the message; out of bounds it panics. -/
def index (bytes : List UInt8) (i : Nat) : Walk UInt8 := ExceptT.lift bytes[i]?

end Walk

/-- `slice::get` of a range. -/
def slice (bytes : List UInt8) (start stop : Nat) : Option (List UInt8) :=
  if start ≤ stop ∧ stop ≤ bytes.length then some ((bytes.drop start).take (stop - start)) else none

def headerLen : Nat := 12
def rcodeNoError : Nat := 0
def rcodeNxDomain : Nat := 3
def maxLabelLen : Nat := 63
def maxWireNameLen : Nat := 255
def labelMask : UInt8 := 0b11000000
def labelPointer : UInt8 := 0b11000000
def maxJumps : Nat := 128

structure Header where
  isResponse : Bool
  truncated : Bool
  rcode : Nat
  qdcount : Nat
  ancount : Nat
  deriving DecidableEq, Repr

def Header.tryFrom (msg : List UInt8) : Walk Header := do
  let head ← Walk.okOr (slice msg 0 headerLen) (.headerTruncated msg.length)
  let flags ← Walk.index head 2
  let codes ← Walk.index head 3
  let qd ← Walk.index head 4
  let qd' ← Walk.index head 5
  let an ← Walk.index head 6
  let an' ← Walk.index head 7
  pure ⟨flags &&& 0x80 ≠ 0, flags &&& 0x02 ≠ 0, (codes &&& 0x0f).toNat, fromBe 0 [qd, qd'],
    fromBe 0 [an, an']⟩

/-! ## Names -/

/-- The offset just past a name, within so many labels. -/
def skipNameIn (msg : List UInt8) : Nat → Nat → Walk (Option Nat)
  | 0, _ => ExceptT.mk none
  | fuel + 1, start =>
      match msg[start]? with
      | none => pure none
      | some len =>
          if len &&& labelMask = 0 ∧ len = 0 then pure (some (start + 1))
          else if len &&& labelMask = 0 then skipNameIn msg fuel (start + (1 + len.toNat))
          else if len &&& labelMask = labelPointer then pure (some (start + 2))
          else pure none

def skipName (msg : List UInt8) (start : Nat) : Walk (Option Nat) :=
  skipNameIn msg (msg.length + 1) start

/-- `String::len`. -/
def textLen (s : Text) : Nat := (Bytes.utf8 s).length

/-- A name that is being read. -/
structure Reading where
  name : Text
  cursor : Nat
  after : Option Nat
  jumps : Nat
  deriving DecidableEq, Repr

/-- One turn of the loop: the name and where it ends in the stream, or what goes on. -/
def readTurn (msg : List UInt8) (r : Reading) : Walk ((Text × Nat) ⊕ Reading) := do
  let len ← Walk.okOr msg[r.cursor]? .recordTruncated
  if len &&& labelMask = labelPointer then
    let second ← Walk.okOr msg[r.cursor + 1]? .recordTruncated
    let after := r.after.getD (r.cursor + 2)
    let jumps := r.jumps + 1
    if maxJumps < jumps then throw (.malformed .pointerLoop)
    else pure (.inr ⟨r.name, fromBe 0 [len &&& ~~~labelMask, second], some after, jumps⟩)
  else if len &&& labelMask = 0 ∧ len = 0 then pure (.inl (r.name, r.after.getD (r.cursor + 1)))
  else if len &&& labelMask = 0 then
    let len := len.toNat
    if maxLabelLen < len then throw (.malformed .nameTooLong)
    else do
      let label ← Walk.okOr (slice msg (r.cursor + 1) (r.cursor + 1 + len)) .recordTruncated
      if maxWireNameLen < textLen r.name + len + 2 then throw (.malformed .nameTooLong)
      else do
        let name := if r.name = [] then r.name else r.name ++ ['.']
        let label ← Walk.okOr (Bytes.fromUtf8 label) .reservedLabel
        pure (.inr ⟨name ++ label, r.cursor + 1 + len, r.after, r.jumps⟩)
  else throw (.malformed .reservedLabel)

def readNameIn (msg : List UInt8) : Nat → Reading → Walk (Text × Nat)
  | 0, _ => ExceptT.mk none
  | fuel + 1, r => do
      match ← readTurn msg r with
      | .inl name => pure name
      | .inr r => readNameIn msg fuel r

/-- More turns than there are jumps and labels. -/
def readFuel : Nat := maxJumps + maxWireNameLen + 1

def readName (msg : List UInt8) (start : Nat) : Walk (Text × Nat) :=
  readNameIn msg readFuel ⟨[], start, none, 0⟩

/-! ## Record data -/

/-- A record's data with the names in it written out. -/
inductive Parsed where
  | name (name : Text)
  | twoNames (first second : Text)
  | numberAndName (number : Nat) (name : Text)
  | soa (mname rname : Text) (serial refresh retry expire minimum : Nat)
  | srv (priority weight port : Nat) (target : Text)
  deriving DecidableEq, Repr

/-- Length-prefixed labels, for a name that has a wire form. -/
def wireName (name : Text) : Option (List UInt8) :=
  let name := (Text.stripSuffix ['.'] name).getD name
  let labels := if name = [] then [] else name.splitOn '.'
  if labels.any fun label => label = [] ∨ maxLabelLen < textLen label then none
  else
    let out := labels.flatMap (fun label => UInt8.ofNat (textLen label) :: Bytes.utf8 label) ++ [0]
    if out.length ≤ maxWireNameLen then some out else none

def Parsed.toVec : Parsed → Option (List UInt8)
  | .name n => wireName n
  | .twoNames first second => do
      let first ← wireName first
      let second ← wireName second
      pure (first ++ second)
  | .numberAndName number target => do
      let target ← wireName target
      pure (toBe 2 number ++ target)
  | .soa mname rname serial refresh retry expire minimum => do
      let mname ← wireName mname
      let rname ← wireName rname
      pure (mname ++ rname ++ [serial, refresh, retry, expire, minimum].flatMap (toBe 4))
  | .srv priority weight port target => do
      let target ← wireName target
      pure ([priority, weight, port].flatMap (toBe 2) ++ target)

inductive NameLayout where
  | one
  | two
  | u16ThenOne
  | soa
  | srv
  deriving DecidableEq, Repr

def NameLayout.tryFrom (rtype : Nat) : Option NameLayout :=
  if rtype ∈ [2, 3, 4, 5, 7, 8, 9, 12] then some .one
  else if rtype ∈ [14, 17] then some .two
  else if rtype ∈ [15, 18, 21] then some .u16ThenOne
  else if rtype = 6 then some .soa
  else if rtype = 33 then some .srv
  else none

def NameLayout.numbers : NameLayout → Nat
  | .one => 0
  | .two => 0
  | .soa => 0
  | .u16ThenOne => 1
  | .srv => 3

/-- So many pairs of bytes, and where they end. -/
def readPrefix (msg : List UInt8) : Nat → Nat → Walk (List UInt8 × Nat)
  | 0, cursor => pure ([], cursor)
  | n + 1, cursor => do
      let pair ← Walk.okOr (slice msg cursor (cursor + 2)) .recordTruncated
      let (pairs, cursor) ← readPrefix msg n (cursor + 2)
      pure (pair ++ pairs, cursor)

/-- The number that some bytes from an index on spell. -/
def number (bytes : List UInt8) (width i : Nat) : Walk Nat := do
  let octets ← (List.range width).mapM fun k => Walk.index bytes (i + k)
  pure (fromBe 0 octets)

def parseNames (msg : List UInt8) (layout : NameLayout) (start : Nat) : Walk Parsed := do
  let (numbers, cursor) ← readPrefix msg layout.numbers start
  let (first, cursor) ← readName msg cursor
  match layout with
  | .one => pure (.name first)
  | .two => do
      let (second, _) ← readName msg cursor
      pure (.twoNames first second)
  | .u16ThenOne => do
      let value ← number numbers 2 0
      pure (.numberAndName value first)
  | .srv => do
      let priority ← number numbers 2 0
      let weight ← number numbers 2 2
      let port ← number numbers 2 4
      pure (.srv priority weight port first)
  | .soa => do
      let (rname, after) ← readName msg cursor
      let counters ← Walk.okOr (slice msg after (after + 20)) .recordTruncated
      let serial ← number counters 4 0
      let refresh ← number counters 4 4
      let retry ← number counters 4 8
      let expire ← number counters 4 12
      let minimum ← number counters 4 16
      pure (.soa first rname serial refresh retry expire minimum)

/-- The record's data with its names written out, or as it arrived. -/
def expandNames (msg : List UInt8) (rtype start stop : Nat) : Walk (List UInt8) :=
  let verbatim := Walk.okOr (slice msg start stop) .recordTruncated
  match NameLayout.tryFrom rtype with
  | none => verbatim
  | some layout => do
      let parsed ← parseNames msg layout start
      match parsed.toVec with
      | none => verbatim
      | some bytes => pure bytes

/-! ## Records -/

structure Record where
  name : Text
  rtype : Nat
  class_ : Nat
  ttl : Duration
  rdata : List UInt8
  deriving DecidableEq, Repr

/-- Where so many questions end. -/
def skipQuestions (msg : List UInt8) : Nat → Nat → Walk Nat
  | 0, start => pure start
  | n + 1, start => do
      let past ← skipName msg start
      let past ← Walk.okOr past .recordTruncated
      skipQuestions msg n (past + 4)

def readRecord (msg : List UInt8) (start : Nat) : Walk (Record × Nat) := do
  let (name, start) ← readName msg start
  let fixed ← Walk.okOr (slice msg start (start + 10)) .recordTruncated
  let rtype ← number fixed 2 0
  let class_ ← number fixed 2 2
  let ttl ← number fixed 4 4
  let rdlength ← number fixed 2 8
  let start := start + 10
  let stop ← Walk.okOr (if start + rdlength ≤ msg.length then some (start + rdlength) else none)
    .recordTruncated
  let rdata ← expandNames msg rtype start stop
  pure (⟨name, rtype, class_, .fromSecs ttl, rdata⟩, stop)

def readRecords (msg : List UInt8) : Nat → Nat → Walk (List Record)
  | 0, _ => pure []
  | n + 1, start => do
      let (record, start) ← readRecord msg start
      let found ← readRecords msg n start
      pure (record :: found)

/-- The answers of a message. -/
def records (msg : List UInt8) : Walk (List Record) := do
  let header ← Header.tryFrom msg
  if ¬ header.isResponse then throw .noResponse
  else if header.truncated then throw .truncated
  else if header.rcode = rcodeNxDomain then throw .nameDoesNotExist
  else if header.rcode ≠ rcodeNoError then throw (.responseCode header.rcode)
  else do
    let start ← skipQuestions msg header.qdcount headerLen
    readRecords msg header.ancount start

end HClient.Dns
