import HClient.Core.Varint
import HClient.Native.Error
import HClient.Proxy.Head

/-!
# Driving a handshake

A handshake is a state machine over what the proxy has sent, and the driver gives it a stream:
it sends what the handshake writes, reads where it needs more, and hands on what is left once the
tunnel is open.
-/
namespace HClient.Proxy

open Native (ErrorKind)

/-- `io::Error`, as far as the driver tells one from another. -/
inductive IoError where
  | writeZero
  | unexpectedEof
  | other (code : Nat)
  deriving DecidableEq, Repr

inductive ConnectError where
  | malformed (e : HeadError)
  | headTooLong (got : Nat)
  | badAuthority (host : Text) (port : UInt16)
  deriving DecidableEq, Repr

inductive Socks4HandshakeError where
  | badReplyVersion (version : UInt8)
  | hostTooLong (got : Nat)
  | nulInHost
  deriving DecidableEq, Repr

inductive Socks5HandshakeError where
  | noAcceptableMethods
  | unofferedMethod (method : UInt8)
  | badCredentials
  | badVersion (version : UInt8)
  | badAddressType (atyp : UInt8)
  | hostTooLong (got : Nat)
  deriving DecidableEq, Repr

inductive Source where
  | io (e : IoError)
  | connect (e : ConnectError)
  | proxyRefused (status : StatusCode)
  | socks4 (e : Socks4HandshakeError)
  | socks4Refused (cd : UInt8)
  | socks5 (e : Socks5HandshakeError)
  | socks5Refused (rep : UInt8)
  deriving DecidableEq, Repr

structure Error where
  kind : ErrorKind
  source : Source
  deriving DecidableEq, Repr

def conn (e : IoError) : Error := ⟨.connect, .io e⟩

inductive Step where
  | write (bytes : List UInt8)
  | needMore
  | done
  deriving DecidableEq, Repr

/-- What a handshake does, and what it leaves of what has arrived. -/
class Handshake (H : Type) where
  begin : H → Text → UInt16 → Except Error (List UInt8 × H)
  advance : H → List UInt8 → Except Error (Step × H × List UInt8)

/-! ## The stream -/

/-- What reads come to once nothing more arrives. -/
inductive Ending where
  | quiet
  | closed
  | failed (e : IoError)
  deriving DecidableEq, Repr

/-- What each read is to give and each write or flush to answer, and what has been written. A
write that is not answered any more waits for ever. -/
structure Io where
  reads : List (List UInt8)
  ending : Ending
  sink : List (Except IoError Nat)
  written : List UInt8

namespace Io

/-- A bound of the turns that are left. -/
def left (io : Io) : Nat := io.sink.length + io.reads.length

/-- The loop of `write_all` and the flush after it. -/
def writeTo (sink : List (Except IoError Nat)) (written buf : List UInt8) :
    Option (Except Error Unit) × List (Except IoError Nat) × List UInt8 :=
  match sink, buf with
  | [], _ => (none, [], written)
  | .error e :: sink, _ => (some (.error (conn e)), sink, written)
  | .ok _ :: sink, [] => (some (.ok ()), sink, written)
  | .ok n :: sink, buf =>
      if n = 0 then (some (.error (conn .writeZero)), sink, written)
      else writeTo sink (written ++ buf.take n) (buf.drop n)

def writeAll (io : Io) (buf : List UInt8) : Option (Except Error Unit) × Io :=
  let r := writeTo io.sink io.written buf
  (r.1, { io with sink := r.2.1, written := r.2.2 })

/-- One read, appended by the caller. A read of no bytes is the end of the stream. -/
def readSome (io : Io) : Option (Except Error (List UInt8)) × Io :=
  match io.reads, io.ending with
  | chunk :: reads, _ =>
      if chunk = [] then (some (.error (conn .unexpectedEof)), { io with reads })
      else (some (.ok chunk), { io with reads })
  | [], .quiet => (none, io)
  | [], .closed => (some (.error (conn .unexpectedEof)), io)
  | [], .failed e => (some (.error (conn e)), io)

theorem writeTo_left {sink sink' : List (Except IoError Nat)} {written buf written' : List UInt8}
    (sent : writeTo sink written buf = (some (.ok ()), sink', written')) :
    sink'.length < sink.length := by
  fun_induction writeTo sink written buf with
  | case1 => cases sent
  | case2 => cases sent
  | case3 => cases sent; exact Nat.lt_succ_self _
  | case4 => cases sent
  | case5 written sink buf n _ _ ih => exact Nat.lt_succ_of_lt (ih sent)

theorem writeAll_left {io io' : Io} {buf : List UInt8}
    (sent : io.writeAll buf = (some (.ok ()), io')) : io'.left < io.left := by
  unfold writeAll at sent
  obtain ⟨said, rfl⟩ := Prod.mk.inj sent
  have shorter : (writeTo io.sink io.written buf).2.1.length < io.sink.length :=
    writeTo_left (Prod.ext said rfl)
  exact Nat.add_lt_add_right shorter _

theorem readSome_left {io io' : Io} {chunk : List UInt8}
    (took : io.readSome = (some (.ok chunk), io')) : io'.left < io.left := by
  unfold readSome at took
  split at took
  next there =>
    split at took
    · cases took
    · cases took
      simp [left, there]
  next => cases took
  next => cases took
  next => cases took

end Io

/-! ## The driver -/

inductive Verdict where
  | established (leftover : List UInt8)
  | refused (e : Error)
  | waiting
  deriving DecidableEq, Repr

/-- The loop of `drive`, over what has arrived and was not taken yet. -/
def driveLoop {H : Type} [Handshake H] (h : H) (buf : List UInt8) (io : Io) : Verdict × Io :=
  match Handshake.advance h buf with
  | .error e => (.refused e, io)
  | .ok (.done, _, buf) => (.established buf, io)
  | .ok (.write bytes, h, buf) =>
      match _sent : io.writeAll bytes with
      | (none, io) => (.waiting, io)
      | (some (.error e), io) => (.refused e, io)
      | (some (.ok ()), io) => driveLoop h buf io
  | .ok (.needMore, h, buf) =>
      match _took : io.readSome with
      | (none, io) => (.waiting, io)
      | (some (.error e), io) => (.refused e, io)
      | (some (.ok chunk), io) => driveLoop h (buf ++ chunk) io
termination_by io.left
decreasing_by
  · exact Io.writeAll_left _sent
  · exact Io.readSome_left _took

def drive {H : Type} [Handshake H] (h : H) (host : Text) (port : UInt16) (io : Io) :
    Verdict × Io :=
  match Handshake.begin h host port with
  | .error e => (.refused e, io)
  | .ok (request, h) =>
      match io.writeAll request with
      | (none, io) => (.waiting, io)
      | (some (.error e), io) => (.refused e, io)
      | (some (.ok ()), io) => driveLoop h [] io

end HClient.Proxy

/-!
## The handshakes

`CONNECT`, SOCKS5 and SOCKS4a, each as what it writes first and what it does with what arrives.
-/
namespace HClient.Proxy

/-! ## HTTP `CONNECT` -/

def maxHead : Nat := 64 * 1024

/-- What makes an authority is the `http` crate's to say. -/
structure HttpConnect (isAuthority : Text → Bool) where
  auth : Option HeaderValue
  awaitingHead : Bool
  deriving DecidableEq, Repr

namespace HttpConnect
variable {isAuthority : Text → Bool}

def refusal (e : ConnectError) : Error := ⟨.connect, .connect e⟩

def request (auth : Option HeaderValue) (authority : Text) : List UInt8 :=
  Bytes.ascii "CONNECT " ++ Bytes.utf8 authority ++ Bytes.ascii " HTTP/1.1\r\nHost: " ++
    Bytes.utf8 authority ++ Bytes.ascii "\r\n" ++
    (match auth with
    | some auth => Bytes.ascii "Proxy-Authorization: " ++ auth ++ Bytes.ascii "\r\n"
    | none => []) ++
    Bytes.ascii "\r\n"

def begin (h : HttpConnect isAuthority) (host : Text) (port : UInt16) :
    Except Error (List UInt8 × HttpConnect isAuthority) :=
  let authority := host ++ ':' :: Nat.toDigits 10 port.toNat
  if ¬ isAuthority authority then .error (refusal (.badAuthority host port))
  else .ok (request h.auth authority, { h with awaitingHead := true })

def isSuccess (status : StatusCode) : Bool := 200 ≤ status ∧ status < 300

def advance (h : HttpConnect isAuthority) (fromPeer : List UInt8) :
    Except Error (Step × HttpConnect isAuthority × List UInt8) :=
  if ¬ h.awaitingHead then .ok (.done, h, fromPeer)
  else
    match parseResponse fromPeer with
    | .error e => .error (refusal (.malformed e))
    | .ok none =>
        if maxHead < fromPeer.length then .error (refusal (.headTooLong fromPeer.length))
        else .ok (.needMore, h, fromPeer)
    | .ok (some (head, len)) =>
        if ¬ isSuccess head.status then .error ⟨.connect, .proxyRefused head.status⟩
        else .ok (.done, { h with awaitingHead := false }, fromPeer.drop len)

instance : Handshake (HttpConnect isAuthority) where
  begin := begin
  advance := advance

end HttpConnect

/-! ## SOCKS5 -/

namespace Socks5

def version : UInt8 := 0x05
def methodNone : UInt8 := 0x00
def methodPassword : UInt8 := 0x02
def methodUnacceptable : UInt8 := 0xFF

inductive State where
  | fresh
  | awaitingMethod
  | awaitingAuthReply
  | awaitingReply
  | done
  deriving DecidableEq, Repr

def refusal (e : Socks5HandshakeError) : Error := ⟨.connect, .socks5 e⟩

def expectVersion (v : UInt8) : Except Error Unit :=
  if v = version then .ok () else .error (refusal (.badVersion v))

/-- A value with its length in one byte in front. -/
def counted (bytes : List UInt8) : List UInt8 := UInt8.ofNat bytes.length :: bytes

end Socks5

open Socks5 (State) in
/-- A password is offered only where there is one. -/
structure Socks5 where
  auth : Option (Text × Text)
  state : State
  offered : List UInt8
  request : List UInt8
  credentials : Socks5.methodPassword ∈ offered → auth.isSome

namespace Socks5

def begin (h : Socks5) (host : Text) (port : UInt16) : Except Error (List UInt8 × Socks5) :=
  let hostBytes := Bytes.utf8 host
  if 255 < hostBytes.length then .error (refusal (.hostTooLong hostBytes.length))
  else
    let request := [version, 0x01, 0x00, 0x03] ++ counted hostBytes ++ toBe 2 port.toNat
    match auth : h.auth with
    | some _ =>
        let offered := [methodPassword, methodNone]
        .ok (version :: counted offered,
          ⟨h.auth, .awaitingMethod, offered, request, fun _ => by rw [auth]; rfl⟩)
    | none =>
        let offered := [methodNone]
        .ok (version :: counted offered,
          ⟨h.auth, .awaitingMethod, offered, request, fun offers => absurd offers (by decide)⟩)

/-- The length of the address in a reply, where the bytes that say it have arrived. -/
def addrLen (atyp : UInt8) (more : List UInt8) : Except Error (Option Nat) :=
  if atyp = 0x01 then .ok (some 4)
  else if atyp = 0x04 then .ok (some 16)
  else if atyp = 0x03 then .ok (more.head?.map fun n => n.toNat + 1)
  else .error (refusal (.badAddressType atyp))

def authRequest (user password : Text) : List UInt8 :=
  0x01 :: counted (Bytes.utf8 user) ++ counted (Bytes.utf8 password)

def advance (h : Socks5) (fromPeer : List UInt8) : Except Error (Step × Socks5 × List UInt8) :=
  match h.state with
  | .fresh => .ok (.needMore, h, fromPeer)
  | .done => .ok (.done, h, fromPeer)
  | .awaitingMethod =>
      match fromPeer with
      | v :: method :: rest => do
          expectVersion v
          if method = methodUnacceptable then throw (refusal .noAcceptableMethods)
          else if offers : method ∈ h.offered then
            if password : method = methodPassword then
              let (user, secret) := h.auth.get (h.credentials (password ▸ offers))
              pure (.write (authRequest user secret), { h with state := .awaitingAuthReply }, rest)
            else pure (.write h.request, { h with state := .awaitingReply }, rest)
          else throw (refusal (.unofferedMethod method))
      | _ => .ok (.needMore, h, fromPeer)
  | .awaitingAuthReply =>
      match fromPeer with
      | _ :: status :: rest =>
          if status ≠ 0x00 then .error (refusal .badCredentials)
          else .ok (.write h.request, { h with state := .awaitingReply }, rest)
      | _ => .ok (.needMore, h, fromPeer)
  | .awaitingReply =>
      match fromPeer with
      | v :: rep :: _ :: atyp :: more => do
          expectVersion v
          if rep ≠ 0x00 then throw ⟨.connect, .socks5Refused rep⟩
          else
            match ← addrLen atyp more with
            | none => pure (.needMore, h, fromPeer)
            | some addrLen =>
                let total := 4 + addrLen + 2
                if fromPeer.length < total then pure (.needMore, h, fromPeer)
                else pure (.done, { h with state := .done }, fromPeer.drop total)
      | _ => .ok (.needMore, h, fromPeer)

instance : Handshake Socks5 where
  begin := begin
  advance := advance

end Socks5

/-! ## SOCKS4a -/

structure Socks4 where
  userid : Text
  awaitingReply : Bool
  deriving DecidableEq, Repr

namespace Socks4

def granted : UInt8 := 90

def refusal (e : Socks4HandshakeError) : Error := ⟨.connect, .socks4 e⟩

def begin (h : Socks4) (host : Text) (port : UInt16) : Except Error (List UInt8 × Socks4) :=
  let hostBytes := Bytes.utf8 host
  if 0 ∈ hostBytes then .error (refusal .nulInHost)
  else if 255 < hostBytes.length then .error (refusal (.hostTooLong hostBytes.length))
  else
    .ok ([0x04, 0x01] ++ toBe 2 port.toNat ++ [0, 0, 0, 1] ++ Bytes.utf8 h.userid ++ [0] ++
      hostBytes ++ [0], { h with awaitingReply := true })

def replyLen : Nat := 8

def advance (h : Socks4) (fromPeer : List UInt8) : Except Error (Step × Socks4 × List UInt8) :=
  if ¬ h.awaitingReply then .ok (.done, h, fromPeer)
  else
    match fromPeer with
    | vn :: cd :: _ =>
        if fromPeer.length < replyLen then .ok (.needMore, h, fromPeer)
        else if vn ≠ 0x00 then .error (refusal (.badReplyVersion vn))
        else if cd ≠ granted then .error ⟨.connect, .socks4Refused cd⟩
        else .ok (.done, { h with awaitingReply := false }, fromPeer.drop replyLen)
    | _ => .ok (.needMore, h, fromPeer)

instance : Handshake Socks4 where
  begin := begin
  advance := advance

end Socks4

end HClient.Proxy
