import HClient.Connect.Scheduler
import HClient.Core.Http
import HClient.Proxy.Drive

/-!
# SOCKS5 datagrams

A datagram through a relay carries a header that names where it goes to or comes from. The header
is written here next to the `CONNECT` request, which names its destination in the same form.
-/
namespace HClient.Proxy.Socks5

open Connect (SocketAddr)

/-! ## Addresses -/

inductive RelayAddr where
  | ip (addr : SocketAddr)
  | unspecified (port : Nat)
  | name (name : Text) (port : Nat)
  deriving DecidableEq, Repr

inductive InvalidAddr where
  | badAddressType (atyp : UInt8)
  | nonUtf8Name
  deriving DecidableEq, Repr

inductive AddrParse where
  | ready (relay : RelayAddr) (n : Nat)
  | needMore
  | invalid (e : InvalidAddr)
  deriving DecidableEq, Repr

/-- `<[u8]>::get` of a range. -/
def range (b : List UInt8) (start stop : Nat) : Option (List UInt8) :=
  if start ≤ stop ∧ stop ≤ b.length then some ((b.drop start).take (stop - start)) else none

def portAt (b : List UInt8) (i : Nat) : Option Nat := (range b i (i + 2)).map (fromBe 0)

def v4Of (raw : List UInt8) : IpAddr := .v4 (raw.map UInt8.toNat)

/-- Eight groups of two bytes. -/
def v6Of (raw : List UInt8) : IpAddr :=
  .v6 ((List.range 8).map fun i => fromBe 0 ((raw.drop (2 * i)).take 2))

def relayOf (raw : List UInt8) (ip : IpAddr) (port : Nat) : RelayAddr :=
  if raw.all (· == 0) then .unspecified port else .ip ⟨ip, port⟩

/-- The address type, the address and the port at the start of some bytes. -/
def parseAddr (b : List UInt8) : AddrParse :=
  match b with
  | [] => .needMore
  | atyp :: _ =>
      if atyp = 0x01 then
        ((range b 1 5).bind fun raw => (portAt b 5).map fun port =>
          .ready (relayOf raw (v4Of raw) port) 7).getD .needMore
      else if atyp = 0x04 then
        ((range b 1 17).bind fun raw => (portAt b 17).map fun port =>
          .ready (relayOf raw (v6Of raw) port) 19).getD .needMore
      else if atyp = 0x03 then
        (b[1]?.bind fun lenByte =>
          let len := lenByte.toNat
          (range b 2 (2 + len)).bind fun nameBytes => (portAt b (2 + len)).map fun port =>
            match Bytes.fromUtf8 nameBytes with
            | some name => .ready (.name name port) (2 + len + 2)
            | none => .invalid .nonUtf8Name).getD .needMore
      else .invalid (.badAddressType atyp)

/-! ## Datagrams -/

def headerFor (host : Text) (port : UInt16) : Except Error (List UInt8) :=
  let host := Bytes.utf8 (bareHost host)
  if 255 < host.length then .error (refusal (.hostTooLong host.length))
  else .ok ([0, 0, 0, 0x03] ++ counted host ++ toBe 2 port.toNat)

def encodeDatagram (header payload : List UInt8) : List UInt8 := header ++ payload

/-- A fragment, a reserved field that is not zero and a header that does not parse are dropped. -/
def decodeDatagram (d : List UInt8) : Option (List UInt8) :=
  if d.length < 4 ∨ d.take 3 ≠ [0, 0, 0] then none
  else
    match parseAddr (d.drop 3) with
    | .ready _ n => if 3 + n ≤ d.length then some (d.drop (3 + n)) else none
    | .needMore => none
    | .invalid _ => none

/-! ## What a frame names -/

structure Destination where
  atyp : UInt8
  address : List UInt8
  port : Nat
  deriving DecidableEq, Repr

def Destination.read (atyp : UInt8) (len : Nat) (rest : List UInt8) : Option Destination :=
  if rest.length = len + 2 then some ⟨atyp, rest.take len, fromBe 0 (rest.drop len)⟩ else none

/-- What a request or a header names, behind its first three bytes. -/
def destination (frame : List UInt8) : Option Destination :=
  match frame.drop 3 with
  | [] => none
  | atyp :: rest =>
      if atyp = 0x01 then Destination.read atyp 4 rest
      else if atyp = 0x04 then Destination.read atyp 16 rest
      else if atyp = 0x03 then
        match rest with
        | [] => none
        | len :: rest => Destination.read atyp len.toNat rest
      else none

theorem fromBe_port (port : UInt16) : fromBe 0 (toBe 2 port.toNat) = port.toNat := by
  have := port.toNat_lt
  rw [fromBe_toBe, Nat.zero_mul, Nat.zero_add, Nat.mod_eq_of_lt (by simpa using this)]

section
variable {host : List UInt8} (small : host.length ≤ 255)
include small

theorem toNat_length : (UInt8.ofNat host.length).toNat = host.length := by
  rw [UInt8.toNat_ofNat', Nat.mod_eq_of_lt (by omega)]

theorem destination_named (a b c : UInt8) (port : UInt16) :
    destination ([a, b, c, 0x03] ++ counted host ++ toBe 2 port.toNat) =
      some ⟨0x03, host, port.toNat⟩ := by
  change Destination.read 0x03 (UInt8.ofNat host.length).toNat (host ++ toBe 2 port.toNat) = _
  unfold Destination.read
  rw [toNat_length small, if_pos (by simp), List.take_left, List.drop_left, fromBe_port]

end

theorem range_append (front middle back : List UInt8) :
    range (front ++ (middle ++ back)) front.length (front.length + middle.length) =
      some middle := by
  unfold range
  rw [if_pos (by simp), List.drop_left, Nat.add_sub_cancel_left, List.take_left]

/-- A name is read back, whatever follows it. -/
theorem parseAddr_named {host : Text} (small : (Bytes.utf8 host).length ≤ 255) (port : UInt16)
    (more : List UInt8) :
    parseAddr (0x03 :: counted (Bytes.utf8 host) ++ toBe 2 port.toNat ++ more) =
      .ready (.name host port.toNat) (2 + (Bytes.utf8 host).length + 2) := by
  generalize bytes : 0x03 :: counted (Bytes.utf8 host) ++ toBe 2 port.toNat ++ more = b
  have len : b[1]? = some (UInt8.ofNat (Bytes.utf8 host).length) := by
    rw [← bytes]
    rfl
  have name : range b 2 (2 + (Bytes.utf8 host).length) = some (Bytes.utf8 host) := by
    rw [← bytes]
    simpa [counted] using range_append [0x03, UInt8.ofNat (Bytes.utf8 host).length]
      (Bytes.utf8 host) (toBe 2 port.toNat ++ more)
  have at_port : portAt b (2 + (Bytes.utf8 host).length) = some port.toNat := by
    have found := range_append (0x03 :: counted (Bytes.utf8 host)) (toBe 2 port.toNat) more
    rw [← List.append_assoc, bytes] at found
    unfold portAt
    rw [show 2 + (Bytes.utf8 host).length = (0x03 :: counted (Bytes.utf8 host)).length by
      simp [counted]; omega]
    rw [length_toBe] at found
    rw [found, Option.map_some, fromBe_port]
  obtain ⟨tail, rfl⟩ : ∃ tail, b = 0x03 :: tail := ⟨_, bytes.symm⟩
  unfold parseAddr
  simp only [show ¬ (0x03 : UInt8) = 0x01 by decide, show ¬ (0x03 : UInt8) = 0x04 by decide,
    if_false, if_true, len, Option.bind_some, toNat_length small, name, at_port, Option.map_some,
    Bytes.fromUtf8_utf8, Option.getD_some]

theorem headerFor_eq {host : Text} {port : UInt16} {header : List UInt8}
    (heads : headerFor host port = .ok header) :
    (Bytes.utf8 (bareHost host)).length ≤ 255 ∧
      header = [0, 0, 0, 0x03] ++ counted (Bytes.utf8 (bareHost host)) ++ toBe 2 port.toNat := by
  unfold headerFor at heads
  dsimp only at heads
  split at heads
  · cases heads
  · rename_i small
    exact ⟨Nat.le_of_not_lt small, (Except.ok.inj heads).symm⟩

/-- What is behind a header is the payload, whatever it is. -/
theorem decodeDatagram_encode {host : Text} {port : UInt16} {header : List UInt8}
    (heads : headerFor host port = .ok header) (payload : List UInt8) :
    decodeDatagram (encodeDatagram header payload) = some payload := by
  obtain ⟨small, rfl⟩ := headerFor_eq heads
  set name := Bytes.utf8 (bareHost host) with named
  have read := parseAddr_named small port payload
  rw [← named] at read
  have long : ([0, 0, 0, 0x03] ++ counted name ++ toBe 2 port.toNat).length =
      3 + (2 + name.length + 2) := by
    simp [counted]
    omega
  have front : (encodeDatagram ([0, 0, 0, 0x03] ++ counted name ++ toBe 2 port.toNat)
      payload).take 3 = [0, 0, 0] := rfl
  have behind : (encodeDatagram ([0, 0, 0, 0x03] ++ counted name ++ toBe 2 port.toNat)
      payload).drop 3 = 0x03 :: counted name ++ toBe 2 port.toNat ++ payload := rfl
  unfold decodeDatagram
  rw [front, behind, read]
  unfold encodeDatagram
  dsimp only
  rw [← long, if_neg (by simp), if_pos (by simp), List.drop_left]

theorem begin_eq {h h' : Socks5} {host : Text} {port : UInt16} {greeting : List UInt8}
    (begins : h.begin host port = .ok (greeting, h')) :
    (Bytes.utf8 host).length ≤ 255 ∧
      h'.request = [version, 0x01, 0x00, 0x03] ++ counted (Bytes.utf8 host) ++
        toBe 2 port.toNat := by
  unfold begin at begins
  dsimp only at begins
  split at begins
  · cases begins
  · rename_i small
    refine ⟨Nat.le_of_not_lt small, ?_⟩
    split at begins
    · cases begins
      rfl
    · cases begins
      rfl

theorem utf8_inj {s t : Text} (same : Bytes.utf8 s = Bytes.utf8 t) : s = t := by
  have decoded := Bytes.fromUtf8_utf8 s
  rw [same, Bytes.fromUtf8_utf8] at decoded
  exact (Option.some.inj decoded).symm

def fresh : Socks5 := ⟨none, .fresh, [], [], by decide⟩

/-- The brackets of an address are sent to the proxy in a request and not in a header. -/
theorem bracketed_host_differs : ∃ greeting h header,
    fresh.begin "[::1]".toList 443 = .ok (greeting, h) ∧
      headerFor "[::1]".toList 443 = .ok header ∧
        destination h.request = some ⟨0x03, Bytes.ascii "[::1]", 443⟩ ∧
          destination header = some ⟨0x03, Bytes.ascii "::1", 443⟩ := by
  refine ⟨_, _, _, rfl, rfl, ?_, ?_⟩ <;> decide +kernel

/-- A request and a header name one destination where the host is not in brackets; and every
header comes off again. -/
theorem begin_names_headerFor {h h' : Socks5} {host : Text} {port : UInt16}
    {greeting header : List UInt8} (begins : h.begin host port = .ok (greeting, h'))
    (heads : headerFor host port = .ok header) :
    ((∃ d, destination h'.request = some d ∧ destination header = some d) ∧
      ∀ payload, decodeDatagram (encodeDatagram header payload) = some payload) ↔
      bareHost host = host := by
  obtain ⟨small, request⟩ := begin_eq begins
  obtain ⟨bareSmall, rfl⟩ := headerFor_eq heads
  rw [request, destination_named small, destination_named bareSmall]
  constructor
  · rintro ⟨⟨d, named, same⟩, -⟩
    rw [← named, Option.some.injEq, Destination.mk.injEq] at same
    exact utf8_inj same.2.1
  · intro bare
    exact ⟨⟨_, rfl, by rw [bare]⟩, decodeDatagram_encode heads⟩

theorem begin_names_headerFor_domain :
    (∃ d, destination ([version, 0x01, 0x00, 0x03] ++ counted (Bytes.utf8 "a.b".toList) ++
        toBe 2 443) = some d ∧
      destination ([0, 0, 0, 0x03] ++ counted (Bytes.utf8 "a.b".toList) ++ toBe 2 443) = some d) ∧
      ∀ payload, decodeDatagram (encodeDatagram ([0, 0, 0, 0x03] ++
        counted (Bytes.utf8 "a.b".toList) ++ toBe 2 443) payload) = some payload :=
  (@begin_names_headerFor fresh _ "a.b".toList 443 _ _ rfl rfl).mpr (by decide)

end HClient.Proxy.Socks5
