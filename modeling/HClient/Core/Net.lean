import HClient.Core.Text

/-!
# Addresses

`core::net`'s parser for addresses: `IpAddr::from_str` decides in several modules whether a
host is a name, and its leading-zero and group-count rules decide it for names made of digits.
-/
namespace HClient

inductive IpAddr where
  | v4 (octets : List Nat)
  | v6 (groups : List Nat)
  deriving DecidableEq, Repr

namespace IpAddr

def toDigit (radix : Nat) (c : Char) : Option Nat :=
  let value : Option Nat :=
    if '0' ≤ c ∧ c ≤ '9' then some (c.toNat - '0'.toNat)
    else if 'a' ≤ c ∧ c ≤ 'z' then some (c.toNat - 'a'.toNat + 10)
    else if 'A' ≤ c ∧ c ≤ 'Z' then some (c.toNat - 'A'.toNat + 10)
    else none
  value.filter (· < radix)

/-- `Parser::read_number` with a bound on the digits, for a target type below `bound`. -/
def readNumber (radix maxDigits : Nat) (allowZeroPrefix : Bool) (bound : Nat) (s : Text) :
    Option (Nat × Text) :=
  let digits := (s.takeWhile fun c => (toDigit radix c).isSome).filterMap (toDigit radix)
  let n := digits.foldl (fun acc d => acc * radix + d) 0
  if digits.length = 0 ∨ maxDigits < digits.length then none
  else if !allowZeroPrefix ∧ s.head? = some '0' ∧ 1 < digits.length then none
  else if n < bound then some (n, s.drop digits.length) else none

def readSeparator {α : Type} (sep : Char) (index : Nat) (inner : Text → Option (α × Text))
    (s : Text) : Option (α × Text) :=
  match index, s with
  | 0, s => inner s
  | _ + 1, c :: cs => if c = sep then inner cs else none
  | _ + 1, [] => none

def readOctet (index : Nat) (s : Text) : Option (Nat × Text) :=
  readSeparator '.' index (readNumber 10 3 false 256) s

def readIpv4Addr (s : Text) : Option (List Nat × Text) := do
  let (a, s) ← readOctet 0 s
  let (b, s) ← readOctet 1 s
  let (c, s) ← readOctet 2 s
  let (d, s) ← readOctet 3 s
  pure ([a, b, c, d], s)

/-- `read_groups` with `left` groups to go from group `index` on: the groups read, whether
they end in an embedded IPv4 address, and the rest. -/
def readGroups : (left index : Nat) → Text → List Nat × Bool × Text
  | 0, _, s => ([], false, s)
  | left + 1, index, s =>
      let embedded := if 0 < left then readSeparator ':' index readIpv4Addr s else none
      match embedded with
      | some ([a, b, c, d], rest) => ([a * 256 + b, c * 256 + d], true, rest)
      | _ =>
        match readSeparator ':' index (readNumber 16 4 true 65536) s with
        | none => ([], false, s)
        | some (group, rest) =>
            let (groups, ipv4, rest) := readGroups left (index + 1) rest
            (group :: groups, ipv4, rest)

def readIpv6Addr (s : Text) : Option (List Nat × Text) :=
  match readGroups 8 0 s with
  | (head, headIpv4, rest) =>
      if head.length = 8 then some (head, rest)
      -- an embedded IPv4 part is not allowed before `::`
      else if headIpv4 then none
      else
        match rest with
        | ':' :: ':' :: rest =>
            let (tail, _, rest) := readGroups (7 - head.length) 0 rest
            some (head ++ List.replicate (8 - head.length - tail.length) 0 ++ tail, rest)
        | _ => none

/-- `IpAddr::from_str`. -/
def parse (s : Text) : Option IpAddr :=
  match readIpv4Addr s with
  | some (octets, rest) => if rest = [] then some (.v4 octets) else none
  | none =>
      match readIpv6Addr s with
      | some (groups, rest) => if rest = [] then some (.v6 groups) else none
      | none => none

def isLoopback : IpAddr → Bool
  | .v4 octets => octets.head? = some 127
  | .v6 groups => groups = [0, 0, 0, 0, 0, 0, 0, 1]

example : parse "192.0.2.1".toList = some (.v4 [192, 0, 2, 1]) := by decide
example : parse "::ffff:192.0.2.1".toList =
    some (.v6 [0, 0, 0, 0, 0, 65535, 49152, 513]) := by decide
example : parse "1.2.3".toList = none ∧ parse "01.2.3.4".toList = none := by decide

end IpAddr
end HClient
