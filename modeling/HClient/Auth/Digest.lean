import HClient.Core.Header
import HClient.Core.Reading
import HClient.Core.Http

/-!
# Digest authentication

`auth::digest`: the challenges of a field value, the one of them that is answered, and the answer.
The parser's alternatives and lists are those of the source: one that fails leaves the input alone,
and a list stops in front of the separator behind which no element is read.
-/
namespace HClient.Digest

open Reading

/-- Weakest first. -/
inductive Algorithm where
  | md5
  | md5Sess
  | sha256
  | sha256Sess
  | sha512_256
  | sha512_256Sess
  deriving DecidableEq, Repr

/-- The digests of the hash crates. -/
structure Hashes where
  md5 : List UInt8 → List UInt8
  sha256 : List UInt8 → List UInt8
  sha512_256 : List UInt8 → List UInt8

/-- `const_hex::encode`. -/
def hexEncode (bytes : List UInt8) : Text :=
  let digit (n : Nat) : Char := ("0123456789abcdef".toList[n]?).getD '0'
  bytes.flatMap fun b => [digit (b.toNat / 16), digit (b.toNat % 16)]

namespace Algorithm

/-- Where it stands in the declaration, which the derived order compares. -/
def strength : Algorithm → Nat
  | md5 => 0
  | md5Sess => 1
  | sha256 => 2
  | sha256Sess => 3
  | sha512_256 => 4
  | sha512_256Sess => 5

def token : Algorithm → Text
  | md5 => "MD5".toList
  | md5Sess => "MD5-sess".toList
  | sha256 => "SHA-256".toList
  | sha256Sess => "SHA-256-sess".toList
  | sha512_256 => "SHA-512-256".toList
  | sha512_256Sess => "SHA-512-256-sess".toList

def parse (s : Text) : Option Algorithm :=
  if Text.eqIgnoreAsciiCase s "MD5".toList then some md5
  else if Text.eqIgnoreAsciiCase s "MD5-sess".toList then some md5Sess
  else if Text.eqIgnoreAsciiCase s "SHA-256".toList then some sha256
  else if Text.eqIgnoreAsciiCase s "SHA-256-sess".toList then some sha256Sess
  else if Text.eqIgnoreAsciiCase s "SHA-512-256".toList then some sha512_256
  else if Text.eqIgnoreAsciiCase s "SHA-512-256-sess".toList then some sha512_256Sess
  else none

def isSess : Algorithm → Bool
  | md5Sess | sha256Sess | sha512_256Sess => true
  | md5 | sha256 | sha512_256 => false

def hash (hashes : Hashes) (alg : Algorithm) (data : Text) : Text :=
  match alg with
  | md5 | md5Sess => hexEncode (hashes.md5 (Bytes.utf8 data))
  | sha256 | sha256Sess => hexEncode (hashes.sha256 (Bytes.utf8 data))
  | sha512_256 | sha512_256Sess => hexEncode (hashes.sha512_256 (Bytes.utf8 data))

/-- A token is read as the algorithm it is written for. -/
theorem parse_token (alg : Algorithm) : parse alg.token = some alg := by
  cases alg <;> decide

end Algorithm

structure Challenge where
  realm : Text
  nonce : Text
  algorithm : Algorithm
  opaque_ : Option Text
  qopAuth : Bool
  onlyAuthInt : Bool
  stale : Bool
  deriving DecidableEq, Repr

inductive DigestError where
  | noUsableChallenge
  | missingParameter (parameter : Text)
  | authIntUnsupported
  deriving DecidableEq, Repr

abbrev Param := Text × Text

/-- A scheme and its parameters. -/
abbrev Offer := Text × List Param

/-! ## The parser -/

def isSpace (c : Char) : Bool := c = ' ' ∨ c = '\t'

/-- `winnow::ascii::space1`. -/
def space1 (i : Text) : Option Text :=
  if i.takeWhile isSpace = [] then none else some (i.dropWhile isSpace)

/-- `(ows, ',', ows)`. -/
def separator (i : Text) : Option Text :=
  match Field.ows i with
  | ',' :: i => some (Field.ows i)
  | _ => none

/-- `separated(1.., p, (ows, ',', ows))`. -/
def separated1 {α : Type} (p : Text → Option (α × Text)) (i : Text) : Option (List α × Text) :=
  (p i).map fun (a, i) =>
    let (as, i) := many (fun i => (separator i).bind p) i
    (a :: as, i)

def authParam (i : Text) : Option (Param × Text) :=
  match Field.token i with
  | some (name, i) =>
      match Field.ows i with
      | '=' :: i =>
          (Field.quotedString (Field.ows i) <|> Field.token (Field.ows i)).map fun (value, i) =>
            ((name.toAsciiLowercase, value), i)
      | _ => none
  | none => none

def isToken68Char (c : Char) : Bool :=
  ('a' ≤ c ∧ c ≤ 'z') || ('A' ≤ c ∧ c ≤ 'Z') || Text.isAsciiDigit c || "-._~+/".toList.contains c

/-- What stands behind a `token68`. -/
def token68 (i : Text) : Option Text :=
  if i.takeWhile isToken68Char = [] then none
  else some ((i.dropWhile isToken68Char).dropWhile (· = '='))

/-- What follows a scheme. -/
def params (i : Text) : Option (List Param × Text) :=
  (space1 i).bind fun i => separated1 authParam i <|> (token68 i).map fun i => ([], i)

def challenge (i : Text) : Option (Offer × Text) :=
  (Field.token i).map fun (scheme, i) =>
    let (ps, i) := (params i).getD ([], i)
    ((scheme.toAsciiLowercase, ps), i)

def challenges (value : Text) : List Offer :=
  ((separated1 challenge (Text.trim value)).getD ([], Text.trim value)).1

/-! ## The challenge to answer -/

def get (ps : List Param) (name : String) : Option Text :=
  (ps.find? fun p => p.1 = name.toList).map Prod.snd

def parseOne (ps : List Param) : Except DigestError Challenge := do
  let realm ← (get ps "realm").elim (.error (.missingParameter "realm".toList)) .ok
  let nonce ← (get ps "nonce").elim (.error (.missingParameter "nonce".toList)) .ok
  -- An unknown algorithm is not an absent one.
  let algorithm ←
    match get ps "algorithm" with
    | none => .ok .md5
    | some a => (Algorithm.parse a).elim (.error .noUsableChallenge) .ok
  let qop := (get ps "qop").getD []
  let offered := ((qop.splitOn ',').map Text.trim).filter (· ≠ [])
  let qopAuth := offered.any fun q => Text.eqIgnoreAsciiCase q "auth".toList
  .ok {
    realm := realm
    nonce := nonce
    algorithm := algorithm
    opaque_ := get ps "opaque"
    qopAuth := qopAuth
    onlyAuthInt := !offered.isEmpty && !qopAuth
    stale := (get ps "stale").any fun s => Text.eqIgnoreAsciiCase s "true".toList }

/-- The loops of `best_challenge` between two challenges. -/
structure Search where
  best : Option Challenge
  sawDigest : Bool
  missing : Option DigestError
  authIntOnly : Bool

def Search.start : Search := ⟨none, false, none, false⟩

def Search.offer (s : Search) (offer : Offer) : Search :=
  if offer.1 ≠ "digest".toList then s
  else
    let s := { s with sawDigest := true }
    match parseOne offer.2 with
    | .ok c =>
        if c.onlyAuthInt then { s with authIntOnly := true }
        else if s.best.all fun b => b.algorithm.strength < c.algorithm.strength then
          { s with best := some c }
        else s
    | .error e => { s with missing := s.missing.or (some e) }

def Search.value (s : Search) (v : HeaderValue) : Search :=
  match HeaderValue.toStr v with
  | none => s
  | some text => (challenges text).foldl Search.offer s

def Search.finish (s : Search) : Except DigestError Challenge :=
  match s.best with
  | some c => .ok c
  | none =>
      if s.authIntOnly then .error .authIntUnsupported
      else .error ((s.missing.filter fun _ => s.sawDigest).getD .noUsableChallenge)

def bestChallenge (values : List HeaderValue) : Except DigestError Challenge :=
  (values.foldl Search.value .start).finish

/-! ## The answer -/

def escape (s : Text) : Text :=
  if s.contains '"' || s.contains '\\' then
    s.flatMap fun c => if c = '"' ∨ c = '\\' then ['\\', c] else [c]
  else s

def nc : Text := "00000001".toList

/-- What the answer proves the password with. -/
def response (hashes : Hashes) (c : Challenge) (username password method uri cnonce : Text) :
    Text :=
  let hash := c.algorithm.hash hashes
  let base := hash (username ++ ':' :: (c.realm ++ ':' :: password))
  let ha1 := if c.algorithm.isSess then hash (base ++ ':' :: (c.nonce ++ ':' :: cnonce)) else base
  let ha2 := hash (method ++ ':' :: uri)
  if c.qopAuth then
    hash (ha1 ++ ':' :: (c.nonce ++ ':' :: (nc ++ ':' :: (cnonce ++ ":auth:".toList ++ ha2))))
  else hash (ha1 ++ ':' :: (c.nonce ++ ':' :: ha2))

def answer (hashes : Hashes) (c : Challenge) (username password method uri cnonce : Text) : Text :=
  "Digest username=\"".toList ++ escape username ++ "\", realm=\"".toList ++ escape c.realm ++
    "\", nonce=\"".toList ++ escape c.nonce ++ "\", uri=\"".toList ++ uri ++
    "\", algorithm=".toList ++ c.algorithm.token ++ ", response=\"".toList ++
    response hashes c username password method uri cnonce ++ "\"".toList ++
    (if c.qopAuth then
      ", qop=auth, nc=".toList ++ nc ++ ", cnonce=\"".toList ++ escape cnonce ++ "\"".toList
    else []) ++
    match c.opaque_ with
    | some opaque_ => ", opaque=\"".toList ++ escape opaque_ ++ "\"".toList
    | none => []

/-- The `Display` of a `PathAndQuery`, which begins with a slash or a star. -/
def displayTarget (p : PathAndQuery) : Text :=
  match p.asStr with
  | '/' :: s => '/' :: s
  | '*' :: s => '*' :: s
  | s => '/' :: s

/-- The request-target that `authorize` keeps for the answer. -/
def requestTarget (uri : Uri) : Text := (uri.pathAndQuery.map displayTarget).getD uri.path

end HClient.Digest
