import HClient.Core.Grammar
import HClient.Core.Http
import HClient.Core.Lookahead

/-!
# Response heads

The parser of a response head over bytes that are still arriving. A bare line feed, a folded
line and whitespace in front of a colon are refused.
-/
namespace HClient.Proxy

inductive HeadError where
  | malformedStatusLine
  | badStatus (digits : Text)
  | malformedHeader
  | badHeaderName (name : Text)
  | badHeaderValue (name : Text)
  | obsFold
  | bareLf
  deriving DecidableEq, Repr

namespace Head

abbrev Parser (α : Type) : Type := Grammar UInt8 HeadError α

def text (bytes : List UInt8) : Text := bytes.map fun b => Char.ofNat b.toNat

def literal (s : String) : Parser Unit := Grammar.literal .malformedStatusLine (Bytes.ascii s)

def isLineByte (b : UInt8) : Bool := b ≠ 13 ∧ b ≠ 10

/-- `StatusCode::from_bytes` of three digits. -/
def statusOf (digits : List UInt8) : Option StatusCode :=
  let code := Bytes.decimal digits
  if 100 ≤ code then some code else none

def statusCode : Parser StatusCode := do
  let digits ← Grammar.takeExactly Bytes.isDigit .malformedStatusLine 3
  Grammar.okOrCut (statusOf digits) (.badStatus (text digits))

def version : Parser HttpVersion :=
  Grammar.alt (do literal "HTTP/1.1"; pure .http11) (do literal "HTTP/1.0"; pure .http10)

def statusLine : Parser (HttpVersion × StatusCode) := do
  let version ← version
  literal " "
  let status ← statusCode
  -- What the reason says is not kept, but it has to be taken.
  let _ ← Grammar.opt (do literal " "; Grammar.takeWhile0 isLineByte)
  pure (version, status)

def crlf : Parser Unit :=
  Grammar.byFirst fun b =>
    if b = 10 then Grammar.cut .bareLf
    else if b = 13 then literal "\r\n"
    else Grammar.backtrack .malformedStatusLine

def isOws (b : UInt8) : Bool := b = 32 ∨ b = 9

def trimOws (v : List UInt8) : List UInt8 :=
  ((v.dropWhile isOws).reverse.dropWhile isOws).reverse

def maxHeaderNameLen : Nat := 65535

def headerName (bytes : List UInt8) : Option HeaderName :=
  if maxHeaderNameLen < bytes.length then none else HeaderName.fromBytes bytes

/-- `HeaderValue::from_bytes`. -/
def headerValue (bytes : List UInt8) : Option HeaderValue :=
  if bytes.all fun b => (32 ≤ b ∧ b ≠ 127) ∨ b = 9 then some bytes else none

/-- What follows the name of a field. -/
def fieldRest (name : List UInt8) : Parser (HeaderName × HeaderValue) := do
  -- A byte that is not the name's stands here, so that this does not wait.
  Grammar.orCut (literal ":") .malformedHeader
  let value ← Grammar.takeWhile0 isLineByte
  let name ← Grammar.okOrCut (headerName name) (.badHeaderName (text name))
  let value ← Grammar.okOrCut (headerValue (trimOws value)) (.badHeaderValue name)
  pure (name, value)

/-- Where nothing has arrived the name waits, as it does in the source. -/
def fieldLine : Parser (HeaderName × HeaderValue) :=
  Grammar.byFirst fun b =>
    if isOws b then Grammar.cut .obsFold
    else (Grammar.takeWhile1 HeaderName.isTokenByte .malformedStatusLine).bind fieldRest

def field : Parser (HeaderName × HeaderValue) :=
  fieldLine.bind fun field => crlf.bind fun _ => Grammar.pure field

theorem field_advances : field.Advances := by
  refine Grammar.Advances.bind (Grammar.Advances.byFirst fun b bytes a n said => ?_) _
  by_cases fold : isOws b
  · rw [if_pos fold] at said
    cases said
  · rw [if_neg fold] at said
    exact (Grammar.takeWhile1_advances _ _).bind _ _ _ _ said

def head : Parser ResponseParts := do
  let (version, status) ← statusLine
  crlf
  let fields ← Grammar.many field field_advances
  crlf
  pure ⟨status, version, fields.foldl (fun headers f => headers.append f.1 f.2) []⟩

end Head

/-- A head and how many bytes it took, or nothing yet. -/
def parseResponse (buf : List UInt8) : Except HeadError (Option (ResponseParts × Nat)) :=
  match Head.head.run buf with
  | .parsed head n => .ok (some (head, n))
  | .incomplete => .ok none
  | .backtrack e => .error e
  | .cut e => .error e

example : parseResponse (Bytes.ascii "HTTP/1.1 200 OK\r\nVia: p \r\n\r\nmore") =
    .ok (some (⟨200, .http11, [("via".toList, Bytes.ascii "p")]⟩, 28)) := by decide +kernel

/-- A head that is complete or refused stays so. -/
theorem parseResponse_settles : Settles (· = .ok none) parseResponse := by
  intro bytes more waits
  unfold parseResponse at waits ⊢
  rw [Head.head.settles bytes more fun incomplete => waits (by simp only [incomplete])]

theorem parseResponse_fits {buf : List UInt8} {head : ResponseParts} {n : Nat}
    (said : parseResponse buf = .ok (some (head, n))) : n ≤ buf.length := by
  unfold parseResponse at said
  split at said
  next parsed => cases said; exact Head.head.fits parsed
  next => cases said
  next => cases said
  next => cases said

end HClient.Proxy

/-!
## Heads that arrive in pieces

A caller parses what has arrived after every read, until there is an answer. A whole head is read
from its own bytes alone, so that no way of cutting the bytes into reads changes the answer.
-/
namespace HClient.Proxy

namespace Head

theorem within_text (s : String) : (literal s).Within 0 := Grammar.within_literal _ _

theorem within_statusCode : statusCode.Within 0 :=
  (Grammar.within_takeExactly _ _ 3).bind (fun _ => Grammar.within_okOrCut _ _)
    fun _ _ _ _ _ => Nat.zero_le _

/-- A version and its text. -/
def named (s : String) (v : HttpVersion) : Parser HttpVersion :=
  (literal s).bind fun _ => Grammar.pure v

theorem within_named (s : String) (v : HttpVersion) : (named s v).Within 0 :=
  (within_text s).bind (fun _ => Grammar.within_pure v) fun _ _ _ _ _ => Nat.zero_le _

theorem version_eq : version = Grammar.alt (named "HTTP/1.1" .http11) (named "HTTP/1.0" .http10) :=
  rfl

/-- The two versions are equally long. -/
theorem within_version : version.Within 0 := by
  have backs : (named "HTTP/1.1" .http11).BacksWithin 8 :=
    (Grammar.backsWithin_literal HeadError.malformedStatusLine (Bytes.ascii "HTTP/1.1")).bind
      fun _ _ _ => nofun
  have takes : (named "HTTP/1.0" .http10).Takes 8 :=
    (Grammar.takes_literal HeadError.malformedStatusLine (Bytes.ascii "HTTP/1.0")).bind_left
  rw [version_eq]
  exact (within_named _ _).alt (within_named _ _) backs takes

def reason : Parser (Option (List UInt8)) :=
  Grammar.opt ((literal " ").bind fun _ => Grammar.takeWhile0 isLineByte)

theorem within_reason : reason.Within 1 := by
  have phrase : ((literal " ").bind fun _ => Grammar.takeWhile0 isLineByte).Within 1 :=
    (within_text " ").bind (fun _ => Grammar.within_takeWhile0 _) fun _ _ _ _ _ => Nat.zero_le _
  have backs : ((literal " ").bind fun _ => Grammar.takeWhile0 isLineByte).BacksWithin 1 :=
    (Grammar.backsWithin_literal HeadError.malformedStatusLine (Bytes.ascii " ")).bind
      fun _ => Grammar.takeWhile0_ne_backtrack _
  exact (phrase.bind (fun _ => Grammar.within_pure _) fun _ _ _ _ _ => Nat.le_add_left 1 _).alt
    (Grammar.within_pure _) (backs.bind fun _ _ _ => nofun) fun _ _ _ _ => Nat.le_add_left 1 _

theorem statusLine_eq : statusLine = version.bind fun version => (literal " ").bind fun _ =>
    statusCode.bind fun status => reason.bind fun _ => Grammar.pure (version, status) := rfl

/-- The byte behind the line is looked at, to see that the reason is over. -/
theorem within_statusLine : statusLine.Within 1 := by
  rw [statusLine_eq]
  refine within_version.bind (fun version => ?_) fun _ _ _ _ _ => Nat.zero_le _
  refine (within_text " ").bind (fun _ => ?_) fun _ _ _ _ _ => Nat.zero_le _
  refine within_statusCode.bind (fun status => ?_) fun _ _ _ _ _ => Nat.zero_le _
  exact within_reason.bind (fun _ => Grammar.within_pure _) fun _ _ _ _ _ => Nat.le_add_left 1 _

theorem takes_crlf : crlf.Takes 2 := by
  refine Grammar.Takes.byFirst fun b => ?_
  split
  · exact fun _ _ _ => nofun
  · split
    · exact Grammar.takes_literal HeadError.malformedStatusLine (Bytes.ascii "\r\n")
    · exact fun _ _ _ => nofun

theorem within_crlf : crlf.Within 0 := by
  refine Grammar.Within.byFirst (fun b => ?_) fun b bytes a n said => ?_
  · split
    · exact Grammar.within_cut _
    · split
      · exact within_text _
      · exact Grammar.within_backtrack _
  · have taken : 2 ≤ n := takes_crlf (b :: bytes) a n said
    omega

theorem first_of_crlf {bytes : List UInt8} {n : Nat} (said : crlf.run bytes = .parsed () n) :
    ∃ rest, bytes = 13 :: rest := by
  cases bytes with
  | nil => cases said
  | cons b bytes =>
      change (if b = 10 then Grammar.cut HeadError.bareLf
        else if b = 13 then literal "\r\n" else Grammar.backtrack .malformedStatusLine).run
          (b :: bytes) = _ at said
      split at said
      · cases said
      · split at said
        · rename_i cr
          exact ⟨bytes, by rw [cr]⟩
        · cases said

theorem within_fieldRest (name : List UInt8) : (fieldRest name).Within 1 := by
  refine ((within_text ":").orCut _).bind (fun _ => ?_) fun _ _ _ _ _ => Nat.zero_le _
  refine (Grammar.within_takeWhile0 _).bind (fun value => ?_) fun _ _ _ _ _ => Nat.le_add_left 1 _
  refine (Grammar.within_okOrCut _ _).bind (j := 0) (fun name => ?_) fun _ _ _ _ _ => Nat.zero_le _
  exact (Grammar.within_okOrCut _ _).bind (j := 0) (fun value => Grammar.within_pure _)
    fun _ _ _ _ _ => Nat.zero_le _

theorem within_fieldLine : fieldLine.Within 1 := by
  refine Grammar.Within.byFirst (fun b => ?_) fun _ _ _ n _ => Nat.succ_pos n
  split
  · exact Grammar.within_cut _
  · exact (Grammar.within_takeWhile1 _ _).bind within_fieldRest fun _ _ _ _ _ => Nat.le_add_left 1 _

theorem within_field : field.Within 0 := by
  have terminated (f : HeaderName × HeaderValue) :
      (crlf.bind fun _ => Grammar.pure f : Parser (HeaderName × HeaderValue)).Within 0 :=
    within_crlf.bind (fun _ => Grammar.within_pure _) fun _ _ _ _ _ => Nat.zero_le _
  refine within_fieldLine.bind terminated fun f bytes c m said => ?_
  have taken : 2 ≤ m := takes_crlf.bind_left bytes c m said
  omega

/-- No name begins with a carriage return, whatever comes behind it. -/
theorem field_of_cr (rest : List UInt8) :
    field.run (13 :: rest) = .backtrack .malformedStatusLine := rfl

def ends (version : HttpVersion) (status : StatusCode)
    (fields : List (HeaderName × HeaderValue)) : Parser ResponseParts :=
  crlf.bind fun _ => Grammar.pure
    ⟨status, version, fields.foldl (fun headers f => headers.append f.1 f.2) []⟩

theorem head_eq : head = statusLine.bind fun line => crlf.bind fun _ =>
    (Grammar.many field field_advances).bind (ends line.1 line.2) := rfl

/-- The last two bytes that a head takes are its end, and it looks at no others. -/
theorem within_head : head.Within 0 := by
  have fields (version : HttpVersion) (status : StatusCode) :
      ((Grammar.many field field_advances).bind (ends version status)).Within 0 := by
    refine within_field.many_bind (fun _ => ?_) fun fields bytes c m e said back => ?_
    · exact within_crlf.bind (fun _ => Grammar.within_pure _) fun _ _ _ _ _ => Nat.zero_le _
    · obtain ⟨⟨⟩, k, l, ended, -, rfl⟩ := Grammar.bind_eq_parsed said
      obtain ⟨rest, rfl⟩ := first_of_crlf ended
      have taken : 2 ≤ k := takes_crlf _ _ _ ended
      obtain ⟨more, same⟩ : ∃ more, (13 :: rest).take (k + l) = 13 :: more := by
        obtain ⟨k', rfl⟩ := Nat.exists_eq_add_of_le taken
        exact ⟨rest.take (1 + k' + l), by rw [show 2 + k' + l = (1 + k' + l) + 1 by omega]; rfl⟩
      rw [field_of_cr] at back
      rw [same, field_of_cr, back]
  rw [head_eq]
  refine within_statusLine.bind (fun line => ?_) fun line bytes c m said => ?_
  · exact within_crlf.bind (fun _ => fields _ _) fun _ _ _ _ _ => Nat.zero_le _
  · have taken : 2 ≤ m := takes_crlf.bind_left bytes c m said
    omega

end Head

/-- A head is read from the bytes it takes. -/
theorem parseResponse_take {buf : List UInt8} {head : ResponseParts} {n : Nat}
    (said : parseResponse buf = .ok (some (head, n))) :
    parseResponse (buf.take n) = .ok (some (head, n)) := by
  unfold parseResponse at said ⊢
  split at said
  next parsed =>
    cases said
    have whole := Head.within_head _ _ _ parsed
    rw [Nat.add_zero] at whole
    rw [whole]
  next => cases said
  next => cases said
  next => cases said

/-- What is parsed after each read, until there is an answer. -/
def readHead (buf : List UInt8) :
    List (List UInt8) → Except HeadError (Option (ResponseParts × Nat))
  | [] => parseResponse buf
  | read :: reads =>
      match parseResponse buf with
      | .ok none => readHead (buf ++ read) reads
      | settled => settled

theorem readHead_of_settled {buf : List UInt8} (settled : parseResponse buf ≠ .ok none)
    (reads : List (List UInt8)) : readHead buf reads = parseResponse buf := by
  cases reads with
  | nil => rfl
  | cons read reads =>
      rw [readHead]
      split
      · rename_i waits
        exact absurd waits settled
      · rfl

theorem readHead_eq (buf : List UInt8) (reads : List (List UInt8)) :
    readHead buf reads = parseResponse (buf ++ reads.flatten) := by
  induction reads generalizing buf with
  | nil => rw [List.flatten_nil, List.append_nil, readHead]
  | cons read reads ih =>
      by_cases waits : parseResponse buf = .ok none
      · rw [readHead, waits, List.flatten_cons, ← List.append_assoc]
        exact ih _
      · rw [readHead_of_settled waits, parseResponse_settles _ _ waits]

/-- The answer about a head is that of its own bytes: no shorter front of them has one, and none
of the bytes behind them matters. A refusal stands, and so nothing depends on the reads. -/
theorem parseResponse_incremental (b : List UInt8) :
    (∀ h n, parseResponse b = .ok (some (h, n)) →
      n ≤ b.length ∧
        (∀ front, front <+: b.take n → front.length < n → parseResponse front = .ok none) ∧
        ∀ x, parseResponse (b.take n ++ x) = .ok (some (h, n))) ∧
      (∀ e, parseResponse b = .error e → ∀ x, parseResponse (b ++ x) = .error e) ∧
      ∀ first reads, first ++ reads.flatten = b → readHead first reads = parseResponse b := by
  refine ⟨fun h n said => ?_, fun e refused x => ?_, ?_⟩
  · have own := parseResponse_take said
    refine ⟨parseResponse_fits said, fun front part short => ?_, fun x => ?_⟩
    · -- An answer about the front would be one about all of the head's bytes.
      by_contra settled
      obtain ⟨rest, whole⟩ := part
      have same := parseResponse_settles front rest settled
      rw [whole, own] at same
      have fits := parseResponse_fits same.symm
      omega
    · rw [parseResponse_settles _ x (by rw [own]; nofun), own]
  · rw [parseResponse_settles b x (by rw [refused]; nofun), refused]
  · rintro first reads rfl
    exact readHead_eq first reads

end HClient.Proxy
