import HClient.Core.Net
import HClient.Core.Http
import HClient.Core.Poll
import HClient.Dns.Names
import HClient.Dns.Svcb

/-!
# DNS over HTTPS

A resolver whose question is the body of a request. The decoding of a message is another crate's
and stands here as a parameter; which messages are an answer, and what a lookup makes of one that
is not, is this resolver's own.
-/
namespace HClient.DnsDoh

open Connect (Record RData)
open Dns (RawParam RawBinding endpointFromBinding)

/-! ## What is decoded elsewhere -/

structure Question (N : Type) where
  qname : N
  qtype : Nat
  qclass : Nat
  deriving DecidableEq, Repr

/-- A record of a section, whose data may have been read as the data of a type. -/
structure ParsedRecord (N D : Type) where
  owner : N
  rtype : Nat
  rclass : Nat
  ttl : Nat
  data : D
  deriving DecidableEq, Repr

/-- A message, the sections of which are only parsed as they are walked. -/
structure Message (N D : Type) where
  qr : Bool
  tc : Bool
  rcode : Nat
  question : Option (Except Text (Question N))
  answer : Except Text (List (Except Text (ParsedRecord N D)))

inductive AllValues where
  | mandatory (keys : List Nat)
  | alpn (ids : List (List UInt8))
  | noDefaultAlpn
  | port (port : Nat)
  | ech (configList : List UInt8)
  | ipv4Hint (hints : List (List Nat))
  | ipv6Hint (hints : List (List Nat))
  | dohPath
  | ohttp
  | tlsSupportedGroups
  | unknown (key : Nat)
  deriving DecidableEq, Repr

structure HttpsData where
  priority : Nat
  target : Text
  params : List (Except Text AllValues)

/-- The `domain` crate, over its names and its unread record data. -/
structure Domain (N D : Type) where
  vecFromStr : Text → Except Text N
  labels : N → List (List UInt8)
  nameEq : N → N → Bool
  display : N → Text
  displayType : Nat → Text
  fromSlice : List UInt8 → Except Text (Message N D)
  a : D → Except Text (List Nat)
  aaaa : D → Except Text (List Nat)
  https : D → Except Text HttpsData

def SameName (labels labels' : List (List UInt8)) : Prop :=
  List.Forall₂ (List.Forall₂ fun b c => Bytes.toLower b = Bytes.toLower c) labels labels'

/-- Names are compared by their labels, without regard to the case of ASCII letters. -/
structure Domain.Documented {N D : Type} (domain : Domain N D) : Prop where
  nameEq (m n : N) : domain.nameEq m n = true ↔ SameName (domain.labels m) (domain.labels n)

/-! ## The resolver -/

inductive DohError (E : Type) where
  | nameNotUsable (name reason : Text)
  | transport (source : E)
  | status (status : StatusCode)
  | contentType (got : Text)
  | body (reason : Text)
  | malformed (reason : Text)
  | notAResponse
  | truncated
  | responseCode (rcode : Nat)
  | questionMismatch (asked got : Text)
  | mandatoryKeyAbsent (key : Nat)
  deriving DecidableEq, Repr

/-- `hclient_core::error::Error`: of the kind `Resolve` around this resolver's own, or another's. -/
inductive Error (E : Type) where
  | resolve (source : DohError E)
  | other (e : E)
  deriving DecidableEq, Repr

inductive Query where
  | a
  | aaaa
  | https
  deriving DecidableEq, Repr

def Query.rtype : Query → Nat
  | .a => 1
  | .aaaa => 28
  | .https => 65

inductive Family where
  | v4
  | v6
  deriving DecidableEq, Repr

def Family.query : Family → Query
  | .v4 => .a
  | .v6 => .aaaa

def classIn : Nat := 1
def noError : Nat := 0
def nxDomain : Nat := 3
def maxResponseBytes : Nat := 65535
def dnsMessage : Text := "application/dns-message".toList

structure Answer where
  addrs : List Record
  endpoints : List Record
  deriving DecidableEq, Repr

inductive Frame where
  | data (bytes : List UInt8)
  | trailers
  deriving DecidableEq, Repr

def Frame.bytes : Frame → List UInt8
  | .data bytes => bytes
  | .trailers => []

structure Request (T : Type) where
  method : Method
  uri : Uri
  headers : HeaderMap HeaderValue
  body : List UInt8
  timeouts : T

/-- What the transport answers with; reading the body may fail at any frame. -/
structure Response where
  parts : ResponseParts
  body : List (Except Text Frame)

structure Doh (E T : Type) where
  executeSend : Request T → Except E Response
  endpoint : Uri
  fallback : Text → Nat → List (Except (Error E) Record)
  timeouts : T

/-- What a lookup does to the world. -/
inductive Event (T : Type) where
  | execute (request : Request T)
  | fallback (name : Text) (rtype : Nat)

variable {N D E T : Type}

def ipLiteral (host : Text) : Option IpAddr := IpAddr.parse (bareHost host)

section wire
variable (domain : Domain N D)

def vecFromStr (name : Text) : Except (DohError E) N :=
  match domain.vecFromStr name with
  | .error reason => .error (.nameNotUsable name reason)
  | .ok qname => .ok qname

/-- The header has the identifier zero, asks for recursion and counts one question. -/
def encodeQuery (name : Text) (query : Query) : Except (DohError E) (List UInt8) := do
  let qname ← vecFromStr domain name
  pure ([0, 0, 1, 0, 0, 1, 0, 0, 0, 0, 0, 0] ++ Dns.wire (domain.labels qname) ++
    [0, UInt8.ofNat query.rtype, 0, UInt8.ofNat classIn])

def checkQuestion (dns : Message N D) (name : Text) (query : Query) :
    Except (DohError E) Unit := do
  let asked := Text.trimEndMatches '.' name ++ '/' :: domain.displayType query.rtype
  let wanted ← vecFromStr domain name
  match dns.question with
  | none => .error (.questionMismatch asked "no question section".toList)
  | some (.error reason) => .error (.malformed reason)
  | some (.ok question) =>
      let gotName := domain.display question.qname
      let got := (Text.stripSuffix ['.'] gotName).getD gotName ++
        '/' :: domain.displayType question.qtype
      if !domain.nameEq question.qname wanted ∨ question.qtype ≠ query.rtype ∨
          question.qclass ≠ classIn then
        .error (.questionMismatch asked got)
      else .ok ()

/-- The records of one type in class IN, read as that type's; an error of the walk is kept. -/
def limitToIn {α : Type} (rtype : Nat) (parse : D → Except Text α)
    (items : List (Except Text (ParsedRecord N D))) : List (Except Text (ParsedRecord N α)) :=
  items.filterMap fun item =>
    match item with
    | .error reason => some (.error reason)
    | .ok record =>
        if record.rclass = classIn ∧ record.rtype = rtype then
          some ((parse record.data).map fun data =>
            ⟨record.owner, record.rtype, record.rclass, record.ttl, data⟩)
        else none

def rawParam : AllValues → RawParam
  | .mandatory keys => .mandatory keys
  | .alpn ids => .alpn ids
  | .noDefaultAlpn => .noDefaultAlpn
  | .port port => .port port
  | .ech configList => .ech configList
  | .ipv4Hint hints => .ipv4Hint hints
  | .ipv6Hint hints => .ipv6Hint hints
  | .dohPath => .other 7
  | .ohttp => .other 8
  | .tlsSupportedGroups => .other 9
  | .unknown key => .other key

def bindingFromDecoded (https : HttpsData) (owner : Text) (ttl : Duration) :
    Except Text RawBinding := do
  let params ← https.params.mapM fun value => value.map rawParam
  pure ⟨https.priority, Text.trimEndMatches '.' owner, Text.trimEndMatches '.' https.target, params,
    some ttl⟩

def addrRecord {α : Type} (rdata : α → RData) (record : ParsedRecord N α) :
    Except (DohError E) (Option Record) :=
  .ok (some { Record.new (rdata record.data) with ttl := some (.fromSecs record.ttl) })

def httpsRecord (record : ParsedRecord N HttpsData) : Except (DohError E) (Option Record) :=
  match bindingFromDecoded record.data (domain.display record.owner) (.fromSecs record.ttl) with
  | .error reason => .error (.malformed reason)
  | .ok binding =>
      match endpointFromBinding binding with
      | .error (.mandatoryKeyAbsent key) => .error (.mandatoryKeyAbsent key)
      | .ok endpoint => .ok endpoint

/-- The loop over the records, which stops at the first that is refused. -/
def pushAll {α : Type} (take : ParsedRecord N α → Except (DohError E) (Option Record)) :
    List (Except Text (ParsedRecord N α)) → Except (DohError E) (List Record)
  | [] => .ok []
  | .error reason :: _ => .error (.malformed reason)
  | .ok record :: items => do
      let found ← take record
      let more ← pushAll take items
      pure (found.toList ++ more)

def decodeSection (query : Query) (items : List (Except Text (ParsedRecord N D))) :
    Except (DohError E) Answer :=
  match query with
  | .a => do
      let addrs ← pushAll (addrRecord .a) (limitToIn Query.a.rtype domain.a items)
      pure ⟨addrs, []⟩
  | .aaaa => do
      let addrs ← pushAll (addrRecord .aaaa) (limitToIn Query.aaaa.rtype domain.aaaa items)
      pure ⟨addrs, []⟩
  | .https => do
      let endpoints ← pushAll (httpsRecord domain) (limitToIn Query.https.rtype domain.https items)
      pure ⟨[], endpoints⟩

def decodeAnswer (body : List UInt8) (name : Text) (query : Query) :
    Except (DohError E) Answer := do
  let dns ← (domain.fromSlice body).mapError .malformed
  if !dns.qr then .error .notAResponse
  else if dns.tc then .error .truncated
  else do
    checkQuestion domain dns name query
    if dns.rcode = noError then do
      let items ← dns.answer.mapError .malformed
      decodeSection domain query items
    -- That there is no such name is an answer.
    else if dns.rcode = nxDomain then .ok ⟨[], []⟩
    else .error (.responseCode dns.rcode)

/-- `Limited`, collected: the bytes up to the end, or why there is none. -/
def collectLimited : Nat → List (Except Text Frame) → Except Text (List UInt8)
  | _, [] => .ok []
  | _, .error reason :: _ => .error reason
  | remaining, .ok frame :: frames =>
      if remaining < frame.bytes.length then .error "length limit exceeded".toList
      else (collectLimited (remaining - frame.bytes.length) frames).map (frame.bytes ++ ·)

def essence (headers : HeaderMap HeaderValue) : Option Text :=
  ((headers.get HeaderName.contentType).bind HeaderValue.toStr).map fun v =>
    (Text.trim (v.takeWhile (· ≠ ';'))).toAsciiLowercase

def readResponse (response : Response) (name : Text) (query : Query) :
    Except (DohError E) Answer :=
  if response.parts.status ≠ 200 then .error (.status response.parts.status)
  else if essence response.parts.headers ≠ some dnsMessage then
    .error (.contentType ((essence response.parts.headers).getD []))
  else do
    let collected ← (collectLimited maxResponseBytes response.body).mapError .body
    decodeAnswer domain collected name query

end wire

def Doh.request (doh : Doh E T) (body : List UInt8) : Request T where
  method := .post
  uri := doh.endpoint
  headers := [(HeaderName.contentType, Bytes.ascii "application/dns-message"),
    ("accept".toList, Bytes.ascii "application/dns-message")]
  body := body
  timeouts := doh.timeouts

section lookups
variable (domain : Domain N D) (doh : Doh E T)

def exchange (name : Text) (query : Query) : List (Event T) × Except (DohError E) Answer :=
  match encodeQuery domain name query with
  | .error e => ([], .error e)
  | .ok body =>
      ([.execute (doh.request body)],
        match doh.executeSend (doh.request body) with
        | .error e => .error (.transport e)
        | .ok response => readResponse domain response name query)

def recover (name : Text) (family : Family) (failure : DohError E) :
    List (Event T) × List (Except (Error E) Record) :=
  let recovered := doh.fallback name family.query.rtype
  ([.fallback name family.query.rtype],
    if recovered.isEmpty then [.error (.resolve failure)] else recovered)

def addrs (name : Text) (family : Family) : List (Event T) × List (Except (Error E) Record) :=
  match ipLiteral name, family with
  | some (.v4 octets), .v4 => ([], [.ok (.new (.a octets))])
  | some (.v6 groups), .v6 => ([], [.ok (.new (.aaaa groups))])
  | some _, _ => ([], [])
  | none, _ =>
      match exchange domain doh name family.query with
      | (events, .ok answer) => (events, answer.addrs.map .ok)
      | (events, .error e) =>
          let (more, items) := recover doh name family e
          (events ++ more, items)

def endpoints (name : Text) : List (Event T) × List (Except (Error E) Record) :=
  if (ipLiteral name).isSome then ([], [])
  else
    match exchange domain doh name .https with
    | (events, .ok answer) => (events, answer.endpoints.map .ok)
    | (events, .error e) => (events, [.error (.resolve e)])

def lookup (name : Text) (rtype : Nat) : List (Event T) × List (Except (Error E) Record) :=
  if rtype = Query.a.rtype then addrs domain doh name .v4
  else if rtype = Query.aaaa.rtype then addrs domain doh name .v6
  else if rtype = Query.https.rtype then endpoints domain doh name
  else ([], [])

end lookups
/-! ## What an answer is -/

section answers
variable (domain : Domain N D)

/-- What the client's rules make of a record of the type that was asked for. -/
inductive Reads : Query → ParsedRecord N D → Option Record → Prop
  | a {record : ParsedRecord N D} {octets : List Nat} (data : domain.a record.data = .ok octets) :
      Reads .a record (some ⟨some (.fromSecs record.ttl), .a octets⟩)
  | aaaa {record : ParsedRecord N D} {groups : List Nat}
      (data : domain.aaaa record.data = .ok groups) :
      Reads .aaaa record (some ⟨some (.fromSecs record.ttl), .aaaa groups⟩)
  | https {record : ParsedRecord N D} {data : HttpsData} {binding : RawBinding}
      {found : Option Record} (read : domain.https record.data = .ok data)
      (bound : bindingFromDecoded data (domain.display record.owner) (.fromSecs record.ttl) =
        .ok binding)
      (usable : endpointFromBinding binding = .ok found) : Reads .https record found

def Wanted (query : Query) (record : ParsedRecord N D) : Prop :=
  record.rclass = classIn ∧ record.rtype = query.rtype

/-- What a record of the section adds to the answer. -/
inductive Adds (query : Query) (record : ParsedRecord N D) : Option Record → Prop
  | other (other : ¬ Wanted query record) : Adds query record none
  | wanted {found : Option Record} (wanted : Wanted query record)
      (reads : Reads domain query record found)
      (ttl : ∀ own ∈ found, own.ttl = some (.fromSecs record.ttl)) : Adds query record found

/-- All of the section can be read, and what its records add stands in their order. -/
def Section (query : Query) (items : List (Except Text (ParsedRecord N D)))
    (rs : List Record) : Prop :=
  ∃ records founds, items = records.map .ok ∧ List.Forall₂ (Adds domain query) records founds ∧
    rs = founds.reduceOption

structure Question.Asks (name : Text) (query : Query) (question : Question N) : Prop where
  name : ∃ asked, domain.vecFromStr name = .ok asked ∧
    SameName (domain.labels question.qname) (domain.labels asked)
  qtype : question.qtype = query.rtype
  qclass : question.qclass = classIn

/-- The message is a whole response to the question. -/
structure Message.Responds (name : Text) (query : Query) (dns : Message N D) : Prop where
  qr : dns.qr = true
  tc : dns.tc = false
  question : ∃ question, dns.question = some (.ok question) ∧ question.Asks domain name query

inductive Message.Answers (query : Query) (dns : Message N D) : List Record → Prop
  | noError {items : List (Except Text (ParsedRecord N D))} {rs : List Record}
      (rcode : dns.rcode = noError) (answer : dns.answer = .ok items)
      (records : Section domain query items rs) : Message.Answers query dns rs
  | nxDomain (rcode : dns.rcode = nxDomain) : Message.Answers query dns []

structure Response.Carries (response : Response) (bytes : List UInt8) : Prop where
  status : response.parts.status = 200
  contentType : ∃ value text, response.parts.headers.get HeaderName.contentType = some value ∧
    value.toStr = some text ∧
    (Text.trim (text.takeWhile (· ≠ ';'))).toAsciiLowercase = dnsMessage
  body : ∃ frames : List Frame, response.body = frames.map .ok ∧ bytes = frames.flatMap Frame.bytes
  size : bytes.length ≤ maxResponseBytes

/-- The exchange for the name brings these records. -/
def Answered (doh : Doh E T) (name : Text) (query : Query) (rs : List Record) : Prop :=
  ∃ body response bytes dns, encodeQuery (E := E) domain name query = .ok body ∧
    doh.executeSend (doh.request body) = .ok response ∧ response.Carries bytes ∧
    domain.fromSlice bytes = .ok dns ∧ dns.Responds domain name query ∧
    dns.Answers domain query rs

end answers

def Answer.of : Query → List Record → Answer
  | .https, endpoints => ⟨[], endpoints⟩
  | _, addrs => ⟨addrs, []⟩

/-! ### The steps of the decoding -/

section decoding
variable {domain : Domain N D} {name : Text} {query : Query} {rs : List Record}

theorem vecFromStr_ok_iff {qname : N} :
    vecFromStr (E := E) domain name = .ok qname ↔ domain.vecFromStr name = .ok qname := by
  unfold vecFromStr
  cases domain.vecFromStr name <;> simp

theorem checkQuestion_ok_iff (documented : domain.Documented) {dns : Message N D} :
    checkQuestion (E := E) domain dns name query = .ok () ↔
      ∃ question, dns.question = some (.ok question) ∧ question.Asks domain name query := by
  unfold checkQuestion
  simp only [bind_ok_iff, vecFromStr_ok_iff]
  constructor
  · rintro ⟨wanted, asked, checked⟩
    cases first : dns.question with
    | none => simp [first] at checked
    | some parsed =>
        cases parsed with
        | error reason => simp [first] at checked
        | ok question =>
            simp only [first, guard_ok_iff, not_or, Decidable.not_not, Bool.not_eq_true',
              Bool.not_eq_false] at checked
            obtain ⟨⟨same, qtype, qclass⟩, -⟩ := checked
            exact ⟨question, rfl, ⟨wanted, asked, (documented.nameEq _ _).mp same⟩, qtype, qclass⟩
  · rintro ⟨question, first, ⟨wanted, asked, same⟩, qtype, qclass⟩
    refine ⟨wanted, asked, ?_⟩
    simp [first, (documented.nameEq _ _).mpr same, qtype, qclass]

/-! ### The records of the section -/

theorem section_nil : Section domain query [] rs ↔ rs = [] := by
  constructor
  · rintro ⟨records, founds, all, adds, rfl⟩
    obtain rfl : records = [] := by simpa using all.symm
    cases adds
    rfl
  · rintro rfl
    exact ⟨[], [], rfl, .nil, rfl⟩

theorem section_error {reason : Text} {items : List (Except Text (ParsedRecord N D))} :
    ¬ Section domain query (.error reason :: items) rs := by
  rintro ⟨records, founds, all, -⟩
  cases records <;> simp at all

theorem section_ok {record : ParsedRecord N D} {items : List (Except Text (ParsedRecord N D))} :
    Section domain query (.ok record :: items) rs ↔
      ∃ found more, Adds domain query record found ∧ Section domain query items more ∧
        rs = found.toList ++ more := by
  have front (found : Option Record) (founds : List (Option Record)) :
      (found :: founds).reduceOption = found.toList ++ founds.reduceOption := by
    cases found <;> simp
  constructor
  · rintro ⟨records, founds, all, adds, rfl⟩
    cases records with
    | nil => simp at all
    | cons first records =>
        simp only [List.map_cons, List.cons.injEq, Except.ok.injEq] at all
        obtain ⟨rfl, rfl⟩ := all
        cases adds with
        | cons head tail => exact ⟨_, _, head, ⟨records, _, rfl, tail, rfl⟩, front _ _⟩
  · rintro ⟨found, more, head, ⟨records, founds, rfl, tail, rfl⟩, rfl⟩
    exact ⟨record :: records, found :: founds, rfl, .cons head tail, (front _ _).symm⟩

/-- An endpoint lives as long as the record it comes from. -/
theorem endpointFromBinding_ttl {binding : RawBinding} {own : Record}
    (usable : endpointFromBinding binding = .ok (some own)) : own.ttl = binding.ttl := by
  by_cases service : binding.priority = 0
  · unfold endpointFromBinding at usable
    rw [if_pos service] at usable
    split at usable
    · cases usable
    · cases usable
      rfl
  · rw [RawBinding.endpointFromBinding_service service] at usable
    split at usable
    · cases usable
      rfl
    · split at usable <;> cases usable

theorem bindingFromDecoded_ttl {data : HttpsData} {owner : Text} {ttl : Duration}
    {binding : RawBinding} (bound : bindingFromDecoded data owner ttl = .ok binding) :
    binding.ttl = some ttl := by
  obtain ⟨params, -, made⟩ := bind_ok_iff.mp bound
  cases made
  rfl

theorem Reads.ttl {record : ParsedRecord N D} {found : Option Record}
    (reads : Reads domain query record found) :
    ∀ own ∈ found, own.ttl = some (.fromSecs record.ttl) := by
  rintro own (rfl : found = some own)
  cases reads with
  | a => rfl
  | aaaa => rfl
  | https read bound usable =>
      rw [endpointFromBinding_ttl usable, bindingFromDecoded_ttl bound]

section
variable {α : Type} {parse : D → Except Text α}
  {take : ParsedRecord N α → Except (DohError E) (Option Record)}

/-- The loop takes what the rules read, if it does so of each record of the type. -/
theorem pushAll_limitToIn_ok_iff
    (rules : ∀ record found, Reads domain query record found ↔ ∃ data,
      parse record.data = .ok data ∧
        take ⟨record.owner, record.rtype, record.rclass, record.ttl, data⟩ = .ok found)
    (items : List (Except Text (ParsedRecord N D))) :
    pushAll take (limitToIn query.rtype parse items) = .ok rs ↔ Section domain query items rs := by
  induction items generalizing rs with
  | nil => simp [limitToIn, pushAll, section_nil, eq_comm]
  | cons item items ih =>
      cases item with
      | error reason =>
          simp [limitToIn, pushAll, section_error]
      | ok record =>
          rw [section_ok]
          by_cases wanted : record.rclass = classIn ∧ record.rtype = query.rtype
          · have here : limitToIn query.rtype parse (.ok record :: items) =
                ((parse record.data).map fun data =>
                  ⟨record.owner, record.rtype, record.rclass, record.ttl, data⟩) ::
                  limitToIn query.rtype parse items := by
              simp [limitToIn, wanted]
            rw [here]
            cases read : parse record.data with
            | error reason =>
                simp only [Except.map, pushAll, reduceCtorEq, false_iff]
                rintro ⟨found, more, adds, -⟩
                cases adds with
                | other other => exact other wanted
                | wanted _ reads =>
                    obtain ⟨data, there, -⟩ := (rules _ _).mp reads
                    cases read.symm.trans there
            | ok data =>
                simp only [Except.map, pushAll, bind_ok_iff, ih]
                constructor
                · rintro ⟨found, taken, more, rest, pushed⟩
                  have reads := (rules record found).mpr ⟨data, read, taken⟩
                  cases pushed
                  exact ⟨found, more, .wanted wanted reads reads.ttl, rest, rfl⟩
                · rintro ⟨found, more, adds, rest, rfl⟩
                  cases adds with
                  | other other => exact absurd wanted other
                  | wanted _ reads =>
                      obtain ⟨data', there, taken⟩ := (rules _ _).mp reads
                      cases read.symm.trans there
                      exact ⟨found, taken, more, rest, rfl⟩
          · have skipped : limitToIn query.rtype parse (.ok record :: items) =
                limitToIn query.rtype parse items := by
              simp [limitToIn, wanted]
            rw [skipped, ih]
            constructor
            · intro rest
              exact ⟨none, rs, .other wanted, rest, rfl⟩
            · rintro ⟨found, more, adds, rest, rfl⟩
              cases adds with
              | other => exact rest
              | wanted held => exact absurd held wanted

end

theorem addrs_a_ok_iff (items : List (Except Text (ParsedRecord N D))) :
    pushAll (E := E) (addrRecord .a) (limitToIn Query.a.rtype domain.a items) = .ok rs ↔
      Section domain .a items rs := by
  apply pushAll_limitToIn_ok_iff
  intro record found
  constructor
  · intro reads
    cases reads with
    | a data => exact ⟨_, data, rfl⟩
  · rintro ⟨octets, data, taken⟩
    cases taken
    exact .a data

theorem addrs_aaaa_ok_iff (items : List (Except Text (ParsedRecord N D))) :
    pushAll (E := E) (addrRecord .aaaa) (limitToIn Query.aaaa.rtype domain.aaaa items) = .ok rs ↔
      Section domain .aaaa items rs := by
  apply pushAll_limitToIn_ok_iff
  intro record found
  constructor
  · intro reads
    cases reads with
    | aaaa data => exact ⟨_, data, rfl⟩
  · rintro ⟨groups, data, taken⟩
    cases taken
    exact .aaaa data

theorem httpsRecord_ok_iff {record : ParsedRecord N HttpsData} {found : Option Record} :
    httpsRecord (E := E) domain record = .ok found ↔ ∃ binding,
      bindingFromDecoded record.data (domain.display record.owner) (.fromSecs record.ttl) =
        .ok binding ∧ endpointFromBinding binding = .ok found := by
  unfold httpsRecord
  cases bindingFromDecoded record.data (domain.display record.owner) (.fromSecs record.ttl) with
  | error reason => simp
  | ok binding =>
      cases usable : endpointFromBinding binding with
      | error refused => cases refused; simp [usable]
      | ok endpoint => simp [usable]

theorem endpoints_ok_iff (items : List (Except Text (ParsedRecord N D))) :
    pushAll (E := E) (httpsRecord domain) (limitToIn Query.https.rtype domain.https items) =
        .ok rs ↔ Section domain .https items rs := by
  apply pushAll_limitToIn_ok_iff
  intro record found
  constructor
  · intro reads
    cases reads with
    | https read bound usable => exact ⟨_, read, httpsRecord_ok_iff.mpr ⟨_, bound, usable⟩⟩
  · rintro ⟨data, read, taken⟩
    obtain ⟨binding, bound, usable⟩ := httpsRecord_ok_iff.mp taken
    exact .https read bound usable

/-! ### The response -/

theorem decodeSection_ok_iff {items : List (Except Text (ParsedRecord N D))} {answer : Answer} :
    decodeSection (E := E) domain query items = .ok answer ↔
      ∃ rs, Section domain query items rs ∧ .of query rs = answer := by
  cases query <;> simp only [decodeSection, bind_ok_iff, addrs_a_ok_iff, addrs_aaaa_ok_iff,
    endpoints_ok_iff, pure, Except.pure, Except.ok.injEq, Answer.of]

theorem decodeAnswer_ok_iff (documented : domain.Documented) {body : List UInt8}
    {answer : Answer} :
    decodeAnswer (E := E) domain body name query = .ok answer ↔
      ∃ dns rs, domain.fromSlice body = .ok dns ∧ dns.Responds domain name query ∧
        dns.Answers domain query rs ∧ .of query rs = answer := by
  unfold decodeAnswer
  simp only [bind_ok_iff, mapError_ok_iff, guard_ok_iff, checkQuestion_ok_iff documented]
  constructor
  · rintro ⟨dns, parsed, qr, tc, -, question, verdict⟩
    have responds : dns.Responds domain name query :=
      ⟨by simpa using qr, by simpa using tc, question⟩
    by_cases ok : dns.rcode = noError
    · rw [if_pos ok] at verdict
      obtain ⟨items, walked, read⟩ := bind_ok_iff.mp verdict
      obtain ⟨rs, records, rfl⟩ := decodeSection_ok_iff.mp read
      exact ⟨dns, rs, parsed, responds, .noError ok (mapError_ok_iff.mp walked) records, rfl⟩
    · rw [if_neg ok] at verdict
      by_cases absent : dns.rcode = nxDomain
      · rw [if_pos absent] at verdict
        cases verdict
        exact ⟨dns, [], parsed, responds, .nxDomain absent, by cases query <;> rfl⟩
      · rw [if_neg absent] at verdict
        cases verdict
  · rintro ⟨dns, rs, parsed, responds, answers, rfl⟩
    refine ⟨dns, parsed, by simp [responds.qr], by simp [responds.tc], (), responds.question, ?_⟩
    cases answers with
    | noError ok walked records =>
        rw [if_pos ok]
        exact bind_ok_iff.mpr ⟨_, mapError_ok_iff.mpr walked,
          decodeSection_ok_iff.mpr ⟨rs, records, rfl⟩⟩
    | nxDomain absent =>
        have other : dns.rcode ≠ noError := by rw [absent]; decide
        rw [if_neg other, if_pos absent]
        cases query <;> rfl

theorem collectLimited_ok_iff {limit : Nat} {frames : List (Except Text Frame)}
    {bytes : List UInt8} :
    collectLimited limit frames = .ok bytes ↔
      (∃ whole : List Frame, frames = whole.map .ok ∧ bytes = whole.flatMap Frame.bytes) ∧
        bytes.length ≤ limit := by
  induction frames generalizing limit bytes with
  | nil =>
      rw [collectLimited]
      constructor
      · rintro ⟨⟩
        exact ⟨⟨[], rfl, rfl⟩, Nat.zero_le _⟩
      · rintro ⟨⟨whole, all, rfl⟩, -⟩
        obtain rfl : whole = [] := by simpa using all.symm
        rfl
  | cons item frames ih =>
      cases item with
      | error reason =>
          rw [collectLimited]
          constructor
          · rintro ⟨⟩
          · rintro ⟨⟨whole, all, -⟩, -⟩
            cases whole <;> simp at all
      | ok frame =>
          rw [collectLimited, guard_ok_iff, map_ok_iff]
          constructor
          · rintro ⟨fits, rest, collected, rfl⟩
            obtain ⟨⟨whole, rfl, rfl⟩, short⟩ := ih.mp collected
            refine ⟨⟨frame :: whole, rfl, rfl⟩, ?_⟩
            rw [List.length_append]
            omega
          · rintro ⟨⟨whole, all, rfl⟩, short⟩
            cases whole with
            | nil => simp at all
            | cons first whole =>
                simp only [List.map_cons, List.cons.injEq, Except.ok.injEq] at all
                obtain ⟨rfl, rfl⟩ := all
                rw [List.flatMap_cons, List.length_append] at short
                refine ⟨by omega, _, ih.mpr ⟨⟨whole, rfl, rfl⟩, ?_⟩, rfl⟩
                omega

theorem essence_eq_some_iff {headers : HeaderMap HeaderValue} {kind : Text} :
    essence headers = some kind ↔ ∃ value text,
      headers.get HeaderName.contentType = some value ∧ value.toStr = some text ∧
        (Text.trim (text.takeWhile (· ≠ ';'))).toAsciiLowercase = kind := by
  simp only [essence, Option.map_eq_some_iff, Option.bind_eq_some_iff]
  constructor
  · rintro ⟨text, ⟨value, first, read⟩, same⟩
    exact ⟨value, text, first, read, same⟩
  · rintro ⟨value, text, first, read, same⟩
    exact ⟨text, ⟨value, first, read⟩, same⟩

theorem readResponse_ok_iff (documented : domain.Documented) {response : Response}
    {answer : Answer} :
    readResponse (E := E) domain response name query = .ok answer ↔
      ∃ bytes dns rs, response.Carries bytes ∧ domain.fromSlice bytes = .ok dns ∧
        dns.Responds domain name query ∧ dns.Answers domain query rs ∧ .of query rs = answer := by
  unfold readResponse
  simp only [guard_ok_iff, bind_ok_iff, mapError_ok_iff, collectLimited_ok_iff, not_not,
    essence_eq_some_iff, decodeAnswer_ok_iff documented]
  constructor
  · rintro ⟨status, kind, bytes, ⟨whole, size⟩, dns, rs, rest⟩
    exact ⟨bytes, dns, rs, ⟨status, kind, whole, size⟩, rest⟩
  · rintro ⟨bytes, dns, rs, ⟨status, kind, whole, size⟩, rest⟩
    exact ⟨status, kind, bytes, ⟨whole, size⟩, dns, rs, rest⟩

/-- What the exchange comes to is what the response carries, or a failure. -/
theorem exchange_ok_iff (documented : domain.Documented) (doh : Doh E T) {answer : Answer} :
    (exchange domain doh name query).2 = .ok answer ↔
      ∃ rs, Answered domain doh name query rs ∧ .of query rs = answer := by
  unfold exchange
  cases encoded : encodeQuery (E := E) domain name query with
  | error e =>
      simp only [reduceCtorEq, false_iff]
      rintro ⟨rs, ⟨body, response, bytes, dns, there, -⟩, -⟩
      cases encoded.symm.trans there
  | ok body =>
      cases sent : doh.executeSend (doh.request body) with
      | error e =>
          simp only [sent, reduceCtorEq, false_iff]
          rintro ⟨rs, ⟨body', response, bytes, dns, there, came, -⟩, -⟩
          cases encoded.symm.trans there
          cases sent.symm.trans came
      | ok response =>
          simp only [sent, readResponse_ok_iff documented]
          constructor
          · rintro ⟨bytes, dns, rs, carries, parsed, responds, answers, same⟩
            exact ⟨rs, ⟨body, response, bytes, dns, encoded, sent, carries, parsed, responds,
              answers⟩, same⟩
          · rintro ⟨rs, ⟨body', response', bytes, dns, there, came, rest⟩, same⟩
            cases encoded.symm.trans there
            cases sent.symm.trans came
            exact ⟨bytes, dns, rs, rest.1, rest.2.1, rest.2.2.1, rest.2.2.2, same⟩

end decoding

/-! ## What a lookup comes to -/

/-- The questions that went to the fallback. -/
def consulted (events : List (Event T)) : List (Text × Nat) :=
  events.filterMap fun event =>
    match event with
    | .execute _ => none
    | .fallback name rtype => some (name, rtype)

def Query.ofLiteral : Query → IpAddr → List Record
  | .a, .v4 octets => [.new (.a octets)]
  | .aaaa, .v6 groups => [.new (.aaaa groups)]
  | _, _ => []

/-- Whom a failure is taken to, and what comes of it. -/
def afterFailure (doh : Doh E T) (name : Text) (query : Query) (failure : DohError E) :
    List (Text × Nat) × List (Except (Error E) Record) :=
  match query with
  | .https => ([], [.error (.resolve failure)])
  | _ =>
      ([(name, query.rtype)],
        if doh.fallback name query.rtype = [] then [.error (.resolve failure)]
        else doh.fallback name query.rtype)

section lookups
variable {domain : Domain N D} {doh : Doh E T} {name : Text} {query : Query}

theorem consulted_exchange (domain : Domain N D) (doh : Doh E T) (name : Text) (query : Query) :
    consulted (exchange domain doh name query).1 = [] := by
  unfold exchange
  cases encodeQuery (E := E) domain name query <;> rfl

theorem lookup_literal {addr : IpAddr} (literal : ipLiteral name = some addr) :
    lookup domain doh name query.rtype = ([], (query.ofLiteral addr).map .ok) := by
  cases query <;> cases addr <;>
    simp [lookup, addrs, endpoints, Query.rtype, Query.ofLiteral, literal]

section
variable (named : ipLiteral name = none)
include named

theorem addrs_named (family : Family) :
    addrs domain doh name family =
      match exchange domain doh name family.query with
      | (events, .ok answer) => (events, answer.addrs.map .ok)
      | (events, .error e) =>
          (events ++ (recover doh name family e).1, (recover doh name family e).2) := by
  cases family <;> simp [addrs, named]

theorem endpoints_named :
    endpoints domain doh name =
      match exchange domain doh name .https with
      | (events, .ok answer) => (events, answer.endpoints.map .ok)
      | (events, .error e) => (events, [.error (.resolve e)]) := by
  simp [endpoints, named]

theorem lookup_answered {rs : List Record}
    (answered : (exchange domain doh name query).2 = .ok (.of query rs)) :
    lookup domain doh name query.rtype = ((exchange domain doh name query).1, rs.map .ok) := by
  have exchanged : exchange domain doh name query =
      ((exchange domain doh name query).1, .ok (.of query rs)) := Prod.ext rfl answered
  cases query with
  | a =>
      change addrs domain doh name .v4 = _
      rw [addrs_named named, Family.query, exchanged]
      rfl
  | aaaa =>
      change addrs domain doh name .v6 = _
      rw [addrs_named named, Family.query, exchanged]
      rfl
  | https =>
      change endpoints domain doh name = _
      rw [endpoints_named named, exchanged]
      rfl

theorem addrs_failed (family : Family) {failure : DohError E}
    (failed : (exchange domain doh name family.query).2 = .error failure) :
    consulted (addrs domain doh name family).1 = [(name, family.query.rtype)] ∧
      (addrs domain doh name family).2 =
        if doh.fallback name family.query.rtype = [] then [.error (.resolve failure)]
        else doh.fallback name family.query.rtype := by
  have exchanged : exchange domain doh name family.query =
      ((exchange domain doh name family.query).1, .error failure) := Prod.ext rfl failed
  have before := consulted_exchange domain doh name family.query
  rw [addrs_named named, exchanged]
  constructor
  · change consulted (_ ++ [_]) = _
    rw [consulted, List.filterMap_append]
    rw [consulted] at before
    rw [before]
    rfl
  · simp only [recover, List.isEmpty_iff]

/-- A failure is taken to the fallback by the two address lookups alone. -/
theorem lookup_failed {failure : DohError E}
    (failed : (exchange domain doh name query).2 = .error failure) :
    consulted (lookup domain doh name query.rtype).1 = (afterFailure doh name query failure).1 ∧
      (lookup domain doh name query.rtype).2 = (afterFailure doh name query failure).2 := by
  cases query with
  | a => exact addrs_failed named .v4 failed
  | aaaa => exact addrs_failed named .v6 failed
  | https =>
      have exchanged : exchange domain doh name .https =
          ((exchange domain doh name .https).1, .error failure) := Prod.ext rfl failed
      have before := consulted_exchange domain doh name .https
      change consulted (endpoints domain doh name).1 = _ ∧ (endpoints domain doh name).2 = _
      rw [endpoints_named named, exchanged]
      exact ⟨before, rfl⟩

end
end lookups

theorem lookup_follows {domain : Domain N D} (documented : domain.Documented) (doh : Doh E T)
    (name : Text) (query : Query) :
    (∀ addr, ipLiteral name = some addr →
      lookup domain doh name query.rtype = ([], (query.ofLiteral addr).map .ok)) ∧
    (ipLiteral name = none →
      (∀ rs, Answered domain doh name query rs →
        (lookup domain doh name query.rtype).2 = rs.map .ok ∧
          consulted (lookup domain doh name query.rtype).1 = []) ∧
      ((∀ rs, ¬ Answered domain doh name query rs) →
        ∃ failure, (exchange domain doh name query).2 = .error failure ∧
          consulted (lookup domain doh name query.rtype).1 =
            (afterFailure doh name query failure).1 ∧
          (lookup domain doh name query.rtype).2 = (afterFailure doh name query failure).2)) := by
  refine ⟨fun addr literal => lookup_literal literal, fun named => ⟨?_, ?_⟩⟩
  · intro rs answered
    rw [lookup_answered named ((exchange_ok_iff documented doh).mpr ⟨rs, answered, rfl⟩)]
    exact ⟨rfl, consulted_exchange domain doh name query⟩
  · intro unanswered
    cases came : (exchange domain doh name query).2 with
    | ok answer =>
        obtain ⟨rs, answered, -⟩ := (exchange_ok_iff documented doh).mp came
        exact absurd answered (unanswered rs)
    | error failure => exact ⟨failure, rfl, lookup_failed named came⟩

/-! ### Two lookups -/

/-- Names as labels and unread octets, with what is made of a message. -/
def overOctets
    (fromSlice : List UInt8 → Except Text (Message (List (List UInt8)) (List UInt8))) :
    Domain (List (List UInt8)) (List UInt8) where
  vecFromStr name := .ok ((name.splitOn '.').map Bytes.utf8)
  labels := id
  nameEq m n := m.map (·.map Bytes.toLower) == n.map (·.map Bytes.toLower)
  display labels := ['.'].intercalate (labels.map fun l => l.map fun b => Char.ofNat b.toNat)
  displayType rtype := if rtype = 1 then ['A'] else []
  fromSlice := fromSlice
  a data := if data.length = 4 then .ok (data.map UInt8.toNat) else .error "short".toList
  aaaa _ := .error "short".toList
  https _ := .error "short".toList

theorem map_eq_map_iff {α β : Type} {f : α → β} {xs ys : List α} :
    xs.map f = ys.map f ↔ List.Forall₂ (fun x y => f x = f y) xs ys := by
  rw [← List.forall₂_eq_eq_eq, List.forall₂_map_left_iff, List.forall₂_map_right_iff]

theorem overOctets_documented
    (fromSlice : List UInt8 → Except Text (Message (List (List UInt8)) (List UInt8))) :
    (overOctets fromSlice).Documented where
  nameEq m n := by
    change (m.map (·.map Bytes.toLower) == n.map (·.map Bytes.toLower)) = true ↔ SameName m n
    rw [beq_iff_eq, map_eq_map_iff, SameName]
    simp only [map_eq_map_iff]

/-- The transport refuses every request and there is no other resolver to ask. -/
def unreachable : Doh Unit Unit where
  executeSend _ := .error ()
  endpoint := ⟨none, none, none⟩
  fallback _ _ := []
  timeouts := ()

/-- An address in place of a name is a record that no response brought. -/
theorem literal_without_response :
    (lookup (overOctets fun _ => .error "short".toList) unreachable "192.0.2.1".toList 1).2 =
        [.ok ⟨none, .a [192, 0, 2, 1]⟩] ∧
      ∀ rs, ¬ Answered (overOctets fun _ => .error "short".toList) unreachable
        "192.0.2.1".toList .a rs := by
  constructor
  · have literal : ipLiteral "192.0.2.1".toList = some (.v4 [192, 0, 2, 1]) := by decide
    rw [show (1 : Nat) = Query.a.rtype from rfl, lookup_literal literal]
    rfl
  · rintro rs ⟨body, response, bytes, dns, -, sent, -⟩
    cases sent

/-- A response to the question for the addresses of `a`, with one that lives for a minute. -/
def replyOctets : List UInt8 :=
  [0, 0, 129, 128, 0, 1, 0, 1, 0, 0, 0, 0, 1, 97, 0, 0, 1, 0, 1, 192, 12, 0, 1, 0, 1, 0, 0, 0, 60,
    0, 4, 192, 0, 2, 1]

def reply : Message (List (List UInt8)) (List UInt8) where
  qr := true
  tc := false
  rcode := 0
  question := some (.ok ⟨[[97]], 1, 1⟩)
  answer := .ok [.ok ⟨[[97]], 1, 1, 60, [192, 0, 2, 1]⟩]

def replying : Doh Unit Unit where
  executeSend _ := .ok
    ⟨⟨200, .http2, [(HeaderName.contentType, Bytes.ascii "Application/DNS-message; a=b")]⟩,
      [.ok (.data replyOctets)]⟩
  endpoint := ⟨none, none, none⟩
  fallback _ _ := []
  timeouts := ()

def decoding : Domain (List (List UInt8)) (List UInt8) :=
  overOctets fun body => if body = replyOctets then .ok reply else .error "short".toList

/-- The name is asked for in another case than the one it is answered in. -/
theorem lookup_follows_reply :
    (lookup decoding replying ['A'] Query.a.rtype).2 =
        [.ok ⟨some (.fromSecs 60), .a [192, 0, 2, 1]⟩] ∧
      consulted (lookup decoding replying ['A'] Query.a.rtype).1 = [] := by
  have own : Adds decoding .a ⟨[[97]], 1, 1, 60, [192, 0, 2, 1]⟩
      (some ⟨some (.fromSecs 60), .a [192, 0, 2, 1]⟩) :=
    .wanted ⟨rfl, rfl⟩ (.a rfl) (by rintro own ⟨⟩; rfl)
  have records : Section decoding .a [.ok ⟨[[97]], 1, 1, 60, [192, 0, 2, 1]⟩]
      [⟨some (.fromSecs 60), .a [192, 0, 2, 1]⟩] :=
    ⟨[⟨[[97]], 1, 1, 60, [192, 0, 2, 1]⟩], [some ⟨some (.fromSecs 60), .a [192, 0, 2, 1]⟩], rfl,
      .cons own .nil, by simp⟩
  have question : (⟨[[97]], 1, 1⟩ : Question (List (List UInt8))).Asks decoding ['A'] .a :=
    ⟨⟨[[65]], by decide, .cons (.cons (by decide) .nil) .nil⟩, rfl, rfl⟩
  have answered : Answered decoding replying ['A'] .a
      [⟨some (.fromSecs 60), .a [192, 0, 2, 1]⟩] := by
    refine ⟨_, _, replyOctets, reply, rfl, rfl,
      ⟨rfl, ⟨_, _, rfl, rfl, by decide⟩, ⟨[.data replyOctets], rfl, rfl⟩,
        by simp [replyOctets, maxResponseBytes]⟩,
      by simp [decoding, overOctets], ⟨rfl, rfl, _, rfl, question⟩, .noError rfl rfl records⟩
  have named : ipLiteral ['A'] = none := by decide +kernel
  exact ((lookup_follows (overOctets_documented _) replying ['A'] .a).2 named).1 _ answered

end HClient.DnsDoh
