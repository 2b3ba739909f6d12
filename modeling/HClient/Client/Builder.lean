import HClient.Client.Body
import HClient.Core.Table
import HClient.Core.Http

/-!
# Requests as they are built

`RequestBuilder`, whose setters write bodies and header fields and keep the first error, and the
checks `send` makes before anything is sent. The setters that write extensions alone are left
out, and what follows `send` is the client's.
-/
namespace HClient.Client

/-- Why a request is not built; another's error is known by its text. All are of the same kind. -/
inductive BuildError where
  | source (text : Text)
  | colonInUsername
  | contentTypeIsNotOursToKeep
  deriving DecidableEq

/-- A boundary that was checked when it was made. -/
structure Boundary where
  text : Text
  deriving DecidableEq

namespace Boundary

def isTokenChar (c : Char) : Bool := c.isAlphanum || "!#$%&'*+-.^_\x60|~".toList.contains c

def contentType (b : Boundary) : HeaderValue :=
  let value := if b.text.all isTokenChar then b.text else '"' :: b.text ++ ['"']
  ("multipart/form-data; boundary=".toList ++ value).flatMap String.utf8EncodeChar

end Boundary

def formContentType : HeaderValue := .ofAscii "application/x-www-form-urlencoded"

def jsonContentType : HeaderValue := .ofAscii "application/json"

/-- How `http` reads a path with its query, and puts a URI together from its parts. -/
structure UriParser where
  pathAndQuery : Text → Except Text PathAndQuery
  fromParts : Uri → Except Text Uri

/-- A setter with what it is given: names and values as `http` converts them, pairs as they are
encoded, what a serializer made of a value, a random boundary and the form it encodes. -/
inductive Setter where
  | header (name : Except Text HeaderName) (value : Except Text HeaderValue)
  | headers (added : HeaderMap HeaderValue)
  | body (body : RequestBody)
  | multipart (boundary : Except Text Boundary) (encoded : Boundary → Except Text RequestBody)
  | query (added : Text)
  | form (encoded : List UInt8)
  | json (serialized : Except Text (List UInt8))
  | basicAuth (user password : Text)
  | bearerAuth (token : Text)

structure RequestBuilder where
  method : Method
  uri : Except BuildError Uri
  headers : HeaderMap HeaderValue
  body : RequestBody
  multipart : Option Boundary
  error : Option BuildError

/-- What is handed to the client. -/
structure BuiltRequest where
  method : Method
  uri : Uri
  headers : HeaderMap HeaderValue
  body : RequestBody

namespace RequestBuilder

def new (method : Method) (uri : Except BuildError Uri) : RequestBuilder :=
  ⟨method, uri, [], .empty, none, none⟩

/-- The first error wins. -/
def fail (b : RequestBuilder) (e : BuildError) : RequestBuilder :=
  match b.error with
  | none => { b with error := some e }
  | some _ => b

def header (b : RequestBuilder) (name : Except Text HeaderName)
    (value : Except Text HeaderValue) : RequestBuilder :=
  match b.error with
  | some _ => b
  | none =>
      match name, value with
      | .ok n, .ok v => { b with headers := b.headers.insert n v }
      | .error e, _ => { b with error := some (.source e) }
      | _, .error e => { b with error := some (.source e) }

/-- A field that is there already is not written again. -/
def labelled (b : RequestBuilder) (contentType : HeaderValue) : RequestBuilder :=
  if b.headers.containsKey HeaderName.contentType then b
  else { b with headers := b.headers.insert HeaderName.contentType contentType }

def setMultipart (b : RequestBuilder) (boundary : Except Text Boundary)
    (encoded : Boundary → Except Text RequestBody) : RequestBuilder :=
  match boundary with
  | .error e => b.fail (.source e)
  | .ok boundary =>
      match encoded boundary with
      | .ok body => { b with body, multipart := some boundary }
      | .error e => b.fail (.source e)

def query (parser : UriParser) (b : RequestBuilder) (added : Text) : RequestBuilder :=
  if added = [] then b
  else
    match b.uri with
    | .error _ => b
    | .ok uri =>
        let path := match uri.pathAndQuery with
          | some p => if p.path = [] then ['/'] else p.path
          | none => ['/']
        let joined := match uri.pathAndQuery.bind PathAndQuery.query with
          | some q => if q = [] then path ++ '?' :: added else path ++ '?' :: q ++ '&' :: added
          | none => path ++ '?' :: added
        match parser.pathAndQuery joined with
        | .error e => b.fail (.source e)
        | .ok pq =>
            match parser.fromParts { uri with pathAndQuery := some pq } with
            | .ok uri => { b with uri := .ok uri }
            | .error e => b.fail (.source e)

def form (b : RequestBuilder) (encoded : List UInt8) : RequestBuilder :=
  { b.labelled formContentType with body := .full encoded, multipart := none }

def json (b : RequestBuilder) (serialized : Except Text (List UInt8)) : RequestBuilder :=
  match serialized with
  | .ok bytes => { b.labelled jsonContentType with body := .full bytes, multipart := none }
  | .error e => b.fail (.source e)

def authorization (b : RequestBuilder) (value : Text) : RequestBuilder :=
  match HeaderValue.fromStr value with
  | some v => { b with headers := b.headers.insert HeaderName.authorization v }
  | none => b.fail (.source "failed to parse header value".toList)

def basicAuth (b : RequestBuilder) (user password : Text) : RequestBuilder :=
  if user.contains ':' then b.fail .colonInUsername
  else
    let raw := Bytes.base64 ((user ++ ':' :: password).flatMap String.utf8EncodeChar)
    b.authorization ("Basic ".toList ++ raw.map fun c => Char.ofNat c.toNat)

def set (parser : UriParser) (b : RequestBuilder) : Setter → RequestBuilder
  | .header name value => b.header name value
  | .headers added => { b with headers := b.headers.extend added }
  | .body body => { b with body, multipart := none }
  | .multipart boundary encoded => b.setMultipart boundary encoded
  | .query added => b.query parser added
  | .form encoded => b.form encoded
  | .json serialized => b.json serialized
  | .basicAuth user password => b.basicAuth user password
  | .bearerAuth token => b.authorization ("Bearer ".toList ++ token)

def setAll (parser : UriParser) (b : RequestBuilder) (setters : List Setter) : RequestBuilder :=
  setters.foldl (·.set parser) b

/-- Up to where the request is handed to the client. -/
def send (b : RequestBuilder) : Except BuildError BuiltRequest :=
  match b.error with
  | some e => .error e
  | none =>
      match b.uri with
      | .error e => .error e
      | .ok uri =>
          match b.multipart with
          | none => .ok ⟨b.method, uri, b.headers, b.body⟩
          | some boundary =>
              if b.headers.containsKey HeaderName.contentType then
                .error .contentTypeIsNotOursToKeep
              else .ok ⟨b.method, uri,
                b.headers.insert HeaderName.contentType boundary.contentType, b.body⟩

end RequestBuilder

/-! ## The label of a body -/

/-- A kind of body, as its setter leaves it. -/
inductive BodyKind where
  | plain
  | form
  | json
  | multipart (boundary : Boundary)
  deriving DecidableEq

namespace BodyKind

/-- The `Content-Type` that belongs to it. -/
def label : BodyKind → List HeaderValue
  | plain => []
  | form => [formContentType]
  | json => [jsonContentType]
  | multipart boundary => [boundary.contentType]

/-- The setter writes the label itself. -/
def isLabelled : BodyKind → Bool
  | form | json => true
  | plain | multipart _ => false

end BodyKind

namespace Setter

/-- The kind of body a setter leaves, if it sets one. -/
def kind : Setter → Option BodyKind
  | .body _ => some .plain
  | .form _ => some .form
  | .json (.ok _) => some .json
  | .multipart (.ok boundary) encoded =>
      match encoded boundary with
      | .ok _ => some (.multipart boundary)
      | .error _ => none
  | _ => none

def NamesContentType : Setter → Prop
  | .header (.ok name) _ => name = HeaderName.contentType
  | .headers added => added.getAll HeaderName.contentType ≠ []
  | _ => False

end Setter

def lastKind (setters : List Setter) : Option BodyKind := (setters.filterMap Setter.kind).getLast?

/-- The first body whose setter writes a label. -/
def firstLabelled (setters : List Setter) : Option BodyKind :=
  (setters.filterMap Setter.kind).find? BodyKind.isLabelled

/-- What is sent has the label of the last body, and nothing is refused for a label that the
caller did not name. -/
structure RightlyLabelled (setters : List Setter) (sent : Except BuildError BuiltRequest) :
    Prop where
  label : ∀ req, sent = .ok req →
    req.headers.getAll HeaderName.contentType = (lastKind setters).elim [] BodyKind.label
  accepted : sent ≠ .error .contentTypeIsNotOursToKeep

/-- The checks `send` makes before it looks at the label. -/
def RequestBuilder.Passes (b : RequestBuilder) : Prop := b.error = none ∧ ∃ uri, b.uri = .ok uri

/-! ## What the setters leave -/

def BodyKind.boundary : BodyKind → Option Boundary
  | .multipart boundary => some boundary
  | _ => none

/-- The label is that of the first body that has one, the boundary that of the last body. -/
structure Tracks (b : RequestBuilder) (kinds : List BodyKind) : Prop where
  label : b.headers.getAll HeaderName.contentType =
    (kinds.find? BodyKind.isLabelled).elim [] BodyKind.label
  multipart : b.multipart = kinds.getLast?.bind BodyKind.boundary

section Setters

variable {b b' : RequestBuilder} {kinds : List BodyKind}

theorem Tracks.keep (tracks : Tracks b kinds)
    (headers : b'.headers.getAll HeaderName.contentType =
      b.headers.getAll HeaderName.contentType)
    (multipart : b'.multipart = b.multipart) : Tracks b' (kinds ++ (none : Option BodyKind).toList) := by
  rw [Option.toList_none, List.append_nil]
  exact ⟨headers.trans tracks.label, multipart.trans tracks.multipart⟩

/-- A body without a label of its own leaves the field as it is. -/
theorem Tracks.setPlain (tracks : Tracks b kinds) {kind : BodyKind}
    (unlabelled : kind.isLabelled = false)
    (headers : b'.headers = b.headers) (multipart : b'.multipart = kind.boundary) :
    Tracks b' (kinds ++ (some kind).toList) := by
  refine ⟨?_, ?_⟩
  · rw [headers, tracks.label, List.find?_append, Option.toList_some, List.find?_cons_of_neg,
      List.find?_nil, Option.or_none]
    rw [unlabelled]
    exact Bool.false_ne_true
  · rw [multipart, Option.toList_some, List.getLast?_concat]
    rfl

theorem getAll_labelled (contentType : HeaderValue) :
    (b.labelled contentType).headers.getAll HeaderName.contentType =
      if b.headers.getAll HeaderName.contentType = [] then [contentType]
      else b.headers.getAll HeaderName.contentType := by
  unfold RequestBuilder.labelled
  split
  next has => rw [if_neg (HeaderMap.containsKey_iff.mp has)]
  next absent =>
    rw [if_pos (HeaderMap.containsKey_eq_false_iff.mp (Bool.not_eq_true _ ▸ absent))]
    exact HeaderMap.getAll_insert_self _ _ _

theorem label_of_isLabelled {kind : BodyKind} (labelled : kind.isLabelled = true) :
    ∃ contentType, kind.label = [contentType] := by
  cases kind with
  | form => exact ⟨_, rfl⟩
  | json => exact ⟨_, rfl⟩
  | plain => cases labelled
  | multipart boundary => cases labelled

/-- A body with a label writes it where no field is. -/
theorem Tracks.setLabelled (tracks : Tracks b kinds) {kind : BodyKind} {contentType : HeaderValue}
    (labelled : kind.isLabelled = true) (label : kind.label = [contentType])
    (headers : b'.headers = (b.labelled contentType).headers) (multipart : b'.multipart = none) :
    Tracks b' (kinds ++ (some kind).toList) := by
  refine ⟨?_, ?_⟩
  · rw [headers, getAll_labelled, tracks.label, List.find?_append, Option.toList_some,
      List.find?_cons_of_pos labelled]
    cases first : kinds.find? BodyKind.isLabelled with
    | none => exact label.symm
    | some k =>
        obtain ⟨c, one⟩ := label_of_isLabelled (List.find?_some first)
        rw [Option.elim_some, one, if_neg (List.cons_ne_nil c []), Option.some_or]
        exact one.symm
  · rw [multipart, Option.toList_some, List.getLast?_concat]
    cases kind with
    | form => rfl
    | json => rfl
    | plain => rfl
    | multipart boundary => cases labelled

theorem fail_headers (b : RequestBuilder) (e : BuildError) : (b.fail e).headers = b.headers := by
  unfold RequestBuilder.fail
  split <;> rfl

theorem fail_multipart (b : RequestBuilder) (e : BuildError) :
    (b.fail e).multipart = b.multipart := by
  unfold RequestBuilder.fail
  split <;> rfl

theorem Tracks.failed (tracks : Tracks b kinds) (e : BuildError) :
    Tracks (b.fail e) (kinds ++ (none : Option BodyKind).toList) :=
  tracks.keep (by rw [fail_headers]) (fail_multipart b e)

theorem Tracks.query (tracks : Tracks b kinds) (parser : UriParser) (added : Text) :
    Tracks (b.query parser added) (kinds ++ (none : Option BodyKind).toList) := by
  unfold RequestBuilder.query
  split
  · exact tracks.keep rfl rfl
  split
  · exact tracks.keep rfl rfl
  dsimp only
  split
  · exact tracks.failed _
  split
  · exact tracks.keep rfl rfl
  · exact tracks.failed _

theorem Tracks.authorization (tracks : Tracks b kinds) (value : Text) :
    Tracks (b.authorization value) (kinds ++ (none : Option BodyKind).toList) := by
  unfold RequestBuilder.authorization
  split
  · exact tracks.keep (HeaderMap.getAll_insert_of_ne (by decide)) rfl
  · exact tracks.failed _

theorem Tracks.header (tracks : Tracks b kinds) {name : Except Text HeaderName}
    {value : Except Text HeaderValue} (other : ¬ (Setter.header name value).NamesContentType) :
    Tracks (b.header name value) (kinds ++ (none : Option BodyKind).toList) := by
  unfold RequestBuilder.header
  split
  · exact tracks.keep rfl rfl
  split
  next n v =>
    have differ : HeaderName.contentType ≠ n := fun same => other same.symm
    exact tracks.keep (HeaderMap.getAll_insert_of_ne differ) rfl
  · exact tracks.keep rfl rfl
  · exact tracks.keep rfl rfl

theorem Tracks.set (tracks : Tracks b kinds) (parser : UriParser) {setter : Setter}
    (other : ¬ setter.NamesContentType) :
    Tracks (b.set parser setter) (kinds ++ setter.kind.toList) := by
  match setter with
  | .header name value => exact tracks.header other
  | .headers added =>
      have absent : added.getAll HeaderName.contentType = [] := by_contra other
      exact tracks.keep (HeaderMap.getAll_extend_of_absent absent) rfl
  | .body body => exact tracks.setPlain rfl rfl rfl
  | .multipart (.error e) encoded => exact tracks.failed _
  | .multipart (.ok boundary) encoded =>
      cases made : encoded boundary with
      | ok body =>
          have kind : (Setter.multipart (.ok boundary) encoded).kind =
              some (.multipart boundary) := by rw [Setter.kind, made]
          rw [kind, RequestBuilder.set, RequestBuilder.setMultipart, made]
          exact tracks.setPlain rfl rfl rfl
      | error e =>
          have kind : (Setter.multipart (.ok boundary) encoded).kind = none := by
            rw [Setter.kind, made]
          rw [kind, RequestBuilder.set, RequestBuilder.setMultipart, made]
          exact tracks.failed _
  | .query added => exact tracks.query parser added
  | .form encoded => exact tracks.setLabelled (rfl : BodyKind.form.isLabelled = true) rfl rfl rfl
  | .json (.ok bytes) => exact tracks.setLabelled (rfl : BodyKind.json.isLabelled = true) rfl rfl rfl
  | .json (.error e) => exact tracks.failed _
  | .basicAuth user password =>
      rw [RequestBuilder.set, RequestBuilder.basicAuth]
      split
      · exact tracks.failed _
      · exact tracks.authorization _
  | .bearerAuth token => exact tracks.authorization _

theorem Tracks.setAll (tracks : Tracks b kinds) (parser : UriParser) {setters : List Setter}
    (others : ∀ s ∈ setters, ¬ s.NamesContentType) :
    Tracks (b.setAll parser setters) (kinds ++ setters.filterMap Setter.kind) := by
  induction setters generalizing b kinds with
  | nil => rwa [List.filterMap_nil, List.append_nil]
  | cons setter setters ih =>
      obtain ⟨first, rest⟩ := List.forall_mem_cons.mp others
      have next := ih (tracks.set parser first) rest
      have kinds' : (setter :: setters).filterMap Setter.kind =
          setter.kind.toList ++ setters.filterMap Setter.kind := by
        cases kind : setter.kind with
        | none => exact List.filterMap_cons_none kind
        | some k => exact List.filterMap_cons_some kind
      rw [kinds', ← List.append_assoc]
      exact next

theorem label_inj {kind kind' : BodyKind} (labelled : kind.isLabelled = true)
    (labelled' : kind'.isLabelled = true) (same : kind.label = kind'.label) : kind = kind' := by
  have differ : formContentType ≠ jsonContentType := by decide
  cases kind with
  | plain => cases labelled
  | multipart boundary => cases labelled
  | form =>
      cases kind' with
      | form => rfl
      | json => exact absurd (List.singleton_inj.mp same) differ
      | plain => cases labelled'
      | multipart boundary => cases labelled'
  | json =>
      cases kind' with
      | form => exact absurd (List.singleton_inj.mp same) differ.symm
      | json => rfl
      | plain => cases labelled'
      | multipart boundary => cases labelled'

/-- Where the last body is no form of several parts, the labels agree exactly if the first body
with a label is of the last one's kind. -/
theorem labels_agree_iff (kinds : List BodyKind)
    (single : kinds.getLast?.bind BodyKind.boundary = none) :
    (kinds.find? BodyKind.isLabelled).elim [] BodyKind.label =
        kinds.getLast?.elim [] BodyKind.label ↔
      ∀ kind, kinds.find? BodyKind.isLabelled = some kind → kinds.getLast? = some kind := by
  cases first : kinds.find? BodyKind.isLabelled with
  | none =>
      refine iff_of_true ?_ nofun
      cases last : kinds.getLast? with
      | none => rfl
      | some k =>
          have unlabelled := List.find?_eq_none.mp first k (List.mem_of_getLast? last)
          rw [last, Option.bind_some] at single
          cases k with
          | plain => rfl
          | form => exact absurd rfl unlabelled
          | json => exact absurd rfl unlabelled
          | multipart boundary => cases single
  | some kind =>
      have labelled := List.find?_some first
      obtain ⟨contentType, one⟩ := label_of_isLabelled labelled
      constructor
      · rintro same _ ⟨⟩
        cases last : kinds.getLast? with
        | none =>
            rw [last, Option.elim_some, Option.elim_none, one] at same
            cases same
        | some k =>
            rw [last, Option.elim_some, Option.elim_some] at same
            rw [last, Option.bind_some] at single
            cases k with
            | plain => exact absurd (one.symm.trans same) (List.cons_ne_nil _ _)
            | form => rw [label_inj labelled rfl same]
            | json => rw [label_inj labelled rfl same]
            | multipart boundary => cases single
      · intro last
        rw [last kind rfl]

theorem send_of_passes {b : RequestBuilder} (passes : b.Passes) :
    ∃ uri, b.send =
      match b.multipart with
      | none => .ok ⟨b.method, uri, b.headers, b.body⟩
      | some boundary =>
          if b.headers.containsKey HeaderName.contentType then .error .contentTypeIsNotOursToKeep
          else .ok ⟨b.method, uri,
            b.headers.insert HeaderName.contentType boundary.contentType, b.body⟩ := by
  obtain ⟨fine, uri, read⟩ := passes
  refine ⟨uri, ?_⟩
  rw [RequestBuilder.send, fine, read]

end Setters

/-- Setters that name no `Content-Type` and pass every other check leave a request with the label
of its body exactly where the first form or JSON body, if there is one, is of the kind of the body
set last. -/
theorem rightlyLabelled_iff (parser : UriParser) (method : Method) (uri : Except BuildError Uri)
    {setters : List Setter} (others : ∀ s ∈ setters, ¬ s.NamesContentType)
    (passes : ((RequestBuilder.new method uri).setAll parser setters).Passes) :
    RightlyLabelled setters ((RequestBuilder.new method uri).setAll parser setters).send ↔
      ∀ kind, firstLabelled setters = some kind → lastKind setters = some kind := by
  have start : Tracks (.new method uri) [] := ⟨rfl, rfl⟩
  have tracks := start.setAll parser others
  rw [List.nil_append] at tracks
  generalize (RequestBuilder.new method uri).setAll parser setters = b at passes tracks ⊢
  obtain ⟨label, multipart⟩ := tracks
  obtain ⟨uri, sent⟩ := send_of_passes passes
  rw [sent]
  cases held : b.multipart with
  | none =>
      rw [held] at multipart
      rw [firstLabelled, lastKind, ← labels_agree_iff _ multipart.symm, ← label]
      constructor
      · intro right
        exact right.label _ rfl
      · rintro same
        refine ⟨?_, nofun⟩
        rintro _ ⟨⟩
        exact same
  | some boundary =>
      rw [held] at multipart
      have last : lastKind setters = some (.multipart boundary) := by
        obtain ⟨kind, last, of_kind⟩ := Option.bind_eq_some_iff.mp multipart.symm
        cases kind with
        | multipart boundary' => rw [lastKind, last, Option.some.inj of_kind]
        | plain => cases of_kind
        | form => cases of_kind
        | json => cases of_kind
      dsimp only
      cases first : firstLabelled setters with
      | none =>
          rw [firstLabelled] at first
          rw [first] at label
          rw [if_neg (Bool.not_eq_true _ ▸ HeaderMap.containsKey_eq_false_iff.mpr label)]
          refine iff_of_true ⟨?_, nofun⟩ nofun
          rintro _ ⟨⟩
          rw [last]
          exact HeaderMap.getAll_insert_self _ _ _
      | some kind =>
          have labelled := List.find?_some first
          obtain ⟨contentType, one⟩ := label_of_isLabelled labelled
          rw [firstLabelled] at first
          rw [first, Option.elim_some, one] at label
          have has : b.headers.containsKey HeaderName.contentType = true :=
            HeaderMap.containsKey_iff.mpr (label ▸ List.cons_ne_nil contentType [])
          rw [if_pos has]
          refine iff_of_false (fun right => right.accepted rfl) fun same => ?_
          have is_multipart := same kind rfl
          rw [last] at is_multipart
          cases is_multipart
          cases labelled

/-- Any text is read as a path, and parts are put together as they are. -/
def plainParser : UriParser := ⟨fun path => .ok ⟨path, none⟩, .ok⟩

def somewhere : Uri :=
  ⟨some .https, some ⟨none, "example.com".toList, none⟩, some ⟨['/'], none⟩⟩

/-- Some bytes, and then JSON in their place. -/
def replacedBody : List Setter := [.body (.full [1]), .json (.ok [2])]

theorem rightlyLabelled_iff_replaced :
    RightlyLabelled replacedBody
        ((RequestBuilder.new .post (.ok somewhere)).setAll plainParser replacedBody).send ↔
      ∀ kind, firstLabelled replacedBody = some kind → lastKind replacedBody = some kind :=
  rightlyLabelled_iff plainParser .post (.ok somewhere)
    (by simp [replacedBody, Setter.NamesContentType]) ⟨rfl, somewhere, rfl⟩

/-- JSON in place of a form is sent under the form's label, and a form of several parts in its
place is refused. -/
theorem form_label_stays :
    ¬ RightlyLabelled [.form [1], .json (.ok [2])]
      ((RequestBuilder.new .post (.ok somewhere)).setAll plainParser
        [.form [1], .json (.ok [2])]).send ∧
    ¬ RightlyLabelled [.form [1], .multipart (.ok ⟨['b']⟩) fun _ => .ok .empty]
      ((RequestBuilder.new .post (.ok somewhere)).setAll plainParser
        [.form [1], .multipart (.ok ⟨['b']⟩) fun _ => .ok .empty]).send := by
  constructor
  · intro right
    have label := right.label _ rfl
    revert label
    decide
  · intro right
    exact right.accepted rfl

end HClient.Client
