import HClient.Body.Coding
import HClient.Body.Decompressed
import HClient.Core.Http

/-!
# Asking for a coding and reversing the one that came

`decompress::negotiate` and `decoder_for`, and what `Client::execute_with` makes of a response with
them. A response is labelled truthfully where its `Content-Encoding` lines, taken together as one
list, name what is still applied to the body handed over.
-/
namespace HClient.Body

open Coding

structure Capabilities where
  responseDecompression : Bool
  forbiddenRequestHeaders : List HeaderName

variable {σ D : Type}

/-- The codings that may be reversed on the response, and the request's headers as they are sent. -/
def negotiate (method : Method) (headers : HeaderMap HeaderValue) (caps : Capabilities)
    (available : List (ContentCoding D)) : List (ContentCoding D) × HeaderMap HeaderValue :=
  if caps.responseDecompression then ([], headers)
  else if available.isEmpty then ([], headers)
  else if headers.containsKey .range then ([], headers)
  else if method = .head then ([], headers)
  else if headers.containsKey .acceptEncoding then ([], headers)
  else if caps.forbiddenRequestHeaders.contains .acceptEncoding then (available, headers)
  else match Coding.acceptEncoding available with
    | some v => (available, headers.insert .acceptEncoding v)
    | none => (available, headers)

def decoderNamed (allowed : List (ContentCoding D)) (value : HeaderValue) : Option D :=
  value.toStr.bind fun text => (lookup allowed text.trim).map ContentCoding.decoder

def decoderFor (head : HeaderMap HeaderValue) (allowed : List (ContentCoding D)) :
    Option D × HeaderMap HeaderValue :=
  match (head.get .contentEncoding).bind (decoderNamed allowed) with
  | some decoder => (some decoder, (head.remove .contentEncoding).remove .contentLength)
  | none => (none, head)

/-- The head and the body a request is answered with, from those that came. -/
def executeWith (codings : List (ContentCoding D)) (caps : Capabilities) (method : Method)
    (headers head : HeaderMap HeaderValue) (body : σ) :
    HeaderMap HeaderValue × Decompressed σ D :=
  let (allowed, _) := negotiate method headers caps codings
  let (decoder, head) := decoderFor head allowed
  (head, .new body decoder)

/-- The bytes of a field line as characters, where each byte stands for itself. -/
def latin1 (value : HeaderValue) : Text := value.map fun b => Char.ofNat b.toNat

def isOws (c : Char) : Bool := c = ' ' || c = '\t'

def trimOws (s : Text) : Text := ((s.dropWhile isOws).reverse.dropWhile isOws).reverse

/-- The members of one line of a list-based field; empty members do not count. -/
def members (value : HeaderValue) : List Text :=
  (((latin1 value).splitOn ',').map trimOws).filter fun member => !member.isEmpty

/-- What the server says it applied: all the lines as one list. -/
def applied (head : HeaderMap HeaderValue) : List Text :=
  (head.getAll .contentEncoding).flatMap members

def Reverses (b : Decompressed σ D) : Prop := ∃ decoder fed, b.state = .decoding decoder fed

/-- Either nothing was touched, or the one coding applied is the one being reversed. -/
def Truthful (codings : List (ContentCoding D)) (head : HeaderMap HeaderValue) (body : σ)
    (handed : HeaderMap HeaderValue × Decompressed σ D) : Prop :=
  handed = (head, ⟨body, .through⟩) ∨
    ∃ c ∈ codings, ∃ name, applied head = [name] ∧ Answers c name ∧
      handed = ((head.remove .contentEncoding).remove .contentLength,
        ⟨body, .decoding c.decoder false⟩)

/-- The client does the negotiating. -/
structure Negotiates (caps : Capabilities) (method : Method) (headers : HeaderMap HeaderValue) :
    Prop where
  coded : caps.responseDecompression = false
  whole : headers.containsKey .range = false
  bodied : method ≠ .head
  ours : headers.containsKey .acceptEncoding = false

/-- Where the first line is the name of a coding, no later line names anything. -/
def OneLayer (codings : List (ContentCoding D)) (head : HeaderMap HeaderValue) : Prop :=
  ∀ line later, head.getAll .contentEncoding = line :: later →
    (∃ text, line.toStr = some text ∧ (lookup codings text.trim).isSome) →
      later.flatMap members = []

section
variable {codings : List (ContentCoding D)} {caps : Capabilities} {method : Method}
  {headers head : HeaderMap HeaderValue}

theorem negotiate_of_negotiates (h : Negotiates caps method headers) :
    (negotiate method headers caps codings).1 = codings := by
  simp only [negotiate, h.coded, h.whole, h.bodied, h.ours, Bool.false_eq_true, if_false]
  split
  · rename_i none
    exact (List.isEmpty_iff.mp none).symm
  · split
    · rfl
    · split <;> rfl

theorem negotiate_of_not (h : ¬ Negotiates caps method headers) :
    (negotiate method headers caps codings).1 = [] := by
  simp only [negotiate]
  split
  · rfl
  · rename_i coded
    split
    · rfl
    · split
      · rfl
      · rename_i whole
        split
        · rfl
        · rename_i bodied
          split
          · rfl
          · rename_i ours
            exact absurd ⟨Bool.eq_false_iff.mpr coded, Bool.eq_false_iff.mpr whole, bodied,
              Bool.eq_false_iff.mpr ours⟩ h

theorem decoderNamed_nil (value : HeaderValue) : decoderNamed ([] : List (ContentCoding D)) value =
    none := by
  rw [decoderNamed]
  cases value.toStr <;> rfl

theorem dropWhile_congr {p q : Char → Bool} {s : Text} (same : ∀ c ∈ s, p c = q c) :
    s.dropWhile p = s.dropWhile q := by
  induction s with
  | nil => rfl
  | cons c s ih =>
      obtain ⟨first, rest⟩ := List.forall_mem_cons.mp same
      rw [List.dropWhile_cons, List.dropWhile_cons, first, ih rest]

/-- In what `to_str` takes, the white space is the optional white space of fields. -/
theorem isWhitespace_of_toStr {value : HeaderValue} {text : Text} (read : value.toStr = some text)
    {c : Char} (member : c ∈ text) : Text.isWhitespace c = isOws c := by
  simp only [HeaderValue.toStr] at read
  split at read
  · rename_i visible
    cases read
    obtain ⟨b, among, rfl⟩ := List.mem_map.mp member
    have seen := List.all_eq_true.mp visible b among
    have all : ∀ n < 127, n = 9 ∨ 32 ≤ n →
        Text.isWhitespace (Char.ofNat n) = isOws (Char.ofNat n) := by decide
    rcases of_decide_eq_true seen with rfl | ⟨low, high⟩
    · rfl
    · exact all b.toNat (UInt8.lt_iff_toNat_lt.mp high) (.inr (UInt8.le_iff_toNat_le.mp low))
  · cases read

theorem trim_of_toStr {value : HeaderValue} {text : Text} (read : value.toStr = some text) :
    trimOws text = text.trim := by
  have same : ∀ c ∈ text, isOws c = Text.isWhitespace c :=
    fun c member => (isWhitespace_of_toStr read member).symm
  rw [trimOws, Text.trim, dropWhile_congr same]
  congr 1
  refine dropWhile_congr fun c member => same c ?_
  exact (List.dropWhile_sublist _).mem (List.mem_reverse.mp member)

theorem mem_trim {c : Char} {s : Text} (member : c ∈ s) : c ∈ s.trim ∨ Text.isWhitespace c := by
  rw [← List.takeWhile_append_dropWhile (p := Text.isWhitespace) (l := s), List.mem_append] at member
  rcases member with skipped | kept
  · exact .inr (List.mem_takeWhile_imp skipped)
  · rw [← List.mem_reverse,
      ← List.takeWhile_append_dropWhile (p := Text.isWhitespace) (l := List.reverse _),
      List.mem_append] at kept
    rcases kept with skipped | kept
    · exact .inr (List.mem_takeWhile_imp skipped)
    · exact .inl (List.mem_reverse.mpr kept)

/-- A line that names a coding has that name for its only member. -/
theorem members_of_lookup (valid : validate codings = .ok ()) {line : HeaderValue} {text : Text}
    {c : ContentCoding D} (read : line.toStr = some text) (found : lookup codings text.trim = some c) :
    members line = [text.trim] := by
  obtain ⟨among, answers⟩ := lookup_some found
  have token := isToken_of_answers valid among answers
  simp only [isToken, Bool.and_eq_true, Bool.not_eq_true', List.all_eq_true] at token
  have whole : latin1 line = text := by
    simp only [HeaderValue.toStr] at read
    split at read
    · exact Option.some.inj read
    · cases read
  have one : text.splitOn ',' = [text] := by
    refine List.splitOnP_eq_singleton fun x member => ?_
    refine Bool.eq_false_iff.mpr fun comma => ?_
    obtain rfl : x = ',' := by simpa using comma
    rcases mem_trim member with kept | blank
    · exact absurd (token.2 _ kept) (by decide)
    · exact absurd blank (by decide)
  rw [members, whole, one, List.map_singleton, trim_of_toStr read]
  simp [token.1]

theorem decoderFor_of_named {allowed : List (ContentCoding D)} {decoder : D}
    (named : (head.get .contentEncoding).bind (decoderNamed allowed) = some decoder) :
    decoderFor head allowed =
      (some decoder, (head.remove .contentEncoding).remove .contentLength) := by
  simp only [decoderFor, named]

theorem decoderFor_of_none {allowed : List (ContentCoding D)}
    (none : (head.get .contentEncoding).bind (decoderNamed allowed) = none) :
    decoderFor head allowed = (Option.none, head) := by
  simp only [decoderFor, none]

/-- A decoder is attached where the first line names a coding. -/
theorem named_iff {allowed : List (ContentCoding D)} {decoder : D} :
    (head.get .contentEncoding).bind (decoderNamed allowed) = some decoder ↔
      ∃ line later text c, head.getAll .contentEncoding = line :: later ∧
        line.toStr = some text ∧ lookup allowed text.trim = some c ∧ c.decoder = decoder := by
  rw [HeaderMap.get_eq_head]
  cases lines : head.getAll .contentEncoding with
  | nil => simp
  | cons line later =>
      simp only [List.head?_cons, Option.bind_some, decoderNamed, Option.bind_eq_some_iff,
        Option.map_eq_some_iff, List.cons.injEq]
      constructor
      · rintro ⟨text, read, c, found, rfl⟩
        exact ⟨line, later, text, c, ⟨rfl, rfl⟩, read, found, rfl⟩
      · rintro ⟨_, _, text, c, ⟨rfl, rfl⟩, read, found, rfl⟩
        exact ⟨text, read, c, found, rfl⟩

theorem executeWith_of_not (h : ¬ Negotiates caps method headers) (body : σ) :
    executeWith codings caps method headers head body = (head, ⟨body, .through⟩) := by
  have none : (head.get .contentEncoding).bind (decoderNamed ([] : List (ContentCoding D))) = none := by
    cases head.get .contentEncoding with
    | none => rfl
    | some value => exact decoderNamed_nil value
  simp only [executeWith, negotiate_of_not h, decoderFor_of_none none]
  rfl

theorem executeWith_of_none (h : Negotiates caps method headers) (body : σ)
    (none : (head.get .contentEncoding).bind (decoderNamed codings) = none) :
    executeWith codings caps method headers head body = (head, ⟨body, .through⟩) := by
  simp only [executeWith, negotiate_of_negotiates h, decoderFor_of_none none]
  rfl

theorem executeWith_of_named (h : Negotiates caps method headers) (body : σ) {decoder : D}
    (named : (head.get .contentEncoding).bind (decoderNamed codings) = some decoder) :
    executeWith codings caps method headers head body =
      ((head.remove .contentEncoding).remove .contentLength, ⟨body, .decoding decoder false⟩) := by
  simp only [executeWith, negotiate_of_negotiates h, decoderFor_of_named named]
  rfl

theorem negotiates_of_reverses {body : σ}
    (reverses : Reverses (executeWith codings caps method headers head body).2) :
    Negotiates caps method headers := by
  by_contra h
  rw [executeWith_of_not h] at reverses
  obtain ⟨decoder, fed, state⟩ := reverses
  cases state

end

/-- Codings are reversed only where the client does the negotiating, and the response is labelled
truthfully, exactly where, if it does and the first line is the name of a coding, no later line
names anything. -/
theorem executeWith_truthful (codings : List (ContentCoding D)) (valid : validate codings = .ok ())
    (caps : Capabilities) (method : Method) (headers head : HeaderMap HeaderValue) (body : σ) :
    ((Reverses (executeWith codings caps method headers head body).2 →
        Negotiates caps method headers) ∧
      Truthful codings head body (executeWith codings caps method headers head body)) ↔
        (Negotiates caps method headers → OneLayer codings head) := by
  constructor
  · rintro ⟨-, truthful⟩ negotiates line later lines ⟨text, read, named⟩
    obtain ⟨c, found⟩ := Option.isSome_iff_exists.mp named
    rw [executeWith_of_named negotiates body
      (named_iff.mpr ⟨line, later, text, c, lines, read, found, rfl⟩)] at truthful
    rcases truthful with untouched | ⟨_, _, name, one, -⟩
    · cases congrArg (fun handed => handed.2.state) untouched
    · rw [applied, lines, List.flatMap_cons, members_of_lookup valid read found] at one
      exact (List.cons.inj one).2
  · intro oneLayer
    refine ⟨negotiates_of_reverses, ?_⟩
    by_cases negotiates : Negotiates caps method headers
    · cases named : (head.get .contentEncoding).bind (decoderNamed codings) with
      | none => exact .inl (executeWith_of_none negotiates body named)
      | some decoder =>
          obtain ⟨line, later, text, c, lines, read, found, rfl⟩ := named_iff.mp named
          obtain ⟨among, answers⟩ := lookup_some found
          refine .inr ⟨c, among, text.trim, ?_, answers, executeWith_of_named negotiates body named⟩
          have none := oneLayer negotiates line later lines ⟨text, read, by rw [found]; rfl⟩
          rw [applied, lines, List.flatMap_cons, members_of_lookup valid read found, none]
          rfl
    · exact .inl (executeWith_of_not negotiates body)

theorem executeWith_truthful_gzip :
    Truthful (builtin 0 1 2 3) [(.contentEncoding, .ofAscii "X-Gzip"), (.contentLength, .ofAscii "9")]
      () (executeWith (builtin 0 1 2 3) ⟨false, []⟩ .get []
        [(.contentEncoding, .ofAscii "X-Gzip"), (.contentLength, .ofAscii "9")] ()) := by
  refine ((executeWith_truthful (builtin 0 1 2 3) rfl ⟨false, []⟩ .get [] _ ()).mpr ?_).2
  rintro - line later lines -
  cases lines
  rfl

/-- Two layers on two lines: the first is reversed, and both labels are gone. -/
theorem second_layer_unlabelled :
    ¬ Truthful (builtin 0 1 2 3)
      [(.contentEncoding, .ofAscii "gzip"), (.contentEncoding, .ofAscii "br")] ()
      (executeWith (builtin 0 1 2 3) ⟨false, []⟩ .get []
        [(.contentEncoding, .ofAscii "gzip"), (.contentEncoding, .ofAscii "br")] ()) := by
  have handed : executeWith (builtin 0 1 2 3) ⟨false, []⟩ .get []
      [(.contentEncoding, .ofAscii "gzip"), (.contentEncoding, .ofAscii "br")] () =
        ([], ⟨(), .decoding 2 false⟩) := rfl
  have two : applied [(.contentEncoding, .ofAscii "gzip"), (.contentEncoding, .ofAscii "br")] =
      ["gzip".toList, "br".toList] := by decide
  rw [handed]
  rintro (untouched | ⟨_, _, name, one, -⟩)
  · cases congrArg Prod.fst untouched
  · rw [two] at one
    cases one

end HClient.Body
