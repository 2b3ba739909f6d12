import HClient.Core.Mime
import HClient.Core.Poll
import HClient.Multipart.Form

/-!
# What a form is on the wire

The bytes of the segments: entities between delimiters, each with the lines of its part and no
other, and what a receiver makes of them.
-/
namespace HClient.Multipart
open Body

/-- The text that stands for a name. -/
def escaped (raw : Text) : Text :=
  raw.flatMap fun c =>
    if c = '\n' then "%0A".toList
    else if c = '\r' then "%0D".toList
    else if c = '"' then "%22".toList
    else [c]

namespace Part

/-- The text of the `filename` parameter. -/
def fileNameText (p : Part) : Text :=
  match p.fileName with
  | some f => "; filename=\"".toList ++ escaped f ++ ['"']
  | none => []

/-- The line of the content type, if there is one. -/
def typeLines (p : Part) : List (List UInt8) :=
  match p.contentType with
  | some ct => [Bytes.utf8 ("Content-Type: ".toList ++ ct)]
  | none => []

/-- The header lines of a part. -/
def lines (p : Part) : List (List UInt8) :=
  Bytes.utf8 ("Content-Disposition: form-data; name=\"".toList ++ escaped p.name ++ ['"'] ++
    p.fileNameText) :: p.typeLines

end Part

/-- The bytes that a stream puts out, up to its end. -/
def delivered : List Answer → List UInt8
  | [] => []
  | .ended :: _ => []
  | answer :: rest => answer.bytes ++ delivered rest

def RequestBody.content : RequestBody → List UInt8
  | .empty => []
  | .full bytes => bytes
  | .rewindable made => made.content
  | .streaming s => delivered s.answers

def Segment.content : Segment → List UInt8
  | .bytes b => b
  | .stream s => delivered s.answers

def Part.entity (p : Part) : Mime.Entity := ⟨p.lines, p.body.content⟩

variable {boundary : Boundary} {parts : List Part} {p : Part} {field raw out out' : Text}

theorem escaped_cons (c : Char) (raw : Text) : escaped (c :: raw) = escaped [c] ++ escaped raw := by
  simp only [escaped, List.flatMap_cons, List.flatMap_nil, List.append_nil]

theorem escapeChar_eq {c : Char} {text : Text} (ok : escapeChar field c = .ok text) :
    text = escaped [c] := by
  unfold escapeChar at ok
  unfold escaped
  rw [List.flatMap_cons, List.flatMap_nil, List.append_nil]
  by_cases feed : c = '\n'
  · rw [if_pos feed] at ok ⊢
    cases ok
    rfl
  · rw [if_neg feed] at ok ⊢
    by_cases carriage : c = '\r'
    · rw [if_pos carriage] at ok ⊢
      cases ok
      rfl
    · rw [if_neg carriage] at ok ⊢
      by_cases quote : c = '"'
      · rw [if_pos quote] at ok ⊢
        cases ok
        rfl
      · rw [if_neg quote] at ok ⊢
        split at ok
        · rename_i tab
          cases ok
          rw [tab]
        · split at ok
          · cases ok
          · cases ok
            rfl

/-- The escape writes the text that stands for a name. -/
theorem escapeInto_eq (ok : escapeInto field raw out = .ok out') : out' = out ++ escaped raw := by
  unfold escapeInto at ok
  induction raw generalizing out with
  | nil =>
      cases ok
      exact (List.append_nil _).symm
  | cons c raw ih =>
      rw [List.foldlM_cons] at ok
      cases one : escapeChar field c with
      | error e =>
          rw [one] at ok
          cases ok
      | ok text =>
          rw [one] at ok
          rw [ih ok, escapeChar_eq one, escaped_cons c raw, List.append_assoc]

theorem escaped_clean {c : Char} (broken : c = '\n' ∨ c = '\r' ∨ c = '"') (raw : Text) :
    c ∉ escaped raw := by
  intro member
  obtain ⟨d, _, there⟩ := List.mem_flatMap.mp member
  split at there
  · rcases broken with rfl | rfl | rfl <;> exact absurd there (by decide)
  · split at there
    · rcases broken with rfl | rfl | rfl <;> exact absurd there (by decide)
    · split at there
      · rcases broken with rfl | rfl | rfl <;> exact absurd there (by decide)
      · rename_i feed carriage quote
        rw [List.mem_singleton] at there
        subst there
        rcases broken with same | same | same
        · exact feed same
        · exact carriage same
        · exact quote same

theorem fromStr_eq {ct : Text} {v : HeaderValue} (ok : HeaderValue.fromStr ct = some v) :
    v = Bytes.utf8 ct ∧ ∀ b ∈ v, (32 ≤ b ∧ b ≠ 127) ∨ b = 9 := by
  unfold HeaderValue.fromStr at ok
  dsimp only at ok
  split at ok
  · rename_i fine
    cases ok
    refine ⟨rfl, fun b member => ?_⟩
    have each := List.all_eq_true.mp fine b member
    simpa using each
  · cases ok

/-! ## Entities -/

theorem utf8_crlf : Bytes.utf8 "\r\n".toList = Mime.crlf := by decide

theorem utf8_dashes : Bytes.utf8 "--".toList = Mime.dashes := by decide

/-- The bytes of a boundary. -/
def Boundary.bytes (b : Boundary) : List UInt8 := Bytes.utf8 b.text

theorem fileNameInto_eq (ok : p.fileNameInto out = .ok out') : out' = out ++ p.fileNameText := by
  unfold Part.fileNameInto at ok
  unfold Part.fileNameText
  cases named : p.fileName with
  | none =>
      rw [named] at ok
      cases ok
      exact (List.append_nil _).symm
  | some f =>
      rw [named] at ok
      obtain ⟨text, first, ok⟩ := bind_ok_iff.mp ok
      cases ok
      rw [escapeInto_eq first]
      simp only [List.append_assoc]

theorem contentTypeInto_eq (ok : p.contentTypeInto out = .ok out') :
    Bytes.utf8 out' = Bytes.utf8 out ++ p.typeLines.flatMap (· ++ Mime.crlf) ∧
      ∀ ct ∈ p.contentType, ∀ b ∈ Bytes.utf8 ct, (32 ≤ b ∧ b ≠ 127) ∨ b = 9 := by
  unfold Part.contentTypeInto at ok
  unfold Part.typeLines
  cases typed : p.contentType with
  | none =>
      rw [typed] at ok
      cases ok
      exact ⟨(List.append_nil _).symm, nofun⟩
  | some ct =>
      rw [typed] at ok
      dsimp only at ok
      cases valid : HeaderValue.fromStr ct with
      | none =>
          rw [valid] at ok
          cases ok
      | some v =>
          obtain ⟨rfl, fine⟩ := fromStr_eq valid
          simp only [valid, Bytes.fromUtf8_utf8] at ok
          cases ok
          refine ⟨?_, fun ct' same => ?_⟩
          · simp only [Bytes.utf8_append, utf8_crlf, List.flatMap_cons, List.flatMap_nil,
              List.append_nil, List.append_assoc]
          · cases same
            exact fine

/-- A header block: the delimiter, the lines of the part, and an empty one. -/
theorem head_eq {head : List UInt8} (ok : p.head boundary = .ok head) :
    head = Mime.dashes ++ boundary.bytes ++ Mime.crlf ++
      p.lines.flatMap (· ++ Mime.crlf) ++ Mime.crlf ∧
    ∀ ct ∈ p.contentType, ∀ b ∈ Bytes.utf8 ct, (32 ≤ b ∧ b ≠ 127) ∨ b = 9 := by
  obtain ⟨first, named, ok⟩ := bind_ok_iff.mp ok
  obtain ⟨second, filed, ok⟩ := bind_ok_iff.mp ok
  obtain ⟨third, typed, ok⟩ := bind_ok_iff.mp ok
  cases ok
  obtain ⟨same, fine⟩ := contentTypeInto_eq typed
  refine ⟨?_, fine⟩
  have start : Bytes.utf8 "\r\nContent-Disposition: form-data; name=\"".toList =
      Mime.crlf ++ Bytes.utf8 "Content-Disposition: form-data; name=\"".toList := by decide
  rw [Bytes.utf8_append, same, Bytes.utf8_append, fileNameInto_eq filed, escapeInto_eq named]
  unfold Part.lines Boundary.bytes
  simp only [Bytes.utf8_append, start, utf8_crlf, utf8_dashes, List.flatMap_cons, List.append_assoc]

/-- What a content type may not hold. -/
def Part.Plain (p : Part) : Prop :=
  ∀ ct ∈ p.contentType, ∀ b ∈ Bytes.utf8 ct, (32 ≤ b ∧ b ≠ 127) ∨ b = 9

theorem not_mem_utf8 {c : Char} {b : UInt8} (low : b.toNat < 128) (same : c.toNat = b.toNat)
    {s : Text} (absent : c ∉ s) : b ∉ Bytes.utf8 s := by
  intro member
  obtain ⟨d, there, code⟩ := (Bytes.mem_utf8 low s).mp member
  exact absent (Char.toNat_inj.mp (code.trans same.symm) ▸ there)

theorem fileNameText_clean {c : Char} (broken : c = '\n' ∨ c = '\r') : c ∉ p.fileNameText := by
  have either : c = '\n' ∨ c = '\r' ∨ c = '"' := broken.imp_right .inl
  unfold Part.fileNameText
  cases p.fileName with
  | none => exact List.not_mem_nil
  | some f =>
      intro member
      rcases List.mem_append.mp member with member | member
      · rcases List.mem_append.mp member with member | member
        · rcases broken with rfl | rfl <;> exact absurd member (by decide)
        · exact escaped_clean either f member
      · rcases broken with rfl | rfl <;> exact absurd member (by decide)

/-- A header line is no empty line, no line of a delimiter, and one line. -/
theorem lines_clean (plain : p.Plain) : ∀ line ∈ p.lines,
    line.head? = some 67 ∧ 13 ∉ line ∧ 10 ∉ line := by
  have clean {c : Char} (broken : c = '\n' ∨ c = '\r') :
      c ∉ "Content-Disposition: form-data; name=\"".toList ++ escaped p.name ++ ['"'] ++
        p.fileNameText := by
    intro member
    rcases List.mem_append.mp member with member | member
    · rcases List.mem_append.mp member with member | member
      · rcases List.mem_append.mp member with member | member
        · rcases broken with rfl | rfl <;> exact absurd member (by decide)
        · exact escaped_clean (broken.imp_right .inl) p.name member
      · rcases broken with rfl | rfl <;> exact absurd member (by decide)
    · exact fileNameText_clean broken member
  intro line member
  rcases List.mem_cons.mp member with rfl | member
  · exact ⟨rfl, not_mem_utf8 (by decide) (by decide : '\r'.toNat = 13) (clean (.inr rfl)),
      not_mem_utf8 (by decide) (by decide : '\n'.toNat = 10) (clean (.inl rfl))⟩
  · unfold Part.typeLines at member
    cases typed : p.contentType with
    | none =>
        rw [typed] at member
        cases member
    | some ct =>
        rw [typed, List.mem_singleton] at member
        subst member
        have fine := plain ct typed
        refine ⟨rfl, ?_, ?_⟩
        all_goals
          rw [Bytes.utf8_append, List.mem_append, not_or]
          refine ⟨by decide, fun there => absurd (fine _ there) (by decide)⟩

/-! ## The wire -/

/-- The bytes of a form. -/
def wire (boundary : Boundary) : List Part → List UInt8
  | [] => Mime.dashes ++ boundary.bytes ++ Mime.dashes ++ Mime.crlf
  | p :: rest =>
      Mime.dashes ++ boundary.bytes ++ Mime.crlf ++ p.entity.bytes ++ Mime.crlf ++
        wire boundary rest

theorem wire_following (boundary : Boundary) (parts : List Part) :
    Mime.crlf ++ wire boundary parts = Mime.delimiter boundary.bytes ++
      Mime.following boundary.bytes (parts.map Part.entity) Mime.crlf := by
  induction parts with
  | nil =>
      unfold wire Mime.delimiter
      simp only [List.map_nil, Mime.following, List.append_assoc]
  | cons p rest ih =>
      unfold wire
      simp only [List.map_cons, Mime.following, List.append_assoc]
      rw [← ih]
      unfold Mime.delimiter
      simp only [List.append_assoc]

theorem resolveIn_content {fuel : Nat} {body : RequestBody} {r : Resolved}
    (ok : resolveIn fuel body = .ok r) : r.segment.content = body.content := by
  induction fuel generalizing body with
  | zero => cases ok
  | succ fuel ih =>
      cases body with
      | empty =>
          cases ok
          rfl
      | full bytes =>
          cases ok
          rfl
      | rewindable made => exact @ih made ok
      | streaming s =>
          cases ok
          rfl

theorem segmentsOf_wire {segments : List Segment} (ok : segmentsOf boundary parts = .ok segments) :
    segments.flatMap Segment.content = wire boundary parts ∧ ∀ p ∈ parts, p.Plain := by
  induction parts generalizing segments with
  | nil =>
      cases ok
      refine ⟨?_, nofun⟩
      have finish : Bytes.utf8 "--\r\n".toList = Mime.dashes ++ Mime.crlf := by decide
      simp only [List.flatMap_cons, List.flatMap_nil, Segment.content, closing, wire,
        Bytes.utf8_append, utf8_dashes, finish, Boundary.bytes, List.append_nil, List.append_assoc]
  | cons p rest ih =>
      obtain ⟨head, headed, ok⟩ := bind_ok_iff.mp ok
      obtain ⟨r, resolved, ok⟩ := bind_ok_iff.mp ok
      obtain ⟨later, rested, ok⟩ := bind_ok_iff.mp ok
      cases ok
      obtain ⟨same, plain⟩ := head_eq headed
      obtain ⟨content, others⟩ := ih rested
      have between : Bytes.ascii "\r\n" = Mime.crlf := by decide
      refine ⟨?_, List.forall_mem_cons.mpr ⟨plain, others⟩⟩
      simp only [List.flatMap_cons, content, resolveIn_content resolved]
      simp only [Segment.content, same, between, wire, Part.entity, Mime.Entity.bytes,
        List.append_assoc]

/-! ## What a receiver makes of it -/

theorem boundary_plain (boundary : Boundary) : 13 ∉ boundary.bytes := by
  apply not_mem_utf8 (by decide) (by decide : '\r'.toNat = 13)
  intro member
  have valid := boundary.valid
  rw [isBoundary, Bool.and_eq_true] at valid
  exact absurd (List.all_eq_true.mp valid.2 '\r' member) (by decide)

theorem entity_fresh (plain : p.Plain)
    (alone : ¬ Mime.delimiter boundary.bytes <:+: Mime.crlf ++ p.body.content) :
    p.entity.Fresh boundary.bytes := by
  refine ⟨fun line member => ?_, alone⟩
  obtain ⟨first, whole, _⟩ := lines_clean plain line member
  refine ⟨?_, whole, ?_⟩
  · rintro rfl
    cases first
  · rw [first]
    decide

/-- What follows `start`, where it stands first. -/
def strip (start s : List UInt8) : Option (List UInt8) :=
  if start.isPrefixOf s then some (s.drop start.length) else none

/-- Parameters with quoted values. A value goes up to the next quote: a quoted pair is not read, its
backslash stands for itself. -/
def readParams (s : List UInt8) : Option (List (List UInt8 × List UInt8)) :=
  if s = [] then some []
  else
    match _opened : strip (Bytes.ascii "; ") s with
    | none => none
    | some s' =>
        match _named : Mime.cutAt (Bytes.ascii "=\"") s' with
        | none => none
        | some (name, quoted) =>
            match _closed : Mime.cutAt (Bytes.ascii "\"") quoted with
            | none => none
            | some (value, rest) => (readParams rest).map ((name, value) :: ·)
termination_by s.length
decreasing_by
  have first := Mime.cutAt_shortens (by decide) _named
  have second := Mime.cutAt_shortens (by decide) _closed
  have third : s'.length ≤ s.length := by
    unfold strip at _opened
    split at _opened
    · cases _opened
      rw [List.length_drop]
      omega
    · cases _opened
  omega

structure Received where
  name : List UInt8
  fileName : Option (List UInt8)
  contentType : Option (List UInt8)
  body : List UInt8
  deriving DecidableEq, Repr

def receive (e : Mime.Entity) : Option Received := do
  let disposition ← e.fields.findSome? (strip (Bytes.ascii "Content-Disposition: form-data"))
  let params ← readParams disposition
  let name ← params.lookup (Bytes.ascii "name")
  return ⟨name, params.lookup (Bytes.ascii "filename"),
    e.fields.findSome? (strip (Bytes.ascii "Content-Type: ")), e.body⟩

/-- What is to be received of a part. -/
def Part.received (p : Part) : Received :=
  ⟨Bytes.utf8 (escaped p.name), p.fileName.map fun f => Bytes.utf8 (escaped f),
    p.contentType.map Bytes.utf8, p.body.content⟩

theorem strip_append (start rest : List UInt8) : strip start (start ++ rest) = some rest := by
  rw [strip, if_pos (List.isPrefixOf_iff_prefix.mpr (List.prefix_append _ _)), List.drop_left]

theorem strip_other {start other : List UInt8} (long : start.length ≤ other.length)
    (apart : ¬ start <+: other) (rest : List UInt8) : strip start (other ++ rest) = none := by
  rw [strip, if_neg]
  intro found
  have whole := List.isPrefixOf_iff_prefix.mp found
  exact apart (List.prefix_of_prefix_length_le whole (List.prefix_append _ _) long)

theorem readParams_eq {s s' name quoted value rest : List UInt8}
    (opened : strip (Bytes.ascii "; ") s = some s')
    (named : Mime.cutAt (Bytes.ascii "=\"") s' = some (name, quoted))
    (closed : Mime.cutAt (Bytes.ascii "\"") quoted = some (value, rest)) :
    readParams s = (readParams rest).map ((name, value) :: ·) := by
  have proper : s ≠ [] := by
    rintro rfl
    cases opened
  rw [readParams, if_neg proper]
  split
  · rename_i absent
    rw [opened] at absent
    cases absent
  · rename_i found
    rw [opened] at found
    cases found
    split
    · rename_i absent
      rw [named] at absent
      cases absent
    · rename_i found
      rw [named] at found
      cases found
      split
      · rename_i absent
        rw [closed] at absent
        cases absent
      · rename_i found
        rw [closed] at found
        cases found
        rfl

theorem readParams_cons {name value : List UInt8} (plain : 61 ∉ name) (closed : 34 ∉ value)
    (rest : List UInt8) :
    readParams (Bytes.ascii "; " ++ (name ++ (Bytes.ascii "=\"" ++
      (value ++ (Bytes.ascii "\"" ++ rest))))) = (readParams rest).map ((name, value) :: ·) := by
  apply readParams_eq (strip_append _ _)
  · exact Mime.cutAt_first (a := 61) (d := [34]) (by decide) (Mime.not_infix_of_not_mem plain) _
  · exact Mime.cutAt_first (a := 34) (d := []) List.not_mem_nil
      (Mime.not_infix_of_not_mem closed) _

theorem readParams_nil : readParams [] = some [] := by
  rw [readParams, if_pos rfl]

theorem quote_absent (raw : Text) : 34 ∉ Bytes.utf8 (escaped raw) :=
  not_mem_utf8 (by decide) (by decide : '"'.toNat = 34) (escaped_clean (.inr (.inr rfl)) raw)

/-- The parameters of a part are its name and, if it has one, its file name. -/
theorem readParams_lines (p : Part) : readParams (Bytes.ascii "; " ++ (Bytes.ascii "name" ++
    (Bytes.ascii "=\"" ++ (Bytes.utf8 (escaped p.name) ++ (Bytes.ascii "\"" ++
      Bytes.utf8 p.fileNameText))))) =
    some ((Bytes.ascii "name", Bytes.utf8 (escaped p.name)) ::
      (p.fileName.map fun f => (Bytes.ascii "filename", Bytes.utf8 (escaped f))).toList) := by
  rw [readParams_cons (by decide) (quote_absent _)]
  unfold Part.fileNameText
  cases p.fileName with
  | none =>
      have none : readParams (Bytes.utf8 []) = some [] := readParams_nil
      dsimp only
      rw [none]
      rfl
  | some f =>
      have start : Bytes.utf8 "; filename=\"".toList =
          Bytes.ascii "; " ++ (Bytes.ascii "filename" ++ Bytes.ascii "=\"") := by decide
      have finish : Bytes.utf8 ['"'] = Bytes.ascii "\"" ++ [] := by decide
      dsimp only
      rw [Bytes.utf8_append, Bytes.utf8_append, start, finish]
      simp only [List.append_assoc]
      rw [readParams_cons (by decide) (quote_absent f), readParams_nil]
      rfl

theorem lines_eq (p : Part) : p.lines =
    (Bytes.ascii "Content-Disposition: form-data" ++ (Bytes.ascii "; " ++ (Bytes.ascii "name" ++
      (Bytes.ascii "=\"" ++ (Bytes.utf8 (escaped p.name) ++ (Bytes.ascii "\"" ++
        Bytes.utf8 p.fileNameText)))))) :: p.typeLines := by
  have start : Bytes.utf8 "Content-Disposition: form-data; name=\"".toList =
      Bytes.ascii "Content-Disposition: form-data" ++ (Bytes.ascii "; " ++ (Bytes.ascii "name" ++
        Bytes.ascii "=\"")) := by decide
  have finish : Bytes.utf8 ['"'] = Bytes.ascii "\"" := by decide
  simp only [Part.lines, Bytes.utf8_append, start, finish, List.append_assoc]

theorem findSome_typeLines (p : Part) :
    p.typeLines.findSome? (strip (Bytes.ascii "Content-Type: ")) =
      p.contentType.map Bytes.utf8 := by
  unfold Part.typeLines
  cases p.contentType with
  | none => rfl
  | some ct =>
      have start : Bytes.utf8 "Content-Type: ".toList = Bytes.ascii "Content-Type: " := by decide
      dsimp only
      rw [Bytes.utf8_append, start, List.findSome?_cons, strip_append]
      rfl

/-- A receiver makes of an entity what its part says. -/
theorem receive_entity (p : Part) : receive p.entity = some p.received := by
  have disposition := strip_append (Bytes.ascii "Content-Disposition: form-data")
  have other := @strip_other (Bytes.ascii "Content-Type: ")
    (Bytes.ascii "Content-Disposition: form-data") (by decide) (by decide)
  unfold receive Part.entity
  simp only [lines_eq, List.findSome?_cons, disposition, other, findSome_typeLines,
    readParams_lines, Option.bind_eq_bind, Option.bind_some]
  unfold Part.received
  cases p.fileName with
  | none => rfl
  | some f => rfl

theorem receive_entities (parts : List Part) :
    (parts.map Part.entity).mapM receive = some (parts.map Part.received) := by
  induction parts with
  | nil => rfl
  | cons p rest ih =>
      rw [List.map_cons, List.mapM_cons, receive_entity, ih]
      rfl

/-- A reader finds the parts of a form on the wire, each with its lines and its bytes. -/
theorem read_wire (plain : ∀ p ∈ parts, p.Plain)
    (alone : ∀ p ∈ parts, ¬ Mime.delimiter boundary.bytes <:+: Mime.crlf ++ p.body.content) :
    Mime.read boundary.bytes (wire boundary parts) = some (parts.map Part.entity) := by
  apply Mime.read_written (boundary_plain boundary) _ (wire_following boundary parts)
  intro e member
  obtain ⟨p, there, rfl⟩ := List.mem_map.mp member
  exact entity_fresh (plain p there) (alone p there)

end HClient.Multipart
