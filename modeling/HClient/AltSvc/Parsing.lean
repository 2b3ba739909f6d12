import HClient.AltSvc.Store
import HClient.Cache.Elements
import HClient.Core.Reading

/-!
# The `Alt-Svc` field value

`altsvc_cache::parse` and the loop of the router over the field's lines. A value is cut into its
members first, so that one that cannot be read is dropped by itself; the grammar of a member and
of the cut stand beside the parser, and the two say the same.
-/
namespace HClient.AltSvc

open Effect Kv Reading
open HClient.Bytes (ascii isDigit decimal toLower fromUtf8 utf8)
open Cache (ows token Blank Token scan elements Quotable)

/-! ## The parser -/

def defaultMaxAge : Nat := 86400

/-- Cut at the commas that are not inside a quoted string, as a list of directives is. -/
def members (value : List UInt8) : List (List UInt8) := elements value

def trimOws (s : List UInt8) : List UInt8 := (ows (ows s).reverse).reverse

def hexValue (b : UInt8) : Option UInt8 :=
  if 48 ≤ b ∧ b ≤ 57 then some (b - 48)
  else if 97 ≤ b ∧ b ≤ 102 then some (b - 87)
  else if 65 ≤ b ∧ b ≤ 70 then some (b - 55)
  else none

/-- One `%XX`. -/
def escape : List UInt8 → Option (UInt8 × List UInt8)
  | 37 :: h :: l :: i =>
      match hexValue h, hexValue l with
      | some h, some l => some (h * 16 + l, i)
      | _, _ => none
  | _ => none

/-- An escape, or a token octet other than the one that begins an escape. -/
def protocolOctet (i : List UInt8) : Option (UInt8 × List UInt8) :=
  match escape i with
  | some taken => some taken
  | none =>
      match i with
      | b :: i => if HeaderName.isTokenByte b = true ∧ b ≠ 37 then some (b, i) else none
      | [] => none

def protocolId (i : List UInt8) : Option (List UInt8 × List UInt8) :=
  if (many protocolOctet i).1 = [] then none else some (many protocolOctet i)

/-- What stands before the closing quote, unescaped. A backslash as the last octet has nothing
to escape, and the closing quote is missing then. -/
def unquoted : List UInt8 → Option (List UInt8 × List UInt8)
  | [] => none
  | 34 :: i => some ([], i)
  | 92 :: b :: i => (unquoted i).map fun (s, i) => (b :: s, i)
  | b :: i => (unquoted i).map fun (s, i) => (b :: s, i)

def quotedString : List UInt8 → Option (List UInt8 × List UInt8)
  | 34 :: i => unquoted i
  | _ => none

/-- Digits and nothing else, the largest value where it is larger. -/
def digits (v : List UInt8) : Option Nat :=
  if v = [] ∨ v.all isDigit = false then none
  else some (if decimal v < 2 ^ 64 then decimal v else 2 ^ 64 - 1)

/-- Where the last colon is. -/
def lastColon : List UInt8 → Option Nat
  | [] => none
  | b :: s =>
      match lastColon s with
      | some n => some (n + 1)
      | none => if b = 58 then some 0 else none

/-- Where the colon before the port is: behind the bracket of an address, else the last. -/
def portColon (bytes : List UInt8) : Option Nat :=
  if bytes.head? = some 91 then
    match bytes.findIdx? (· = 93) with
    | some close => if bytes[close + 1]? = some 58 then some (close + 1) else none
    | none => none
  else lastColon bytes

def altAuthority (bytes : List UInt8) : Option (Option Text × UInt16) := do
  let colon ← portColon bytes
  let port ← digits (bytes.drop (colon + 1))
  if 2 ^ 16 ≤ port ∨ port = 0 then none
  else
    let host := bytes.take colon
    if host = [] then some (none, UInt16.ofNat port)
    else (fromUtf8 host).map fun host => (some host, UInt16.ofNat port)

abbrev Parameter := List UInt8 × List UInt8

def parameter (i : List UInt8) : Option (Parameter × List UInt8) :=
  match token i with
  | some (name, 61 :: i) => (quotedString i <|> token i).map fun (value, i) => ((name, value), i)
  | _ => none

/-- A parameter behind its semicolon. -/
def nextParameter (i : List UInt8) : Option (Parameter × List UInt8) :=
  match ows i with
  | 59 :: i => parameter (ows i)
  | _ => none

def Parameter.isNamed (p : Parameter) (name : String) : Bool := p.1.map toLower = ascii name

/-- What a parameter makes of the lease and of whether it persists. -/
def setting (out : Nat × Bool) (p : Parameter) : Option (Nat × Bool) :=
  if p.isNamed "ma" then (digits p.2).map fun maxAge => (maxAge, out.2)
  else if p.isNamed "persist" then some (out.1, p.2 = ascii "1")
  else some out

def altValue (i : List UInt8) : Option (Alternative × List UInt8) :=
  match protocolId i with
  | some (protocolId, 61 :: i) => do
      let (authority, i) ← quotedString i
      let (host, port) ← altAuthority authority
      let (params, i) := many nextParameter i
      let (maxAge, persist) ← params.foldlM setting (defaultMaxAge, false)
      some (⟨protocolId, host, port, maxAge, persist⟩, ows i)
  | _ => none

/-- The whole member has to be one. -/
def alternative (member : List UInt8) : Option Alternative :=
  match altValue member with
  | some (a, []) => some a
  | _ => none

def parseMembers : List (List UInt8) → List Alternative → FieldValue
  | [], out => .alternatives out
  | member :: rest, out =>
      if trimOws member = [] then parseMembers rest out
      else if trimOws member = ascii "clear" then .clear
      else
        match alternative (trimOws member) with
        | some a => parseMembers rest (out ++ [a])
        | none => parseMembers rest out

def parse (value : List UInt8) : FieldValue := parseMembers (members value) []

def altSvc : HeaderName := "alt-svc".toList

/-- The alternatives of the lines run together, and a `clear` in any of them wins. -/
def noteLines (origin : Origin) (now : SystemTime) :
    List HeaderValue → List Alternative → StoreProgram Unit
  | [], alternatives => note origin (.alternatives alternatives) now
  | value :: values, alternatives =>
      match parse value with
      | .clear => note origin .clear now
      | .alternatives a => noteLines origin now values (alternatives ++ a)

def noteAltSvc (origin : Origin) (headers : HeaderMap HeaderValue) (now : SystemTime) :
    StoreProgram Unit :=
  match headers.getAll altSvc with
  | [] => pure ()
  | values => noteLines origin now values []

/-! ## The grammar -/

/-- An octet of a protocol name and how it is written. -/
inductive Coded : UInt8 → List UInt8 → Prop
  | plain {b : UInt8} : HeaderName.isTokenByte b = true → b ≠ 37 → Coded b [b]
  | escape {h l high low : UInt8} : hexValue h = some high → hexValue l = some low →
      Coded (high * 16 + low) [37, h, l]

/-- What a quoted string says and what stands between its quotes. -/
inductive Quoted : List UInt8 → List UInt8 → Prop
  | nil : Quoted [] []
  | byte {b : UInt8} {s t : List UInt8} : b ≠ 34 → b ≠ 92 → Quoted s t → Quoted (b :: s) (b :: t)
  | pair {s t : List UInt8} (b : UInt8) : Quoted s t → Quoted (b :: s) (92 :: b :: t)

/-- A value of a parameter and how it is written. -/
inductive Value : List UInt8 → List UInt8 → Prop
  | token {s : List UInt8} : Token s → Value s s
  | quoted {s t : List UInt8} : Quoted s t → Value s (34 :: (t ++ [34]))

inductive ParameterWritten : Parameter → List UInt8 → Prop
  | intro {before after name value written : List UInt8} : Blank before → Blank after →
      Token name → Value value written →
      ParameterWritten (name, value) (before ++ 59 :: (after ++ (name ++ 61 :: written)))

/-- The host of an authority: none, an address in its brackets, or anything that does not open
with a bracket. It is a text, and nothing else is asked of it. -/
inductive HostWritten : Option Text → List UInt8 → Prop
  | none : HostWritten none []
  | address {text : Text} {inner : List UInt8} : 93 ∉ inner → utf8 text = 91 :: (inner ++ [93]) →
      HostWritten (some text) (91 :: (inner ++ [93]))
  | name {text : Text} : text ≠ [] → (utf8 text).head? ≠ some 91 →
      HostWritten (some text) (utf8 text)

/-- Digits whose number is this. -/
def Digits (n : Nat) (v : List UInt8) : Prop := v ≠ [] ∧ v.all isDigit = true ∧ decimal v = n

inductive Authority : Option Text → UInt16 → List UInt8 → Prop
  | intro {host : Option Text} {port : UInt16} {written v : List UInt8} : HostWritten host written →
      Digits port.toNat v → port ≠ 0 → Authority host port (written ++ 58 :: v)

/-- The last parameter of a name. -/
def lastOf (params : List Parameter) (name : String) : Option (List UInt8) :=
  ((params.filter fun p => p.isNamed name).getLast?).map Prod.snd

/-- What the last `ma` says, or the largest lease there is where that is less, or a day. -/
def leaseOf (params : List Parameter) : Nat :=
  match lastOf params "ma" with
  | some v => min (decimal v) (2 ^ 64 - 1)
  | none => defaultMaxAge

def persistOf (params : List Parameter) : Bool :=
  decide (lastOf params "persist" = some (ascii "1"))

/-- An alternative and how it is written. -/
inductive AltValue : Alternative → List UInt8 → Prop
  | intro {protocolId idWritten authority quoted written : List UInt8} {host : Option Text}
      {port : UInt16} {params : List Parameter} :
      protocolId ≠ [] → Repeated Coded protocolId idWritten →
      Authority host port authority → Quoted authority quoted →
      Repeated ParameterWritten params written →
      (∀ p ∈ params, p.isNamed "ma" = true → ∃ n, Digits n p.2) →
      AltValue ⟨protocolId, host, port, leaseOf params, persistOf params⟩
        (idWritten ++ 61 :: 34 :: (quoted ++ 34 :: written))

/-- A member says this: it is written there, with blanks around it. -/
def Around (what : List UInt8 → Prop) (member : List UInt8) : Prop :=
  ∃ lead s trail, member = lead ++ (s ++ trail) ∧ Blank lead ∧ Blank trail ∧ what s

def Clears (member : List UInt8) : Prop := Around (· = ascii "clear") member

def Says (a : Alternative) (member : List UInt8) : Prop := Around (AltValue a) member

def Malformed (member : List UInt8) : Prop := ¬ Clears member ∧ ∀ a, ¬ Says a member

/-- Octets of a kind with quoted strings between them, all of them closed. -/
inductive Outside (plain : UInt8 → Prop) : List UInt8 → Prop
  | nil : Outside plain []
  | byte {b : UInt8} {s : List UInt8} : b ≠ 34 → plain b → Outside plain s → Outside plain (b :: s)
  | string {c s : List UInt8} : Quotable c → Outside plain s →
      Outside plain (34 :: (c ++ 34 :: s))

/-- A quoted string that does not end. -/
def Unended (c : List UInt8) : Prop := Quotable c ∨ ∃ front, Quotable front ∧ c = front ++ [92]

/-- A value and its members, cut at the commas outside quoted strings. -/
inductive Cut : List UInt8 → List (List UInt8) → Prop
  | last {s : List UInt8} : Outside (· ≠ 44) s → Cut s [s]
  | open_ {s c : List UInt8} : Outside (· ≠ 44) s → Unended c → Cut (s ++ 34 :: c) [s ++ 34 :: c]
  | comma {s rest : List UInt8} {more : List (List UInt8)} : Outside (· ≠ 44) s → Cut rest more →
      Cut (s ++ 44 :: rest) (s :: more)

/-- The alternatives of the members that say one, in order. -/
inductive Keeping : List (List UInt8) → List Alternative → Prop
  | nil : Keeping [] []
  | keep {member : List UInt8} {a : Alternative} {members : List (List UInt8)}
      {list : List Alternative} : Says a member → Keeping members list →
      Keeping (member :: members) (a :: list)
  | drop {member : List UInt8} {members : List (List UInt8)} {list : List Alternative} :
      Malformed member → Keeping members list → Keeping (member :: members) list

/-- What a value's members say together. -/
inductive Said (members : List (List UInt8)) : FieldValue → Prop
  | clear {member : List UInt8} : member ∈ members → Clears member → Said members .clear
  | alternatives {list : List Alternative} : (∀ member ∈ members, ¬ Clears member) →
      Keeping members list → Said members (.alternatives list)

/-- No quoted string of the line is left open. -/
def Closed (line : List UInt8) : Prop := Outside (fun _ => True) line

/-! ## The cut -/

section Cut
variable {plain : UInt8 → Prop} {s t rest c line : List UInt8} {ms : List (List UInt8)}

theorem Outside.append (first : Outside plain s) (second : Outside plain t) :
    Outside plain (s ++ t) := by
  induction first with
  | nil => exact second
  | byte quote kind _ ih => exact .byte quote kind ih
  | string quotable _ ih =>
      rw [List.cons_append, List.append_assoc, List.cons_append]
      exact .string quotable ih

theorem Outside.passes (outside : Outside (· ≠ 44) s) : Cache.Passes s := by
  induction outside with
  | nil => exact fun rest => rfl
  | byte quote comma _ ih =>
      intro rest
      rw [List.cons_append, Cache.scan_plain comma quote, ih]
      rfl
  | string quotable _ ih =>
      intro rest
      rw [List.cons_append, List.append_assoc, List.cons_append, Cache.scan_open,
        Cache.scan_quotable quotable, ih]
      simp

/-- In a quoted string that does not end no comma cuts. -/
theorem scan_unended (unended : Unended c) : scan true c = (c, []) := by
  have front : ∀ {c}, Quotable c → ∀ tail, scan true tail = (tail, []) →
      scan true (c ++ tail) = (c ++ tail, []) := by
    intro c quotable tail open_
    induction quotable with
    | nil => exact open_
    | byte quote escape _ ih => rw [List.cons_append, Cache.scan_inside quote escape, ih]
    | pair b _ ih => rw [List.cons_append, List.cons_append, Cache.scan_pair, ih]
  rcases unended with quotable | ⟨front_, quotable, rfl⟩
  · simpa using front quotable [] (Cache.scan_nil true)
  · exact front quotable [92] rfl

theorem Cut.members (cut : Cut s ms) : members s = ms := by
  induction cut with
  | last outside =>
      have whole := outside.passes []
      rw [List.append_nil, Cache.scan_nil, List.append_nil] at whole
      rw [AltSvc.members, elements, whole]
  | open_ outside unended =>
      rw [AltSvc.members, elements, outside.passes, Cache.scan_open, scan_unended unended]
  | comma outside _ ih =>
      rw [AltSvc.members, elements, outside.passes, Cache.scan_comma, List.append_nil]
      exact congrArg (_ :: ·) ih

/-- What is behind an opening quote either goes on to the end or has a closing one. -/
theorem unended_or (i : List UInt8) :
    Unended i ∨ ∃ c rest, Quotable c ∧ i = c ++ 34 :: rest := by
  fun_induction Cache.quotedBody i with
  | case1 => exact .inl (.inl .nil)
  | case2 rest => exact .inr ⟨[], rest, .nil, rfl⟩
  | case3 b rest ih =>
      rcases ih with (quotable | ⟨front, quotable, rfl⟩) | ⟨c, rest, quotable, rfl⟩
      · exact .inl (.inl (.pair b quotable))
      · exact .inl (.inr ⟨92 :: b :: front, .pair b quotable, rfl⟩)
      · exact .inr ⟨92 :: b :: c, rest, .pair b quotable, rfl⟩
  | case4 b rest quote escape ih =>
      by_cases last : b = 92
      · subst last
        cases rest with
        | nil => exact .inl (.inr ⟨[], .nil, rfl⟩)
        | cons b' rest => exact absurd rfl (escape b' rest rfl)
      rcases ih with (quotable | ⟨front, quotable, rfl⟩) | ⟨c, rest, quotable, rfl⟩
      · exact .inl (.inl (.byte quote last quotable))
      · exact .inl (.inr ⟨b :: front, .byte quote last quotable, rfl⟩)
      · exact .inr ⟨b :: c, rest, .byte quote last quotable, rfl⟩

theorem Cut.prefix_ (outside : Outside (· ≠ 44) s) (cut : Cut rest ms) :
    ∃ ms, Cut (s ++ rest) ms := by
  cases cut with
  | last more => exact ⟨_, .last (outside.append more)⟩
  | open_ more unended =>
      rw [← List.append_assoc]
      exact ⟨_, .open_ (outside.append more) unended⟩
  | comma more later =>
      rw [← List.append_assoc]
      exact ⟨_, .comma (outside.append more) later⟩

/-- Every value can be cut. -/
theorem exists_cut (value : List UInt8) : ∃ ms, Cut value ms := by
  induction size : value.length using Nat.strong_induction_on generalizing value with
  | _ n ih =>
      subst size
      cases value with
      | nil => exact ⟨_, .last .nil⟩
      | cons b i =>
          by_cases quote : b = 34
          · subst quote
            rcases unended_or i with unended | ⟨c, rest, quotable, rfl⟩
            · exact ⟨_, .open_ .nil unended⟩
            · obtain ⟨ms, cut⟩ := ih rest.length (by simp; omega) rest rfl
              have string : Outside (· ≠ 44) (34 :: (c ++ 34 :: [])) := .string quotable .nil
              have more := cut.prefix_ string
              rw [List.cons_append, List.append_assoc] at more
              exact more
          · obtain ⟨ms, cut⟩ := ih i.length (by simp) i rfl
            by_cases comma : b = 44
            · subst comma
              exact ⟨_, .comma .nil cut⟩
            · exact cut.prefix_ (.byte quote comma .nil)

theorem cut_iff (value : List UInt8) (ms : List (List UInt8)) :
    Cut value ms ↔ members value = ms := by
  constructor
  · exact Cut.members
  · rintro rfl
    obtain ⟨ms, cut⟩ := exists_cut value
    rwa [cut.members]

/-- A comma behind a line whose quoted strings are closed begins a new member. -/
theorem members_join (closed : Closed line) (rest : List UInt8) :
    members (line ++ 44 :: rest) = members line ++ members rest := by
  have cut : scan false (line ++ 44 :: rest) =
      ((scan false line).1, (scan false line).2 ++ elements rest) := by
    induction closed with
    | nil => rfl
    | @byte b s quote _ _ ih =>
        by_cases comma : b = 44
        · subst comma
          rw [List.cons_append, Cache.scan_comma, Cache.scan_comma, elements, ih]
          rfl
        · rw [List.cons_append, Cache.scan_plain comma quote, Cache.scan_plain comma quote, ih]
    | string quotable _ ih =>
        rw [List.cons_append, List.append_assoc, List.cons_append, Cache.scan_open,
          Cache.scan_quotable quotable, ih, Cache.scan_open, Cache.scan_quotable quotable]
  rw [members, members, elements, cut]
  rfl

end Cut

/-! ## What the parsers take -/

section Parsers
variable {i s rest : List UInt8}

theorem escape_sound {b : UInt8} (taken : escape i = some (b, rest)) :
    ∃ s, i = s ++ rest ∧ Coded b s := by
  unfold escape at taken
  split at taken
  next h l i =>
    split at taken
    next high low first second =>
      cases taken
      exact ⟨[37, h, l], rfl, .escape first second⟩
    · cases taken
  · cases taken

theorem protocolOctet_sound : Sound protocolOctet Coded := by
  intro i b rest taken
  unfold protocolOctet at taken
  split at taken
  next escaped =>
    cases taken
    exact escape_sound escaped
  · split at taken
    next =>
      split at taken
      next plain =>
        cases taken
        exact ⟨[b], rfl, .plain plain.1 plain.2⟩
      · cases taken
    · cases taken

theorem escape_none {b : UInt8} (other : b ≠ 37) (i : List UInt8) : escape (b :: i) = none := by
  unfold escape
  split
  next same =>
    cases same
    exact absurd rfl other
  · rfl

theorem protocolOctet_complete : Complete protocolOctet Coded fun _ => True := by
  rintro b s rest coded -
  cases coded with
  | plain kind other =>
      rw [List.singleton_append, protocolOctet, escape_none other]
      exact if_pos ⟨kind, other⟩
  | escape first second =>
      simp only [List.cons_append, List.nil_append, protocolOctet, AltSvc.escape, first, second]

theorem not_coded_nil (b : UInt8) : ¬ Coded b [] := by
  intro coded
  cases coded

theorem protocolId_sound {id : List UInt8} (taken : protocolId i = some (id, rest)) :
    id ≠ [] ∧ ∃ s, i = s ++ rest ∧ Repeated Coded id s := by
  unfold protocolId at taken
  split at taken
  · cases taken
  next some_ =>
    have read := Option.some.inj taken
    rw [read] at some_
    exact ⟨some_, many_sound protocolOctet_sound read⟩

theorem protocolId_complete {id : List UInt8} (some_ : id ≠ []) (coded : Repeated Coded id s)
    (rest : List UInt8) : protocolId (s ++ 61 :: rest) = some (id, 61 :: rest) := by
  have equals : protocolOctet (61 :: rest) = none := by
    rw [protocolOctet, escape_none (by decide)]
    exact if_neg (by decide)
  have read := many_complete protocolOctet_complete not_coded_nil (fun _ _ _ _ => trivial) coded
    trivial equals
  rw [protocolId, read, if_neg some_]

theorem unquoted_sound (taken : unquoted i = some (s, rest)) :
    ∃ t, i = t ++ 34 :: rest ∧ Quoted s t := by
  fun_induction unquoted i generalizing s with
  | case1 => cases taken
  | case2 =>
      cases taken
      exact ⟨[], rfl, .nil⟩
  | case3 b i ih =>
      obtain ⟨⟨inner, left⟩, found, same⟩ := Option.map_eq_some_iff.mp taken
      cases same
      obtain ⟨t, rfl, quoted⟩ := ih found
      exact ⟨92 :: b :: t, rfl, .pair b quoted⟩
  | case4 b i quote escape ih =>
      obtain ⟨⟨inner, left⟩, found, same⟩ := Option.map_eq_some_iff.mp taken
      cases same
      obtain ⟨t, rfl, quoted⟩ := ih found
      refine ⟨b :: t, rfl, .byte quote ?_ quoted⟩
      rintro rfl
      cases t with
      | nil => exact escape 34 _ rfl rfl
      | cons c t => exact escape c _ rfl rfl

theorem unquoted_complete {t : List UInt8} (quoted : Quoted s t) (rest : List UInt8) :
    unquoted (t ++ 34 :: rest) = some (s, rest) := by
  induction quoted with
  | nil => rfl
  | byte quote escape _ ih =>
      rw [List.cons_append, unquoted.eq_4 _ _ quote (by simp [escape]), ih]
      rfl
  | pair b _ ih =>
      rw [List.cons_append, List.cons_append, unquoted.eq_3, ih]
      rfl

theorem quotedString_sound (taken : quotedString i = some (s, rest)) :
    ∃ t, i = 34 :: (t ++ 34 :: rest) ∧ Quoted s t := by
  unfold quotedString at taken
  split at taken
  · obtain ⟨t, rfl, quoted⟩ := unquoted_sound taken
    exact ⟨t, rfl, quoted⟩
  · cases taken

/-- Neither a token octet nor the end of one. -/
def EndsToken (rest : List UInt8) : Prop := ∀ b ∈ rest.head?, HeaderName.isTokenByte b = false

theorem value_sound (taken : (quotedString i <|> token i) = some (s, rest)) :
    ∃ written, i = written ++ rest ∧ Value s written := by
  cases read : quotedString i with
  | none =>
      rw [read] at taken
      obtain ⟨rfl, isToken⟩ := Cache.token_sound taken
      exact ⟨s, rfl, .token isToken⟩
  | some found =>
      rw [read] at taken
      have same : some found = some (s, rest) := taken
      cases same
      obtain ⟨t, rfl, quoted⟩ := quotedString_sound read
      exact ⟨34 :: (t ++ [34]), by simp, .quoted quoted⟩

theorem value_complete {written : List UInt8} (value : Value s written) (ends : EndsToken rest) :
    (quotedString (written ++ rest) <|> token (written ++ rest)) = some (s, rest) := by
  cases value with
  | @quoted t quoted =>
      have whole : quotedString (34 :: (t ++ [34]) ++ rest) = some (s, rest) := by
        rw [List.cons_append, List.append_assoc]
        exact unquoted_complete quoted rest
      rw [whole]
      rfl
  | token isToken =>
      have unquoted : quotedString (s ++ rest) = none := by
        refine quotedString.eq_2 _ fun more same => ?_
        have first := Runs.forall_head_append isToken.1 isToken.2 rest 34 (by rw [same]; rfl)
        exact absurd first (by decide)
      rw [unquoted, Cache.token_complete isToken ends]
      rfl

theorem nextParameter_sound : Sound nextParameter ParameterWritten := by
  intro i p rest taken
  obtain ⟨before, split_, blank⟩ := Cache.ows_split i
  unfold nextParameter at taken
  split at taken
  next j semicolon =>
    obtain ⟨after, split', blank'⟩ := Cache.ows_split j
    unfold parameter at taken
    split at taken
    next name k named =>
      obtain ⟨same, isToken⟩ := Cache.token_sound named
      obtain ⟨⟨value, left⟩, found, whole⟩ := Option.map_eq_some_iff.mp taken
      cases whole
      obtain ⟨written, rfl, value⟩ := value_sound found
      refine ⟨_, ?_, .intro blank blank' isToken value⟩
      simp only [List.append_assoc, List.cons_append]
      rw [← same, ← split', ← semicolon, ← split_]
    · cases taken
  · cases taken

theorem token_solid (isToken : Token s) (more : List UInt8) :
    ∀ b ∈ (s ++ more).head?, ¬ (b = 32 ∨ b = 9) :=
  Cache.argument_solid (.token isToken) more

theorem nextParameter_complete : Complete nextParameter ParameterWritten EndsToken := by
  intro p s rest written ends
  obtain @⟨before, after, name, argument, written, blank, blank', isToken, value⟩ := written
  have semicolon : ows (before ++ (59 :: (after ++ (name ++ 61 :: (written ++ rest))))) =
      59 :: (after ++ (name ++ 61 :: (written ++ rest))) :=
    Cache.ows_blank blank (by simp)
  have begins : ows (after ++ (name ++ 61 :: (written ++ rest))) =
      name ++ 61 :: (written ++ rest) :=
    Cache.ows_blank blank' (token_solid isToken _)
  have named : token (name ++ 61 :: (written ++ rest)) =
      some (name, 61 :: (written ++ rest)) :=
    Cache.token_complete isToken (by simp; decide)
  simp only [List.append_assoc, List.cons_append, nextParameter, semicolon, begins, parameter,
    named, value_complete value ends]
  rfl

theorem not_parameter_nil (p : Parameter) : ¬ ParameterWritten p [] := by
  generalize empty : ([] : List UInt8) = s
  rintro ⟨⟩
  simp at empty

/-- A parameter opens with a blank or its semicolon. -/
theorem ParameterWritten.opens {p : Parameter} (written : ParameterWritten p s)
    (rest : List UInt8) : EndsToken (s ++ rest) := by
  obtain ⟨blank, _, _, _⟩ := written
  rw [List.append_assoc]
  exact Cache.blank_not_token blank (by simp; decide)

theorem Blank.nextParameter (blank : Blank s) : nextParameter s = none := by
  have nothing : ows (s ++ []) = [] := Cache.ows_blank blank (by simp)
  rw [List.append_nil] at nothing
  rw [AltSvc.nextParameter, nothing]

end Parsers

/-! ## The authority -/

section Authority
variable {s a v : List UInt8} {n : Nat}

theorem lastColon_sound (found : lastColon s = some n) :
    ∃ a v, s = a ++ 58 :: v ∧ a.length = n := by
  induction s generalizing n with
  | nil => cases found
  | cons b s ih =>
      unfold lastColon at found
      split at found
      next m later =>
        cases found
        obtain ⟨a, v, rfl, rfl⟩ := ih later
        exact ⟨b :: a, v, rfl, rfl⟩
      · split at found
        next colon =>
          cases found
          exact ⟨[], s, by rw [colon]; rfl, rfl⟩
        · cases found

theorem lastColon_none (free : 58 ∉ s) : lastColon s = none := by
  induction s with
  | nil => rfl
  | cons b s ih =>
      rw [List.mem_cons, not_or] at free
      rw [lastColon, ih free.2]
      exact if_neg fun same => free.1 same.symm

theorem lastColon_complete (free : 58 ∉ v) (a : List UInt8) :
    lastColon (a ++ 58 :: v) = some a.length := by
  induction a with
  | nil =>
      rw [List.nil_append, lastColon, lastColon_none free]
      rfl
  | cons b a ih =>
      rw [List.cons_append, lastColon, ih]
      rfl

/-- What can stand before the colon of the port. -/
def HostOctets (a : List UInt8) : Prop :=
  (∃ inner, 93 ∉ inner ∧ a = 91 :: (inner ++ [93])) ∨ a.head? ≠ some 91

theorem findIdx?_sound (found : s.findIdx? (· = 93) = some n) :
    ∃ a v, s = a ++ 93 :: v ∧ a.length = n ∧ 93 ∉ a := by
  induction s generalizing n with
  | nil => cases found
  | cons b s ih =>
      rw [List.findIdx?_cons] at found
      split at found
      next bracket =>
        cases found
        rw [of_decide_eq_true bracket]
        exact ⟨[], s, rfl, rfl, by simp⟩
      next other =>
        obtain ⟨m, later, rfl⟩ := Option.map_eq_some_iff.mp found
        obtain ⟨a, v, rfl, rfl, free⟩ := ih later
        refine ⟨b :: a, v, rfl, rfl, ?_⟩
        rw [List.mem_cons, not_or]
        exact ⟨fun same => other (decide_eq_true same.symm), free⟩

theorem findIdx?_complete (free : 93 ∉ a) (v : List UInt8) :
    (a ++ 93 :: v).findIdx? (· = 93) = some a.length := by
  induction a with
  | nil => rfl
  | cons b a ih =>
      rw [List.mem_cons, not_or] at free
      have other : ¬ decide (b = 93) = true := fun same => free.1 (of_decide_eq_true same).symm
      rw [List.cons_append, List.findIdx?_cons, if_neg other, ih free.2]
      rfl

theorem portColon_sound (found : portColon s = some n) :
    ∃ a v, s = a ++ 58 :: v ∧ a.length = n ∧ HostOctets a := by
  unfold portColon at found
  split at found
  next bracket =>
    split at found
    next close closes =>
      split at found
      next colon =>
        cases found
        obtain ⟨a, v, rfl, rfl, free⟩ := findIdx?_sound closes
        cases a with
        | nil => exact absurd bracket (by simp)
        | cons b inner =>
            rw [List.cons_append, List.head?_cons, Option.some.injEq] at bracket
            subst bracket
            have next : v[0]? = some 58 := by
              rw [List.getElem?_append_right (Nat.le_succ _)] at colon
              simpa using colon
            cases v with
            | nil => cases next
            | cons c v =>
                rw [List.getElem?_cons_zero, Option.some.injEq] at next
                subst next
                refine ⟨91 :: (inner ++ [93]), v, by simp, by simp, .inl ⟨inner, ?_, rfl⟩⟩
                exact fun member => free (List.mem_cons_of_mem _ member)
      · cases found
    · cases found
  next other =>
    obtain ⟨a, v, rfl, rfl⟩ := lastColon_sound found
    refine ⟨a, v, rfl, rfl, .inr ?_⟩
    cases a with
    | nil => simp
    | cons b a => exact other

theorem portColon_complete (octets : HostOctets a) (free : 58 ∉ v) :
    portColon (a ++ 58 :: v) = some a.length := by
  unfold portColon
  rcases octets with ⟨inner, free', rfl⟩ | other
  · have outside : (93 : UInt8) ∉ 91 :: inner := by simp [free']
    have closes := findIdx?_complete outside (58 :: v)
    have shape : 91 :: (inner ++ [93]) ++ 58 :: v = 91 :: inner ++ 93 :: 58 :: v := by simp
    have colon : (91 :: inner ++ 93 :: 58 :: v)[(91 :: inner).length + 1]? = some 58 := by
      rw [List.getElem?_append_right (Nat.le_succ _)]
      simp
    have first : (91 :: inner ++ 93 :: 58 :: v).head? = some 91 := rfl
    rw [shape, if_pos first, closes]
    simp only [colon, if_true]
    simp
  · have first : (a ++ 58 :: v).head? ≠ some 91 := by
      cases a with
      | nil => simp
      | cons b a => exact other
    rw [if_neg first, lastColon_complete free]

theorem digits_eq_some : digits v = some n ↔
    v ≠ [] ∧ v.all isDigit = true ∧ n = min (decimal v) (2 ^ 64 - 1) := by
  unfold digits
  split
  next bad =>
    constructor
    · intro none_
      cases none_
    · rintro ⟨some_, all, -⟩
      rcases bad with empty | other
      · exact absurd empty some_
      · rw [all] at other
        cases other
  next good =>
    rw [not_or, Bool.not_eq_false] at good
    have value : (if decimal v < 2 ^ 64 then decimal v else 2 ^ 64 - 1) =
        min (decimal v) (2 ^ 64 - 1) := by
      split <;> omega
    rw [value, Option.some.injEq]
    exact ⟨fun same => ⟨good.1, good.2, same.symm⟩, fun same => same.2.2.symm⟩

theorem colon_not_digit (all : v.all isDigit = true) : 58 ∉ v := by
  intro member
  have digit := List.all_eq_true.mp all 58 member
  exact absurd digit (by decide)

theorem hostWritten_of_octets {text : Text} (octets : HostOctets a) (some_ : a ≠ [])
    (decoded : fromUtf8 a = some text) : HostWritten (some text) a := by
  obtain rfl := HClient.Bytes.eq_utf8_of_fromUtf8 decoded
  rcases octets with ⟨inner, free, same⟩ | other
  · rw [same]
    exact .address free same
  · refine .name ?_ other
    rintro rfl
    exact some_ rfl

theorem HostWritten.octets {host : Option Text} (written : HostWritten host a) : HostOctets a := by
  cases written with
  | none => exact .inr (by simp)
  | address free _ => exact .inl ⟨_, free, rfl⟩
  | name _ other => exact .inr other

/-- The authority that is read is the one that is written. -/
theorem altAuthority_iff (s : List UInt8) (host : Option Text) (port : UInt16) :
    altAuthority s = some (host, port) ↔ Authority host port s := by
  constructor
  · intro read
    simp only [altAuthority, Option.bind_eq_bind, Option.bind_eq_some_iff] at read
    obtain ⟨colon, found, number, counted, read⟩ := read
    obtain ⟨a, v, rfl, rfl, octets⟩ := portColon_sound found
    have after : (a ++ 58 :: v).drop (a.length + 1) = v := by
      rw [← List.drop_drop, List.drop_left]
      rfl
    rw [after] at counted
    obtain ⟨some_, all, same⟩ := digits_eq_some.mp counted
    split at read
    · cases read
    next range =>
      rw [List.take_left] at read
      have small : number < 2 ^ 16 := by omega
      have exact_ : decimal v = number := by omega
      have value : (UInt16.ofNat number).toNat = number := UInt16.toNat_ofNat_of_lt' small
      have nonzero : UInt16.ofNat number ≠ 0 := by
        intro zero
        rw [zero] at value
        exact range (.inr value.symm)
      have port_ : Digits (UInt16.ofNat number).toNat v := ⟨some_, all, by rw [value, exact_]⟩
      split at read
      next empty =>
        cases read
        rw [empty]
        exact .intro .none port_ nonzero
      next named =>
        obtain ⟨text, decoded, same⟩ := Option.map_eq_some_iff.mp read
        cases same
        exact .intro (hostWritten_of_octets octets named decoded) port_ nonzero
  · rintro ⟨written, ⟨some_, all, value⟩, nonzero⟩
    rename_i a v
    have free := colon_not_digit all
    have found := portColon_complete written.octets free
    have after : (a ++ 58 :: v).drop (a.length + 1) = v := by
      rw [← List.drop_drop, List.drop_left]
      rfl
    have small := port.toNat_lt
    have counted : digits v = some port.toNat :=
      digits_eq_some.mpr ⟨some_, all, by rw [value]; omega⟩
    have range : ¬ (2 ^ 16 ≤ port.toNat ∨ port.toNat = 0) := by
      rintro (large | zero)
      · omega
      · exact nonzero (UInt16.toNat_inj.mp zero)
    simp only [altAuthority, Option.bind_eq_bind, found, Option.bind_some, after, counted,
      if_neg range, List.take_left, UInt16.ofNat_toNat]
    cases written with
    | none => rfl
    | address _ same =>
        rw [if_neg (by simp), ← same, HClient.Bytes.fromUtf8_utf8]
        rfl
    | name named _ =>
        rw [if_neg (HClient.Bytes.utf8_ne_nil named), HClient.Bytes.fromUtf8_utf8]
        rfl

end Authority

/-! ## A member -/

section Member
variable {s rest : List UInt8} {params : List Parameter}

theorem lastOf_cons (p : Parameter) (params : List Parameter) (name : String) :
    lastOf (p :: params) name =
      if p.isNamed name = true then some ((lastOf params name).getD p.2)
      else lastOf params name := by
  unfold lastOf
  rw [List.filter_cons]
  split
  · rw [List.getLast?_cons]
    cases (params.filter fun p => p.isNamed name).getLast? <;> rfl
  · rfl

/-- Every `ma` is a number. -/
def Leases (params : List Parameter) : Prop :=
  ∀ p ∈ params, p.isNamed "ma" = true → ∃ n, Digits n p.2

/-- The loop over the parameters ends with the last of each name. -/
theorem foldlM_setting (params : List Parameter) (out out' : Nat × Bool) :
    params.foldlM setting out = some out' ↔ Leases params ∧
      out' = (((lastOf params "ma").map fun v => min (decimal v) (2 ^ 64 - 1)).getD out.1,
        ((lastOf params "persist").map fun v => decide (v = ascii "1")).getD out.2) := by
  induction params generalizing out with
  | nil =>
      simp only [List.foldlM_nil, Option.pure_def, Option.some.injEq, lastOf, List.filter_nil,
        List.getLast?_nil, Option.map_none, Option.getD_none, Leases, List.not_mem_nil,
        IsEmpty.forall_iff, implies_true, true_and]
      exact eq_comm
  | cons p params ih =>
      have names : ¬ (p.isNamed "ma" = true ∧ p.isNamed "persist" = true) := by
        rintro ⟨ma, persist⟩
        have same := (of_decide_eq_true ma).symm.trans (of_decide_eq_true persist)
        exact absurd same (by decide +kernel)
      rw [List.foldlM_cons, Option.bind_eq_bind, setting, lastOf_cons, lastOf_cons]
      have leases : Leases (p :: params) ↔
          (p.isNamed "ma" = true → ∃ n, Digits n p.2) ∧ Leases params := by
        simp only [Leases, List.forall_mem_cons]
      rw [leases]
      split
      next ma =>
        rw [if_neg fun persist => names ⟨ma, persist⟩]
        cases counted : digits p.2 with
        | none =>
            simp only [Option.map_none, Option.bind_none, reduceCtorEq, false_iff]
            rintro ⟨⟨number, -⟩, -⟩
            obtain ⟨n, some_, all, -⟩ := number ma
            rw [digits_eq_some.mpr ⟨some_, all, rfl⟩] at counted
            cases counted
        | some n =>
            obtain ⟨some_, all, value⟩ := digits_eq_some.mp counted
            have number : p.isNamed "ma" = true → ∃ n, Digits n p.2 :=
              fun _ => ⟨_, some_, all, rfl⟩
            rw [Option.map_some, Option.bind_some, ih, and_iff_right number, value]
            cases lastOf params "ma" <;> rfl
      next other =>
        have vacuous : p.isNamed "ma" = true → ∃ n, Digits n p.2 := fun ma => absurd ma other
        rw [and_iff_right vacuous]
        split
        next persist =>
          rw [Option.bind_some, ih]
          cases lastOf params "persist" <;> rfl
        next => rw [Option.bind_some, ih]

theorem settings_iff (params : List Parameter) (out : Nat × Bool) :
    params.foldlM setting (defaultMaxAge, false) = some out ↔
      Leases params ∧ out = (leaseOf params, persistOf params) := by
  have lease : (((lastOf params "ma").map fun v => min (decimal v) (2 ^ 64 - 1)).getD
      defaultMaxAge) = leaseOf params := by
    unfold leaseOf
    cases lastOf params "ma" <;> rfl
  have persist : (((lastOf params "persist").map fun v => decide (v = ascii "1")).getD false) =
      persistOf params := by
    unfold persistOf
    cases lastOf params "persist" <;> simp
  rw [foldlM_setting, lease, persist]

theorem altValue_sound {a : Alternative} (taken : altValue s = some (a, rest)) :
    ∃ core trail, s = core ++ (trail ++ rest) ∧ AltValue a core ∧ Blank trail := by
  unfold altValue at taken
  split at taken
  next id i named =>
    simp only [Option.bind_eq_bind, Option.bind_eq_some_iff] at taken
    obtain ⟨⟨authority, j⟩, string, ⟨host, port⟩, read, ⟨maxAge, persist⟩, settled, same⟩ := taken
    obtain ⟨some_, idWritten, rfl, coded⟩ := protocolId_sound named
    obtain ⟨t, rfl, quoted⟩ := quotedString_sound string
    obtain ⟨leases, both⟩ := (settings_iff _ _).mp settled
    cases both
    cases same
    obtain ⟨written, split_, parameters⟩ :=
      many_sound nextParameter_sound (many nextParameter j).eta.symm
    obtain ⟨trail, split', blank⟩ := Cache.ows_split (many nextParameter j).2
    refine ⟨_, trail, ?_, .intro some_ coded ((altAuthority_iff _ _ _).mp read) quoted parameters
      leases, blank⟩
    simp only [List.append_assoc, List.cons_append]
    rw [← split', ← split_]
  · cases taken

theorem altValue_complete {a : Alternative} {core trail : List UInt8} (value : AltValue a core)
    (blank : Blank trail) : altValue (core ++ trail) = some (a, []) := by
  obtain @⟨id, idWritten, authority, t, written, host, port, params, some_, coded, read, quoted,
    parameters, leases⟩ := value
  have ends : EndsToken trail := by
    have free : EndsToken (trail ++ []) := Cache.blank_not_token blank (by simp)
    rwa [List.append_nil] at free
  have taken : many nextParameter (written ++ trail) = (params, trail) :=
    many_complete nextParameter_complete not_parameter_nil
      (fun _ _ rest parameter => parameter.opens rest) parameters ends (Blank.nextParameter blank)
  have nothing : ows trail = [] := by
    have dropped : ows (trail ++ []) = [] := Cache.ows_blank blank (by simp)
    rwa [List.append_nil] at dropped
  have settled := (settings_iff params _).mpr ⟨leases, rfl⟩
  simp only [altValue, List.append_assoc, List.cons_append, protocolId_complete some_ coded,
    quotedString, unquoted_complete quoted, Option.bind_eq_bind, Option.bind_some,
    (altAuthority_iff _ _ _).mpr read, taken, settled, nothing]

theorem alternative_iff (a : Alternative) (s : List UInt8) : alternative s = some a ↔
    ∃ core trail, s = core ++ trail ∧ AltValue a core ∧ Blank trail := by
  unfold alternative
  constructor
  · intro taken
    split at taken
    next b whole =>
      cases taken
      obtain ⟨core, trail, rfl, value, blank⟩ := altValue_sound whole
      exact ⟨core, trail, by rw [List.append_nil], value, blank⟩
    · cases taken
  · rintro ⟨core, trail, rfl, value, blank⟩
    rw [altValue_complete value blank]

end Member

/-! ## The blanks around it -/

section Trim
variable {s t m : List UInt8}

def Solid (b : UInt8) : Prop := ¬ (b = 32 ∨ b = 9)

instance (b : UInt8) : Decidable (Solid b) := inferInstanceAs (Decidable (¬ _))

/-- It is there, and has no blank at either end. -/
structure Trimmed (s : List UInt8) : Prop where
  some_ : s ≠ []
  first : ∀ b ∈ s.head?, Solid b
  last : ∀ b ∈ s.getLast?, Solid b

theorem last_append (some_ : t ≠ []) (last : ∀ b ∈ t.getLast?, Solid b) (s : List UInt8) :
    ∀ b ∈ (s ++ t).getLast?, Solid b := by
  intro b there
  rw [List.getLast?_append_of_ne_nil s some_] at there
  exact last b there

theorem trimOws_around {lead trail : List UInt8} (trimmed : Trimmed s) (before : Blank lead)
    (behind : Blank trail) : trimOws (lead ++ (s ++ trail)) = s := by
  have first : ∀ b ∈ (s ++ trail).head?, ¬ (b = 32 ∨ b = 9) := by
    intro b there
    rw [List.head?_append_of_ne_nil s trimmed.some_] at there
    exact trimmed.first b there
  have front : ows (lead ++ (s ++ trail)) = s ++ trail := Cache.ows_blank before first
  have blank : Blank trail.reverse := fun b member => behind b (List.mem_reverse.mp member)
  have last : ∀ b ∈ s.reverse.head?, ¬ (b = 32 ∨ b = 9) := by
    rw [List.head?_reverse]
    exact trimmed.last
  rw [trimOws, front, List.reverse_append, Cache.ows_blank blank last, List.reverse_reverse]

theorem trimOws_split (m : List UInt8) :
    ∃ lead trail, m = lead ++ (trimOws m ++ trail) ∧ Blank lead ∧ Blank trail := by
  obtain ⟨lead, split_, blank⟩ := Cache.ows_split m
  obtain ⟨trail, split', blank'⟩ := Cache.ows_split (ows m).reverse
  refine ⟨lead, trail.reverse, ?_, blank, fun b member => blank' b (List.mem_reverse.mp member)⟩
  rw [trimOws, ← List.reverse_append, ← split', List.reverse_reverse, ← split_]

theorem trimOws_last (m : List UInt8) : ∀ b ∈ (trimOws m).getLast?, Solid b := by
  rw [trimOws, List.getLast?_reverse]
  intro b there
  have stops := Runs.dropWhile_ends _ _ b there
  exact of_decide_eq_false stops

/-- What is written with blanks around it is written where the blanks are taken off. -/
theorem around_iff {what : List UInt8 → Prop} (trimmed : ∀ s, what s → Trimmed s)
    (m : List UInt8) : Around what m ↔ what (trimOws m) := by
  constructor
  · rintro ⟨lead, s, trail, rfl, before, behind, holds⟩
    rwa [trimOws_around (trimmed s holds) before behind]
  · intro holds
    obtain ⟨lead, trail, split_, before, behind⟩ := trimOws_split m
    exact ⟨lead, _, trail, split_, before, behind, holds⟩

theorem clears_iff (m : List UInt8) : Clears m ↔ trimOws m = ascii "clear" := by
  have trimmed : ∀ s, s = ascii "clear" → Trimmed s := by
    rintro s rfl
    exact ⟨by decide +kernel, by decide +kernel, by decide +kernel⟩
  exact around_iff trimmed m

theorem Value.trimmedEnd {written : List UInt8} (value : Value s written) :
    written ≠ [] ∧ ∀ b ∈ written.getLast?, Solid b := by
  cases value with
  | token isToken =>
      refine ⟨isToken.1, fun b there => ?_⟩
      have octet := isToken.2 b (List.mem_of_getLast? there)
      rintro (rfl | rfl)
      · exact absurd octet (by decide)
      · exact absurd octet (by decide)
  | quoted _ =>
      refine ⟨by simp, ?_⟩
      rw [← List.cons_append]
      exact last_append (by simp) (by simp [Solid]) _

theorem ParameterWritten.trimmedEnd {p : Parameter} (written : ParameterWritten p s) :
    s ≠ [] ∧ ∀ b ∈ s.getLast?, Solid b := by
  obtain @⟨before, after, name, argument, written, -, -, -, value⟩ := written
  obtain ⟨some_, last⟩ := value.trimmedEnd
  refine ⟨by simp, ?_⟩
  have shape : before ++ 59 :: (after ++ (name ++ 61 :: written)) =
      (before ++ 59 :: (after ++ (name ++ [61]))) ++ written := by simp
  rw [shape]
  exact last_append some_ last _

theorem parameters_last {params : List Parameter} (written : Repeated ParameterWritten params s) :
    ∀ b ∈ s.getLast?, Solid b := by
  induction written with
  | nil => simp
  | @cons p params s t first more ih =>
      by_cases empty : t = []
      · rw [empty, List.append_nil]
        exact first.trimmedEnd.2
      · exact last_append empty ih s

theorem AltValue.trimmed {a : Alternative} (value : AltValue a s) : Trimmed s := by
  obtain @⟨id, idWritten, authority, quoted, written, host, port, params, some_, coded, -, -,
    parameters, -⟩ := value
  refine ⟨by simp, ?_, ?_⟩
  · cases coded with
    | nil => exact absurd rfl some_
    | cons first more =>
        cases first with
        | plain octet _ =>
            intro b there
            cases there
            rintro (rfl | rfl)
            · exact absurd octet (by decide)
            · exact absurd octet (by decide)
        | escape _ _ =>
            intro b there
            cases there
            decide
  · have shape : idWritten ++ 61 :: 34 :: (quoted ++ 34 :: written) =
        idWritten ++ 61 :: 34 :: quoted ++ 34 :: written := by simp
    rw [shape]
    refine last_append (by simp) ?_ _
    by_cases empty : written = []
    · simp [empty, Solid]
    · exact last_append empty (parameters_last parameters) [34]

theorem says_iff (a : Alternative) (m : List UInt8) :
    Says a m ↔ alternative (trimOws m) = some a := by
  rw [Says, around_iff (fun _ value => AltValue.trimmed value), alternative_iff]
  constructor
  · exact fun value => ⟨_, [], (List.append_nil _).symm, value, by simp [Blank]⟩
  · rintro ⟨core, trail, same, value, blank⟩
    have none_ : trail = [] := by
      by_contra some_
      have there := List.getLast?_eq_some_getLast some_
      have last := trimOws_last m (trail.getLast some_) (by
        rw [same, List.getLast?_append_of_ne_nil core some_]
        exact there)
      exact last (blank _ (List.getLast_mem some_))
    rw [same, none_, List.append_nil]
    exact value

theorem malformed_iff (m : List UInt8) : Malformed m ↔
    trimOws m ≠ ascii "clear" ∧ alternative (trimOws m) = none := by
  rw [Malformed, clears_iff, Option.eq_none_iff_forall_ne_some]
  simp only [says_iff, ne_eq]

end Trim

/-! ## The value -/

section Value
variable {ms : List (List UInt8)}

/-- What the members that are one say, in order. -/
def kept (ms : List (List UInt8)) : List Alternative :=
  ms.filterMap fun m => alternative (trimOws m)

/-- A member is the `clear`. -/
def HoldsClear (ms : List (List UInt8)) : Prop := ∃ m ∈ ms, trimOws m = ascii "clear"

instance (ms : List (List UInt8)) : Decidable (HoldsClear ms) :=
  inferInstanceAs (Decidable (∃ m ∈ ms, _))

theorem cleared_cons (m : List UInt8) (ms : List (List UInt8)) :
    HoldsClear (m :: ms) ↔ trimOws m = ascii "clear" ∨ HoldsClear ms := by
  simp only [HoldsClear, List.exists_mem_cons_iff]

theorem kept_cons (m : List UInt8) (ms : List (List UInt8)) :
    kept (m :: ms) = (alternative (trimOws m)).toList ++ kept ms := by
  rw [kept, List.filterMap_cons]
  cases alternative (trimOws m) <;> rfl

theorem parseMembers_eq (ms : List (List UInt8)) (out : List Alternative) :
    parseMembers ms out = if HoldsClear ms then .clear else .alternatives (out ++ kept ms) := by
  induction ms generalizing out with
  | nil => simp [parseMembers, HoldsClear, kept]
  | cons m ms ih =>
      simp only [parseMembers, cleared_cons, kept_cons]
      by_cases empty : trimOws m = []
      · have other : ¬ ([] : List UInt8) = ascii "clear" := by decide +kernel
        have nothing : alternative [] = none := rfl
        simp only [ih, empty, nothing, other, false_or]
        rfl
      · rw [if_neg empty]
        by_cases clear : trimOws m = ascii "clear"
        · rw [if_pos clear, if_pos (.inl clear)]
        · simp only [clear, if_false, false_or]
          cases alternative (trimOws m) with
          | none => exact ih out
          | some a => simp only [ih, List.append_assoc, Option.toList_some]

theorem kept_iff (quiet : ∀ m ∈ ms, ¬ Clears m) (list : List Alternative) :
    Keeping ms list ↔ kept ms = list := by
  induction ms generalizing list with
  | nil =>
      constructor
      · rintro ⟨⟩
        rfl
      · rintro rfl
        exact .nil
  | cons m ms ih =>
      rw [List.forall_mem_cons] at quiet
      specialize ih quiet.2
      rw [kept_cons]
      constructor
      · intro keeps
        cases keeps with
        | keep said keeps =>
            rw [(says_iff _ m).mp said, (ih _).mp keeps]
            rfl
        | drop malformed keeps =>
            rw [((malformed_iff m).mp malformed).2, (ih _).mp keeps]
            rfl
      · rintro rfl
        have rest := (ih (kept ms)).mpr rfl
        cases read : alternative (trimOws m) with
        | none =>
            have clear : trimOws m ≠ ascii "clear" := fun same => quiet.1 ((clears_iff m).mpr same)
            exact .drop ((malformed_iff m).mpr ⟨clear, read⟩) rest
        | some a => exact .keep ((says_iff a m).mpr read) rest

theorem cleared_iff (ms : List (List UInt8)) : HoldsClear ms ↔ ∃ m ∈ ms, Clears m := by
  simp only [HoldsClear, clears_iff]

/-- The loop over the members ends with what they say together. -/
theorem parseMembers_iff (ms : List (List UInt8)) (v : FieldValue) :
    parseMembers ms [] = v ↔ Said ms v := by
  rw [parseMembers_eq, List.nil_append]
  constructor
  · rintro rfl
    split
    next clear =>
      obtain ⟨m, member, clear⟩ := (cleared_iff ms).mp clear
      exact .clear member clear
    next quiet =>
      have none_ : ∀ m ∈ ms, ¬ Clears m := fun m member clear =>
        quiet ((cleared_iff ms).mpr ⟨m, member, clear⟩)
      exact .alternatives none_ ((kept_iff none_ _).mpr rfl)
  · rintro (⟨member, clear⟩ | ⟨quiet, keeps⟩)
    · exact if_pos ((cleared_iff ms).mpr ⟨_, member, clear⟩)
    · rw [if_neg, (kept_iff quiet _).mp keeps]
      rintro clear
      obtain ⟨m, member, clear⟩ := (cleared_iff ms).mp clear
      exact quiet m member clear

theorem parse_iff (value : List UInt8) (v : FieldValue) :
    parse value = v ↔ ∃ ms, Cut value ms ∧ Said ms v := by
  rw [parse, parseMembers_iff]
  constructor
  · exact fun said => ⟨_, (cut_iff value _).mpr rfl, said⟩
  · rintro ⟨ms, cut, said⟩
    rwa [cut.members]

/-- A member that says nothing may as well not be there. -/
theorem parseMembers_malformed {m : List UInt8} (malformed : Malformed m)
    (before after : List (List UInt8)) (out : List Alternative) :
    parseMembers (before ++ m :: after) out = parseMembers (before ++ after) out := by
  obtain ⟨clear, nothing⟩ := (malformed_iff m).mp malformed
  have same : HoldsClear (before ++ m :: after) ↔ HoldsClear (before ++ after) := by
    simp only [HoldsClear, List.mem_append, List.mem_cons]
    constructor
    · rintro ⟨x, there | rfl | there, is⟩
      · exact ⟨x, .inl there, is⟩
      · exact absurd is clear
      · exact ⟨x, .inr there, is⟩
    · rintro ⟨x, there | there, is⟩
      · exact ⟨x, .inl there, is⟩
      · exact ⟨x, .inr (.inr there), is⟩
  have rest : kept (before ++ m :: after) = kept (before ++ after) := by
    simp only [kept, List.filterMap_append, List.filterMap_cons, nothing]
  simp only [parseMembers_eq, same, rest]

end Value

/-! ## The lines -/

section Lines
variable {pad : List UInt8}

/-- The members of one value and those of another are read one after the other. -/
theorem parseMembers_append (ms ms' : List (List UInt8)) (out : List Alternative) :
    parseMembers (ms ++ ms') out =
      match parseMembers ms [] with
      | .clear => .clear
      | .alternatives a => parseMembers ms' (out ++ a) := by
  have both : HoldsClear (ms ++ ms') ↔ HoldsClear ms ∨ HoldsClear ms' := by
    simp only [HoldsClear, List.mem_append, or_and_right, exists_or]
  have keeps : kept (ms ++ ms') = kept ms ++ kept ms' := List.filterMap_append
  simp only [parseMembers_eq, both, keeps, List.nil_append]
  by_cases clear : HoldsClear ms
  · rw [if_pos clear, if_pos (.inl clear)]
  · simp only [clear, if_false, false_or, List.append_assoc]

theorem noteLines_eq (origin : Origin) (now : SystemTime) (values : List HeaderValue)
    (out : List Alternative) : noteLines origin now values out =
      note origin (parseMembers (values.flatMap members) out) now := by
  induction values generalizing out with
  | nil => rfl
  | cons value values ih =>
      rw [noteLines, List.flatMap_cons, parseMembers_append, parse]
      cases parseMembers (members value) [] with
      | clear => rfl
      | alternatives a => exact ih (out ++ a)

theorem trimOws_padded (blank : Blank pad) (m : List UInt8) : trimOws (pad ++ m) = trimOws m := by
  have front : ows (pad ++ m) = ows m :=
    List.dropWhile_append_of_pos fun b member => decide_eq_true (blank b member)
  rw [trimOws, front, trimOws]

/-- Only what is left without the blanks around it counts. -/
theorem parseMembers_congr {ms ms' : List (List UInt8)} (same : ms.map trimOws = ms'.map trimOws)
    (out : List Alternative) : parseMembers ms out = parseMembers ms' out := by
  have cleared : ∀ ms, HoldsClear ms ↔ ascii "clear" ∈ ms.map trimOws := by
    simp [HoldsClear]
  have keeps : ∀ ms, kept ms = (ms.map trimOws).filterMap alternative := by
    simp [kept, List.filterMap_map]
  simp only [parseMembers_eq, cleared, keeps, same]

/-- The lines joined by commas have the members of one line after those of the other. -/
theorem members_joined (blank : Blank pad) (values : List HeaderValue) (some_ : values ≠ [])
    (closed : ∀ value ∈ values, Closed value) :
    (members (List.intercalate (44 :: pad) values)).map trimOws =
      (values.flatMap members).map trimOws := by
  induction values with
  | nil => exact absurd rfl some_
  | cons value values ih =>
      rw [List.forall_mem_cons] at closed
      cases values with
      | nil => simp [List.intercalate]
      | cons next values =>
          have join : List.intercalate (44 :: pad) (value :: next :: values) =
              value ++ 44 :: (pad ++ List.intercalate (44 :: pad) (next :: values)) := by
            simp [List.intercalate, List.intersperse]
          have padded : ∀ rest, (members (pad ++ rest)).map trimOws =
              (members rest).map trimOws := by
            intro rest
            rw [members, elements, Cache.passes_blank blank, List.map_cons, trimOws_padded blank]
            rfl
          rw [join, members_join closed.1, List.map_append, padded, ih (by simp) closed.2,
            ← List.map_append]
          rfl

end Lines

/-! ## Exactly the grammar -/

/-- A value says what its members say, each by itself, and lines say what they say joined by
commas; the host of an authority is any text. -/
theorem parse_exact :
    (∀ value v, parse value = v ↔ ∃ ms, Cut value ms ∧ Said ms v) ∧
      (∀ value value' before m after, Cut value (before ++ m :: after) →
        Cut value' (before ++ after) → Malformed m → parse value = parse value') ∧
      ∀ (headers : HeaderMap HeaderValue) (pad : List UInt8), Blank pad →
        headers.getAll altSvc ≠ [] → (∀ line ∈ headers.getAll altSvc, Closed line) →
          ∀ origin now, noteAltSvc origin headers now =
            note origin (parse (List.intercalate (44 :: pad) (headers.getAll altSvc))) now := by
  refine ⟨parse_iff, ?_, ?_⟩
  · intro value value' before m after cut cut' malformed
    rw [parse, parse, cut.members, cut'.members]
    exact parseMembers_malformed malformed before after []
  · intro headers pad blank some_ closed origin now
    have noted : noteAltSvc origin headers now =
        noteLines origin now (headers.getAll altSvc) [] := by
      unfold noteAltSvc
      split
      next none_ => exact absurd none_ some_
      · rfl
    rw [noted, noteLines_eq, parse]
    congr 1
    exact parseMembers_congr (members_joined blank _ some_ closed).symm []

/-- Two lines of one member each. -/
theorem parse_exact_lines :
    noteAltSvc (.new "a".toList 443)
        [(altSvc, ascii "h2=\":80\""), (altSvc, ascii "h3=\":443\"")] .unixEpoch =
      note (.new "a".toList 443) (.alternatives [⟨ascii "h2", none, 80, 86400, false⟩,
        ⟨alpnH3, none, 443, 86400, false⟩]) .unixEpoch := by
  have shape : ∀ (a b : UInt8) (c : List UInt8), a ≠ 34 → b ≠ 34 → Quotable c →
      Closed (a :: b :: 61 :: 34 :: (c ++ 34 :: [])) := fun a b c first second quotable =>
    .byte first trivial (.byte second trivial (.byte (by decide) trivial (.string quotable .nil)))
  have closed : ∀ line ∈ [ascii "h2=\":80\"", ascii "h3=\":443\""], Closed line := by
    have first : ascii "h2=\":80\"" = 104 :: 50 :: 61 :: 34 :: ([58, 56, 48] ++ 34 :: []) := by
      decide +kernel
    have second : ascii "h3=\":443\"" =
        104 :: 51 :: 61 :: 34 :: ([58, 52, 52, 51] ++ 34 :: []) := by
      decide +kernel
    rw [first, second, List.forall_mem_cons, List.forall_mem_singleton]
    constructor
    · exact shape 104 50 [58, 56, 48] (by decide) (by decide)
        (.byte (by decide) (by decide) (.byte (by decide) (by decide)
          (.byte (by decide) (by decide) .nil)))
    · exact shape 104 51 [58, 52, 52, 51] (by decide) (by decide)
        (.byte (by decide) (by decide) (.byte (by decide) (by decide)
          (.byte (by decide) (by decide) (.byte (by decide) (by decide) .nil))))
  have both : HeaderMap.getAll [(altSvc, ascii "h2=\":80\""), (altSvc, ascii "h3=\":443\"")]
      altSvc = [ascii "h2=\":80\"", ascii "h3=\":443\""] := by decide +kernel
  have joined := parse_exact.2.2
    [(altSvc, ascii "h2=\":80\""), (altSvc, ascii "h3=\":443\"")] [] (by simp [Blank])
    (by rw [both]; simp) (by rw [both]; exact closed) (.new "a".toList 443) .unixEpoch
  have read : parse (List.intercalate [44] [ascii "h2=\":80\"", ascii "h3=\":443\""]) =
      .alternatives [⟨ascii "h2", none, 80, 86400, false⟩, ⟨alpnH3, none, 443, 86400, false⟩] := by
    decide +kernel
  rw [joined, both, read]

/-! ## The host -/

/-- `unreserved` and `sub-delims` of a URI. -/
def isUriOctet (b : UInt8) : Bool :=
  isDigit b || (65 ≤ b ∧ b ≤ 90) || (97 ≤ b ∧ b ≤ 122) || (ascii "-._~!$&'()*+,;=").contains b

/-- A name or a dotted address. -/
inductive RegName : List UInt8 → Prop
  | nil : RegName []
  | octet {b : UInt8} {s : List UInt8} : isUriOctet b = true → RegName s → RegName (b :: s)
  | escape {h l high low : UInt8} {s : List UInt8} : hexValue h = some high →
      hexValue l = some low → RegName s → RegName (37 :: h :: l :: s)

/-- The `uri-host` of an authority; of an address in brackets only the octets it is made of. -/
inductive UriHost : List UInt8 → Prop
  | name {s : List UInt8} : RegName s → UriHost s
  | literal {s : List UInt8} : (∀ b ∈ s, isUriOctet b = true ∨ b = 58) →
      UriHost (91 :: (s ++ [93]))

/-- A member whose authority holds no host is kept, and one is dropped for the host alone. -/
theorem host_not_validated :
    parse (ascii "h3=\" :443\"") = .alternatives [⟨alpnH3, some [' '], 443, 86400, false⟩] ∧
      ¬ UriHost (utf8 [' ']) ∧
      parse (ascii "h3=\"" ++ 255 :: ascii ":443\"") = .alternatives [] ∧
      ¬ ∀ value a, parse value = .alternatives [a] → ∀ host ∈ a.host, UriHost (utf8 host) := by
  have kept : parse (ascii "h3=\" :443\"") =
      .alternatives [⟨alpnH3, some [' '], 443, 86400, false⟩] := by decide +kernel
  have octets : utf8 [' '] = [32] := by decide +kernel
  have none_ : ¬ UriHost (utf8 [' ']) := by
    rw [octets]
    intro host
    cases host with
    | name name =>
        cases name with
        | octet octet _ => exact absurd octet (by decide +kernel)
  refine ⟨kept, none_, by decide +kernel, fun all => ?_⟩
  exact none_ (all _ _ kept [' '] rfl)

end HClient.AltSvc
