import HClient.Core.Cuts
import HClient.Core.Percent
import HClient.Core.Trimming
import HClient.Egress.System

/-!
# Proxy URLs with credentials

A proxy URL whose user and password are escaped octet by octet, and what the parser makes of it.
Host and port come out as they went in; the credentials come out one character for every octet.
-/
namespace HClient.Egress

/-! ## The URL -/

/-- The octets that RFC 3986 calls `unreserved`. -/
def isUnreserved (b : UInt8) : Bool :=
  (48 ≤ b && b ≤ 57) || (65 ≤ b && b ≤ 90) || (97 ≤ b && b ≤ 122) || b = 45 || b = 46 || b = 95 ||
    b = 126

def encodeOctet (b : UInt8) : Text :=
  if isUnreserved b then [Char.ofNat b.toNat] else Text.percentByte b

def encodeUserinfo (s : Text) : Text := (Bytes.utf8 s).flatMap encodeOctet

/-- `unreserved` and `sub-delims`. -/
def isHostChar (c : Char) : Bool :=
  c.isAlphanum || "-._~!$&'()*+,;=".toList.contains c

/-- A host as a URL writes it: a registered name, with or without escapes, or an IP literal in its
brackets. -/
inductive ProxyHost where
  | regName (name : Text) (occupied : name ≠ [])
      (plain : name.all (fun c => isHostChar c || c = '%') = true)
  | literal (address : Text) (occupied : address ≠ [])
      (plain : address.all (fun c => isHostChar c || c = ':') = true)

def ProxyHost.written : ProxyHost → Text
  | .regName name .. => name
  | .literal address .. => '[' :: (address ++ [']'])

def ProxyHost.bare : ProxyHost → Text
  | .regName name .. => name
  | .literal address .. => address

structure ProxyUrl where
  scheme : Text
  kind : ProxyKind
  tls : Bool
  user : Text
  password : Text
  host : ProxyHost
  port : Text
  known : Parse.kind [] (some scheme.toAsciiLowercase) = .ok (kind, tls)
  port_occupied : port ≠ []
  port_digits : port.all Text.isAsciiDigit = true
  port_small : Text.numberOf port < 65536

namespace ProxyUrl

def userinfo (url : ProxyUrl) : Text :=
  encodeUserinfo url.user ++ ':' :: encodeUserinfo url.password

def authority (url : ProxyUrl) : Text := url.host.written ++ ':' :: url.port

def written (url : ProxyUrl) : Text :=
  url.scheme ++ "://".toList ++ (url.userinfo ++ '@' :: url.authority)

/-- What the URL says; a host is the same in either case. -/
def meant (url : ProxyUrl) (appliesTo : Option ProxyScheme) : ProxyEntry where
  kind := url.kind
  host := url.host.bare.toAsciiLowercase
  port := Text.numberOf url.port
  appliesTo
  credentials := some ⟨url.user, url.password⟩
  tls := url.tls

end ProxyUrl

/-! ## The octets of a text as characters -/

/-- Every octet taken for the character of its number. -/
def octetwise (s : Text) : Text := (Bytes.utf8 s).map fun b => Char.ofNat b.toNat

section Octets
variable {s : Text} {c : Char}

theorem utf8EncodeChar_ascii (ascii : c.toNat < 128) :
    String.utf8EncodeChar c = [UInt8.ofNat c.toNat] := by
  have code : c.toNat = c.val.toNat := rfl
  unfold String.utf8EncodeChar
  rw [code] at ascii ⊢
  exact if_pos (Nat.le_of_lt_succ ascii)

theorem octetwise_cons (c : Char) (s : Text) : octetwise (c :: s) =
    (String.utf8EncodeChar c).map (fun b => Char.ofNat b.toNat) ++ octetwise s := by
  rw [octetwise, Bytes.utf8, List.flatMap_cons, List.map_append]
  rfl

theorem octetwise_ascii (ascii : s.isAscii = true) : octetwise s = s := by
  induction s with
  | nil => rfl
  | cons c s ih =>
      rw [Text.isAscii, List.all_cons, Bool.and_eq_true, decide_eq_true_eq] at ascii
      have narrow : (UInt8.ofNat c.toNat).toNat = c.toNat := by
        rw [UInt8.toNat_ofNat']
        omega
      rw [octetwise_cons, ih ascii.2, utf8EncodeChar_ascii ascii.1, List.map_singleton, narrow,
        Char.ofNat_toNat]
      rfl

/-- A character beyond ASCII has more than one octet. -/
theorem length_octetwise (s : Text) : s.length ≤ (octetwise s).length ∧
    (s.isAscii = false → s.length < (octetwise s).length) := by
  induction s with
  | nil => exact ⟨Nat.le_refl _, fun wide => by cases wide⟩
  | cons c s ih =>
      have count : (octetwise (c :: s)).length = c.utf8Size + (octetwise s).length := by
        rw [octetwise_cons, List.length_append, List.length_map, String.length_utf8EncodeChar]
      have one : 1 ≤ c.utf8Size := Char.utf8Size_pos c
      rw [count, List.length_cons]
      refine ⟨by omega, ?_⟩
      intro wide
      rw [Text.isAscii, List.all_cons, Bool.and_eq_false_iff, decide_eq_false_iff_not] at wide
      rcases wide with wide | wide
      · have more : c.utf8Size ≠ 1 := by
          intro same
          have low := Char.utf8Size_eq_one_iff.mp same
          have code : c.toNat = c.val.toNat := rfl
          have bound : c.val.toNat ≤ 127 := low
          omega
        omega
      · have := ih.2 wide
        omega

theorem octetwise_eq_iff : octetwise s = s ↔ s.isAscii = true := by
  constructor
  · intro same
    by_contra wide
    have longer := (length_octetwise s).2 (Bool.eq_false_iff.mpr wide)
    rw [same] at longer
    exact Nat.lt_irrefl _ longer
  · exact octetwise_ascii

end Octets

/-! ## Decoding -/

section Decoding
variable {s : Text} {b : UInt8} {bytes : List UInt8}

theorem percentDecode_cons (other : b ≠ 37) (rest : List UInt8) :
    Parse.percentDecode (b :: rest) = Char.ofNat b.toNat :: Parse.percentDecode rest := by
  apply Parse.percentDecode.eq_2
  intro h l rest same
  exact absurd same other

theorem percentDecode_plain (plain : 37 ∉ bytes) :
    Parse.percentDecode bytes = bytes.map fun b => Char.ofNat b.toNat := by
  induction bytes with
  | nil => rfl
  | cons b bytes ih =>
      obtain ⟨other, plain⟩ := not_or.mp (mt List.mem_cons.mpr plain)
      rw [percentDecode_cons (Ne.symm other), ih plain, List.map_cons]

theorem hex_hexDigit : ∀ n < 16,
    String.utf8EncodeChar (Text.hexDigit n) = [UInt8.ofNat (Text.hexDigit n).toNat] ∧
      Parse.hex (UInt8.ofNat (Text.hexDigit n).toNat) = some n := by
  decide

theorem percentDecode_percentByte (b : UInt8) (rest : List UInt8) :
    Parse.percentDecode (Bytes.utf8 (Text.percentByte b) ++ rest) =
      Char.ofNat b.toNat :: Parse.percentDecode rest := by
  have high : b.toNat / 16 < 16 := by
    have := b.toNat_lt
    omega
  obtain ⟨first, digit⟩ := hex_hexDigit _ high
  obtain ⟨second, digit'⟩ := hex_hexDigit _ (Nat.mod_lt b.toNat (by decide : 0 < 16))
  have escape : Bytes.utf8 (Text.percentByte b) = [37, UInt8.ofNat (Text.hexDigit (b.toNat / 16)).toNat,
      UInt8.ofNat (Text.hexDigit (b.toNat % 16)).toNat] := by
    rw [Bytes.utf8, Text.percentByte, List.flatMap_cons, List.flatMap_cons, List.flatMap_singleton,
      first, second]
    rfl
  rw [escape]
  simp only [List.cons_append, List.nil_append, Parse.percentDecode, digit, digit']
  rw [Nat.div_add_mod']

theorem isUnreserved_low (plain : isUnreserved b = true) : b.toNat < 128 ∧ b ≠ 37 := by
  constructor
  · unfold isUnreserved at plain
    simp only [Bool.or_eq_true, Bool.and_eq_true, decide_eq_true_eq, UInt8.le_iff_toNat_le] at plain
    rcases plain with (((((plain | plain) | plain) | rfl) | rfl) | rfl) | rfl
    all_goals first | exact Nat.lt_of_le_of_lt plain.2 (by decide) | decide
  · rintro rfl
    cases plain

/-- Each octet comes back as the character of its number, escaped or not. -/
theorem percentDecode_encodeOctet (b : UInt8) (rest : List UInt8) :
    Parse.percentDecode (Bytes.utf8 (encodeOctet b) ++ rest) =
      Char.ofNat b.toNat :: Parse.percentDecode rest := by
  unfold encodeOctet
  split
  next plain =>
    obtain ⟨low, other⟩ := isUnreserved_low plain
    have code : (Char.ofNat b.toNat).toNat = b.toNat := by
      rw [Char.toNat_ofNat, if_pos]
      unfold Nat.isValidChar
      omega
    have octet : Bytes.utf8 [Char.ofNat b.toNat] = [b] := by
      rw [Bytes.utf8, List.flatMap_singleton, utf8EncodeChar_ascii (by omega), code, UInt8.ofNat_toNat]
    rw [octet, List.singleton_append, percentDecode_cons other]
  · exact percentDecode_percentByte b rest

theorem decoded_encodeUserinfo (s : Text) : Parse.decoded (encodeUserinfo s) = octetwise s := by
  unfold encodeUserinfo octetwise
  induction Bytes.utf8 s with
  | nil => rfl
  | cons b bytes ih =>
      have decoded : Parse.decoded (List.flatMap encodeOctet (b :: bytes)) =
          Parse.percentDecode (Bytes.utf8 (encodeOctet b) ++
            Bytes.utf8 (bytes.flatMap encodeOctet)) := by
        rw [List.flatMap_cons, ← Bytes.utf8_append]
        rfl
      rw [decoded, percentDecode_encodeOctet, List.map_cons, ← ih]
      rfl

theorem decoded_plain (plain : '%' ∉ s) : Parse.decoded s = octetwise s := by
  have free : 37 ∉ Bytes.utf8 s := by
    intro member
    obtain ⟨c, there, same⟩ := (Bytes.mem_utf8 (b := 37) (by decide) s).mp member
    have escape : c = '%' := Char.toNat_inj.mp same
    rw [escape] at there
    exact plain there
  exact percentDecode_plain free

end Decoding

/-! ## The cuts -/

namespace ProxyUrl
variable (url : ProxyUrl)

/-- What a URL writes its parts with, none of which separates them. -/
def isPartChar (c : Char) : Bool := isHostChar c || c = '%'

theorem isPartChar_octet : ∀ n < 128, isUnreserved (UInt8.ofNat n) = true →
    isPartChar (Char.ofNat n) = true := by
  decide +kernel

theorem isPartChar_hexDigit : ∀ n < 16, isPartChar (Text.hexDigit n) = true := by
  decide

theorem all_encodeUserinfo (s : Text) : (encodeUserinfo s).all isPartChar = true := by
  rw [List.all_eq_true]
  intro c member
  obtain ⟨b, -, member⟩ := List.mem_flatMap.mp member
  unfold encodeOctet at member
  split at member
  next plain =>
    rw [List.mem_singleton.mp member]
    apply isPartChar_octet b.toNat (isUnreserved_low plain).1
    rwa [UInt8.ofNat_toNat]
  · have high : b.toNat / 16 < 16 := by
      have := b.toNat_lt
      omega
    simp only [Text.percentByte, List.mem_cons, List.not_mem_nil, or_false] at member
    rcases member with rfl | rfl | rfl
    · decide
    · exact isPartChar_hexDigit _ high
    · exact isPartChar_hexDigit _ (Nat.mod_lt _ (by decide))

theorem isPartChar_of_digit {c : Char} (digit : Text.isAsciiDigit c = true) : isPartChar c = true := by
  have digit' : c.isDigit = true := by
    obtain ⟨low, high⟩ := of_decide_eq_true digit
    exact Bool.and_eq_true_iff.mpr ⟨decide_eq_true low, decide_eq_true high⟩
  simp [isPartChar, isHostChar, Char.isAlphanum, digit']

/-- A character that is no part of anything stands in nothing that is made of parts. -/
theorem not_mem_of_parts {c : Char} {s : Text} (parts : s.all isPartChar = true)
    (other : isPartChar c = false) : c ∉ s := by
  intro member
  rw [List.all_eq_true.mp parts c member] at other
  cases other

theorem all_port : url.port.all isPartChar = true :=
  List.all_eq_true.mpr fun c member =>
    isPartChar_of_digit (List.all_eq_true.mp url.port_digits c member)

theorem splitAuthority_authority : Parse.splitAuthority url.authority =
    .ok (url.host.bare, some (Text.numberOf url.port)) := by
  have port : Parse.port url.port = .ok (Text.numberOf url.port) := by
    rw [Parse.port, Text.parseUnsigned_digits url.port_occupied url.port_digits,
      if_neg (Nat.not_le.mpr url.port_small)]
  have portClean : ':' ∉ url.port := not_mem_of_parts url.all_port (by decide)
  unfold authority
  cases url.host with
  | literal address occupied plain =>
      have clean : ']' ∉ address := by
        intro member
        have inner := List.all_eq_true.mp plain _ member
        cases inner
      have cut : Text.splitOnce ']' (address ++ [']'] ++ ':' :: url.port) =
          some (address, ':' :: url.port) := by
        rw [List.append_assoc]
        exact Text.splitOnce_append clean _
      rw [ProxyHost.written, List.cons_append]
      simp only [Parse.splitAuthority, cut, port]
      rfl
  | regName name occupied plain =>
      have parts : name.all isPartChar = true := plain
      have clean : ':' ∉ name := not_mem_of_parts parts (by decide)
      have cut : Text.rsplitOnce ':' (name ++ ':' :: url.port) = some (name, url.port) :=
        Text.rsplitOnce_eq_some.mpr ⟨portClean, rfl⟩
      have once : (name ++ ':' :: url.port).count ':' = 1 := by
        rw [List.count_append, List.count_cons_self, List.count_eq_zero.mpr clean,
          List.count_eq_zero.mpr portClean]
      rw [ProxyHost.written, ProxyHost.bare]
      unfold Parse.splitAuthority
      split
      next rest same =>
        cases name with
        | nil => exact absurd rfl occupied
        | cons c name =>
            injection same with same
            rw [same] at parts
            cases parts
      · rw [cut]
        dsimp only
        rw [if_neg (by rw [once]; decide), port]
        rfl

/-- The parts of the URL behind its scheme hold no end of a URL, and the authority no `@`. -/
theorem splitUserinfo_rest :
    Parse.splitUserinfo ((url.userinfo ++ '@' :: url.authority).takeWhile
      fun c => c ≠ '/' ∧ c ≠ '?' ∧ c ≠ '#') = (some url.userinfo, url.authority) := by
  have userinfo : ∀ c ∈ url.userinfo, isPartChar c = true ∨ c = ':' := by
    intro c member
    rcases List.mem_append.mp member with user | password
    · exact .inl (List.all_eq_true.mp (all_encodeUserinfo _) c user)
    · rcases List.mem_cons.mp password with colon | password
      · exact .inr colon
      · exact .inl (List.all_eq_true.mp (all_encodeUserinfo _) c password)
  have host : ∀ c ∈ url.host.written, isPartChar c = true ∨ c ∈ [':', '[', ']'] := by
    intro c member
    cases host : url.host with
    | regName name occupied plain =>
        rw [host] at member
        exact .inl (List.all_eq_true.mp plain c member)
    | literal address occupied plain =>
        rw [host] at member
        rcases List.mem_cons.mp member with rfl | member
        · exact .inr (by decide)
        rcases List.mem_append.mp member with inner | last
        · have part := List.all_eq_true.mp plain c inner
          rw [Bool.or_eq_true, decide_eq_true_eq] at part
          rcases part with part | rfl
          · exact .inl (by rw [isPartChar, part, Bool.true_or])
          · exact .inr (by decide)
        · rw [List.mem_singleton.mp last]
          exact .inr (by decide)
  have authority : ∀ c ∈ url.authority, isPartChar c = true ∨ c ∈ [':', '[', ']'] := by
    intro c member
    rcases List.mem_append.mp member with member | member
    · exact host c member
    · rcases List.mem_cons.mp member with rfl | member
      · exact .inr (by decide)
      · exact .inl (List.all_eq_true.mp url.all_port c member)
  have inside : ∀ c, (isPartChar c = true ∨ c ∈ [':', '[', ']', '@']) →
      decide (c ≠ '/' ∧ c ≠ '?' ∧ c ≠ '#') = true := by
    intro c part
    apply decide_eq_true
    refine ⟨?_, ?_, ?_⟩ <;>
      · rintro rfl
        exact absurd part (by decide)
  have whole : (url.userinfo ++ '@' :: url.authority).takeWhile
      (fun c => c ≠ '/' ∧ c ≠ '?' ∧ c ≠ '#') = url.userinfo ++ '@' :: url.authority := by
    apply List.takeWhile_eq_self_iff.mpr
    intro c member
    apply inside
    rcases List.mem_append.mp member with member | member
    · rcases userinfo c member with part | rfl
      · exact .inl part
      · exact .inr (by decide)
    · rcases List.mem_cons.mp member with rfl | member
      · exact .inr (by decide)
      · rcases authority c member with part | bracket
        · exact .inl part
        · exact .inr (List.mem_append_left ['@'] bracket)
  have clean : '@' ∉ url.authority := by
    intro member
    exact absurd (authority '@' member) (by decide)
  rw [whole, Parse.splitUserinfo, Text.rsplitOnce_eq_some.mpr ⟨clean, rfl⟩]

/-- The schemes of proxies, in lower case. -/
def schemes : List Text :=
  ["http", "https", "socks5", "socks5h", "socks", "socks4", "socks4a"].map String.toList

theorem scheme_mem : url.scheme.toAsciiLowercase ∈ schemes := by
  have known := url.known
  unfold Parse.kind at known
  dsimp only at known
  split_ifs at known with http https socks5 socks4
  · rw [http]
    decide
  · rw [https]
    decide
  · rcases socks5 with same | same <;>
      · rw [same]
        decide
  · rcases socks4 with same | same | same <;>
      · rw [same]
        decide

theorem alphanum_scheme : ∀ c ∈ url.scheme, c.toLower.isAlphanum = true := by
  intro c member
  have each : schemes.all (fun s => s.all Char.isAlphanum) = true := by decide +kernel
  have letters := List.all_eq_true.mp each _ url.scheme_mem
  exact List.all_eq_true.mp letters _ (List.mem_map_of_mem member)

theorem isWhitespace_outside {c : Char} (blank : Text.isWhitespace c = true) :
    c.toNat ≤ 32 ∨ 128 ≤ c.toNat := by
  unfold Text.isWhitespace at blank
  simp only [Bool.or_eq_true, decide_eq_true_eq, List.contains_iff_mem, List.mem_cons,
    List.not_mem_nil, or_false] at blank
  omega

theorem isAlphanum_inside {c : Char} (letter : c.isAlphanum = true) :
    48 ≤ c.toNat ∧ c.toNat ≤ 122 := by
  have code : c.toNat = c.val.toNat := rfl
  simp only [Char.isAlphanum, Char.isAlpha, Char.isUpper, Char.isLower, Char.isDigit,
    Bool.or_eq_true, Bool.and_eq_true, decide_eq_true_eq, UInt32.le_iff_toNat_le,
    ge_iff_le] at letter
  have upper : 'A'.val.toNat = 65 ∧ 'Z'.val.toNat = 90 := ⟨rfl, rfl⟩
  have lower : 'a'.val.toNat = 97 ∧ 'z'.val.toNat = 122 := ⟨rfl, rfl⟩
  have digit : '0'.val.toNat = 48 ∧ '9'.val.toNat = 57 := ⟨rfl, rfl⟩
  omega

theorem not_isWhitespace_of_alphanum {c : Char} (letter : c.toLower.isAlphanum = true) :
    Text.isWhitespace c = false := by
  apply Bool.eq_false_iff.mpr
  intro blank
  have outside := isWhitespace_outside blank
  have other : c.isUpper = false := by
    apply Bool.eq_false_iff.mpr
    intro upper
    have inside : c.isAlphanum = true := by simp [Char.isAlphanum, Char.isAlpha, upper]
    have := isAlphanum_inside inside
    omega
  rw [Char.toLower_eq_of_not_isUpper (Bool.eq_false_iff.mp other)] at letter
  have := isAlphanum_inside letter
  omega

/-- The URL begins with a letter and ends with a digit. -/
theorem trim_written : Text.trim url.written = url.written := by
  have schemeOccupied : url.scheme ≠ [] := by
    intro none
    have named := url.scheme_mem
    rw [none] at named
    exact absurd named (by decide)
  have solid : Runs.Solid Text.isWhitespace url.written := by
    refine ⟨?_, ?_, ?_⟩
    · unfold written
      simp [schemeOccupied]
    · intro c first
      have begins : url.written.head? = url.scheme.head? := by
        rw [written, List.append_assoc, List.head?_append_of_ne_nil _ schemeOccupied]
      rw [begins] at first
      exact not_isWhitespace_of_alphanum (url.alphanum_scheme c (List.mem_of_mem_head? first))
    · intro c last
      have ends : url.written.getLast? = url.port.getLast? := by
        have split : url.written = (url.scheme ++ "://".toList ++ url.userinfo ++ '@' ::
            (url.host.written ++ [':'])) ++ url.port := by
          simp [written, authority]
        rw [split, List.getLast?_append_of_ne_nil _ url.port_occupied]
      rw [ends] at last
      have digit := List.all_eq_true.mp url.port_digits c (List.mem_of_getLast? last)
      apply Bool.eq_false_iff.mpr
      intro blank
      obtain ⟨low, high⟩ := of_decide_eq_true digit
      have outside := isWhitespace_outside blank
      have low' : 48 ≤ c.toNat := low
      have high' : c.toNat ≤ 57 := high
      omega
  have kept := @Runs.trim_around _ _ [] _ [] solid (by simp) (by simp)
  rw [List.nil_append, List.append_nil] at kept
  exact kept

theorem splitScheme_written : Parse.splitScheme url.written =
    (some url.scheme.toAsciiLowercase, url.userinfo ++ '@' :: url.authority) := by
  have clean : ':' ∉ url.scheme := by
    intro member
    exact absurd (url.alphanum_scheme _ member) (by decide)
  have cut : Text.splitOnceAt "://".toList url.written =
      some (url.scheme, url.userinfo ++ '@' :: url.authority) := Text.splitOnceAt_append clean _
  rw [Parse.splitScheme, cut]

theorem credentials_userinfo :
    Parse.credentials url.userinfo = ⟨octetwise url.user, octetwise url.password⟩ := by
  have clean : ':' ∉ encodeUserinfo url.user := not_mem_of_parts (all_encodeUserinfo _) (by decide)
  rw [Parse.credentials, userinfo, Text.splitOnce_append clean, Option.getD_some,
    ← decoded_encodeUserinfo, ← decoded_encodeUserinfo]

theorem bare_ne_nil : url.host.bare ≠ [] := by
  cases url.host with
  | regName name occupied plain => exact occupied
  | literal address occupied plain => exact occupied

/-- Everything but the credentials is read as it is meant. -/
theorem entry_written (key : Text) (appliesTo : Option ProxyScheme) :
    Parse.entry key url.written appliesTo = .ok { url.meant appliesTo with
      credentials := some ⟨octetwise url.user, octetwise url.password⟩ } := by
  have known : Parse.kind key (some url.scheme.toAsciiLowercase) = .ok (url.kind, url.tls) := url.known
  unfold Parse.entry
  rw [url.trim_written, url.splitScheme_written]
  dsimp only
  rw [known]
  dsimp only
  rw [url.splitUserinfo_rest]
  dsimp only
  rw [url.splitAuthority_authority]
  dsimp only
  rw [if_neg url.bare_ne_nil, Option.map_some, url.credentials_userinfo]
  rfl

end ProxyUrl

/-- The URL is read as it is meant exactly where its user and its password are ASCII; and exactly
a text that is ASCII comes unchanged through the decoding where it has nothing to decode. -/
theorem credentials_read_iff (url : ProxyUrl) (key : Text) (appliesTo : Option ProxyScheme)
    (s : Text) :
    (Parse.entry key url.written appliesTo = .ok (url.meant appliesTo) ↔
        url.user.isAscii = true ∧ url.password.isAscii = true) ∧
      ('%' ∉ s → (Parse.decoded s = s ↔ s.isAscii = true)) := by
  constructor
  · rw [url.entry_written, ← octetwise_eq_iff, ← octetwise_eq_iff]
    constructor
    · intro same
      have entry := Except.ok.inj same
      have credentials := Option.some.inj (congrArg ProxyEntry.credentials entry)
      exact ⟨congrArg Credentials.user credentials, congrArg Credentials.password credentials⟩
    · rintro ⟨user, password⟩
      rw [user, password]
      rfl
  · intro plain
    rw [decoded_plain plain, octetwise_eq_iff]

/-- A user of one letter that is not ASCII. -/
def accented : ProxyUrl where
  scheme := "http".toList
  kind := .http
  tls := false
  user := ['é']
  password := "p".toList
  host := .regName "proxy".toList (by decide) (by decide)
  port := "80".toList
  known := rfl
  port_occupied := by decide
  port_digits := by decide
  port_small := by decide

theorem accented_misread :
    Parse.entry [] "http://%C3%A9:p@proxy:80".toList none ≠ .ok (accented.meant none) ∧
      Parse.decoded ['é'] ≠ ['é'] := by
  have written : accented.written = "http://%C3%A9:p@proxy:80".toList := by decide +kernel
  constructor
  · rw [← written, accented.entry_written]
    intro same
    have credentials := congrArg ProxyEntry.credentials (Except.ok.inj same)
    exact absurd credentials (by decide)
  · decide

end HClient.Egress
