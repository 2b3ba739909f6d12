import HClient.Core.Sort
import HClient.Egress.Rules

/-!
# The machine's proxy settings

The settings arrive as keys and values in no order. What the parser takes becomes an entry,
what it refuses is named in `ignored`, and the entries stand with those for one scheme first.
-/
namespace HClient.Egress

inductive ProxyKind where
  | http
  | socks5
  | socks4
  deriving DecidableEq, Repr

structure Credentials where
  user : Text
  password : Text
  deriving DecidableEq, Repr

structure ProxyEntry where
  kind : ProxyKind
  host : Text
  port : Nat
  appliesTo : Option ProxyScheme
  credentials : Option Credentials
  tls : Bool
  deriving DecidableEq, Repr

inductive ParseError where
  | unknownScheme (scheme : Text)
  | badPort (text : Text)
  | noHost
  deriving DecidableEq, Repr

def ParseError.display : ParseError → Text
  | .unknownScheme scheme => "unknown proxy scheme `".toList ++ scheme ++ ['\x60']
  | .badPort text => '\x60' :: text ++ "` is not a port".toList
  | .noHost => "no host".toList

namespace Parse

def port (s : Text) : Except ParseError Nat :=
  match Text.parseUnsigned 65536 s with
  | some p => .ok p
  | none => .error (.badPort s)

def splitAuthority (authority : Text) : Except ParseError (Text × Option Nat) :=
  match authority with
  | '[' :: rest =>
      match Text.splitOnce ']' rest with
      | none => .error .noHost
      | some (host, []) => .ok (host, none)
      | some (host, ':' :: p) => (port p).map fun p => (host, some p)
      | some (_, after) => .error (.badPort after)
  | authority =>
      match Text.rsplitOnce ':' authority with
      | none => .ok (authority, none)
      | some (host, p) =>
          -- a bare v6 literal
          if 1 < authority.count ':' then .ok (authority, none)
          else (port p).map fun p => (host, some p)

def hex (b : UInt8) : Option Nat :=
  if 48 ≤ b ∧ b ≤ 57 then some (b.toNat - 48)
  else if 97 ≤ b ∧ b ≤ 102 then some (b.toNat - 97 + 10)
  else if 65 ≤ b ∧ b ≤ 70 then some (b.toNat - 65 + 10)
  else none

/-- A byte stands for the character of its number, decoded or not. -/
def percentDecode : List UInt8 → Text
  | 37 :: h :: l :: rest =>
      match hex h, hex l with
      | some h, some l => Char.ofNat (h * 16 + l) :: percentDecode rest
      | _, _ => '%' :: percentDecode (h :: l :: rest)
  | b :: rest => Char.ofNat b.toNat :: percentDecode rest
  | [] => []

def decoded (s : Text) : Text := percentDecode (s.flatMap String.utf8EncodeChar)

def credentials (userinfo : Text) : Credentials :=
  let (user, password) := (Text.splitOnce ':' userinfo).getD (userinfo, [])
  ⟨decoded user, decoded password⟩

def kind (key : Text) (scheme : Option Text) : Except ParseError (ProxyKind × Bool) :=
  match scheme with
  | some scheme =>
      if scheme = "http".toList then .ok (.http, false)
      else if scheme = "https".toList then .ok (.http, true)
      else if scheme = "socks5".toList ∨ scheme = "socks5h".toList then .ok (.socks5, false)
      else if scheme = "socks".toList ∨ scheme = "socks4".toList ∨ scheme = "socks4a".toList then
        .ok (.socks4, false)
      else .error (.unknownScheme scheme)
  | none =>
      if key = "socks".toList then .ok (.socks4, false)
      else if key = "socks5".toList then .ok (.socks5, false)
      else .ok (.http, false)

def defaultPort : ProxyKind → Bool → Nat
  | .http, true => 443
  | .http, false => 80
  | .socks5, _ => 1080
  | .socks4, _ => 1080

/-- The scheme of a value that carries one, in lower case, and what follows it. -/
def splitScheme (value : Text) : Option Text × Text :=
  match Text.splitOnceAt "://".toList value with
  | some (s, rest) => (some (Text.toAsciiLowercase s), rest)
  | none => (none, value)

def splitUserinfo (rest : Text) : Option Text × Text :=
  match Text.rsplitOnce '@' rest with
  | some (userinfo, authority) => (some userinfo, authority)
  | none => (none, rest)

def entry (key value : Text) (appliesTo : Option ProxyScheme) : Except ParseError ProxyEntry :=
  let (scheme, rest) := splitScheme (Text.trim value)
  match kind key scheme with
  | .error e => .error e
  | .ok (kind, tls) =>
      let rest : Text := rest.takeWhile fun c => c ≠ '/' ∧ c ≠ '?' ∧ c ≠ '#'
      let (userinfo, authority) := splitUserinfo rest
      match splitAuthority authority with
      | .error e => .error e
      | .ok (host, port) =>
          if host = [] then .error .noHost
          else
            .ok {
              kind
              host := Text.toAsciiLowercase host
              port := port.getD (defaultPort kind tls)
              appliesTo
              tls
              credentials := userinfo.map credentials }

inductive Bypass where
  | pattern (p : Text)
  | isLocal
  | everything
  | alreadyTrue
  | unsupported (reason : BypassReason)
  deriving DecidableEq, Repr

def bypass (pattern : Text) : Bypass :=
  let p := Text.toAsciiLowercase (Text.trim pattern)
  if p = [] then .alreadyTrue
  else if p = "*".toList then .everything
  else if p = "<local>".toList then .isLocal
  else if p = "<-loopback>".toList then .alreadyTrue
  else
    match normalizeBypass p with
    | .ok p => .pattern p
    | .error reason => .unsupported reason

theorem entry_appliesTo {key value : Text} {appliesTo : Option ProxyScheme} {e : ProxyEntry}
    (read : entry key value appliesTo = .ok e) : e.appliesTo = appliesTo := by
  unfold entry at read
  dsimp only at read
  split at read
  · cases read
  · split at read
    · cases read
    · split at read
      · cases read
      · cases read
        rfl

theorem entry_nil (key : Text) (appliesTo : Option ProxyScheme) (e : ProxyEntry) :
    entry key [] appliesTo ≠ .ok e := by
  intro read
  have start : splitAuthority [] = .ok ([], none) := by rfl
  have scheme : splitScheme (Text.trim []) = (none, []) := by rfl
  have userinfo : splitUserinfo [] = (none, []) := by rfl
  unfold entry at read
  simp only [scheme, List.takeWhile_nil, userinfo, start, if_pos] at read
  split at read <;> cases read

end Parse

structure SystemProxies where
  entries : List ProxyEntry
  bypass : List Text
  bypassLocal : Bool
  bypassEverything : Bool
  unsupportedBypass : List UnsupportedBypass
  ignored : List Text
  pac : Option Text
  deriving DecidableEq, Repr

/-- What a key means: a setting for one scheme, one for both, or none for this client. -/
def appliesTo (key : Text) : Option (Option ProxyScheme) :=
  if key = "http".toList then some (some .http)
  else if key = "https".toList then some (some .https)
  else if key = "*".toList ∨ key = "all".toList ∨ key = "socks".toList ∨ key = "socks5".toList then
    some none
  else none

namespace SystemProxies

def readSetting (out : SystemProxies) : Text × Text → SystemProxies
  | (key, value) =>
      match appliesTo key with
      | none => { out with ignored := out.ignored ++ [key ++ '=' :: value] }
      | some applies =>
          match Parse.entry key value applies with
          | .ok entry => { out with entries := out.entries ++ [entry] }
          | .error e =>
              { out with
                ignored := out.ignored ++
                  [key ++ '=' :: value ++ " (".toList ++ e.display ++ [')']] }

def readPattern (out : SystemProxies) (pattern : Text) : SystemProxies :=
  match Parse.bypass pattern with
  | .pattern p => { out with bypass := out.bypass ++ [p] }
  | .isLocal => { out with bypassLocal := true }
  | .everything => { out with bypassEverything := true }
  | .alreadyTrue => out
  | .unsupported reason =>
      { out with unsupportedBypass := out.unsupportedBypass ++ [⟨pattern, reason⟩] }

def settingLe (a b : Text × Text) : Bool := a.1 < b.1 ∨ (a.1 = b.1 ∧ a.2 ≤ b.2)

def specificFirst (a b : ProxyEntry) : Bool := a.appliesTo.isNone ≤ b.appliesTo.isNone

def fromParts (proxies : List (Text × Text)) (bypass : List Text) (excludeSimple : Bool) :
    SystemProxies :=
  let out : SystemProxies := ⟨[], [], excludeSimple, false, [], [], none⟩
  let out := (proxies.mergeSort settingLe).foldl readSetting out
  let out := { out with entries := out.entries.mergeSort specificFirst }
  (bypass.mergeSort fun a b => a ≤ b).foldl readPattern out

/-- What one setting becomes, where it becomes an entry at all. -/
def readEntry (setting : Text × Text) : Option ProxyEntry :=
  (appliesTo setting.1).bind fun applies => (Parse.entry setting.1 setting.2 applies).toOption

theorem readEntry_eq_some {setting : Text × Text} {e : ProxyEntry} :
    readEntry setting = some e ↔ ∃ applies, appliesTo setting.1 = some applies ∧
      Parse.entry setting.1 setting.2 applies = .ok e := by
  cases key : appliesTo setting.1 with
  | none => simp [readEntry, key]
  | some applies =>
      cases read : Parse.entry setting.1 setting.2 applies <;>
        simp [readEntry, key, read, Except.toOption]

theorem entries_readSetting (out : SystemProxies) (setting : Text × Text) :
    (out.readSetting setting).entries = out.entries ++ (readEntry setting).toList := by
  obtain ⟨key, value⟩ := setting
  dsimp only [readSetting, readEntry]
  cases appliesTo key with
  | none => exact (List.append_nil _).symm
  | some applies =>
      dsimp only [Option.bind_some]
      cases Parse.entry key value applies with
      | ok entry => rfl
      | error e => exact (List.append_nil _).symm

theorem rest_readSetting (out : SystemProxies) (setting : Text × Text) :
    (out.readSetting setting).bypass = out.bypass ∧
      (out.readSetting setting).bypassLocal = out.bypassLocal ∧
      (out.readSetting setting).bypassEverything = out.bypassEverything ∧
      (out.readSetting setting).pac = out.pac := by
  obtain ⟨key, value⟩ := setting
  dsimp only [readSetting]
  cases appliesTo key with
  | none => exact ⟨rfl, rfl, rfl, rfl⟩
  | some applies =>
      dsimp only
      cases Parse.entry key value applies <;> exact ⟨rfl, rfl, rfl, rfl⟩

theorem entries_foldl_readSetting (settings : List (Text × Text)) (out : SystemProxies) :
    (settings.foldl readSetting out).entries = out.entries ++ settings.filterMap readEntry := by
  induction settings generalizing out with
  | nil => exact (List.append_nil _).symm
  | cons setting settings ih =>
      rw [List.foldl_cons, ih, entries_readSetting, List.append_assoc]
      cases h : readEntry setting <;> simp [h]

theorem rest_foldl_readSetting (settings : List (Text × Text)) (out : SystemProxies) :
    (settings.foldl readSetting out).bypass = out.bypass ∧
      (settings.foldl readSetting out).bypassLocal = out.bypassLocal ∧
      (settings.foldl readSetting out).bypassEverything = out.bypassEverything ∧
      (settings.foldl readSetting out).pac = out.pac := by
  induction settings generalizing out with
  | nil => exact ⟨rfl, rfl, rfl, rfl⟩
  | cons setting settings ih =>
      obtain ⟨patterns, simple, everything, pac⟩ := rest_readSetting out setting
      rw [List.foldl_cons, ← patterns, ← simple, ← everything, ← pac]
      exact ih _

/-- A pattern leaves the entries alone, and adds to the bypass what it is parsed as. -/
theorem readPattern_spec (out : SystemProxies) (pattern : Text) :
    (out.readPattern pattern).entries = out.entries ∧
      (out.readPattern pattern).pac = out.pac ∧
      (∀ p, p ∈ (out.readPattern pattern).bypass ↔
        p ∈ out.bypass ∨ Parse.bypass pattern = .pattern p) ∧
      ((out.readPattern pattern).bypassLocal = true ↔
        out.bypassLocal = true ∨ Parse.bypass pattern = .isLocal) ∧
      ((out.readPattern pattern).bypassEverything = true ↔
        out.bypassEverything = true ∨ Parse.bypass pattern = .everything) := by
  unfold readPattern
  cases Parse.bypass pattern with
  | pattern q =>
      refine ⟨rfl, rfl, ?_, by simp, by simp⟩
      intro p
      rw [List.mem_append, List.mem_singleton, Parse.Bypass.pattern.injEq, @eq_comm _ q]
  | isLocal => simp
  | everything => simp
  | alreadyTrue => simp
  | unsupported reason => simp

theorem foldl_readPattern_spec (patterns : List Text) (out : SystemProxies) :
    (patterns.foldl readPattern out).entries = out.entries ∧
      (patterns.foldl readPattern out).pac = out.pac ∧
      (∀ p, p ∈ (patterns.foldl readPattern out).bypass ↔
        p ∈ out.bypass ∨ ∃ pattern ∈ patterns, Parse.bypass pattern = .pattern p) ∧
      ((patterns.foldl readPattern out).bypassLocal = true ↔
        out.bypassLocal = true ∨ ∃ pattern ∈ patterns, Parse.bypass pattern = .isLocal) ∧
      ((patterns.foldl readPattern out).bypassEverything = true ↔
        out.bypassEverything = true ∨
          ∃ pattern ∈ patterns, Parse.bypass pattern = .everything) := by
  induction patterns generalizing out with
  | nil => simp
  | cons pattern patterns ih =>
      obtain ⟨entries, pac, bypass, simple, everything⟩ := readPattern_spec out pattern
      obtain ⟨entries', pac', bypass', simple', everything'⟩ := ih (out.readPattern pattern)
      rw [List.foldl_cons]
      refine ⟨entries'.trans entries, pac'.trans pac, ?_, ?_, ?_⟩
      · intro p
        rw [bypass', bypass, List.exists_mem_cons_iff, or_assoc]
      · rw [simple', simple, List.exists_mem_cons_iff, or_assoc]
      · rw [everything', everything, List.exists_mem_cons_iff, or_assoc]

section
variable {settings : List (Text × Text)} {bypass : List Text} {excludeSimple : Bool}

theorem mem_entries_fromParts {e : ProxyEntry} :
    e ∈ (fromParts settings bypass excludeSimple).entries ↔
      ∃ setting ∈ settings, readEntry setting = some e := by
  rw [fromParts, (foldl_readPattern_spec _ _).1, List.mem_mergeSort,
    entries_foldl_readSetting, List.nil_append, List.mem_filterMap]
  simp only [List.mem_mergeSort]

theorem specificFirst_trans (a b c : ProxyEntry) (ab : specificFirst a b = true)
    (bc : specificFirst b c = true) : specificFirst a c = true := by
  apply decide_eq_true
  exact le_trans (of_decide_eq_true ab) (of_decide_eq_true bc)

theorem specificFirst_total (a b : ProxyEntry) :
    (specificFirst a b || specificFirst b a) = true := by
  rcases le_total a.appliesTo.isNone b.appliesTo.isNone with h | h <;> simp [specificFirst, h]

/-- The entries for one scheme stand before those for both. -/
theorem sorted_entries_fromParts : (fromParts settings bypass excludeSimple).entries.Pairwise
    fun a b => a.appliesTo.isNone ≤ b.appliesTo.isNone := by
  rw [fromParts, (foldl_readPattern_spec _ _).1]
  have sorted := List.pairwise_mergeSort specificFirst_trans specificFirst_total
    (((settings.mergeSort settingLe).foldl readSetting
      ⟨[], [], excludeSimple, false, [], [], none⟩).entries)
  exact sorted.imp of_decide_eq_true

theorem mem_bypass_fromParts {p : Text} : p ∈ (fromParts settings bypass excludeSimple).bypass ↔
    ∃ pattern ∈ bypass, Parse.bypass pattern = .pattern p := by
  rw [fromParts, (foldl_readPattern_spec _ _).2.2.1, (rest_foldl_readSetting _ _).1]
  simp

theorem bypassLocal_fromParts :
    (fromParts settings bypass excludeSimple).bypassLocal = true ↔
      excludeSimple = true ∨ ∃ pattern ∈ bypass, Parse.bypass pattern = .isLocal := by
  rw [fromParts, (foldl_readPattern_spec _ _).2.2.2.1, (rest_foldl_readSetting _ _).2.1]
  simp

theorem bypassEverything_fromParts :
    (fromParts settings bypass excludeSimple).bypassEverything = true ↔
      ∃ pattern ∈ bypass, Parse.bypass pattern = .everything := by
  rw [fromParts, (foldl_readPattern_spec _ _).2.2.2.2, (rest_foldl_readSetting _ _).2.2.1]
  simp

end

end SystemProxies
end HClient.Egress
